import ScalarFusion.Proofs.HalfFree
import ScalarFusion.Proofs.Keys

/-!
The name under which a composite is emitted. It is made of the key of the composite that is emitted:
the narrowed one, where there is float16. A key can be read back: it tells the types of all values of
the body and the keys of the callees. So narrowing keeps the key exactly if no value has float16, and
the name of what is emitted is then that of the composite. Otherwise two different keys are hashed.
-/
namespace ScalarFusion

namespace Composite

variable {c d : Composite} {r r' : List Char}

def valueTypes (c : Composite) : List ScalarType :=
  c.body.values.map c.graph.typeOf

def followingKeys : List Composite → List Char
  | [] => []
  | c :: cs => ';' :: (c.key.toList ++ followingKeys cs)

def nestedKeys : List Composite → List Char
  | [] => []
  | c :: cs => '|' :: '[' :: (c.key.toList ++ (followingKeys cs ++ [']']))

theorem toList_intercalate_keys (c : Composite) (cs : List Composite) :
    (String.intercalate ";" (c.key :: cs.map key)).toList = c.key.toList ++ followingKeys cs := by
  induction cs generalizing c with
  | nil => simp [followingKeys]
  | cons d cs ih =>
    rw [List.map_cons, String.intercalate_cons_cons, String.toList_append, ih]
    simp [followingKeys]

theorem toList_key (c : Composite) : c.key.toList =
    c.signature.toList ++ '|' :: ((typeList c.inputTypes).toList ++ '-' :: '>' ::
      ((typeList c.outputTypes).toList ++ '|' ::
        ((typeList c.valueTypes).toList ++ nestedKeys c.body.callees))) := by
  have nested : (if (c.body.callees.map key).isEmpty then ""
      else "|[" ++ String.intercalate ";" (c.body.callees.map key) ++ "]").toList =
        nestedKeys c.body.callees := by
    cases c.body.callees with
    | nil => rfl
    | cons d ds => simp [toList_intercalate_keys, nestedKeys, -String.toList_intercalate]
  rw [key_eq]
  simp only [String.toList_append, nested, valueTypes]
  simp

def EndsKey (r : List Char) : Prop :=
  ∀ x ∈ r.head?, x = ';' ∨ x = ']'

theorem EndsKey.ne_bar (ends : EndsKey r) : r ≠ '|' :: r' := by
  rintro rfl
  rcases ends '|' (by simp) with wrong | wrong <;> cases wrong

theorem endsKey_following (cs : List Composite) (r : List Char) :
    EndsKey (followingKeys cs ++ ']' :: r) := by
  cases cs <;> simp [EndsKey, followingKeys]

theorem endsTypes_nested (cs : List Composite) (ends : EndsKey r) :
    EndsTypes (nestedKeys cs ++ r) := by
  cases cs with
  | nil =>
    intro x member
    rcases ends x member with rfl | rfl <;> decide
  | cons c cs => exact endsTypes_cons (by decide) _

/-- Whatever has the same key has values of the same types and callees with the same keys. -/
def KeyReads (c : Composite) : Prop :=
  ∀ ⦃d : Composite⦄ ⦃r r' : List Char⦄, d.WellBuilt → EndsKey r → EndsKey r' →
    c.key.toList ++ r = d.key.toList ++ r' →
      (c.valueTypes = d.valueTypes ∧ c.body.callees.map key = d.body.callees.map key) ∧ r = r'

theorem KeyReads.key_eq (reads : c.KeyReads) (good : d.WellBuilt) (ends : EndsKey r)
    (ends' : EndsKey r') (same : c.key.toList ++ r = d.key.toList ++ r') :
    c.key = d.key ∧ r = r' := by
  obtain ⟨-, rfl⟩ := reads good ends ends' same
  exact ⟨String.toList_injective (List.append_cancel_right same), rfl⟩

theorem reads_following {cs ds : List Composite} (reads : ∀ c ∈ cs, c.KeyReads)
    (good : ∀ d ∈ ds, d.WellBuilt)
    (same : followingKeys cs ++ ']' :: r = followingKeys ds ++ ']' :: r') :
    cs.map key = ds.map key ∧ r = r' := by
  induction cs generalizing ds with
  | nil =>
    cases ds with
    | nil => exact ⟨rfl, (List.cons.inj same).2⟩
    | cons d ds => cases (List.cons.inj same).1
  | cons c cs ih =>
    cases ds with
    | nil => cases (List.cons.inj same).1
    | cons d ds =>
      simp only [followingKeys, List.cons_append, List.append_assoc] at same
      obtain ⟨first, rest⟩ := (reads c (by simp)).key_eq (good d (by simp)) (endsKey_following cs r)
        (endsKey_following ds r') (List.cons.inj same).2
      obtain ⟨others, rest'⟩ := ih (fun c' member => reads c' (by simp [member]))
        (fun d' member => good d' (by simp [member])) rest
      exact ⟨by rw [List.map_cons, List.map_cons, first, others], rest'⟩

theorem reads_nested {cs ds : List Composite} (reads : ∀ c ∈ cs, c.KeyReads)
    (good : ∀ d ∈ ds, d.WellBuilt) (ends : EndsKey r) (ends' : EndsKey r')
    (same : nestedKeys cs ++ r = nestedKeys ds ++ r') : cs.map key = ds.map key ∧ r = r' := by
  cases cs with
  | nil =>
    cases ds with
    | nil => exact ⟨rfl, same⟩
    | cons d ds => exact absurd same ends.ne_bar
  | cons c cs =>
    cases ds with
    | nil => exact absurd same.symm ends'.ne_bar
    | cons d ds =>
      apply reads_following reads good
      simp only [nestedKeys, followingKeys, List.cons_append, List.append_assoc, List.nil_append,
        List.cons.injEq, true_and] at same ⊢
      exact same

theorem WellBuilt.of_mem_callees (good : c.WellBuilt) (member : d ∈ c.body.callees) :
    d.WellBuilt :=
  Graph.Calls.callee (fun _ _ _ here called => good.callees here called) member

theorem WellBuilt.keyReads (good : c.WellBuilt) : c.KeyReads := by
  induction good with
  | @mk e tidy wellBuilt ih =>
    intro d r r' good' ends ends' same
    have callees : ∀ c ∈ e.callees, c.KeyReads := fun c member =>
      Graph.Calls.callee (fun _ _ _ here called => ih here called) member
    rw [toList_key, toList_key, List.append_assoc, List.append_assoc] at same
    obtain ⟨-, inputs⟩ := WellBuilt.agree_of_signature (.mk tidy wellBuilt) good' same
    simp only [List.cons_append, List.append_assoc, List.cons.injEq, true_and] at inputs
    obtain ⟨-, outputs⟩ := typeList_append_inj (endsTypes_cons (by decide) _)
      (endsTypes_cons (by decide) _) inputs
    simp only [List.cons.injEq, true_and] at outputs
    obtain ⟨-, values⟩ := typeList_append_inj (endsTypes_cons (by decide) _)
      (endsTypes_cons (by decide) _) outputs
    obtain ⟨types, nested⟩ := typeList_append_inj (endsTypes_nested _ ends) (endsTypes_nested _ ends')
      (List.cons.inj values).2
    obtain ⟨keys, rest⟩ := reads_nested callees (fun _ member => good'.of_mem_callees member) ends
      ends' nested
    exact ⟨⟨types, keys⟩, rest⟩

theorem WellBuilt.halfFree_of_key (good : c.WellBuilt) (good' : d.WellBuilt) (keys : c.key = d.key)
    (free : d.HalfFree) : c.HalfFree := by
  induction good generalizing d with
  | @mk e tidy wellBuilt ih =>
    obtain ⟨⟨types, nested⟩, -⟩ := WellBuilt.keyReads (.mk tidy wellBuilt) good'
      (by simp [EndsKey]) (by simp [EndsKey]) (congrArg (·.toList ++ []) keys)
    intro b uses
    cases uses with
    | self =>
      intro v member half
      have listed : ScalarType.float .half ∈ d.valueTypes := by
        rw [← types, ← half]
        exact List.mem_map_of_mem member
      obtain ⟨w, member', half'⟩ := List.mem_map.mp listed
      exact free.typeOf member' half'
    | through callee further =>
      have listed := List.mem_map_of_mem (f := key) callee
      rw [nested] at listed
      obtain ⟨d', member', keys'⟩ := List.mem_map.mp listed
      obtain ⟨n, node, here, called⟩ := Expression.mem_callees.mp callee
      exact ih (Expression.mem_nodes.mp here).2 called (good'.of_mem_callees member') keys'.symm
        (free.callee member') b further

end Composite

namespace Hash

theorem hexDigit_inj {m n : Nat} (small : m < 16) (small' : n < 16) (same : hexDigit m = hexDigit n) :
    m = n := by
  have all : ∀ m < 16, ∀ n < 16, hexDigit m = hexDigit n → m = n := by decide
  exact all m small n small' same

theorem hex_inj {v w : UInt64} (same : hex v = hex w) : v = w := by
  have digits : ∀ k < 16, v.toNat >>> (4 * k) % 16 = w.toNat >>> (4 * k) % 16 := by
    intro k inside
    have listed := congrArg (fun s : String => s.toList[15 - k]?) same
    have place : 15 - (15 - k) = k := by omega
    simp only [hex, String.toList_ofList, List.getElem?_map, List.getElem?_range (by omega : 15 - k < 16),
      Option.map_some, Option.some.injEq, place] at listed
    exact hexDigit_inj (Nat.mod_lt _ (by decide)) (Nat.mod_lt _ (by decide)) listed
  apply UInt64.toNat_inj.mp
  apply Nat.eq_of_testBit_eq
  intro i
  have bits : ∀ n : Nat, i < 64 → n.testBit i = (n >>> (4 * (i / 4)) % 2 ^ 4).testBit (i % 4) := by
    intro n inside
    rw [Nat.testBit_mod_two_pow, Nat.testBit_shiftRight, Nat.div_add_mod,
      decide_eq_true (Nat.mod_lt i (by decide)), Bool.true_and]
  rcases Nat.lt_or_ge i 64 with inside | beyond
  · rw [bits _ inside, bits _ inside]
    exact congrArg (Nat.testBit · (i % 4)) (digits (i / 4) (by omega))
  · have wide : ∀ u : UInt64, u.toNat < 2 ^ i := fun u =>
      Nat.lt_of_lt_of_le (UInt64.toNat_lt u) (Nat.pow_le_pow_right (by decide) beyond)
    rw [Nat.testBit_lt_two_pow (wide v), Nat.testBit_lt_two_pow (wide w)]

end Hash

namespace CModule

theorem entrypoint_eq_iff (stem : String) (c d : Composite) :
    entrypoint stem c = entrypoint stem d ↔ c.fingerprint = d.fingerprint := by
  constructor
  · intro same
    have chars := congrArg String.toList same
    simp only [entrypoint, String.toList_append] at chars
    exact Hash.hex_inj (String.toList_injective (List.append_cancel_left chars))
  · intro same
    rw [entrypoint, entrypoint, same]

def emitted (c : Composite) : Except Error Composite :=
  if c.hasHalf then c.narrow else .ok c

theorem exists_emitted {stem : String} {c : Composite} {m : CModule}
    (converted : ofComposite stem c = .ok m) : ∃ d, emitted c = .ok d ∧
      m.symbol = entrypoint stem d ∧ write d m.symbol = .ok m.source := by
  have written : ∀ d, (do
      let source ← write d (entrypoint stem d)
      .ok { symbol := entrypoint stem d, source : CModule }) = .ok m →
        m.symbol = entrypoint stem d ∧ write d m.symbol = .ok m.source := by
    intro d success
    obtain ⟨source, text, same⟩ := bind_eq_ok success
    obtain rfl := Except.ok.inj same
    exact ⟨rfl, text⟩
  unfold ofComposite at converted
  unfold emitted
  split at converted
  · next half =>
    obtain ⟨d, narrowed, rest⟩ := bind_eq_ok converted
    exact ⟨d, by rw [if_pos half, narrowed], written d rest⟩
  · next whole => exact ⟨c, by rw [if_neg whole], written c converted⟩

theorem halfFree_iff_key {c d : Composite} (good : c.WellBuilt) (same : emitted c = .ok d) :
    c.HalfFree ↔ d.key = c.key := by
  unfold emitted at same
  split at same
  · obtain ⟨d', ρ, narrowed, widens, -⟩ := Composite.exists_narrow good
    obtain rfl := Except.ok.inj (same.symm.trans narrowed)
    constructor
    · intro free
      obtain ⟨b, narrowed', alike⟩ := good.exists_narrow_alike free
      obtain rfl := Except.ok.inj (same.symm.trans narrowed')
      exact alike.key
    · intro keys
      exact good.halfFree_of_key (Composite.narrow_wellBuilt good narrowed).1 keys.symm
        (Composite.halfFree_of_hasHalf widens.free)
  · next whole =>
    obtain rfl := Except.ok.inj same
    exact iff_of_true (Composite.halfFree_of_hasHalf (by simpa using whole)) rfl

theorem exists_ofComposite {c : Composite} (good : c.WellBuilt) (sound : c.verdict = .ok ())
    (stem : String) : ∃ m, ofComposite stem c = .ok m := by
  have outcome := outcome_ofComposite good stem
  cases converted : ofComposite stem c with
  | ok m => exact ⟨m, rfl⟩
  | error e =>
    rw [converted, sound] at outcome
    cases outcome

end CModule

/-- The module of a composite has the name of what is emitted, which is the composite itself or, where
    it has float16, its narrowed form. This is the name of the composite if no value that it computes
    has float16. Otherwise the two have different keys, and the names are the same only if the hashes
    of these are. -/
theorem symbol_names_emitted {c : Composite} (obtained : Obtained c) {stem : String} {m : CModule}
    (converted : CModule.ofComposite stem c = .ok m) :
    ∃ d, CModule.emitted c = .ok d ∧ m.symbol = CModule.entrypoint stem d ∧
      CModule.write d m.symbol = .ok m.source ∧
      (c.HalfFree → m.symbol = CModule.entrypoint stem c) ∧
      (¬ c.HalfFree → d.key ≠ c.key ∧
        (m.symbol = CModule.entrypoint stem c ↔ Hash.ofString d.key = Hash.ofString c.key)) := by
  obtain ⟨d, emitted, symbol, source⟩ := CModule.exists_emitted converted
  have names : m.symbol = CModule.entrypoint stem c ↔ d.fingerprint = c.fingerprint := by
    rw [symbol, CModule.entrypoint_eq_iff]
  have kept := CModule.halfFree_iff_key obtained.wellBuilt emitted
  refine ⟨d, emitted, symbol, source, fun free => ?_, fun half => ⟨mt kept.mpr half, names⟩⟩
  rw [names, Composite.fingerprint, Composite.fingerprint, kept.mp free]

theorem spared_keeps_name : Obtained .spared ∧ Composite.spared.hasHalf = true ∧
    Composite.spared.HalfFree ∧ ∃ m, CModule.ofComposite "kernel" .spared = .ok m ∧
      m.symbol = CModule.entrypoint "kernel" .spared := by
  have half : Composite.spared.hasHalf = true := by
    rw [Composite.hasHalf_eq]
    decide +kernel
  have free : Composite.spared.HalfFree :=
    sparing_halfFree.callee (List.mem_singleton.mpr rfl : .spared ∈ [Composite.spared])
  have sound : Composite.spared.verdict = .ok () := by
    rw [Composite.verdict_eq]
    rfl
  obtain ⟨m, converted⟩ := CModule.exists_ofComposite spared_obtained.wellBuilt sound "kernel"
  obtain ⟨d, -, -, -, named, -⟩ := symbol_names_emitted spared_obtained converted
  exact ⟨spared_obtained, half, free, m, converted, named free⟩

theorem negation_narrowed :
    (Composite.negation (.float .half)).narrow = .ok (.negation (.float .single)) := by
  have nodes : (Graph.negation (.float .half)).nodes = #[⟨.prim .neg, [0], [1]⟩] := rfl
  have mapped : (Graph.negation (.float .half)).map (fun d => (d, d.narrow)) =
      { config := {}
        values := (Graph.negation (.float .half)).values
        nodes := #[⟨.prim .neg, [0], [1]⟩] } := by
    rw [Graph.map, nodes, List.map_toArray]
    rfl
  rw [Composite.narrow_eq, Expression.map]
  show (Expression.rebuild ⟨(Graph.negation (.float .half)).map (fun d => (d, d.narrow)), [0], [1], [0]⟩
    _ _ _ >>= _) = _
  rw [mapped]
  rfl

/-- A negation in half precision is emitted under another name than its own. -/
theorem half_negation_renamed : Obtained (.negation (.float .half)) ∧
    CModule.entrypoint "composite" (.negation (.float .half)) = "composite__08081dc5fe48dcf0" ∧
    ∃ m, CModule.ofComposite "composite" (.negation (.float .half)) = .ok m ∧
      m.symbol = "composite__38862f21960f9cc0" ∧
      m.symbol ≠ CModule.entrypoint "composite" (.negation (.float .half)) := by
  have obtained := negation_obtained (t := .float .half) (by decide)
  have half : (Composite.negation (.float .half)).hasHalf = true := by
    rw [Composite.hasHalf_eq]
    decide +kernel
  have sound : (Composite.negation (.float .half)).verdict = .ok () := by
    rw [Composite.verdict_eq]
    rfl
  have named : CModule.entrypoint "composite" (.negation (.float .half)) =
      "composite__08081dc5fe48dcf0" := by
    rw [CModule.entrypoint, Composite.fingerprint, Composite.key_eq, Composite.signature_eq]
    decide +kernel
  have renamed : CModule.entrypoint "composite" (.negation (.float .single)) =
      "composite__38862f21960f9cc0" := by
    rw [CModule.entrypoint, Composite.fingerprint, Composite.key_eq, Composite.signature_eq]
    decide +kernel
  obtain ⟨m, converted⟩ := CModule.exists_ofComposite obtained.wellBuilt sound "composite"
  obtain ⟨d, emitted, symbol, -⟩ := CModule.exists_emitted converted
  rw [CModule.emitted, if_pos half, negation_narrowed] at emitted
  obtain rfl := Except.ok.inj emitted
  refine ⟨obtained, named, m, converted, symbol.trans renamed, ?_⟩
  rw [symbol, renamed, named]
  decide

end ScalarFusion

import ScalarFusion.Proofs.Readability
import ScalarFusion.Proofs.Reaching

/-!
Keys of composites. The texts of two composites with one key are the same, place by place, and so are
the types of their inputs. If the places have the same types too, then the composites compute the
same. The key does not list the types of places: it lists those of values, once each.
-/
namespace ScalarFusion

theorem ScalarType.name_clear (t : ScalarType) :
    t.name.toList ≠ [] ∧ ∀ c ∈ t.name.toList, c.isAlphanum = true := by
  have clear : t.name.toList ≠ [] ∧ t.name.toList.all Char.isAlphanum = true := by
    rcases t with _ | (_ | _ | _ | _) | (_ | _ | _ | _) | (_ | _ | _) | (_ | _) <;> decide +kernel
  exact ⟨clear.1, List.all_eq_true.mp clear.2⟩

namespace Composite

def typeRest : List ScalarType → List Char
  | [] => []
  | t :: ts => ',' :: (typeList (t :: ts)).toList

theorem toList_typeList_cons (t : ScalarType) (ts : List ScalarType) :
    (typeList (t :: ts)).toList = t.name.toList ++ typeRest ts := by
  cases ts with
  | nil => simp [typeList, typeRest]
  | cons u ts => simp [typeList, typeRest, String.intercalate_cons_cons, -String.toList_intercalate]

def EndsTypes (r : List Char) : Prop :=
  ∀ c ∈ r.head?, c.isAlphanum = false ∧ c ≠ ','

theorem endsTypes_cons {c : Char} (other : c.isAlphanum = false ∧ c ≠ ',') (r : List Char) :
    EndsTypes (c :: r) := by
  intro d member
  obtain rfl : c = d := by simpa using member
  exact other

namespace EndsTypes

variable {r x : List Char}

theorem ne_comma (ends : EndsTypes r) : r ≠ ',' :: x := by
  rintro rfl
  exact (ends ',' (by simp)).2 rfl

theorem ne_typeList (ends : EndsTypes r) {t : ScalarType} {ts : List ScalarType} :
    (typeList (t :: ts)).toList ++ x ≠ r := by
  intro same
  obtain ⟨nonempty, clear⟩ := t.name_clear
  obtain ⟨c, w, name⟩ := List.exists_cons_of_ne_nil nonempty
  rw [toList_typeList_cons, name] at same
  have first := (ends c (by simp [← same])).1
  rw [clear c (by simp [name])] at first
  cases first

theorem head_typeRest (ends : EndsTypes r) (ts : List ScalarType) :
    ∀ c ∈ (typeRest ts ++ r).head?, c.isAlphanum = false := by
  intro c member
  cases ts with
  | nil => exact (ends c member).1
  | cons t ts =>
    obtain rfl : ',' = c := by simpa [typeRest] using member
    rfl

end EndsTypes

theorem typeList_append_inj {ts us : List ScalarType} {r s : List Char} (ends : EndsTypes r)
    (ends' : EndsTypes s) (same : (typeList ts).toList ++ r = (typeList us).toList ++ s) :
    ts = us ∧ r = s := by
  induction ts generalizing us with
  | nil =>
    cases us with
    | nil => exact ⟨rfl, same⟩
    | cons u us => exact absurd same.symm ends.ne_typeList
  | cons t ts ih =>
    cases us with
    | nil => exact absurd same ends'.ne_typeList
    | cons u us =>
      rw [toList_typeList_cons, toList_typeList_cons, List.append_assoc, List.append_assoc] at same
      obtain ⟨names, rest⟩ := Real.append_inj_of_run t.name_clear.2 u.name_clear.2
        (ends.head_typeRest ts) (ends'.head_typeRest us) same
      rw [ScalarType.name_inj (String.toList_injective names)]
      cases ts with
      | nil =>
        cases us with
        | nil => exact ⟨rfl, rest⟩
        | cons u' us => exact absurd rest ends.ne_comma
      | cons t' ts =>
        cases us with
        | nil => exact absurd rest.symm ends'.ne_comma
        | cons u' us =>
          obtain ⟨types, rest'⟩ := ih (List.cons.inj rest).2
          exact ⟨by rw [types], rest'⟩

theorem exists_key (c : Composite) : ∃ rest, c.key =
    c.signature ++ ("|" ++ (typeList c.inputTypes ++ ("->" ++ rest))) := by
  have inputs : (c.body.map fun d => (d, d.key)).inputTypes = c.inputTypes := rfl
  rw [key, fold_eq, signature_eq]
  simp only [Expression.map_map, String.append_assoc]
  exact ⟨_, rfl⟩

/-- A signature is read in one way, up to agreement. -/
theorem WellBuilt.agree_of_signature [Numerics] {c d : Composite} (good : c.WellBuilt)
    (good' : d.WellBuilt)
    {r r' : List Char} (same : c.signature.toList ++ r = d.signature.toList ++ r') :
    List.Forall₂ Term.Agree c.terms d.terms ∧ r = r' := by
  rw [good.spelled, good'.spelled] at same
  simp only [Term.composed, String.toList_append, Term.toList_intercalate_texts, List.append_assoc] at same
  exact Term.reads_joined (by decide) (by decide)
    (fun s member => s.reads_of_good (Term.mem_goodAll good.goodAll_terms member))
    good'.goodAll_terms (List.append_cancel_left same)

theorem WellBuilt.agree_of_key [Numerics] {c d : Composite} (good : c.WellBuilt)
    (good' : d.WellBuilt) (keys : c.key = d.key) :
    List.Forall₂ Term.Agree c.terms d.terms ∧ c.inputTypes = d.inputTypes := by
  obtain ⟨rest, shown⟩ := exists_key c
  obtain ⟨rest', shown'⟩ := exists_key d
  have chars := congrArg String.toList (shown.symm.trans (keys.trans shown'))
  simp only [String.toList_append] at chars
  obtain ⟨agrees, types⟩ := good.agree_of_signature good' chars
  exact ⟨agrees, (typeList_append_inj (endsTypes_cons (by decide) _) (endsTypes_cons (by decide) _)
    (List.cons.inj types).2).1⟩

end Composite

/-- Composites with one key compute the same from all arguments, if the places of their texts have
    the same types. -/
theorem evaluate_eq_of_key_eq [Numerics] {c d : Composite} (obtained : Obtained c)
    (obtained' : Obtained d)
    (keys : c.key = d.key) (places : Term.typesAll c.terms = Term.typesAll d.terms)
    (args : List Literal) : c.evaluate args = d.evaluate args := by
  have good := obtained.wellBuilt
  have good' := obtained'.wellBuilt
  obtain ⟨agrees, types⟩ := good.agree_of_key good' keys
  have count : c.inputs.length = d.inputs.length := by
    have lengths := congrArg List.length types
    rwa [Composite.length_inputTypes, Composite.length_inputTypes] at lengths
  by_cases arity : args.length = c.inputs.length
  · rw [good.computed args arity, good'.computed args (arity.trans count), types]
    exact (Term.agree_all agrees places).2 _
  · have refused : args.length ≠ c.body.inputs.length := arity
    have count' : c.body.inputs.length = d.body.inputs.length := count
    rw [Composite.evaluate_eq, Composite.evaluate_eq, Expression.evaluate_map, if_neg refused,
      Expression.evaluate_map, if_neg (count' ▸ refused), count']

def Graph.unary (p : Primitive) : Arena :=
  (Action.apply (.prim p) [0]).perform ((Action.newVariable (.signed .w8) (some "x")).perform {})

def Composite.unary (p : Primitive) : Composite :=
  .mk ⟨.unary p, [0], [1], [0]⟩

theorem unary_obtained {p : Primitive} (single : p = .add ∨ p = .mul) : Obtained (.unary p) := by
  have reachable : Reachable (.unary p) := by
    refine .perform (.perform (.empty {}) ?_ ?_) ?_ ?_
    all_goals first | (rcases single with rfl | rfl <;> decide) | simp [Action.composite?, Op.callee?]
  rcases single with rfl | rfl
  · exact .fuse reachable (by decide : (Graph.unary .add).Knows ([0] ++ [1])) rfl
  · exact .fuse reachable (by decide : (Graph.unary .mul).Knows ([0] ++ [1])) rfl

theorem unary_alike : Obtained (.unary .add) ∧ Obtained (.unary .mul) ∧
    (Composite.unary .add).key = (Composite.unary .mul).key ∧
    Term.typesAll (Composite.unary .add).terms = Term.typesAll (Composite.unary .mul).terms ∧
    (Composite.unary .add).evaluate [.signed 300] = (Composite.unary .mul).evaluate [.signed 300] := by
  have keys : (Composite.unary .add).key = (Composite.unary .mul).key := by
    rw [Composite.key, Composite.fold_eq, Composite.fold_eq]
    decide +kernel
  have places : Term.typesAll (Composite.unary .add).terms = Term.typesAll (Composite.unary .mul).terms := by
    rw [Composite.terms_eq, Composite.terms_eq]
    rfl
  exact ⟨unary_obtained (.inl rfl), unary_obtained (.inr rfl), keys, places,
    evaluate_eq_of_key_eq (unary_obtained (.inl rfl)) (unary_obtained (.inr rfl)) keys places _⟩

def Graph.shifted : Arena where
  values := #[⟨.signed .w8, .free (some "x")⟩,
    ⟨.signed .w8, .constant (.signed 100) none⟩, ⟨.signed .w8, .output 0 0⟩, ⟨.signed .w16, .output 1 0⟩,
    ⟨.signed .w16, .constant (.signed 100) none⟩, ⟨.signed .w16, .output 2 0⟩, ⟨.signed .w16, .output 3 0⟩]
  nodes := #[⟨.prim .add, [0, 1], [2]⟩, ⟨.prim (.cast (.signed .w16)), [2], [3]⟩,
    ⟨.prim .add, [0, 4], [5]⟩, ⟨.prim (.cast (.signed .w16)), [5], [6]⟩]

theorem shifted_reachable : Reachable .shifted := by
  have built : Graph.shifted = ((Action.apply (.prim (.cast (.signed .w16))) [5]).perform
      ((Action.apply (.prim .add) [0, 4]).perform
        ((Action.typedConstant (.signed 100) (.signed .w16)).perform
          ((Action.apply (.prim (.cast (.signed .w16))) [2]).perform
            ((Action.apply (.prim .add) [0, 1]).perform
              ((Action.typedConstant (.signed 100) (.signed .w8)).perform
                ((Action.newVariable (.signed .w8) (some "x")).perform {}))))))) := rfl
  rw [built]
  refine .perform (.perform (.perform (.perform (.perform (.perform (.perform (.empty {})
    ?_ ?_) ?_ ?_) ?_ ?_) ?_ ?_) ?_ ?_) ?_ ?_) ?_ ?_
  all_goals first | decide | simp [Action.composite?, Op.callee?]

def Composite.shifted (again : ValueId) : Composite :=
  .mk ⟨.shifted, [0], [3, 6, again], [0, 1, 2, 3]⟩

theorem shifted_fused {again : ValueId} (one : again = 3 ∨ again = 6) :
    Graph.shifted.fuse [0] [3, 6, again] = .ok (.shifted again) := by
  -- the copy is the graph itself, and there is no call to dissolve
  have expression : Graph.shifted.expression [0] [3, 6, again] = .ok (Composite.shifted again).body := by
    rcases one with rfl | rfl <;> rfl
  have copied : (Composite.shifted again).body.dissolve Composite.specialise
      (Composite.shifted again).body.dissolvable = .ok ⟨.shifted, [0], [3, 6, again]⟩ := by
    rcases one with rfl | rfl <;> rfl
  have distinct : [0].eraseDups = [0] := rfl
  have calls : Graph.shifted.callCount = 0 := rfl
  rw [Graph.fuse, Graph.fuseWith, distinct, expression]
  simp [copied, calls, Copy.flatten, expression]
  rfl

theorem shifted_obtained {again : ValueId} (one : again = 3 ∨ again = 6) :
    Obtained (.shifted again) := by
  refine .fuse shifted_reachable ?_ (shifted_fused one)
  rcases one with rfl | rfl <;> decide

/-- The key lists the types of both sums, but not which of them the third output is. -/
theorem shifted_confused : Obtained (.shifted 3) ∧ Obtained (.shifted 6) ∧
    (Composite.shifted 3).key = (Composite.shifted 6).key ∧
    (Composite.shifted 3).evaluate [.signed 100] = .ok [.signed (-56), .signed 200, .signed (-56)] ∧
    (Composite.shifted 6).evaluate [.signed 100] = .ok [.signed (-56), .signed 200, .signed 200] := by
  refine ⟨shifted_obtained (.inl rfl), shifted_obtained (.inr rfl), ?_, ?_, ?_⟩
  · rw [Composite.key, Composite.fold_eq, Composite.fold_eq]
    decide +kernel
  · rw [Composite.evaluate_eq, Expression.evaluate_map]
    rfl
  · rw [Composite.evaluate_eq, Expression.evaluate_map]
    rfl

end ScalarFusion

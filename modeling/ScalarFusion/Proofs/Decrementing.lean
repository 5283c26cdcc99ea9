import ScalarFusion.CModule
import ScalarFusion.Proofs.Minuses
import ScalarFusion.Proofs.Verdicts

/-!
Decrements in the code of a composite. A negation writes its minus right before the text of its
operand, and that text starts with a minus if the operand is a negative constant, or an input of a
nested body that a negative constant is passed to. Nothing else puts two minus signs side by side.
-/
namespace ScalarFusion

open Text

/-- Whether the code of an operation puts a minus before another, for operands that start with a
    minus as listed. -/
def Op.stacksMinus (op : Op (List Bool → Bool)) (leads : List Bool) : Bool :=
  match op with
  | prim .neg => leads.any id
  | prim _ => false
  | call nested => nested leads

/-- Whether the operand for a value starts with a minus, if those for the inputs do as given. -/
def Expression.leadsMinus {κ : Type} (e : Expression κ) (given : List Bool) (v : ValueId) : Bool :=
  (given[e.inputs.idxOf v]?).getD
    (((e.graph.values[v]?).bind Value.literal?).any (·.hasMinus (e.graph.typeOf v)))

def Expression.stacksMinus (e : Expression (List Bool → Bool)) (given : List Bool) : Bool :=
  e.nodes.any fun entry => entry.2.op.stacksMinus (entry.2.inputs.map (e.leadsMinus given))

def Composite.stacksMinus : Composite → List Bool → Bool :=
  fold fun e => (e.map Prod.snd).stacksMinus

theorem Composite.stacksMinus_eq (c : Composite) (given : List Bool) :
    c.stacksMinus given = c.body.nodes.any fun entry =>
      (entry.2.op.map stacksMinus).stacksMinus (entry.2.inputs.map (c.body.leadsMinus given)) := by
  rw [stacksMinus, fold_eq, Expression.map_map, Expression.stacksMinus, Expression.nodes_map,
    List.any_map]
  rfl

/-- The code decrements where minuses are stacked, for operands with known signs. -/
def Composite.Tracks (c : Composite) : Prop :=
  ∀ ⦃ins outs : List String⦄ ⦃leads : List Bool⦄ ⦃id text : String⦄,
    List.Forall₂ (fun name minus => Leads minus name.toList) ins leads →
      (∀ name ∈ outs, Sealed name.toList) → Sealed id.toList → c.emit ins outs id = .ok text →
        (Decrements text.toList ↔ c.stacksMinus leads = true)

theorem Primitive.outputType_neg {t s : ScalarType} {config : Config}
    (typed : neg.outputType [t] config = .ok s) : s = t := by
  obtain ⟨_, -, typed⟩ := bind_eq_ok typed
  obtain ⟨u, joined, last⟩ := bind_eq_ok typed
  obtain rfl : t = u := Except.ok.inj joined
  split at last
  · cases last
  · exact (Except.ok.inj last).symm

theorem Op.stacksMinus_prim {p : Primitive} (other : p ≠ .neg) (leads : List Bool) :
    (prim p).stacksMinus leads = false := by
  cases p with
  | neg => exact absurd rfl other
  | _ => rfl

theorem Op.decrements_statement {op : Op Composite} {config : Config}
    {inputs outputs : List Operand} {leads : List Bool} {id code : String}
    (typed : op.outputTypes (inputs.map Operand.type) config = .ok (outputs.map Operand.type))
    (shown : List.Forall₂ (fun x minus => Leads minus x.text.toList) inputs leads)
    (outs : ∀ x ∈ outputs, Sealed x.text.toList) (ids : Sealed id.toList)
    (callee : ∀ c, op = .call c → c.Tracks)
    (written : (op.map Composite.emit).statement inputs outputs id = .ok code) :
    Decrements code.toList ↔ (op.map Composite.stacksMinus).stacksMinus leads = true := by
  cases op with
  | call c =>
    obtain ⟨body, emitted, last⟩ := bind_eq_ok written
    obtain rfl := Except.ok.inj last
    rw [decrements_block]
    refine callee c rfl (List.forall₂_map_left_iff.mpr shown) ?_ ids emitted
    simpa using outs
  | prim p =>
    obtain ⟨t, output, single⟩ := bind_eq_ok typed
    obtain ⟨out, rfl, rfl⟩ := List.map_eq_singleton_iff.mp (Except.ok.inj single).symm
    have admitted := Primitive.admits_of_outputType output
    rw [List.length_map] at admitted
    obtain ⟨-, -, assigned⟩ := bind_eq_ok written
    -- negation is the only operation that writes a minus right before an operand
    by_cases negates : p = .neg
    · subst negates
      obtain ⟨a, rfl⟩ := Arity.exists_one admitted
      obtain ⟨minus, _, starts, rest, rfl⟩ := List.forall₂_cons_left_iff.mp shown
      obtain rfl := List.forall₂_nil_left_iff.mp rest
      rw [Primitive.decrements_neg (Primitive.outputType_neg output).symm starts (outs out (by simp))
        assigned]
      simp [Op.map, stacksMinus]
    · have sealed : ∀ x ∈ inputs, Sealed x.text.toList := by
        intro x member
        obtain ⟨minus, -, starts⟩ := exists_image_of_mem shown member
        exact starts.sealed
      have clear := Primitive.sealed_assignment admitted negates sealed (outs out (by simp)) ids assigned
      rw [Op.map, stacksMinus_prim negates]
      exact iff_of_false clear.apart Bool.false_ne_true

section Emission

variable {e : Expression Composite} {given : List Bool} {id : String}

structure Expression.Shows (e : Expression Composite) (given : List Bool) (v : ValueId)
    (x : Operand) : Prop where
  type : x.type = e.graph.typeOf v
  leads : Leads (e.leadsMinus given v) x.text.toList

def Expression.ShowsAll (e : Expression Composite) (given : List Bool) (names : Table Operand) :
    Prop :=
  ∀ v x, names.get? v = some x → e.Shows given v x

theorem Expression.types_eq_of_shows {vs : List ValueId} {xs : List Operand}
    (shown : List.Forall₂ (e.Shows given) vs xs) :
    xs.map Operand.type = vs.map e.graph.typeOf := by
  rw [← List.forall₂_eq_eq_eq, List.forall₂_map_left_iff, List.forall₂_map_right_iff]
  exact shown.flip.imp fun _ _ shows => shows.type

theorem Expression.leadsMinus_input (distinct : e.inputs.Nodup) {k : Nat} {v : ValueId}
    {minus : Bool} (input : e.inputs[k]? = some v) (sign : given[k]? = some minus) :
    e.leadsMinus given v = minus := by
  obtain ⟨inside, rfl⟩ := List.getElem?_eq_some_iff.mp input
  rw [leadsMinus, distinct.idxOf_getElem, sign, Option.getD_some]

theorem Expression.leadsMinus_of_notMem (count : given.length = e.inputs.length) {v : ValueId}
    (other : v ∉ e.inputs) : e.leadsMinus given v =
      ((e.graph.values[v]?).bind Value.literal?).any (·.hasMinus (e.graph.typeOf v)) := by
  rw [leadsMinus, List.idxOf_eq_length other, ← count, List.getElem?_length, Option.getD_none]

section

variable (closed : e.graph.Closed e.inputs) (count : given.length = e.inputs.length)
include closed count

theorem Expression.leadsMinus_output {n : NodeId} {node : Node Composite}
    (here : e.graph.nodes[n]? = some node) {v : ValueId} (member : v ∈ node.outputs) :
    e.leadsMinus given v = false := by
  obtain ⟨j, output⟩ := List.getElem?_of_mem member
  obtain ⟨t, source⟩ := closed.ordered.produced.mpr ⟨node, here, output⟩
  have other : v ∉ e.inputs := by
    intro input
    obtain ⟨type, name, free⟩ := (closed.free v).mpr input
    rw [source] at free
    cases free
  rw [leadsMinus_of_notMem count other, source]
  rfl

theorem Expression.ShowsAll.operand {names : Table Operand} (named : e.ShowsAll given names)
    {v : ValueId} {x : Operand} (found : e.operand names v = .ok x) : e.Shows given v x := by
  unfold Expression.operand at found
  split at found
  · next entry =>
    obtain rfl := Except.ok.inj found
    exact named v _ entry
  · split at found
    · next literal constant =>
      obtain rfl := Except.ok.inj found
      have other : v ∉ e.inputs := by
        intro input
        obtain ⟨type, name, free⟩ := (closed.free v).mpr input
        simp [free, Value.literal?] at constant
      refine ⟨rfl, ?_⟩
      rw [leadsMinus_of_notMem count other, constant]
      exact literal.leads_cText _
    · cases found

theorem Expression.ShowsAll.operands {names : Table Operand} (named : e.ShowsAll given names)
    {vs : List ValueId} {xs : List Operand} (found : vs.mapM (e.operand names) = .ok xs) :
    List.Forall₂ (e.Shows given) vs xs :=
  (forall₂_of_mapM found).imp fun _ _ => named.operand closed count

theorem Expression.ShowsAll.sealed_outputs {names : Table Operand} (named : e.ShowsAll given names)
    {outs last : List String} (sealed : ∀ name ∈ outs, Sealed name.toList)
    (written : (e.outputs.zip outs).mapM (fun entry => do
      let x ← e.operand names entry.1
      .ok (entry.2 ++ " = " ++ x.text ++ ";")) = .ok last) : ∀ l ∈ last, Sealed l.toList := by
  intro l member
  obtain ⟨⟨v, name⟩, inside, line⟩ := exists_image_of_mem (forall₂_of_mapM written).flip member
  obtain ⟨x, found, line⟩ := bind_eq_ok line
  obtain rfl := Except.ok.inj line
  have leads := (named.operand closed count found).leads
  simp [sealed name (List.of_mem_zip inside).2, leads.sealed]

end

theorem Expression.leads_temporary (ids : Sealed id.toList) (n : Nat) :
    Leads false (temporary id n).toList := by
  simp [temporary, ids, Real.sealed_toDigits]

def Emission.Decrements (s : Emission) : Prop :=
  ∃ l ∈ s.lines.toList, Text.Decrements l.toList

theorem Expression.ShowsAll.declare (ids : Sealed id.toList) {vs : List ValueId}
    (fresh : ∀ v ∈ vs, e.leadsMinus given v = false) {s s' : Emission}
    (named : e.ShowsAll given s.names) (declared : vs.foldlM (e.declare id) s = .ok s') :
    e.ShowsAll given s'.names ∧ (s'.Decrements ↔ s.Decrements) := by
  induction vs generalizing s with
  | nil =>
    obtain rfl := Except.ok.inj declared
    exact ⟨named, Iff.rfl⟩
  | cons v vs ih =>
    rw [List.foldlM_cons] at declared
    obtain ⟨s₁, first, rest⟩ := bind_eq_ok declared
    obtain ⟨type, typed, same⟩ := bind_eq_ok first
    obtain rfl := Except.ok.inj same
    have leads := leads_temporary ids s.temporaries
    have named₁ : e.ShowsAll given
        (s.names.insert v ⟨temporary id s.temporaries, e.graph.typeOf v⟩) := by
      intro u x found
      rcases Table.insert_cases found with ⟨rfl, rfl⟩ | old
      · exact ⟨rfl, by rwa [fresh u (by simp)]⟩
      · exact named u x old
    obtain ⟨named', lines⟩ := ih (fun u member => fresh u (by simp [member])) named₁ rest
    refine ⟨named', lines.trans ?_⟩
    have clear : Sealed (type ++ " " ++ temporary id s.temporaries ++ ";").toList := by
      simp [ScalarType.sealed_cName typed, leads.sealed]
    simp [Emission.Decrements, or_and_right, exists_or, clear.apart, -String.toList_append]

theorem Expression.ShowsAll.emitNode (closed : e.graph.Closed e.inputs)
    (count : given.length = e.inputs.length) (ids : Sealed id.toList) {n : NodeId}
    {node : Node Composite} (here : e.graph.nodes[n]? = some node)
    (callee : ∀ c, node.op = .call c → c.Tracks) {s s' : Emission} {k : Nat}
    (named : e.ShowsAll given s.names)
    (step : (e.map Composite.emit).emitNode id s k (node.map Composite.emit) = .ok s') :
    e.ShowsAll given s'.names ∧ (s'.Decrements ↔ s.Decrements ∨
      (node.op.map Composite.stacksMinus).stacksMinus (node.inputs.map (e.leadsMinus given)) =
        true) := by
  have fresh : ∀ v ∈ node.outputs, e.leadsMinus given v = false :=
    fun v member => leadsMinus_output closed count here member
  obtain ⟨inputs, found, step⟩ := bind_eq_ok step
  obtain ⟨s₁, declared, step⟩ := bind_eq_ok step
  obtain ⟨outputs, found', step⟩ := bind_eq_ok step
  obtain ⟨code, written, same⟩ := bind_eq_ok step
  obtain rfl := Except.ok.inj same
  obtain ⟨named₁, lines⟩ := named.declare ids fresh declared
  have shown : List.Forall₂ (e.Shows given) node.inputs inputs := named.operands closed count found
  have shown' : List.Forall₂ (e.Shows given) node.outputs outputs :=
    named₁.operands closed count found'
  refine ⟨named₁, ?_⟩
  have typed := closed.typed.types here
  rw [← types_eq_of_shows shown, ← types_eq_of_shows shown'] at typed
  have signs : List.Forall₂ (fun x minus => Leads minus x.text.toList) inputs
      (node.inputs.map (e.leadsMinus given)) :=
    List.forall₂_map_right_iff.mpr (shown.flip.imp fun _ _ shows => shows.leads)
  have adds := Op.decrements_statement typed signs ?_ ?_ callee written
  · rw [← adds, ← lines]
    simp [Emission.Decrements, or_and_right, exists_or]
  · intro x member
    obtain ⟨v, -, shows⟩ := exists_image_of_mem shown'.flip member
    exact shows.leads.sealed
  · simp [ids, Real.sealed_toDigits]

theorem Expression.ShowsAll.run (closed : e.graph.Closed e.inputs)
    (count : given.length = e.inputs.length) (ids : Sealed id.toList)
    {entries : List ((NodeId × Node Composite) × Nat)}
    (inside : ∀ entry ∈ entries, entry.1 ∈ e.nodes)
    (callees : ∀ c ∈ e.callees, c.Tracks) {s s' : Emission} (named : e.ShowsAll given s.names)
    (run : entries.foldlM (fun s entry => (e.map Composite.emit).emitNode id s entry.2
      (entry.1.2.map Composite.emit)) s = .ok s') :
    e.ShowsAll given s'.names ∧ (s'.Decrements ↔ s.Decrements ∨ ∃ entry ∈ entries,
      (entry.1.2.op.map Composite.stacksMinus).stacksMinus
        (entry.1.2.inputs.map (e.leadsMinus given)) = true) := by
  induction entries generalizing s with
  | nil =>
    obtain rfl := Except.ok.inj run
    exact ⟨named, by simp⟩
  | cons entry entries ih =>
    rw [List.foldlM_cons] at run
    obtain ⟨s₁, first, rest⟩ := bind_eq_ok run
    have member : (entry.1.1, entry.1.2) ∈ e.nodes := inside entry (by simp)
    obtain ⟨named₁, lines⟩ := named.emitNode closed count ids (mem_nodes.mp member).2
      (fun c called => callees c (mem_callees.mpr ⟨_, _, member, called⟩)) first
    obtain ⟨named', lines'⟩ := ih (fun other later => inside other (by simp [later])) named₁ rest
    refine ⟨named', ?_⟩
    rw [lines', lines, or_assoc, List.exists_mem_cons_iff]

theorem Expression.showsAll_inputs (distinct : e.inputs.Nodup) {ins : List String}
    (count : ins.length = e.inputs.length)
    (shown : List.Forall₂ (fun name minus => Leads minus name.toList) ins given) :
    e.ShowsAll given (e.inputNames ins) := by
  intro v x found
  obtain ⟨k, name, input, text, rfl⟩ := inputNames_cases distinct count found
  obtain ⟨minus, sign, leads⟩ := exists_image_at shown text
  exact ⟨rfl, by rwa [leadsMinus_input distinct input sign]⟩

theorem Composite.WellBuilt.tracks {c : Composite} (good : c.WellBuilt) : c.Tracks := by
  induction good with
  | @mk e tidy _ ih =>
    -- the induction hypothesis is about the bodies that are called, whose code stands in blocks
    intro ins outs leads id text shown sealed ids emitted
    have closed := tidy.sourced.closed
    have callees : ∀ c ∈ e.callees, c.Tracks := by
      intro c member
      obtain ⟨n, node, inside, called⟩ := Expression.mem_callees.mp member
      exact ih (Expression.mem_nodes.mp inside).2 called
    rw [emit_eq] at emitted
    obtain ⟨inputCount, outputCount⟩ := Expression.counts_of_emit emitted
    rw [Expression.emit_map inputCount outputCount] at emitted
    have count : leads.length = e.inputs.length := by
      rw [← shown.length_eq]
      exact inputCount
    obtain ⟨s, run, emitted⟩ := bind_eq_ok emitted
    obtain ⟨last, written, same⟩ := bind_eq_ok emitted
    obtain rfl := Except.ok.inj same
    obtain ⟨named, lines⟩ := (Expression.showsAll_inputs closed.distinct inputCount shown).run closed
      count ids (fun entry member => List.fst_mem_of_mem_zipIdx member) callees run
    have clear : ∀ l ∈ last, Sealed l.toList := named.sealed_outputs closed count sealed written
    have start : ¬(Emission.mk ((mk e).body.inputNames ins) 0 #[]).Decrements := by
      simp [Emission.Decrements]
    have body : Decrements (String.intercalate "\n" (s.lines.toList ++ last)).toList ↔
        s.Decrements := by
      simp only [decrements_joined, List.mem_append, or_and_right, exists_or]
      refine or_iff_left ?_
      rintro ⟨l, member, decrements⟩
      exact (clear l member).apart decrements
    rw [body, lines, or_iff_right start, stacksMinus_eq, List.any_eq_true]
    conv_rhs => rw [← List.zipIdx_map_fst 0 (mk e).body.nodes]
    simp only [List.mem_map, exists_exists_and_eq_and]
    rfl

end Emission

def CModule.isIdentifier (name : String) : Bool :=
  match name.toList with
  | [] => false
  | c :: cs => !c.isDigit && (c :: cs).all isIdentifierChar

theorem CModule.leads_identifier {name : String} (identifier : isIdentifier name = true) :
    Leads false name.toList := by
  have free : ∀ {cs : List Char}, cs.all isIdentifierChar = true → '-' ∉ cs := by
    intro cs plain minus
    exact absurd (List.all_eq_true.mp plain '-' minus) (by decide)
  unfold isIdentifier at identifier
  split at identifier
  · cases identifier
  · next c cs letters =>
    obtain ⟨-, plain⟩ := (Bool.and_eq_true _ _).mp identifier
    have others := free plain
    rw [letters]
    refine ⟨sealed_of_notMem others, c, cs, rfl, beq_false_of_ne ?_⟩
    rintro rfl
    exact others (by simp)

/-- Under names that are identifiers, the code of a composite has a decrement exactly if a negative
    constant is negated in it, or in what it calls. -/
theorem emit_decrements_iff {c : Composite} (obtained : Obtained c) {ins outs : List String}
    {id text : String} (names : ∀ name ∈ id :: (ins ++ outs), CModule.isIdentifier name = true)
    (emitted : c.emit ins outs id = .ok text) :
    Decrements text.toList ↔ c.stacksMinus (ins.map fun _ => false) = true := by
  have leads := fun name member => CModule.leads_identifier (names name member)
  refine obtained.wellBuilt.tracks ?_ ?_ (leads id (by simp)).sealed emitted
  · rw [List.forall₂_map_right_iff, List.forall₂_same]
    exact fun name member => leads name (by simp [member])
  · exact fun name member => (leads name (by simp [member])).sealed

def Graph.passed : Arena :=
  (Action.apply (.prim .add) [0, 2]).perform ((Action.call (.negation (.signed .w8)) [1]).perform
    ((Action.constant (.signed (-5)) none none).perform
      ((Action.newVariable (.signed .w8) (some "x")).perform {})))

def Composite.passed : Composite :=
  .mk ⟨.passed, [0], [2, 3], [0, 1]⟩

def Composite.passedCode : String :=
  "int8_t Vk_tmp0;\n\x7b\n    int8_t Vk_0_tmp0;\n    Vk_0_tmp0 = --5;\n" ++
    "    Vk_tmp0 = Vk_0_tmp0;\n\x7d\nint8_t Vk_tmp1;\nVk_tmp1 = x + Vk_tmp0;\n" ++
    "y = Vk_tmp0;\nz = Vk_tmp1;"

theorem passed_constant_decrements : Graph.passed.fuse [0] [2, 3] = .ok .passed ∧
    Obtained .passed ∧ Composite.passed.emit ["x"] ["y", "z"] "k" = .ok Composite.passedCode ∧
    Composite.passed.stacksMinus [false] = true ∧ Decrements Composite.passedCode.toList := by
  have fused : Graph.passed.fuse [0] [2, 3] = .ok .passed := rfl
  have reachable : Reachable .passed := by
    refine .perform (.perform (.perform (.perform (.empty {}) ?_ ?_) ?_ ?_) ?_ ?_) ?_ ?_
    all_goals first | decide | simp [Action.composite?, Op.callee?]
    exact negation_obtained (by decide)
  have obtained : Obtained .passed := .fuse reachable (by decide) fused
  have emitted : Composite.passed.emit ["x"] ["y", "z"] "k" = .ok Composite.passedCode := by
    rw [Composite.emit_eq]
    decide +kernel
  have stacked : Composite.passed.stacksMinus [false] = true := by
    rw [Composite.stacksMinus_eq]
    decide +kernel
  exact ⟨fused, obtained, emitted, stacked,
    (emit_decrements_iff obtained (by decide) emitted).mpr stacked⟩

def Graph.negated : Arena :=
  (Action.apply (.prim .add) [0, 2]).perform ((Action.apply (.prim .neg) [1]).perform
    ((Action.constant (.signed (-5)) none none).perform
      ((Action.newVariable (.signed .w32) (some "x")).perform {})))

def Composite.negated : Composite :=
  .mk ⟨.negated, [0], [3], [0, 1]⟩

/-- The negative constant keeps no parentheses, and the two minus signs become one token. -/
theorem negated_constant_decrements : Graph.negated.fuse [0] [3] = .ok .negated ∧
    Obtained .negated ∧ Composite.negated.emit ["x"] ["y"] "k" =
      .ok ("int8_t Vk_tmp0;\nVk_tmp0 = --5;\nint32_t Vk_tmp1;\n" ++
        "Vk_tmp1 = x + ((int32_t)Vk_tmp0);\ny = Vk_tmp1;") := by
  have fused : Graph.negated.fuse [0] [3] = .ok .negated := rfl
  have reachable : Reachable .negated := by
    refine .perform (.perform (.perform (.perform (.empty {}) ?_ ?_) ?_ ?_) ?_ ?_) ?_ ?_
    all_goals first | decide | simp [Action.composite?, Op.callee?]
  refine ⟨fused, .fuse reachable (by decide) fused, ?_⟩
  rw [Composite.emit_eq]
  decide +kernel

end ScalarFusion

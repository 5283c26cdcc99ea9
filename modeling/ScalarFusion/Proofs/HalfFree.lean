import ScalarFusion.Proofs.Narrowing
import ScalarFusion.Proofs.Renumbering

/-!
Narrowing where there is nothing to narrow. Without float16 among the values that a composite
computes, the copy that narrowing makes has the same types and operations that are written alike, so
the result cannot be told from the composite by what is written of it. Values that nothing needs may
have float16 all the same.
-/
namespace ScalarFusion

namespace Composite

def HalfFree (c : Composite) : Prop :=
  ∀ d, c.Uses d → ∀ v ∈ d.body.values, d.graph.typeOf v ≠ .float .half

variable {c d : Composite}

theorem HalfFree.typeOf (free : c.HalfFree) {v : ValueId} (member : v ∈ c.body.values) :
    c.graph.typeOf v ≠ .float .half :=
  free c (.self c) v member

theorem HalfFree.callee (free : c.HalfFree) (member : d ∈ c.body.callees) : d.HalfFree :=
  fun b uses => free b (.through member uses)

theorem halfFree_of_hasHalf (none : c.hasHalf = false) : c.HalfFree := by
  intro d uses v member
  induction uses with
  | self c => exact typeOf_ne_half none v
  | through callee _ ih => exact ih ((hasHalf_eq_false.mp none).2 _ callee) member

end Composite

namespace Expression

variable {e : Expression Composite}

def HalfFree (e : Expression Composite) : Prop :=
  ∀ v ∈ e.values, e.graph.typeOf v ≠ .float .half

theorem HalfFree.retypes_iff (free : e.HalfFree) {vs : List ValueId} {types : List ScalarType}
    (inside : ∀ v ∈ vs, v ∈ e.values) :
    List.Forall₂ (e.Retypes ScalarType.widen) vs types ↔ List.Forall₂ (e.Retypes id) vs types := by
  have same : (vs.map fun v => (e.graph.typeOf v).widen) = vs.map fun v => id (e.graph.typeOf v) :=
    List.map_congr_left fun v member => ScalarType.widen_of_ne_half (free v (inside v member))
  rw [Expression.retypes_iff, Expression.retypes_iff, same]

theorem HalfFree.converts (free : e.HalfFree) : e.Converts ScalarType.widen (e.Retypes id) := by
  intro v type literal name member source
  have other := free v member
  rw [Graph.typeOf, source] at other
  simp [Retypes, Graph.typeOf, source, ScalarType.widen_of_ne_half other]

end Expression

theorem Primitive.widen_eq {p : Primitive} {inputs : List ScalarType} {config : Config}
    {t : ScalarType} (typed : p.outputType inputs config = .ok t) (other : t ≠ .float .half) :
    p.widen = p := by
  cases p with
  | cast s =>
    obtain ⟨_, -, same⟩ := bind_eq_ok typed
    obtain rfl := Except.ok.inj same
    exact congrArg cast (ScalarType.widen_of_ne_half other)
  | _ => rfl

theorem Op.widened_writtenAs {op : Op Composite} {inputs outputs : List ScalarType} {config : Config}
    (typed : op.outputTypes inputs config = .ok outputs)
    (others : ∀ t ∈ outputs, t ≠ .float .half)
    (callee : ∀ c, op = .call c → ∃ d, c.narrow = .ok d ∧ d.WrittenAs c) :
    op.widened.WrittenAs op := by
  cases op with
  | prim p =>
    obtain ⟨t, output, single⟩ := bind_eq_ok typed
    obtain rfl := Except.ok.inj single
    rw [Op.widened, Primitive.widen_eq output (others t (by simp))]
    rfl
  | call c =>
    obtain ⟨d, narrowed, alike⟩ := callee c rfl
    have same : c.widened.writing = c.writing := by
      rw [Composite.widened, narrowed]
      split
      · exact alike.writing
      · rfl
    exact congrArg Op.call same

namespace Composite

theorem placesAs_halfFree {e : Expression Composite} (sourced : e.Sourced)
    (callees : CallsNarrow e.graph) (free : e.HalfFree)
    (alike : ∀ c ∈ e.callees, ∃ d, c.narrow = .ok d ∧ d.WrittenAs c) :
    PlacesAs e (e.Retypes id) (fun n op => op.WrittenAs (e.opAt n)) e.graph.config.widen False
      fun _ op => Build.placeWidened (op.map fun d => (d, d.narrow)) := by
  intro n node member here h args configured types
  have listed : (n, node) ∈ e.nodes := Expression.mem_nodes.mpr ⟨member, here⟩
  have operands : ∀ v ∈ node.inputs, v ∈ e.values := fun v operand =>
    Expression.mem_values.mpr (.inr (.inl ⟨_, listed, .inl operand⟩))
  have results : ∀ v ∈ node.outputs, v ∈ e.values := fun v output =>
    Expression.mem_values.mpr (.inr (.inl ⟨_, listed, .inr output⟩))
  obtain ⟨⟨⟩, -⟩ | ⟨op, outputs, rfl, typed, placed⟩ := placesAs_widened sourced callees member here
    h args configured ((free.retypes_iff operands).mpr types)
  refine .inr ⟨_, outputs, ?_, (free.retypes_iff results).mp typed, placed⟩
  show Op.WrittenAs _ (e.opAt n)
  rw [Expression.opAt_eq here]
  refine Op.widened_writtenAs (sourced.closed.typed.types here) ?_ fun c called =>
    alike c (Expression.mem_callees.mpr ⟨n, node, listed, called⟩)
  intro t type
  obtain ⟨v, output, rfl⟩ := List.mem_map.mp type
  exact free v (results v output)

theorem WellBuilt.exists_narrow_alike {c : Composite} (good : c.WellBuilt) (free : c.HalfFree) :
    ∃ d, c.narrow = .ok d ∧ d.WrittenAs c := by
  induction good with
  | @mk e tidy wellBuilt ih =>
    have sourced := tidy.sourced
    have here : e.HalfFree := fun v member => free.typeOf member
    have callees := callsNarrow_of_wellBuilt wellBuilt
    have alike : ∀ c ∈ e.callees, ∃ d, c.narrow = .ok d ∧ d.WrittenAs c := by
      intro c member
      obtain ⟨n, node, listed, called⟩ := Expression.mem_callees.mp member
      exact ih (Expression.mem_nodes.mp listed).2 called (free.callee member)
    have typed : List.Forall₂ (e.Retypes id) e.inputs (e.inputTypes.map ScalarType.widen) := by
      rw [← here.retypes_iff fun v input => Expression.mem_values.mpr (.inl input)]
      exact Expression.retypes_iff.mpr (by rw [Expression.inputTypes, List.map_map]; rfl)
    obtain ⟨copy, t, rebuilt, mirrored, inputs, outputs⟩ := Expression.exists_mirrored_rebuild sourced
      here.converts typed (placesAs_halfFree sourced callees here alike)
    obtain ⟨sound, narrowed⟩ := narrow_of_rebuild wellBuilt rebuilt
    obtain ⟨d, fused, written⟩ := WellBuilt.exists_fuse_written (.mk tidy wellBuilt) sound mirrored
      inputs outputs
    exact ⟨d, narrowed.trans fused, written⟩

end Composite

/-- Narrowing gives back what is written of a composite that computes nothing in float16, and
    narrowing twice is narrowing once. -/
theorem narrow_settles {c : Composite} (obtained : Obtained c) :
    (c.HalfFree → ∃ d, c.narrow = .ok d ∧ d.key = c.key ∧
      ∀ ins outs id, d.emit ins outs id = c.emit ins outs id) ∧
    ∃ d b, c.narrow = .ok d ∧ d.narrow = .ok b ∧ b.key = d.key ∧
      ∀ ins outs id, b.emit ins outs id = d.emit ins outs id := by
  have good := obtained.wellBuilt
  constructor
  · intro free
    obtain ⟨d, narrowed, alike⟩ := good.exists_narrow_alike free
    exact ⟨d, narrowed, alike.key, alike.emit⟩
  · obtain ⟨d, ρ, narrowed, widens, -⟩ := Composite.exists_narrow good
    obtain ⟨b, again, alike⟩ := (Composite.narrow_wellBuilt good narrowed).1.exists_narrow_alike
      (Composite.halfFree_of_hasHalf widens.free)
    exact ⟨d, b, narrowed, again, alike.key, alike.emit⟩

def Graph.first : Arena :=
  (Action.apply (.prim .neg) [0]).perform ((Action.newVariable (.float .half) (some "b")).perform
    ((Action.newVariable (.float .single) (some "a")).perform {}))

def Composite.first : Composite :=
  .mk ⟨.first, [0, 1], [2], [0]⟩

def Graph.spared : Arena :=
  (Action.call .first [0, 1]).perform ((Action.apply (.prim (.cast (.float .half))) [0]).perform
    ((Action.newVariable (.float .single) (some "x")).perform {}))

/-- With the call dissolved nothing needs the cast any more, but the arena keeps it. -/
def Composite.spared : Composite :=
  .mk ⟨(Action.apply (.prim .neg) [0]).perform
    ((Action.apply (.prim (.cast (.float .half))) [0]).perform
      ((Action.newVariable (.float .single) (some "x")).perform {})), [0], [2], [1]⟩

def Graph.sparing : Arena :=
  (Action.apply (.prim .neg) [1]).perform ((Action.call .spared [0]).perform
    ((Action.newVariable (.float .single) (some "x")).perform {}))

def Composite.sparing : Composite :=
  .mk ⟨.sparing, [0], [1, 2], [0, 1]⟩

theorem first_obtained : Obtained .first := by
  have fused : Graph.first.fuse [0, 1] [2] = .ok .first := rfl
  refine .fuse (.perform (.perform (.perform (.empty {}) ?_ ?_) ?_ ?_) ?_ ?_) (by decide) fused
  all_goals first | decide | simp [Action.composite?, Op.callee?]

theorem spared_obtained : Obtained .spared := by
  have fused : Graph.spared.fuse [0] [2] = .ok .spared := rfl
  refine .fuse (.perform (.perform (.perform (.empty {}) ?_ ?_) ?_ ?_) ?_ ?_) (by decide) fused
  all_goals first | decide | simp [Action.composite?, Op.callee?]
  exact first_obtained

theorem sparing_halfFree : Composite.sparing.HalfFree := by
  have values : ∀ v ∈ Composite.sparing.body.values,
      Composite.sparing.graph.typeOf v ≠ .float .half := by decide +kernel
  have inner : ∀ v ∈ Composite.spared.body.values,
      Composite.spared.graph.typeOf v ≠ .float .half := by decide +kernel
  have called : Composite.sparing.body.callees = [.spared] := rfl
  have calledInside : Composite.spared.body.callees = [] := rfl
  intro d uses
  cases uses with
  | self => exact values
  | through callee further =>
    obtain rfl := List.mem_singleton.mp (called ▸ callee)
    cases further with
    | self => exact inner
    | through callee' _ => simp [calledInside] at callee'

theorem sparing_settled : Graph.sparing.fuse [0] [1, 2] = .ok .sparing ∧ Obtained .sparing ∧
    Composite.sparing.HalfFree ∧ Composite.sparing.hasHalf = true ∧
    ∃ d, Composite.sparing.narrow = .ok d ∧ d.hasHalf = false ∧ d.key = Composite.sparing.key := by
  have fused : Graph.sparing.fuse [0] [1, 2] = .ok .sparing := rfl
  have reachable : Reachable .sparing := by
    refine .perform (.perform (.perform (.empty {}) ?_ ?_) ?_ ?_) ?_ ?_
    all_goals first | decide | simp [Action.composite?, Op.callee?]
    exact spared_obtained
  have obtained : Obtained .sparing := .fuse reachable (by decide) fused
  have half : Composite.sparing.hasHalf = true := by
    rw [Composite.hasHalf_eq]
    decide +kernel
  obtain ⟨d, narrowed, key, -⟩ := (narrow_settles obtained).1 sparing_halfFree
  obtain ⟨d', _, narrowed', widens, -⟩ := Composite.exists_narrow obtained.wellBuilt
  obtain rfl := Except.ok.inj (narrowed.symm.trans narrowed')
  exact ⟨fused, obtained, sparing_halfFree, half, d, narrowed, widens.free, key⟩

end ScalarFusion

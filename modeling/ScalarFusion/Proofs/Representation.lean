import ScalarFusion.Proofs.Consuming
import ScalarFusion.Proofs.Reaching

/-!
The representation of composites: what holds of the body of every composite that a client can
obtain, whichever way it was made.
-/
namespace ScalarFusion

theorem Expression.not_single_use_of_settled {e : Expression Composite} (nodup : e.order.Nodup)
    (settled : e.dissolvable = []) {n : NodeId} {node : Node Composite} {d : Composite}
    {out : ValueId} (member : n ∈ e.order) (found : e.graph.nodes[n]? = some node)
    (called : node.op = .call d) (single : d.outputCount = 1) (output : node.outputs = [out]) :
    ¬ ((e.users out).length = 1 ∧ out ∉ e.outputs) ∧ ¬ (e.users out = [] ∧ e.outputs = [out]) := by
  have kept : ¬ e.SingleUse out := by
    intro single_use
    have inside : n ∈ e.dissolvable := (mem_dissolvable nodup).mpr
      ⟨node, d, out, mem_nodes.mpr ⟨member, found⟩, called, output, single, single_use⟩
    rw [settled] at inside
    cases inside
  refine ⟨fun once => kept (.inl once), fun unused => kept (.inr ⟨?_, ?_, ?_⟩)⟩
  · rw [unused.1, List.length_nil]
  · simp [unused.2]
  · simp [unused.2]

structure Composite.Represented (c : Composite) : Prop where
  distinct : c.inputs.Nodup
  free : ∀ v : ValueId,
    v ∈ c.inputs ↔ ∃ type name, c.graph.values[v]? = some ⟨type, .free name⟩
  constants : ∀ (v : ValueId) type literal name,
    c.graph.values[v]? = some ⟨type, .constant literal name⟩ → literal = literal.cast type
  calls : ∀ (n : NodeId) node d, c.graph.nodes[n]? = some node → node.op = .call d →
    node.inputs.map c.graph.typeOf = d.inputTypes
  order : c.graph.expression c.inputs c.outputs = .ok c.body
  flat : ∀ (n : NodeId) node d out, n ∈ c.order → c.graph.nodes[n]? = some node →
    node.op = .call d → d.outputCount = 1 → out ∈ node.outputs →
    ¬ ((c.body.users out).length = 1 ∧ out ∉ c.outputs) ∧
      ¬ (c.body.users out = [] ∧ c.outputs = [out])

theorem Graph.Typed.length_outputs {g : Arena} (typed : g.Typed) {n : NodeId}
    {node : Node Composite} {d : Composite} (found : g.nodes[n]? = some node)
    (called : node.op = .call d) : node.outputs.length = d.outputCount := by
  have types := typed.types found
  rw [called, Op.outputTypes, Composite.checkArity_eq] at types
  split at types
  · rw [ok_bind] at types
    have lengths := congrArg List.length (Except.ok.inj types)
    rw [List.length_map] at lengths
    rw [← lengths, Composite.outputTypes, Expression.outputTypes, List.length_map]
    rfl
  · cases types

theorem Composite.WellBuilt.represented {c : Composite} (good : c.WellBuilt) : c.Represented := by
  have tidy : c.body.Tidy := good.body
  have scheduled := (Graph.walks_of_expression tidy.closed.ordered tidy.known tidy.order).scheduled
    .nil
  refine ⟨tidy.closed.distinct, fun v => (tidy.closed.free v).symm,
    fun v type literal name found => (tidy.closed.constants found).symm,
    fun n node d found called => tidy.closed.bound found called, tidy.order, ?_⟩
  intro n node d out member found called single output
  have one : node.outputs = [out] := by
    have length := tidy.closed.typed.length_outputs found called
    rw [single] at length
    obtain ⟨v, only⟩ := List.length_eq_one_iff.mp length
    rw [only, List.mem_singleton] at output
    rw [only, output]
  exact Expression.not_single_use_of_settled scheduled.nodup tidy.settled member found called single
    one

theorem length_eraseDups (vs : List ValueId) : vs.eraseDups.length = vs.toFinset.card := by
  rw [← List.toFinset_card_of_nodup (nodup_eraseDups vs)]
  congr 1
  ext v
  simp [List.mem_eraseDups]

theorem Composite.inputCount_eq_of_types {c : Composite} {types : List ScalarType}
    (same : c.inputTypes = types) : c.inputCount = types.length := by
  rw [← same, length_inputTypes]

/-- Every composite that a client obtains is represented as it should be, with an input for each
    distinct input asked for and an output for each output. -/
theorem composites_represented :
    (∀ c, Obtained c → c.Represented) ∧
    (∀ g inputs outputs c, Reachable g → g.fuse inputs outputs = .ok c →
      c.Represented ∧ c.inputCount = inputs.toFinset.card ∧ c.outputCount = outputs.length) ∧
    (∀ c d, Obtained c → c.narrow = .ok d →
      d.Represented ∧ d.inputCount = c.inputCount ∧ d.outputCount = c.outputCount) ∧
    (∀ c types d, Obtained c → types.length = c.inputCount → c.specialise types = .ok d →
      d.Represented ∧ d.inputCount = c.inputCount ∧ d.outputCount = c.outputCount) := by
  refine ⟨fun c obtained => obtained.wellBuilt.represented, ?_, ?_, ?_⟩
  · intro g inputs outputs c reachable fused
    obtain ⟨good, -, inputTypes, outputCount⟩ := Graph.fuse_wellBuilt reachable.built.calls fused
    refine ⟨good.represented, ?_, outputCount⟩
    rw [Composite.inputCount_eq_of_types inputTypes, List.length_map, length_eraseDups]
  · intro c d obtained narrowed
    obtain ⟨good, inputTypes, outputCount⟩ := Composite.narrow_wellBuilt obtained.wellBuilt narrowed
    refine ⟨good.represented, ?_, outputCount⟩
    rw [Composite.inputCount_eq_of_types inputTypes, List.length_map, Composite.length_inputTypes]
  · intro c types d obtained arity adapted
    obtain ⟨good, adapts⟩ := Composite.specialise_sound obtained.wellBuilt arity adapted
    refine ⟨good.represented, ?_, adapts.outputCount⟩
    rw [Composite.inputCount_eq_of_types adapts.inputTypes, arity]

theorem nested_represented : ∃ c, (Graph.nested (.float .half)).fuse [0, 0] [1, 2] = .ok c ∧
    Obtained c ∧ c.Represented ∧ c.body.callees.length = 1 ∧ c.inputCount = 1 ∧
    c.outputCount = 2 := by
  obtain ⟨c, fused, calls⟩ : ∃ c, (Graph.nested (.float .half)).fuse [0, 0] [1, 2] = .ok c ∧
      c.body.callees.length = 1 := ⟨_, rfl, rfl⟩
  have reachable : Reachable (.nested (.float .half)) := nested_reachable (by decide)
  have obtained : Obtained c := .fuse reachable (by decide) fused
  obtain ⟨-, inputs, outputs⟩ := composites_represented.2.1 _ _ _ c reachable fused
  exact ⟨c, fused, obtained, composites_represented.1 c obtained, calls, inputs, outputs⟩

end ScalarFusion

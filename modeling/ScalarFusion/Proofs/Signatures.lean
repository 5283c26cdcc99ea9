import ScalarFusion.Proofs.Fusing
import ScalarFusion.Proofs.Requirements

/-!
What fusion keeps of a signature. The types of the inputs and the number of outputs are those of
the arena. A body that takes the place of its call is typed anew in the arena, so the types of the
outputs are kept where every such body is typed there as it is in its own.
-/
namespace ScalarFusion

/-- The types of a call outlast the passes of fusion in an arena of the given setting: either the
    composite has several outputs and stays a call, or its body is typed there as it is, and its
    callees fit as well. -/
inductive Composite.Fits (config : Config) : Composite → Prop where
  | whole {c : Composite} (several : c.outputCount ≠ 1) : Fits config c
  | opened {c : Composite}
      (typed : ∀ (n : NodeId) node, n ∈ c.order → c.graph.nodes[n]? = some node →
        node.op.outputTypes (node.inputs.map c.graph.typeOf) config =
          .ok (node.outputs.map c.graph.typeOf))
      (callees : ∀ (n : NodeId) node d, n ∈ c.order → c.graph.nodes[n]? = some node →
        node.op = .call d → Fits config d) : Fits config c

def Composite.Fitting (config : Config) (c : Composite) : Prop :=
  c.WellBuilt ∧ c.Fits config

theorem Composite.Fitting.placeable {config : Config} {c : Composite} (fitting : c.Fitting config)
    (single : c.outputCount = 1) : c.body.Placeable (Fitting config) config := by
  obtain ⟨good, fits⟩ := fitting
  have tidy := good.body
  cases fits with
  | whole several => exact absurd single several
  | opened typed callees =>
    exact tidy.closed.placeable tidy.known tidy.order
      (fun n node d member here called =>
        ⟨good.callees here called, callees n node d member here called⟩) typed

theorem Graph.outputTypes_of_fuse {g : Arena} {inputs outputs : List ValueId}
    {e : Expression Composite} (success : g.expression inputs.eraseDups outputs = .ok e)
    (placeable : e.Placeable (Composite.Fitting g.config) g.config) {c : Composite}
    (fused : g.fuse inputs outputs = .ok c) : c.outputTypes = outputs.map g.typeOf := by
  rw [fuse, fuseWith, success] at fused
  split at fused
  · cases fused
  · obtain ⟨rfl, -, rfl⟩ := expression_eq success
    obtain ⟨copy, dissolved, sound, types, -⟩ := placeable.exists_dissolve rfl Composite.specialise
      fun n node d member inside called =>
        (placeable.calls (Expression.mem_nodes.mp inside).1 (Expression.mem_nodes.mp inside).2
          called).placeable (Expression.outputCount_of_dissolvable member inside called)
    obtain ⟨flat, flattened, -, types', -⟩ := sound.flattens (fun _ => Composite.Fitting.placeable)
      Composite.specialise copy.graph.callCount
    rw [ok_bind, dissolved, ok_bind, flattened, ok_bind] at fused
    obtain ⟨body, walked, final⟩ := bind_eq_ok fused
    obtain rfl := Except.ok.inj final
    obtain ⟨graph, -, ends⟩ := expression_eq walked
    show body.outputs.map body.graph.typeOf = _
    rw [graph, ends, types', types]
    rfl

theorem Graph.search_congr {κ : Type} (g : Graph κ) {boundary boundary' : List ValueId}
    (same : ∀ v, v ∈ boundary ↔ v ∈ boundary') (fuel : Nat) (stack : List ValueId)
    (seen : Table Unit) :
    g.search boundary fuel stack seen = g.search boundary' fuel stack seen := by
  have unseen : g.unseen? boundary = g.unseen? boundary' := by
    funext seen v
    simp only [unseen?, List.contains_eq_mem, same]
  induction fuel generalizing stack seen with
  | zero => rfl
  | succ fuel ih =>
    cases stack with
    | nil => rfl
    | cons v stack => simp only [search, unseen, ih]

theorem Graph.ancestors_congr {κ : Type} (g : Graph κ) (values : List ValueId)
    {boundary boundary' : List ValueId} (same : ∀ v, v ∈ boundary ↔ v ∈ boundary') :
    g.ancestors values boundary = g.ancestors values boundary' := by
  rw [ancestors, ancestors, g.search_congr same]

/-- The signature of a fused composite. Its inputs have the types of the values, each counted once,
    and it has as many outputs as were asked for. If the calls that the outputs need are bound to
    the types of their arguments and fit the setting, its outputs have the types of the values. -/
theorem fuse_keeps_signature {g : Arena} (reachable : Reachable g) {inputs outputs : List ValueId}
    (known : g.Knows outputs) {c : Composite} (fused : g.fuse inputs outputs = .ok c) :
    c.inputTypes = inputs.eraseDups.map g.typeOf ∧ c.outputCount = outputs.length ∧
    ((∀ n ∈ g.ancestors outputs inputs, ∀ node d, g.nodes[n]? = some node → node.op = .call d →
        node.inputs.map g.typeOf = d.inputTypes ∧ d.Fits g.config) →
      c.outputTypes = outputs.map g.typeOf) := by
  have built := reachable.built
  obtain ⟨-, -, types, count⟩ := Graph.fuse_wellBuilt built.calls fused
  refine ⟨types, count, fun fits => ?_⟩
  obtain ⟨e, success⟩ : ∃ e, g.expression inputs.eraseDups outputs = .ok e := by
    rw [Graph.fuse, Graph.fuseWith] at fused
    split at fused
    · cases fused
    · obtain ⟨e, success, -⟩ := bind_eq_ok fused
      exact ⟨e, success⟩
  refine Graph.outputTypes_of_fuse success ?_ fused
  have walk := Graph.walks_of_expression built.ordered known success
  obtain ⟨rfl, given, rfl⟩ := Graph.expression_eq success
  -- the nodes that are collected are the ancestors, however often an input is listed
  have fit : ∀ {n : NodeId} {node : Node Composite} {d : Composite}, n ∈ e.order →
      e.graph.nodes[n]? = some node → node.op = .call d →
      node.inputs.map e.graph.typeOf = d.inputTypes ∧ d.Fits e.graph.config := by
    intro n node d member here called
    refine fits n ?_ node d here called
    rw [e.graph.ancestors_congr e.outputs fun v => (List.mem_eraseDups (a := v)).symm,
      Graph.mem_ancestors_iff built.ordered]
    exact walk.mem_iff.mp member
  refine ⟨built.ordered, fun _ here => built.typed.types here, built.typed.nonempty, ?_,
    built.constants, ?_, ?_, ?_⟩
  · exact fun member here called => (fit member here called).1
  · exact fun member here called => ⟨built.calls here called, (fit member here called).2⟩
  · rw [given]
    exact nodup_eraseDups inputs
  · rwa [given]

def Graph.discretePair (config : Config) : Arena :=
  (Action.newVariable (.signed .w32) (some "b")).perform
    ((Action.newVariable (.signed .w32) (some "a")).perform { config })

theorem discretePair_reachable (config : Config) : Reachable (.discretePair config) := by
  refine .perform (.perform (.empty config) ?_ ?_) ?_ ?_
  all_goals simp [Action.composite?, Action.operands]

def Graph.quotient : Arena :=
  (Action.apply (.prim .trueDiv) [0, 1]).perform (.discretePair ⟨.single⟩)

def Composite.quotient (outputs : List ValueId) : Composite :=
  .mk ⟨.quotient, [0, 1], outputs, [0]⟩

theorem quotient_reachable : Reachable .quotient := by
  refine .perform (discretePair_reachable _) ?_ ?_
  · decide
  · simp [Action.composite?, Op.callee?]

def Graph.borrowed (outputs : List ValueId) : Arena :=
  (Action.call (.quotient outputs) [0, 1]).perform (.discretePair {})

theorem borrowed_reachable {outputs : List ValueId} (obtained : Obtained (.quotient outputs)) :
    Reachable (.borrowed outputs) := by
  refine .perform (discretePair_reachable _) (by decide : Graph.Knows (.discretePair {}) [0, 1]) ?_
  intro c same
  obtain rfl := Option.some.inj same
  exact obtained

theorem borrowed_kept : Reachable (.borrowed [2, 2]) ∧
    ∃ c, (Graph.borrowed [2, 2]).fuse [0, 1, 0] [3, 2] = .ok c ∧
      c.inputTypes = [.signed .w32, .signed .w32] ∧
      c.outputTypes = [.float .single, .float .single] := by
  have obtained : Obtained (.quotient [2, 2]) :=
    .fuse quotient_reachable (by decide : Graph.quotient.Knows ([0, 1] ++ [2, 2])) rfl
  have reachable := borrowed_reachable obtained
  obtain ⟨c, fused⟩ : ∃ c, (Graph.borrowed [2, 2]).fuse [0, 1, 0] [3, 2] = .ok c := ⟨_, rfl⟩
  obtain ⟨inputs, -, outputs⟩ := fuse_keeps_signature reachable (by decide) fused
  refine ⟨reachable, c, fused, inputs, outputs ?_⟩
  intro n _ node d here called
  have inside := (Array.getElem?_eq_some_iff.mp here).1
  match n, inside with
  | 0, _ =>
    obtain rfl := Option.some.inj here
    obtain rfl := Op.call.inj called
    exact ⟨rfl, .whole (by decide)⟩

/-- With one output the quotient is dissolved, and typed by the other setting. -/
theorem borrowed_retyped : Reachable (.borrowed [2]) ∧
    (Graph.borrowed [2]).typeOf 2 = .float .single ∧
    ∃ c, (Graph.borrowed [2]).fuse [0, 1] [2] = .ok c ∧ c.outputTypes = [.float .double] := by
  have obtained : Obtained (.quotient [2]) :=
    .fuse quotient_reachable (by decide : Graph.quotient.Knows ([0, 1] ++ [2])) rfl
  exact ⟨borrowed_reachable obtained, rfl, _, rfl, rfl⟩

end ScalarFusion

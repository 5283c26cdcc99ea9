import ScalarFusion.Graph.Printing
import ScalarFusion.Proofs.Reaching
import ScalarFusion.Proofs.Valuing

/-!
Arenas only grow. Whatever step a client takes, finished or failed, the arena before it is a prefix
of the one after it, so an expression over old ids is the same expression, computes the same values
and is displayed by the same text.
-/
namespace ScalarFusion

namespace Graph

variable {κ ι : Type} {g h : Graph κ}

theorem Extends.map (grown : g.Extends h) (f : κ → ι) : (g.map f).Extends (h.map f) := by
  refine ⟨grown.config, grown.value, ?_⟩
  intro n node found
  rw [map_node_at] at found ⊢
  obtain ⟨old, here, rfl⟩ := Option.map_eq_some_iff.mp found
  rw [grown.node here]
  rfl

theorem Extends.value_at (grown : g.Extends h) {v : Nat} (known : v < g.values.size) :
    h.values[v]? = g.values[v]? := by
  rw [Array.getElem?_eq_getElem known]
  exact grown.value (Array.getElem?_eq_getElem known)

theorem Extends.values_prefix (grown : g.Extends h) : g.values.toList <+: h.values.toList := by
  rw [List.prefix_iff_getElem?]
  intro v inside
  have found := grown.value (Array.getElem?_eq_getElem (by simpa using inside))
  simpa using found

theorem Extends.nodes_prefix (grown : g.Extends h) : g.nodes.toList <+: h.nodes.toList := by
  rw [List.prefix_iff_getElem?]
  intro n inside
  have found := grown.node (Array.getElem?_eq_getElem (by simpa using inside))
  simpa using found

theorem Extends.visit_eq (grown : g.Extends h) (ordered : g.Ordered) (inputs : List ValueId)
    (fuel : Nat) {v : Nat} (known : v < g.values.size) (w : Walk) :
    h.visit inputs fuel v w = g.visit inputs fuel v w := by
  induction fuel generalizing v w with
  | zero => rfl
  | succ fuel ih =>
    rw [visit, visit, grown.value_at known]
    have found : g.values[v]? = some g.values[v] := Array.getElem?_eq_getElem known
    generalize g.values[v] = x at found
    obtain ⟨type, source⟩ := x
    rw [found]
    cases source with
    | free name => rfl
    | constant literal name => rfl
    | output n k =>
      obtain ⟨node, here, -⟩ := ordered.produced.mp ⟨type, found⟩
      simp only [here, grown.node here]
      rw [foldlM_congr_mem fun u member w => ih (ordered.known here u member) w]

end Graph

namespace Expression

variable {κ ι : Type}

def inGraph (e : Expression κ) (h : Graph κ) : Expression κ :=
  { e with graph := h }

@[simp]
theorem inGraph_graph (e : Expression κ) (h : Graph κ) : (e.inGraph h).graph = h := rfl

theorem inGraph_map (e : Expression κ) (h : Graph κ) (f : κ → ι) :
    (e.inGraph h).map f = (e.map f).inGraph (h.map f) := rfl

structure Placed (e : Expression κ) : Prop where
  ordered : e.graph.Ordered
  inputs : e.graph.Knows e.inputs
  outputs : e.graph.Knows e.outputs
  order : ∀ n ∈ e.order, ∃ node, e.graph.nodes[n]? = some node

theorem Placed.map {e : Expression κ} (placed : e.Placed) (f : κ → ι) : (e.map f).Placed := by
  refine ⟨placed.ordered.map f, placed.inputs, placed.outputs, ?_⟩
  intro n member
  obtain ⟨node, here⟩ := placed.order n member
  exact ⟨node.map f, by rw [Expression.map, Graph.map_node_at, here]; rfl⟩

theorem placed_of_expression {g : Graph κ} (ordered : g.Ordered) {inputs outputs : List ValueId}
    (known : g.Knows (inputs ++ outputs)) {e : Expression κ}
    (success : g.expression inputs outputs = .ok e) : e.Placed := by
  have knownOutputs : g.Knows outputs := fun v member => known v (by simp [member])
  obtain ⟨rfl, rfl, rfl⟩ := Graph.expression_eq success
  have scheduled := (Graph.walks_of_expression ordered knownOutputs success).scheduled .nil
  exact ⟨ordered, fun v member => known v (by simp [member]), knownOutputs,
    fun n member => scheduled.exists_node member⟩

section Moving

variable {e : Expression κ} {h : Graph κ} (placed : e.Placed) (grown : e.graph.Extends h)

include placed grown

theorem nodes_inGraph : (e.inGraph h).nodes = e.nodes := by
  apply List.filterMap_congr
  intro n member
  obtain ⟨node, here⟩ := placed.order n member
  show (h.nodes[n]?).map _ = _
  rw [here, grown.node here]

theorem bindArguments_inGraph (args : List Literal) :
    (e.inGraph h).bindArguments args = e.bindArguments args := by
  unfold bindArguments
  apply List.foldl_ext
  rintro env ⟨v, arg⟩ member
  show env.insertNew v (arg.cast (h.typeOf v)) = _
  rw [grown.typeOf (placed.inputs v (List.of_mem_zip member).1)]

omit placed in
theorem lookup_inGraph (env : Table Literal) {v : Nat} (known : v < e.graph.values.size) :
    (e.inGraph h).lookup env v = e.lookup env v := by
  simp only [lookup, inGraph, grown.value_at known, grown.typeOf known]

end Moving

theorem evaluateNode_inGraph [Numerics] {e : Expression Kernel} {h : Graph Kernel}
    (placed : e.Placed)
    (grown : e.graph.Extends h) (env : Table Literal) {n : NodeId} {node : Node Kernel}
    (here : e.graph.nodes[n]? = some node) :
    (e.inGraph h).evaluateNode env node = e.evaluateNode env node := by
  have inputs := placed.ordered.known here
  unfold evaluateNode
  rw [mapM_congr_mem fun v member => lookup_inGraph grown env (inputs v member)]
  simp only [inGraph_graph, grown.map_typeOf inputs, grown.map_typeOf (placed.ordered.knows_outputs here)]

theorem evaluate_inGraph [Numerics] {e : Expression Kernel} {h : Graph Kernel} (placed : e.Placed)
    (grown : e.graph.Extends h) (args : List Literal) :
    (e.inGraph h).evaluate args = e.evaluate args := by
  have steps : ∀ env, (e.inGraph h).nodes.foldlM
      (fun env entry => (e.inGraph h).evaluateNode env entry.2) env =
        e.nodes.foldlM (fun env entry => e.evaluateNode env entry.2) env := by
    intro env
    rw [nodes_inGraph placed grown]
    apply foldlM_congr_mem
    rintro ⟨n, node⟩ member env
    exact evaluateNode_inGraph placed grown env (mem_nodes.mp member).2
  have outputs : ∀ env, e.outputs.mapM ((e.inGraph h).lookup env) = e.outputs.mapM (e.lookup env) :=
    fun env => mapM_congr_mem fun v member => lookup_inGraph grown env (placed.outputs v member)
  unfold evaluate
  rw [bindArguments_inGraph placed grown]
  simp only [steps]
  simp only [inGraph] at outputs ⊢
  simp only [outputs]

theorem sharedNodes_inGraph {e : Expression κ} {h : Graph κ} (placed : e.Placed)
    (grown : e.graph.Extends h) : (e.inGraph h).sharedNodes = e.sharedNodes := by
  unfold sharedNodes references
  rw [nodes_inGraph placed grown]
  rfl

theorem displayText_inGraph {e : Expression String} {h : Graph String} (ordered : e.graph.Ordered)
    (grown : e.graph.Extends h) (shared : Table Unit) (fuel : Nat) {v : Nat}
    (known : v < e.graph.values.size) :
    (e.inGraph h).displayText shared fuel v = e.displayText shared fuel v := by
  induction fuel generalizing v with
  | zero => rfl
  | succ fuel ih =>
    rw [displayText, displayText, inGraph_graph, grown.value_at known]
    have found : e.graph.values[v]? = some e.graph.values[v] := Array.getElem?_eq_getElem known
    generalize e.graph.values[v] = x at found
    obtain ⟨type, source⟩ := x
    rw [found]
    cases source with
    | free name => rfl
    | constant literal name => rfl
    | output n k =>
      obtain ⟨node, here, -⟩ := ordered.produced.mp ⟨type, found⟩
      have operands := mapM_congr_mem fun u member => ih (ordered.known here u member)
      simp only [here, inGraph, grown.node here] at operands ⊢
      simp only [operands]

theorem display_inGraph {e : Expression String} {h : Graph String} (placed : e.Placed)
    (grown : e.graph.Extends h) : (e.inGraph h).display = e.display := by
  have texts := mapM_congr_mem fun v member =>
    displayText_inGraph placed.ordered grown e.sharedNodes (v + 1) (placed.outputs v member)
  unfold display
  rw [sharedNodes_inGraph placed grown]
  simp only [inGraph] at texts ⊢
  simp only [texts]

end Expression

theorem Graph.Extends.expression_eq {κ : Type} {g h : Graph κ} (grown : g.Extends h)
    (ordered : g.Ordered) (inputs : List ValueId) {outputs : List ValueId}
    (known : g.Knows outputs) :
    h.expression inputs outputs = (g.expression inputs outputs).map (·.inGraph h) := by
  unfold Graph.expression
  rw [foldlM_congr_mem fun v member w => grown.visit_eq ordered inputs (v + 1) (known v member) w]
  cases outputs.foldlM (fun w v => g.visit inputs (v + 1) v w) {} <;> rfl

structure Graph.Consistent (g : Arena) : Prop where
  known : ∀ (n : NodeId) node, g.nodes[n]? = some node → g.Knows (node.inputs ++ node.outputs)
  before : ∀ (n : NodeId) node, g.nodes[n]? = some node →
    ∀ v o : Nat, v ∈ node.inputs → o ∈ node.outputs → v < o
  produced : ∀ (v : ValueId) (n : NodeId) (k : Nat),
    (∃ t, g.values[v]? = some ⟨t, .output n k⟩) ↔
      ∃ node, g.nodes[n]? = some node ∧ node.outputs[k]? = some v
  types : ∀ (n : NodeId) node, g.nodes[n]? = some node →
    node.op.outputTypes (node.inputs.map g.typeOf) g.config = .ok (node.outputs.map g.typeOf)
  nonempty : ∀ (n : NodeId) node, g.nodes[n]? = some node → node.inputs = [] → node.op = .prim .mean

/-- What `h` keeps of `g`: all of it, and the meaning of every expression over it. -/
structure Graph.Keeps [Numerics] (g h : Arena) : Prop where
  config : h.config = g.config
  values : g.values.toList <+: h.values.toList
  nodes : g.nodes.toList <+: h.nodes.toList
  expression : ∀ inputs outputs : List ValueId, g.Knows (inputs ++ outputs) →
    h.expression inputs outputs = (g.expression inputs outputs).map (·.inGraph h)
  evaluate : ∀ (inputs outputs : List ValueId) e, g.Knows (inputs ++ outputs) →
    g.expression inputs outputs = .ok e → ∀ args,
      ((e.inGraph h).map Composite.evaluate).evaluate args =
        (e.map Composite.evaluate).evaluate args
  display : ∀ (inputs outputs : List ValueId) e, g.Knows (inputs ++ outputs) →
    g.expression inputs outputs = .ok e →
      ((e.inGraph h).map Composite.signature).display = (e.map Composite.signature).display

theorem Graph.Extends.keeps [Numerics] {g h : Arena} (grown : g.Extends h) (ordered : g.Ordered) :
    g.Keeps h := by
  have placed : ∀ {inputs outputs : List ValueId} {e}, g.Knows (inputs ++ outputs) →
      g.expression inputs outputs = .ok e → e.Placed ∧ e.graph = g := fun known success =>
    ⟨Expression.placed_of_expression ordered known success, (Graph.expression_eq success).1⟩
  refine ⟨grown.config, grown.values_prefix, grown.nodes_prefix, ?_, ?_, ?_⟩
  · intro inputs outputs known
    exact grown.expression_eq ordered inputs fun v member => known v (by simp [member])
  · intro inputs outputs e known success args
    obtain ⟨there, rfl⟩ := placed known success
    rw [Expression.inGraph_map]
    exact Expression.evaluate_inGraph (there.map Composite.evaluate) (grown.map _) args
  · intro inputs outputs e known success
    obtain ⟨there, rfl⟩ := placed known success
    rw [Expression.inGraph_map]
    exact Expression.display_inGraph (there.map Composite.signature) (grown.map _)

theorem Graph.Built.consistent {g : Arena} (built : g.Built) : g.Consistent := by
  refine ⟨?_, fun n node found => built.ordered.before found, fun v n k => built.ordered.produced,
    fun n node found => built.typed.types found, fun n node found => built.typed.nonempty found⟩
  intro n node found v member
  rcases List.mem_append.mp member with input | output
  · exact built.ordered.known found v input
  · exact built.ordered.knows_outputs found v output

/-- Every arena that a client reaches is consistent, and every step from it keeps all that was
    there, also when the step fails. -/
theorem arenas_only_grow [Numerics] :
    (∀ g, Reachable g → g.Consistent) ∧
    ∀ g (a : Action), Reachable g → g.Knows a.operands →
      (∀ c, a.composite? = some c → Obtained c) →
        (a.perform g).Consistent ∧ g.Keeps (a.perform g) := by
  refine ⟨fun g reachable => reachable.built.consistent, ?_⟩
  intro g a reachable known obtained
  have after : Reachable (a.perform g) := .perform reachable known obtained
  have growth := Action.growth reachable.built known fun c named => (obtained c named).wellBuilt
  exact ⟨after.built.consistent, growth.toExtends.keeps reachable.built.ordered⟩

theorem nested_kept : Reachable (.nested (.float .double)) ∧
    (Graph.nested (.float .double)).Keeps
      ((Action.gradient 2 [0]).perform (.nested (.float .double))) ∧
    ∃ e, (Graph.nested (.float .double)).expression [0] [2] = .ok e ∧
      ((Action.gradient 2 [0]).perform (.nested (.float .double))).expression [0] [2] =
        .ok (e.inGraph ((Action.gradient 2 [0]).perform (.nested (.float .double)))) := by
  have reachable : Reachable (.nested (.float .double)) := nested_reachable (by decide)
  obtain ⟨-, kept⟩ := arenas_only_grow.2 _ (.gradient 2 [0]) reachable (by decide)
    (by simp [Action.composite?])
  obtain ⟨e, found⟩ : ∃ e, (Graph.nested (.float .double)).expression [0] [2] = .ok e := ⟨_, rfl⟩
  refine ⟨reachable, kept, e, found, ?_⟩
  rw [kept.expression [0] [2] (by decide), found]
  rfl

end ScalarFusion

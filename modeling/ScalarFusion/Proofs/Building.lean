import ScalarFusion.Build

/-!
What building does to an arena. Every step appends one leaf or one node, so each fact about built
arenas is proved once for these two additions and holds of whatever a sequence of them makes.
-/
namespace ScalarFusion

@[simp]
theorem ok_bind {α β : Type} (a : α) (f : α → Except Error β) : (Except.ok a >>= f) = f a := rfl

@[simp]
theorem error_bind {α β : Type} (e : Error) (f : α → Except Error β) :
    (Except.error e >>= f) = .error e := rfl

theorem bind_eq_ok {α β : Type} {x : Except Error α} {f : α → Except Error β} {b : β}
    (success : (x >>= f) = .ok b) : ∃ a, x = .ok a ∧ f a = .ok b := by
  cases x with
  | error e => cases success
  | ok a => exact ⟨a, rfl, success⟩

theorem foldlM_congr_mem {m : Type → Type} [Monad m] {α β : Type} {f f' : β → α → m β} {as : List α}
    (same : ∀ a ∈ as, ∀ b, f b a = f' b a) (b : β) : as.foldlM f b = as.foldlM f' b := by
  induction as generalizing b with
  | nil => rfl
  | cons a as ih =>
    rw [List.foldlM_cons, List.foldlM_cons, same a (by simp)]
    congr 1
    funext middle
    exact ih (fun a' member => same a' (by simp [member])) middle

theorem mapM_congr_mem {m : Type → Type} [Monad m] [LawfulMonad m] {α β : Type} {f f' : α → m β}
    {as : List α} (same : ∀ a ∈ as, f a = f' a) : as.mapM f = as.mapM f' := by
  induction as with
  | nil => rfl
  | cons a as ih =>
    rw [List.mapM_cons, List.mapM_cons, same a (by simp), ih fun a' member => same a' (by simp [member])]

namespace Build

variable {α β : Type}

/-- The outcome of a build that starts from an arena, and what it leaves of the arena. -/
def exec (b : Build α) (g : Arena) : Except Error α × Arena :=
  (b.run).run g

@[simp]
theorem exec_pure (a : α) (g : Arena) : (pure a : Build α).exec g = (.ok a, g) := rfl

@[simp]
theorem exec_throw (e : Error) (g : Arena) : (throw e : Build α).exec g = (.error e, g) := rfl

@[simp]
theorem exec_get (g : Arena) : (get : Build Arena).exec g = (.ok g, g) := rfl

@[simp]
theorem exec_ofExcept (x : Except Error α) (g : Arena) : (ofExcept x).exec g = (x, g) := rfl

@[simp]
theorem exec_modifyGet (f : Arena → α × Arena) (g : Arena) :
    (modifyGet f : Build α).exec g = (.ok (f g).1, (f g).2) := rfl

theorem exec_bind (b : Build α) (f : α → Build β) (g : Arena) :
    (b >>= f).exec g = match b.exec g with
      | (.ok a, h) => (f a).exec h
      | (.error e, h) => (.error e, h) := by
  show (ExceptT.bindCont f (b.exec g).1) (b.exec g).2 = _
  rcases b.exec g with ⟨outcome, h⟩
  cases outcome <;> rfl

theorem exec_bind_of_ok {b : Build α} {f : α → Build β} {g h : Arena} {a : α}
    (first : b.exec g = (.ok a, h)) : (b >>= f).exec g = (f a).exec h := by
  rw [exec_bind, first]

theorem exec_bind_ok {b : Build α} {f : α → Build β} {g k : Arena} {c : β}
    (success : (b >>= f).exec g = (.ok c, k)) :
    ∃ a h, b.exec g = (.ok a, h) ∧ (f a).exec h = (.ok c, k) := by
  rw [exec_bind] at success
  rcases run : b.exec g with ⟨outcome, h⟩
  rw [run] at success
  cases outcome with
  | ok a => exact ⟨a, h, rfl, success⟩
  | error e => simp at success

end Build

namespace Graph

variable {κ : Type}

@[simp]
theorem pushValue_config (g : Graph κ) (x : Value) : (g.pushValue x).config = g.config := rfl

@[simp]
theorem pushValue_values (g : Graph κ) (x : Value) :
    (g.pushValue x).values = g.values.push x := rfl

@[simp]
theorem pushValue_nodes (g : Graph κ) (x : Value) : (g.pushValue x).nodes = g.nodes := rfl

@[simp]
theorem pushNode_config (g : Graph κ) (op : Op κ) (inputs : List ValueId)
    (types : List ScalarType) : (g.pushNode op inputs types).config = g.config := rfl

@[simp]
theorem pushNode_nodes (g : Graph κ) (op : Op κ) (inputs : List ValueId)
    (types : List ScalarType) : (g.pushNode op inputs types).nodes =
      g.nodes.push ⟨op, inputs, List.range' g.values.size types.length⟩ := rfl

@[simp]
theorem outputValues_length (n : NodeId) (types : List ScalarType) :
    (outputValues n types).length = types.length := by
  simp [outputValues]

theorem outputValues_at (n : NodeId) (types : List ScalarType) (k : Nat) :
    (outputValues n types)[k]? = types[k]?.map fun t => ⟨t, .output n k⟩ := by
  simp [outputValues]

theorem pushNode_values (g : Graph κ) (op : Op κ) (inputs : List ValueId)
    (types : List ScalarType) : (g.pushNode op inputs types).values =
      g.values ++ (outputValues g.nodes.size types).toArray := by
  apply Array.ext'
  simp [pushNode]

@[simp]
theorem pushNode_size (g : Graph κ) (op : Op κ) (inputs : List ValueId)
    (types : List ScalarType) :
    (g.pushNode op inputs types).values.size = g.values.size + types.length := by
  simp [pushNode_values]

theorem pushNode_value_at (g : Graph κ) (op : Op κ) (inputs : List ValueId)
    (types : List ScalarType) (v : Nat) :
    (g.pushNode op inputs types).values[v]? =
      if v < g.values.size then g.values[v]? else
        types[v - g.values.size]?.map fun t => ⟨t, .output g.nodes.size (v - g.values.size)⟩ := by
  rw [pushNode_values, Array.getElem?_append, ← outputValues_at]
  simp

theorem pushNode_node_at (g : Graph κ) (op : Op κ) (inputs : List ValueId)
    (types : List ScalarType) : (g.pushNode op inputs types).nodes[g.nodes.size]? =
      some ⟨op, inputs, List.range' g.values.size types.length⟩ := by
  simp

theorem pushNode_output_at (g : Graph κ) (op : Op κ) (inputs : List ValueId)
    {types : List ScalarType} {k : Nat} (inside : k < types.length) :
    (g.pushNode op inputs types).values[g.values.size + k]? =
      some ⟨types[k], .output g.nodes.size k⟩ := by
  rw [pushNode_value_at]
  simp [inside]

def Knows (g : Graph κ) (vs : List ValueId) : Prop :=
  ∀ v : Nat, v ∈ vs → v < g.values.size

instance (g : Graph κ) (vs : List ValueId) : Decidable (g.Knows vs) :=
  inferInstanceAs (Decidable (∀ v ∈ vs, v < g.values.size))

@[simp]
theorem knows_nil (g : Graph κ) : g.Knows [] := by
  simp [Knows]

@[simp]
theorem knows_cons (g : Graph κ) (v : Nat) (vs : List ValueId) :
    g.Knows (v :: vs) ↔ v < g.values.size ∧ g.Knows vs := by
  simp [Knows]

/-- `h` holds whatever `g` holds, under the same ids. -/
structure Extends (g h : Graph κ) : Prop where
  config : h.config = g.config
  value : ∀ {v : ValueId} {x : Value}, g.values[v]? = some x → h.values[v]? = some x
  node : ∀ {n : NodeId} {x : Node κ}, g.nodes[n]? = some x → h.nodes[n]? = some x

theorem Extends.refl (g : Graph κ) : g.Extends g :=
  ⟨rfl, id, id⟩

theorem Extends.trans {g h k : Graph κ} (first : g.Extends h) (second : h.Extends k) :
    g.Extends k :=
  ⟨second.config.trans first.config, fun found => second.value (first.value found),
    fun found => second.node (first.node found)⟩

theorem Extends.size_le {g h : Graph κ} (grown : g.Extends h) :
    g.values.size ≤ h.values.size := by
  apply Nat.le_of_not_lt
  intro less
  have found := grown.value (Array.getElem?_eq_getElem less)
  have := (Array.getElem?_eq_some_iff.mp found).1
  omega

theorem Extends.knows {g h : Graph κ} (grown : g.Extends h) {vs : List ValueId}
    (known : g.Knows vs) : h.Knows vs :=
  fun v member => Nat.lt_of_lt_of_le (known v member) grown.size_le

theorem Extends.typeOf {g h : Graph κ} (grown : g.Extends h) {v : Nat}
    (known : v < g.values.size) : h.typeOf v = g.typeOf v := by
  have before : g.values[v]? = some g.values[v] := Array.getElem?_eq_getElem known
  simp only [Graph.typeOf, before, grown.value before]

theorem Extends.map_typeOf {g h : Graph κ} (grown : g.Extends h) {vs : List ValueId}
    (known : g.Knows vs) : vs.map h.typeOf = vs.map g.typeOf :=
  List.map_congr_left fun v member => grown.typeOf (known v member)

theorem extends_pushValue (g : Graph κ) (x : Value) : g.Extends (g.pushValue x) := by
  refine ⟨rfl, ?_, id⟩
  intro v y found
  have inside := (Array.getElem?_eq_some_iff.mp found).1
  rw [pushValue_values, Array.getElem?_push, if_neg (by omega), found]

theorem extends_pushNode (g : Graph κ) (op : Op κ) (inputs : List ValueId)
    (types : List ScalarType) : g.Extends (g.pushNode op inputs types) := by
  refine ⟨rfl, ?_, ?_⟩
  · intro v x found
    have inside := (Array.getElem?_eq_some_iff.mp found).1
    rw [pushNode_value_at, if_pos inside, found]
  · intro n node found
    have inside := (Array.getElem?_eq_some_iff.mp found).1
    rw [pushNode_nodes, Array.getElem?_push, if_neg (by omega), found]

/-- Nodes come after their operands, and a value that says where it comes from is right. -/
structure Ordered (g : Graph κ) : Prop where
  known : ∀ {n : NodeId} {node : Node κ}, g.nodes[n]? = some node → g.Knows node.inputs
  before : ∀ {n : NodeId} {node : Node κ}, g.nodes[n]? = some node →
    ∀ v o : Nat, v ∈ node.inputs → o ∈ node.outputs → v < o
  produced : ∀ {v : ValueId} {n : NodeId} {k : Nat},
    (∃ t, g.values[v]? = some ⟨t, .output n k⟩) ↔
      ∃ node, g.nodes[n]? = some node ∧ node.outputs[k]? = some v
  layered : ∀ {m n : NodeId} {a b : Node κ}, g.nodes[m]? = some a → g.nodes[n]? = some b →
    ∀ v : Nat, v ∈ a.outputs → v ∈ b.inputs → m < n

theorem Ordered.knows_outputs {g : Graph κ} (ordered : g.Ordered) {n : NodeId} {node : Node κ}
    (found : g.nodes[n]? = some node) : g.Knows node.outputs := by
  intro o member
  obtain ⟨k, output⟩ := List.getElem?_of_mem member
  obtain ⟨t, value⟩ := ordered.produced.mpr ⟨node, found, output⟩
  exact (Array.getElem?_eq_some_iff.mp value).1

theorem ordered_empty (config : Config) : ({ config } : Graph κ).Ordered := by
  refine ⟨?_, ?_, ?_, ?_⟩ <;> simp

theorem ordered_pushValue {g : Graph κ} (ordered : g.Ordered) {x : Value}
    (leaf : x.producer? = none) : (g.pushValue x).Ordered := by
  refine ⟨?_, fun found => ordered.before found, ?_, fun first second => ordered.layered first second⟩
  · intro n node found
    exact (g.extends_pushValue x).knows (ordered.known found)
  · intro v n k
    rw [pushValue_nodes, ← ordered.produced, pushValue_values]
    constructor
    · rintro ⟨t, found⟩
      rw [Array.getElem?_push] at found
      split at found
      · obtain rfl := Option.some.inj found
        simp [Value.producer?] at leaf
      · exact ⟨t, found⟩
    · rintro ⟨t, found⟩
      exact ⟨t, (g.extends_pushValue x).value found⟩

theorem ordered_pushNode {g : Graph κ} (ordered : g.Ordered) {op : Op κ}
    {inputs : List ValueId} {types : List ScalarType}
    (known : g.Knows inputs) : (g.pushNode op inputs types).Ordered := by
  have nodeAt : ∀ {n : NodeId} {node : Node κ}, (g.pushNode op inputs types).nodes[n]? = some node →
      (n = g.nodes.size ∧ node = ⟨op, inputs, List.range' g.values.size types.length⟩) ∨
        g.nodes[n]? = some node := by
    intro n node found
    rw [pushNode_nodes, Array.getElem?_push] at found
    split at found
    · next here => exact .inl ⟨here, (Option.some.inj found).symm⟩
    · exact .inr found
  refine ⟨?_, ?_, ?_, ?_⟩
  · intro n node found
    apply (g.extends_pushNode op inputs types).knows
    rcases nodeAt found with ⟨-, rfl⟩ | old
    · exact known
    · exact ordered.known old
  · intro n node found v o member output
    rcases nodeAt found with ⟨-, rfl⟩ | old
    · exact Nat.lt_of_lt_of_le (known v member) (List.mem_range'_1.mp output).1
    · exact ordered.before old v o member output
  · intro v n k
    constructor
    · rintro ⟨t, found⟩
      rw [pushNode_value_at] at found
      split at found
      · obtain ⟨node, old, output⟩ := ordered.produced.mp ⟨t, found⟩
        exact ⟨node, (g.extends_pushNode op inputs types).node old, output⟩
      · next beyond =>
        obtain ⟨u, at_k, same⟩ := Option.map_eq_some_iff.mp found
        simp only [Value.mk.injEq, Source.output.injEq] at same
        obtain ⟨rfl, rfl, rfl⟩ := same
        have inside := (List.getElem?_eq_some_iff.mp at_k).1
        refine ⟨_, by rw [pushNode_nodes, Array.getElem?_push, if_pos rfl], ?_⟩
        rw [List.getElem?_range' inside, Nat.one_mul, Nat.add_sub_cancel' (Nat.le_of_not_lt beyond)]
    · rintro ⟨node, found, output⟩
      rcases nodeAt found with ⟨rfl, rfl⟩ | old
      · obtain ⟨inside, rfl⟩ := List.getElem?_eq_some_iff.mp output
        have inside : k < types.length := by simpa using inside
        refine ⟨types[k], ?_⟩
        rw [List.getElem_range', pushNode_value_at, if_neg (by omega)]
        simp [inside]
      · obtain ⟨t, value⟩ := ordered.produced.mpr ⟨node, old, output⟩
        exact ⟨t, (g.extends_pushNode op inputs types).value value⟩
  · intro m n a b first second v output input
    have inside : v < g.values.size := by
      rcases nodeAt second with ⟨-, rfl⟩ | old
      · exact known v input
      · exact ordered.known old v input
    rcases nodeAt first with ⟨-, rfl⟩ | old
    · exact absurd (List.mem_range'_1.mp output).1 (Nat.not_le.mpr inside)
    · rcases nodeAt second with ⟨rfl, -⟩ | old'
      · exact (Array.getElem?_eq_some_iff.mp old).1
      · exact ordered.layered old old' v output input

end Graph

def Node.map {κ ι : Type} (f : κ → ι) (node : Node κ) : Node ι where
  op := node.op.map f
  inputs := node.inputs
  outputs := node.outputs

theorem Graph.map_node_at {κ ι : Type} (f : κ → ι) (g : Graph κ) (n : NodeId) :
    (g.map f).nodes[n]? = (g.nodes[n]?).map (Node.map f) := by
  simp only [Graph.map, Array.getElem?_map]
  rfl

theorem Graph.Ordered.map {κ ι : Type} {g : Graph κ} (ordered : g.Ordered) (f : κ → ι) :
    (g.map f).Ordered := by
  have back : ∀ {n : NodeId} {node : Node ι}, (g.map f).nodes[n]? = some node →
      ∃ old, g.nodes[n]? = some old ∧ old.map f = node := by
    intro n node found
    rw [Graph.map_node_at] at found
    exact Option.map_eq_some_iff.mp found
  refine ⟨?_, ?_, ?_, ?_⟩
  · intro n node found
    obtain ⟨old, here, rfl⟩ := back found
    exact ordered.known here
  · intro n node found
    obtain ⟨old, here, rfl⟩ := back found
    exact ordered.before here
  · intro v n k
    refine ordered.produced.trans ⟨?_, ?_⟩
    · rintro ⟨old, here, output⟩
      exact ⟨old.map f, by rw [Graph.map_node_at, here]; rfl, output⟩
    · rintro ⟨node, found, output⟩
      obtain ⟨old, here, rfl⟩ := back found
      exact ⟨old, here, output⟩
  · intro m n a b first second
    obtain ⟨old, here, rfl⟩ := back first
    obtain ⟨old', here', rfl⟩ := back second
    exact ordered.layered here here'

namespace Expression

variable {κ ι : Type}

theorem mem_nodes {e : Expression κ} {n : NodeId} {node : Node κ} :
    (n, node) ∈ e.nodes ↔ n ∈ e.order ∧ e.graph.nodes[n]? = some node := by
  simp only [Expression.nodes, List.mem_filterMap, Option.map_eq_some_iff, Prod.mk.injEq]
  constructor
  · rintro ⟨m, member, node', found, rfl, rfl⟩
    exact ⟨member, found⟩
  · rintro ⟨member, found⟩
    exact ⟨n, member, node, found, rfl, rfl⟩

theorem nodes_map (f : κ → ι) (e : Expression κ) :
    (e.map f).nodes = e.nodes.map fun entry => (entry.1, entry.2.map f) := by
  simp only [nodes, List.map_filterMap]
  apply congrArg (List.filterMap · e.order)
  funext n
  show ((e.graph.map f).nodes[n]?).map _ = _
  rw [Graph.map_node_at]
  cases e.graph.nodes[n]? <;> rfl

theorem mem_callees {e : Expression κ} {c : κ} :
    c ∈ e.callees ↔ ∃ n node, (n, node) ∈ e.nodes ∧ node.op = .call c := by
  rw [callees, List.mem_filterMap]
  constructor
  · rintro ⟨⟨n, node⟩, member, called⟩
    refine ⟨n, node, member, ?_⟩
    cases op : node.op with
    | prim p => simp [op, Op.callee?] at called
    | call d => simpa [op, Op.callee?] using called
  · rintro ⟨n, node, member, called⟩
    exact ⟨(n, node), member, by simp [called, Op.callee?]⟩

theorem callees_map (f : κ → ι) (e : Expression κ) : (e.map f).callees = e.callees.map f := by
  rw [callees, callees, nodes_map, List.filterMap_map, List.map_filterMap]
  apply congrArg (List.filterMap · e.nodes)
  funext ⟨n, op, inputs, outputs⟩
  cases op <;> rfl

end Expression

end ScalarFusion

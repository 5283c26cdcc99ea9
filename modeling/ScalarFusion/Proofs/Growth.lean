import Mathlib.Data.List.Forall2
import ScalarFusion.Proofs.Building

/-!
Growth of arenas under a policy, which says what leaves and what calls may be added. A build is
held to a policy step by step; what the policy gives of each addition then holds of all of them.
-/
namespace ScalarFusion

/-- What may be added to an arena besides applications of primitives. -/
structure Policy where
  leaf : Value → Prop
  call : Composite → List ScalarType → Prop

/-- The arenas that additions allowed by the policy make of `g`. -/
inductive Growth (p : Policy) (g : Arena) : Arena → Prop where
  | refl : Growth p g g
  | leaf {h : Arena} {x : Value} (before : Growth p g h) (unproduced : x.producer? = none)
      (allowed : p.leaf x) : Growth p g (h.pushValue x)
  | node {h : Arena} {op : Op Composite} {inputs : List ValueId} {types : List ScalarType}
      (before : Growth p g h) (known : h.Knows inputs) (nonempty : inputs = [] → op = .prim .mean)
      (typed : op.outputTypes (inputs.map h.typeOf) h.config = .ok types)
      (allowed : ∀ c, op = .call c → p.call c (inputs.map h.typeOf)) :
      Growth p g (h.pushNode op inputs types)

/-- The types of node outputs are those that the operation gives, and only means are of nothing. -/
structure Graph.Typed (g : Arena) : Prop where
  types : ∀ {n : NodeId} {node : Node Composite}, g.nodes[n]? = some node →
    node.op.outputTypes (node.inputs.map g.typeOf) g.config = .ok (node.outputs.map g.typeOf)
  nonempty : ∀ {n : NodeId} {node : Node Composite}, g.nodes[n]? = some node →
    node.inputs = [] → node.op = .prim .mean

theorem Primitive.admits_of_outputType {p : Primitive} {inputs : List ScalarType} {config : Config}
    {t : ScalarType} (typed : p.outputType inputs config = .ok t) :
    p.arity.admits inputs.length = true := by
  obtain ⟨_, admitted, -⟩ := bind_eq_ok typed
  unfold checkArity at admitted
  split at admitted
  · assumption
  · cases admitted

theorem Graph.Typed.primitive {g : Arena} (typed : g.Typed) {n : NodeId} {node : Node Composite}
    {p : Primitive} (here : g.nodes[n]? = some node) (applied : node.op = .prim p) :
    ∃ o, node.outputs = [o] ∧
      p.outputType (node.inputs.map g.typeOf) g.config = .ok (g.typeOf o) := by
  have types := typed.types here
  rw [applied, Op.outputTypes] at types
  obtain ⟨t, output, same⟩ := bind_eq_ok types
  have same' : [t] = node.outputs.map g.typeOf := Except.ok.inj same
  obtain ⟨o, only, rfl⟩ : ∃ o, node.outputs = [o] ∧ t = g.typeOf o := by
    match outputs : node.outputs, same' with
    | [o], same => exact ⟨o, rfl, by simpa using same⟩
  exact ⟨o, only, output⟩

theorem Graph.pushNode_types {κ : Type} (g : Graph κ) (op : Op κ) (inputs : List ValueId)
    (types : List ScalarType) :
    (List.range' g.values.size types.length).map (g.pushNode op inputs types).typeOf = types := by
  apply List.ext_getElem?
  intro k
  rw [List.getElem?_map]
  by_cases inside : k < types.length
  · rw [List.getElem?_range' inside]
    simp only [Nat.one_mul, Option.map_some, Graph.typeOf, Graph.pushNode_value_at]
    rw [if_neg (by omega)]
    simp [inside]
  · rw [List.getElem?_eq_none (by simpa using inside), List.getElem?_eq_none (by omega)]
    rfl

namespace Growth

variable {p q : Policy} {g h k : Arena}

theorem trans (first : Growth p g h) (second : Growth p h k) : Growth p g k := by
  induction second with
  | refl => exact first
  | leaf _ unproduced allowed ih => exact .leaf ih unproduced allowed
  | node _ known nonempty typed allowed ih => exact .node ih known nonempty typed allowed

theorem mono (grown : Growth p g h) (leaf : ∀ x, p.leaf x → q.leaf x)
    (call : ∀ c types, p.call c types → q.call c types) : Growth q g h := by
  induction grown with
  | refl => exact .refl
  | leaf _ unproduced allowed ih => exact .leaf ih unproduced (leaf _ allowed)
  | node _ known nonempty typed allowed ih =>
    exact .node ih known nonempty typed fun c called => call _ _ (allowed c called)

theorem toExtends (grown : Growth p g h) : g.Extends h := by
  induction grown with
  | refl => exact .refl g
  | leaf _ _ _ ih => exact ih.trans (Graph.extends_pushValue _ _)
  | node _ _ _ _ _ ih => exact ih.trans (Graph.extends_pushNode _ _ _ _)

theorem ordered (grown : Growth p g h) (start : g.Ordered) : h.Ordered := by
  induction grown with
  | refl => exact start
  | leaf _ unproduced _ ih => exact Graph.ordered_pushValue ih unproduced
  | node _ known _ _ _ ih => exact Graph.ordered_pushNode ih known

theorem node_cases (grown : Growth p g h) {n : NodeId} {node : Node Composite}
    (found : h.nodes[n]? = some node) (start : g.Ordered) :
    g.nodes[n]? = some node ∨
      ((node.inputs = [] → node.op = .prim .mean) ∧
        node.op.outputTypes (node.inputs.map h.typeOf) h.config = .ok (node.outputs.map h.typeOf) ∧
        ∀ c, node.op = .call c → p.call c (node.inputs.map h.typeOf)) := by
  induction grown generalizing n node with
  | refl => exact .inl found
  | @leaf h x before unproduced allowed ih =>
    have grown : h.Extends (h.pushValue x) := Graph.extends_pushValue h x
    have ordered := before.ordered start
    rcases ih found with old | ⟨nonempty, typed, called⟩
    · exact .inl old
    · rw [grown.map_typeOf (ordered.known found), grown.map_typeOf (ordered.knows_outputs found)]
      exact .inr ⟨nonempty, typed, called⟩
  | @node h op inputs types before known nonempty typed allowed ih =>
    have grown : h.Extends (h.pushNode op inputs types) := Graph.extends_pushNode h op inputs types
    have ordered := before.ordered start
    rw [Graph.pushNode_nodes, Array.getElem?_push] at found
    split at found
    · obtain rfl := Option.some.inj found
      simp only [grown.map_typeOf known, Graph.pushNode_types]
      exact .inr ⟨nonempty, typed, allowed⟩
    · rcases ih found with old | ⟨nonempty, typed, called⟩
      · exact .inl old
      · rw [grown.map_typeOf (ordered.known found), grown.map_typeOf (ordered.knows_outputs found)]
        exact .inr ⟨nonempty, typed, called⟩

theorem typed (grown : Growth p g h) (start : g.Ordered) (typed : g.Typed) : h.Typed := by
  have stable : ∀ {n : NodeId} {node : Node Composite}, g.nodes[n]? = some node →
      node.inputs.map h.typeOf = node.inputs.map g.typeOf ∧
        node.outputs.map h.typeOf = node.outputs.map g.typeOf := fun old =>
    ⟨grown.toExtends.map_typeOf (start.known old),
      grown.toExtends.map_typeOf (start.knows_outputs old)⟩
  constructor
  · intro n node found
    rcases grown.node_cases found start with old | ⟨-, types, -⟩
    · rw [(stable old).1, (stable old).2, grown.toExtends.config]
      exact typed.types old
    · exact types
  · intro n node found
    rcases grown.node_cases found start with old | ⟨nonempty, -, -⟩
    · exact typed.nonempty old
    · exact nonempty

theorem leaf_cases (grown : Growth p g h) {v : ValueId} {x : Value}
    (found : h.values[v]? = some x) (unproduced : x.producer? = none) :
    g.values[v]? = some x ∨ p.leaf x := by
  induction grown with
  | refl => exact .inl found
  | @leaf h y _ _ allowed ih =>
    rw [Graph.pushValue_values, Array.getElem?_push] at found
    split at found
    · obtain rfl := Option.some.inj found
      exact .inr allowed
    · exact ih found
  | @node h op inputs types _ _ _ _ _ ih =>
    rw [Graph.pushNode_value_at] at found
    split at found
    · exact ih found
    · obtain ⟨t, -, rfl⟩ := Option.map_eq_some_iff.mp found
      simp [Value.producer?] at unproduced

end Growth

namespace Build

variable {α β : Type} {p : Policy} {g h : Arena}

/-- A build only adds what the policy allows, and a result that it gives is as `post` says. -/
def Grows (p : Policy) (g : Arena) (b : Build α) (post : α → Arena → Prop) : Prop :=
  Growth p g (b.exec g).2 ∧ ∀ a, (b.exec g).1 = .ok a → post a (b.exec g).2

theorem Grows.of_ok {b : Build α} {post : α → Arena → Prop} {a : α} (grows : b.Grows p g post)
    (run : b.exec g = (.ok a, h)) : Growth p g h ∧ post a h := by
  obtain ⟨grown, result⟩ := grows
  rw [run] at grown result
  exact ⟨grown, result a rfl⟩

theorem Grows.weaken {b : Build α} {post weaker : α → Arena → Prop} (grows : b.Grows p g post)
    (implies : ∀ a h, Growth p g h → post a h → weaker a h) : b.Grows p g weaker :=
  ⟨grows.1, fun a success => implies a _ grows.1 (grows.2 a success)⟩

theorem grows_pure {a : α} {post : α → Arena → Prop} (holds : post a g) :
    (pure a : Build α).Grows p g post := by
  refine ⟨.refl, ?_⟩
  intro b success
  obtain rfl : a = b := by simpa using success
  exact holds

theorem grows_throw {e : Error} {post : α → Arena → Prop} :
    (throw e : Build α).Grows p g post := by
  refine ⟨.refl, ?_⟩
  simp

theorem grows_bind {b : Build α} {f : α → Build β} {post : β → Arena → Prop}
    (mid : α → Arena → Prop) (first : b.Grows p g mid)
    (second : ∀ a h, Growth p g h → mid a h → (f a).Grows p h post) :
    (b >>= f).Grows p g post := by
  obtain ⟨grown, result⟩ := first
  unfold Grows
  rw [exec_bind]
  rcases run : b.exec g with ⟨outcome, h⟩
  rw [run] at grown result
  cases outcome with
  | error e => exact ⟨grown, by simp⟩
  | ok a =>
    obtain ⟨rest, holds⟩ := second a h grown (result a rfl)
    exact ⟨grown.trans rest, holds⟩

theorem grows_look_bind {b : Build α} {f : α → Build β} {post : β → Arena → Prop} {a : α}
    (look : b.exec g = (.ok a, g)) (next : (f a).Grows p g post) : (b >>= f).Grows p g post := by
  unfold Grows
  rw [exec_bind_of_ok look]
  exact next

theorem grows_ofExcept_bind {x : Except Error α} {f : α → Build β} {post : β → Arena → Prop}
    (next : ∀ a, x = .ok a → (f a).Grows p g post) : (ofExcept x >>= f).Grows p g post := by
  refine grows_bind (fun a h => h = g ∧ x = .ok a) ⟨.refl, fun a found => ⟨rfl, found⟩⟩ ?_
  rintro a h - ⟨rfl, found⟩
  exact next a found

/-- The build succeeds, adds what the policy allows, and its result is as `post` says. -/
def Yields (p : Policy) (g : Arena) (b : Build α) (post : α → Arena → Prop) : Prop :=
  ∃ a h, b.exec g = (.ok a, h) ∧ Growth p g h ∧ post a h

theorem yields_pure {a : α} {post : α → Arena → Prop} (holds : post a g) :
    Yields p g (pure a) post :=
  ⟨a, g, rfl, .refl, holds⟩

theorem Yields.weaken {b : Build α} {post weaker : α → Arena → Prop} (yields : Yields p g b post)
    (implies : ∀ a h, Growth p g h → post a h → weaker a h) : Yields p g b weaker := by
  obtain ⟨a, h, run, growth, holds⟩ := yields
  exact ⟨a, h, run, growth, implies a h growth holds⟩

theorem yields_bind {b : Build α} {f : α → Build β} {post : β → Arena → Prop}
    (mid : α → Arena → Prop) (first : Yields p g b mid)
    (next : ∀ a h, Growth p g h → mid a h → Yields p h (f a) post) :
    Yields p g (b >>= f) post := by
  obtain ⟨a, h, run, growth, holds⟩ := first
  obtain ⟨c, k, run', growth', holds'⟩ := next a h growth holds
  exact ⟨c, k, by rw [exec_bind_of_ok run, run'], growth.trans growth', holds'⟩

theorem yields_look_bind {b : Build α} {f : α → Build β} {post : β → Arena → Prop} {a : α}
    (look : b.exec g = (.ok a, g)) (next : Yields p g (f a) post) : Yields p g (b >>= f) post := by
  obtain ⟨c, k, run, growth, holds⟩ := next
  exact ⟨c, k, by rw [exec_bind_of_ok look, run], growth, holds⟩

theorem yields_mapM {f : α → Build ValueId} {good : α → ValueId → Arena → Prop} (as : List α)
    (lasts : ∀ a v h k, good a v h → Growth p h k → good a v k)
    (each : ∀ a ∈ as, ∀ h, Growth p g h → Yields p h (f a) (good a)) :
    Yields p g (as.mapM f) fun vs h => List.Forall₂ (fun a v => good a v h) as vs := by
  induction as generalizing g with
  | nil => exact yields_pure .nil
  | cons a as ih =>
    rw [List.mapM_cons]
    refine yields_bind _ (each a (by simp) g .refl) ?_
    intro v h growth here
    refine yields_bind _ (ih fun b member k growth' =>
      each b (by simp [member]) k (growth.trans growth')) ?_
    intro vs k growth' rest
    exact yields_pure (.cons (lasts a v h k here growth') rest)

theorem grows_newValue {x : Value} (unproduced : x.producer? = none) (allowed : p.leaf x) :
    (newValue x).Grows p g fun v h => v = g.values.size ∧ h = g.pushValue x := by
  refine ⟨.leaf .refl unproduced allowed, ?_⟩
  intro v success
  exact ⟨by simpa [newValue] using success.symm, rfl⟩

theorem exec_apply_refused {op : Op Composite} (operands : op ≠ .prim .mean) (g : Arena) :
    (apply op []).exec g = (.error (.arity op.name (.atLeast 1) 0), g) := by
  unfold apply
  split
  · exact absurd rfl operands
  · rfl

theorem exec_apply {op : Op Composite} {inputs : List ValueId}
    (nonempty : inputs = [] → op = .prim .mean) (g : Arena) :
    (apply op inputs).exec g = match op.outputTypes (inputs.map g.typeOf) g.config with
      | .ok types => (.ok g.nodes.size, g.pushNode op inputs types)
      | .error e => (.error e, g) := by
  have opened : (apply op inputs).exec g = (do
      let types ← ofExcept (op.outputTypes (inputs.map g.typeOf) g.config)
      modifyGet fun g => (g.nodes.size, g.pushNode op inputs types) : Build NodeId).exec g := by
    cases inputs with
    | nil =>
      obtain rfl := nonempty rfl
      rfl
    | cons v vs => simp [apply, exec_bind]
  rw [opened, exec_bind]
  cases op.outputTypes (inputs.map g.typeOf) g.config <;> rfl

theorem exec_apply_ok {op : Op Composite} {inputs : List ValueId} {types : List ScalarType}
    (nonempty : inputs = [] → op = .prim .mean)
    (typed : op.outputTypes (inputs.map g.typeOf) g.config = .ok types) :
    (apply op inputs).exec g = (.ok g.nodes.size, g.pushNode op inputs types) := by
  rw [exec_apply nonempty, typed]

theorem grows_apply {op : Op Composite} {inputs : List ValueId} (known : g.Knows inputs)
    (allowed : ∀ c, op = .call c → p.call c (inputs.map g.typeOf)) :
    (apply op inputs).Grows p g fun n h => n = g.nodes.size ∧
      ∃ types, op.outputTypes (inputs.map g.typeOf) g.config = .ok types ∧
        h = g.pushNode op inputs types := by
  unfold Grows
  by_cases nonempty : inputs = [] → op = .prim .mean
  · rw [exec_apply nonempty]
    cases typed : op.outputTypes (inputs.map g.typeOf) g.config with
    | error e => exact ⟨.refl, by simp⟩
    | ok types =>
      refine ⟨.node .refl known nonempty typed allowed, ?_⟩
      intro n same
      exact ⟨by simpa using same.symm, types, rfl, rfl⟩
  · obtain ⟨rfl, operands⟩ : inputs = [] ∧ op ≠ .prim .mean := by simpa using nonempty
    rw [exec_apply_refused operands]
    exact ⟨.refl, by simp⟩

@[simp]
theorem exec_outputsOf (n : NodeId) (g : Arena) :
    (outputsOf n).exec g = (.ok (((g.nodes[n]?).map Node.outputs).getD []), g) := rfl

theorem exec_outputsOf_pushNode (op : Op Composite) (inputs : List ValueId)
    (types : List ScalarType) (g : Arena) :
    (outputsOf g.nodes.size).exec (g.pushNode op inputs types) =
      (.ok (List.range' g.values.size types.length), g.pushNode op inputs types) := by
  simp

theorem exec_apply1 {op : Op Composite} {inputs : List ValueId} {t : ScalarType}
    (nonempty : inputs = [] → op = .prim .mean)
    (typed : op.outputTypes (inputs.map g.typeOf) g.config = .ok [t]) :
    (apply1 op inputs).exec g = (.ok g.values.size, g.pushNode op inputs [t]) := by
  rw [apply1, exec_bind_of_ok (exec_apply_ok nonempty typed),
    exec_bind_of_ok (exec_outputsOf_pushNode op inputs [t] g)]
  rfl

theorem grows_outputs {op : Op Composite} {inputs : List ValueId} {n : NodeId}
    {types : List ScalarType} (here : n = g.nodes.size) :
    (outputsOf n).Grows p (g.pushNode op inputs types)
      fun outs h => outs = List.range' g.values.size types.length ∧ h.Knows outs ∧
        h = g.pushNode op inputs types := by
  subst here
  unfold Grows
  rw [exec_outputsOf_pushNode]
  refine ⟨.refl, ?_⟩
  intro outs same
  obtain rfl : List.range' g.values.size types.length = outs := by simpa using same
  refine ⟨rfl, ?_, rfl⟩
  intro v member
  have := (List.mem_range'_1.mp member).2
  simpa using this

end Build

end ScalarFusion

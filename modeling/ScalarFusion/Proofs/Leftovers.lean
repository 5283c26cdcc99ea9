import ScalarFusion.Proofs.Requirements
import ScalarFusion.Proofs.Retyping

/-!
What replaying leaves over. A node is replayed because one of its outputs is needed by a node still
to come or is an output of the expression, and a constant is copied only when it is. So whatever a
replay makes is taken in the end, or given as an output, provided that what is inlined on the way
takes all its arguments. An arena in which all is taken has no node that the walk does not meet.
-/
namespace ScalarFusion

namespace Graph

def Taken (g : Arena) (v : ValueId) : Prop :=
  ∃ (n : NodeId) (node : Node Composite), g.nodes[n]? = some node ∧ v ∈ node.inputs

inductive Made (g : Arena) : List ValueId → Prop where
  | node {n : NodeId} {node : Node Composite} (here : g.nodes[n]? = some node) :
      Made g node.outputs
  | constant {v : ValueId} {type : ScalarType} {literal : Literal} {name : Option String}
      (found : g.values[v]? = some ⟨type, .constant literal name⟩) : Made g [v]

/-- Whatever is made is taken, or is an output. -/
def KeptFor (g : Arena) (outputs : List ValueId) : Prop :=
  ∀ vs, g.Made vs → ∃ v ∈ vs, g.Taken v ∨ v ∈ outputs

def Heeds (g : Arena) (inputs outputs : List ValueId) : Prop :=
  ∀ v ∈ inputs, g.Taken v ∨ v ∈ outputs

/-- Of what `h` makes beyond `g`, and of what is pending before, something is taken in `h`, or it is
    pending after. What `h` calls beyond `g` is good. -/
structure Clears (P : Composite → Prop) (g h : Arena) (before after : List ValueId → Prop) :
    Prop where
  grown : g.Extends h
  calls : ∀ ⦃n : NodeId⦄ ⦃node : Node Composite⦄ ⦃c : Composite⦄, h.nodes[n]? = some node →
    node.op = .call c → g.nodes[n]? = some node ∨ P c
  made : ∀ vs, h.Made vs → g.Made vs ∨ (∃ v ∈ vs, h.Taken v) ∨ after vs
  cleared : ∀ vs, before vs → (∃ v ∈ vs, h.Taken v) ∨ after vs

variable {P : Composite → Prop} {g h k : Arena} {before middle after : List ValueId → Prop}

theorem Taken.grown {v : ValueId} (taken : g.Taken v) (grown : g.Extends h) : h.Taken v := by
  obtain ⟨n, node, here, operand⟩ := taken
  exact ⟨n, node, grown.node here, operand⟩

namespace Clears

theorem refl : Clears P g g before before where
  grown := .refl g
  calls _ _ _ found _ := .inl found
  made _ made := .inl made
  cleared _ pending := .inr pending

theorem trans (first : Clears P g h before middle) (second : Clears P h k middle after) :
    Clears P g k before after := by
  have onward : ∀ vs, (∃ v ∈ vs, h.Taken v) ∨ middle vs → (∃ v ∈ vs, k.Taken v) ∨ after vs := by
    intro vs settled
    rcases settled with ⟨v, member, taken⟩ | pending
    · exact .inl ⟨v, member, taken.grown second.grown⟩
    · exact second.cleared vs pending
  refine ⟨first.grown.trans second.grown, ?_, ?_, fun vs pending =>
    onward vs (first.cleared vs pending)⟩
  · intro n node c found called
    rcases second.calls found called with old | good
    · exact first.calls old called
    · exact .inr good
  · intro vs made
    rcases second.made vs made with old | settled
    · exact (first.made vs old).imp_right (onward vs)
    · exact .inr settled

theorem imp (clears : Clears P g h before after) {before' after' : List ValueId → Prop}
    (less : ∀ vs, before' vs → before vs) (more : ∀ vs, after vs → after' vs) :
    Clears P g h before' after' where
  grown := clears.grown
  calls := clears.calls
  made vs made := (clears.made vs made).imp_right (Or.imp_right (more vs))
  cleared vs pending := (clears.cleared vs (less vs pending)).imp_right (more vs)

theorem pushConstant (type : ScalarType) (literal : Literal) (name : Option String) :
    Clears P g (g.pushValue ⟨type, .constant literal name⟩) before
      fun vs => before vs ∨ vs = [g.values.size] := by
  refine ⟨g.extends_pushValue _, fun _ _ _ found _ => .inl found, ?_,
    fun _ pending => .inr (.inl pending)⟩
  intro vs made
  cases made with
  | node here => exact .inl (.node here)
  | constant found =>
    rw [pushValue_values, Array.getElem?_push] at found
    split at found
    · next new => exact .inr (.inr (.inr (by rw [new])))
    · exact .inl (.constant found)

theorem pushNode {op : Op Composite} (good : ∀ c, op = .call c → P c) (args : List ValueId)
    (types : List ScalarType) :
    Clears P g (g.pushNode op args types) (fun vs => ∃ a ∈ args, vs = [a])
      fun vs => ∀ o ∈ List.range' g.values.size types.length, o ∈ vs := by
  have nodeAt : ∀ {n : NodeId} {node : Node Composite},
      (g.pushNode op args types).nodes[n]? = some node →
        g.nodes[n]? = some node ∨
          node = ⟨op, args, List.range' g.values.size types.length⟩ := by
    intro n node found
    rw [pushNode_nodes, Array.getElem?_push] at found
    split at found
    · exact .inr (Option.some.inj found).symm
    · exact .inl found
  refine ⟨g.extends_pushNode op args types, ?_, ?_, ?_⟩
  · intro n node c found called
    rcases nodeAt found with old | rfl
    · exact .inl old
    · exact .inr (good c called)
  · intro vs made
    cases made with
    | node here =>
      rcases nodeAt here with old | rfl
      · exact .inl (.node old)
      · exact .inr (.inr fun o output => output)
    | constant found =>
      rw [pushNode_value_at] at found
      split at found
      · exact .inl (.constant found)
      · obtain ⟨_, -, new⟩ := Option.map_eq_some_iff.mp found
        simp at new
  · rintro vs ⟨a, operand, rfl⟩
    exact .inl ⟨a, by simp, _, _, g.pushNode_node_at op args types, operand⟩

end Clears

end Graph

namespace Expression

/-- The value is an output of the expression or an operand of a node still to come, and no such
    node computes it. -/
def Awaits (e : Expression Composite) (rest : List (NodeId × Node Composite)) (v : ValueId) :
    Prop :=
  (v ∈ e.outputs ∨ ∃ entry ∈ rest, v ∈ entry.2.inputs) ∧ ∀ entry ∈ rest, v ∉ entry.2.outputs

def Pending (e : Expression Composite) (rest : List (NodeId × Node Composite)) (t : Table ValueId)
    (vs : List ValueId) : Prop :=
  ∃ v w, e.Awaits rest v ∧ t.get? v = some w ∧ w ∈ vs

def Heeds {κ : Type} (e : Expression κ) : Prop :=
  ∀ v ∈ e.inputs, v ∈ e.outputs ∨ ∃ entry ∈ e.nodes, v ∈ entry.2.inputs

instance {κ : Type} (e : Expression κ) : Decidable e.Heeds :=
  inferInstanceAs
    (Decidable (∀ v ∈ e.inputs, v ∈ e.outputs ∨ ∃ entry ∈ e.nodes, v ∈ entry.2.inputs))

theorem heeds_map {κ ι : Type} (f : κ → ι) (e : Expression κ) : (e.map f).Heeds ↔ e.Heeds := by
  have users : ∀ v, (∃ entry ∈ (e.map f).nodes, v ∈ entry.2.inputs) ↔
      ∃ entry ∈ e.nodes, v ∈ entry.2.inputs := by
    intro v
    rw [nodes_map]
    simp only [List.mem_map, exists_exists_and_eq_and]
    rfl
  unfold Heeds
  simp only [users]
  rfl

variable {e : Expression Composite} {done rest : List (NodeId × Node Composite)}

theorem Pending.mono {t t' : Table ValueId} {vs : List ValueId} (pending : e.Pending rest t vs)
    (within : t.Within t') : e.Pending rest t' vs := by
  obtain ⟨v, w, awaited, image, member⟩ := pending
  exact ⟨v, w, awaited, within v w image, member⟩

theorem awaits_leaf {v : ValueId} (leaf : e.graph.Leaf v) (inside : ∀ entry ∈ rest, entry ∈ e.nodes)
    (needed : v ∈ e.outputs ∨ ∃ entry ∈ rest, v ∈ entry.2.inputs) : e.Awaits rest v := by
  refine ⟨needed, ?_⟩
  rintro ⟨n, node⟩ member
  exact leaf n node (mem_nodes.mp (inside _ member)).2

theorem names_of_scheduled {inputs : List ValueId} (scheduled : e.graph.Scheduled inputs e.order) :
    e.nodes.map Prod.fst = e.order := by
  rw [map_fst_nodes, List.filter_eq_self]
  intro n member
  obtain ⟨node, here⟩ := scheduled.exists_node member
  rw [here, Option.isSome_some]

theorem exists_awaited_output (ordered : e.graph.Ordered)
    (walks : e.graph.Walks e.inputs e.outputs [] e.order) {n : NodeId} {node : Node Composite}
    (split : e.nodes = done ++ (n, node) :: rest) : ∃ o ∈ node.outputs, e.Awaits rest o := by
  have scheduled := walks.scheduled .nil
  have names := names_of_scheduled scheduled
  rw [split, List.map_append, List.map_cons] at names
  obtain ⟨-, last, apart⟩ := List.nodup_append.mp (names ▸ scheduled.nodup)
  have listed : ∀ entry, entry ∈ e.nodes ↔ entry ∈ done ∨ entry = (n, node) ∨ entry ∈ rest := by
    simp [split]
  obtain ⟨member, here⟩ := mem_nodes.mp ((listed _).mpr (.inr (.inl rfl)))
  obtain ⟨o, type, k, required, beyond, found⟩ := walks.mem_iff.mp member
  obtain ⟨node', here', at_k⟩ := ordered.produced.mp ⟨type, found⟩
  obtain rfl := Option.some.inj (here.symm.trans here')
  have output := List.mem_of_getElem? at_k
  refine ⟨o, output, ?_, ?_⟩
  · cases required with
    | output given => exact .inl given
    | @operand v _ _ m _ user required' beyond' found' there operand =>
      -- the user is a node of the walk, and neither this one nor one before it
      have used : (m, user) ∈ e.nodes :=
        mem_nodes.mpr ⟨walks.mem_iff.mpr ⟨v, _, _, required', beyond', found'⟩, there⟩
      rcases (listed _).mp used with earlier | same | later
      · obtain ⟨first, between, before⟩ :=
          List.append_of_mem (List.mem_map_of_mem (f := Prod.fst) earlier)
        have producer : n ∈ first := scheduled.producersFirst first m
          (between ++ n :: rest.map Prod.fst) (by rw [← names, before]; simp) user there o operand
          beyond type n k found
        exact absurd rfl (apart n (by simp [before, producer]) n List.mem_cons_self)
      · obtain ⟨rfl, rfl⟩ := Prod.mk.inj same
        exact absurd (ordered.before here o o operand output) (Nat.lt_irrefl o)
      · exact .inr ⟨_, later, operand⟩
  · rintro ⟨m, user⟩ later output'
    have there := (mem_nodes.mp ((listed _).mpr (.inr (.inr later)))).2
    obtain rfl := ordered.producer_unique here there output output'
    obtain rfl := Option.some.inj (here.symm.trans there)
    exact (List.nodup_cons.mp last).1 (List.mem_map_of_mem (f := Prod.fst) later)

end Expression

namespace Build

variable {P : Composite → Prop} {σ : Specialiser} {e : Expression Composite} {g h : Arena}
  {τ : ScalarType → ScalarType} {t t' : Table ValueId}
  {place : NodeId → Op Composite → List ValueId → Build (List ValueId)}

theorem clears_resolve {rest : List (NodeId × Node Composite)} {v w : ValueId}
    (constant : ∀ type literal name, e.graph.values[v]? = some ⟨type, .constant literal name⟩ →
      e.Awaits rest v) (run : (resolve e.graph τ t v).exec g = (.ok (w, t'), h)) :
    Graph.Clears P g h (e.Pending rest t) (e.Pending rest t') ∧ t.Within t' ∧
      t'.get? v = some w := by
  unfold resolve at run
  split at run
  · next copy found =>
    obtain ⟨⟨rfl, rfl⟩, rfl⟩ : (copy = w ∧ t = t') ∧ g = h := by simpa using run
    exact ⟨.refl, .refl t, found⟩
  · next unset =>
    split at run
    · next type literal name source =>
      have awaited := constant type literal name source
      let x : Value := ⟨τ type, .constant (literal.cast (τ type)) name⟩
      have made : (newValue x).exec g = (.ok g.values.size, g.pushValue x) := rfl
      rw [exec_bind_of_ok made] at run
      obtain ⟨⟨rfl, rfl⟩, rfl⟩ : (g.values.size = w ∧ t.insert v g.values.size = t') ∧
        g.pushValue x = h := by simpa using run
      have within := Table.within_insert unset g.values.size
      have image : (t.insert v g.values.size).get? v = some g.values.size := by simp
      refine ⟨(Graph.Clears.pushConstant _ _ _).imp (fun _ pending => pending) ?_, within, image⟩
      rintro vs (old | rfl)
      · exact old.mono within
      · exact ⟨v, _, awaited, image, by simp⟩
    · cases run
    · cases run

theorem clears_resolveAll {rest : List (NodeId × Node Composite)} {vs ws : List ValueId}
    (constant : ∀ v ∈ vs, ∀ type literal name,
      e.graph.values[v]? = some ⟨type, .constant literal name⟩ → e.Awaits rest v)
    (run : (resolveAll e.graph τ vs t).exec g = (.ok (ws, t'), h)) :
    Graph.Clears P g h (e.Pending rest t) (e.Pending rest t') ∧ t.Within t' ∧ t'.Lists vs ws := by
  induction vs generalizing ws t g with
  | nil =>
    obtain ⟨⟨rfl, rfl⟩, rfl⟩ : ([] = ws ∧ t = t') ∧ g = h := by simpa [resolveAll] using run
    exact ⟨.refl, .refl t, rfl⟩
  | cons v vs ih =>
    rw [resolveAll] at run
    obtain ⟨⟨w, s⟩, k, first, run⟩ := exec_bind_ok run
    obtain ⟨⟨ws', s'⟩, k', second, last⟩ := exec_bind_ok run
    obtain ⟨⟨rfl, rfl⟩, rfl⟩ : (w :: ws' = ws ∧ s' = t') ∧ k' = h := by simpa using last
    obtain ⟨clears, within, image⟩ := clears_resolve (constant v (by simp)) first
    obtain ⟨clears', within', images⟩ := ih (fun u member => constant u (by simp [member])) second
    refine ⟨clears.trans clears', within.trans within', ?_⟩
    unfold Table.Lists at images ⊢
    rw [List.map_cons, List.map_cons, images, within' v w image]

/-- Placing takes the operands or passes them on as outputs, of which there are `count`. -/
def Passes (P : Composite → Prop) (place : List ValueId → Build (List ValueId)) (count : Nat) :
    Prop :=
  ∀ ⦃g h : Arena⦄ ⦃args outs : List ValueId⦄, (place args).exec g = (.ok outs, h) →
    Graph.Clears P g h (fun vs => ∃ a ∈ args, vs = [a]) (fun vs => ∀ o ∈ outs, o ∈ vs) ∧
      outs.length = count

theorem clears_replayNode (ordered : e.graph.Ordered)
    (walks : e.graph.Walks e.inputs e.outputs [] e.order)
    {done rest : List (NodeId × Node Composite)}
    {n : NodeId} {node : Node Composite} (split : e.nodes = done ++ (n, node) :: rest)
    (passes : Passes P (place n node.op) node.outputs.length)
    (run : (replayNode e τ place t (n, node)).exec g = (.ok t', h)) :
    Graph.Clears P g h (e.Pending ((n, node) :: rest) t) (e.Pending rest t') := by
  obtain ⟨⟨args, s⟩, k, first, run⟩ := exec_bind_ok run
  obtain ⟨outs, k', second, last⟩ := exec_bind_ok run
  obtain ⟨set, rfl⟩ : _ = t' ∧ k' = h := by simpa using last
  have here : e.graph.nodes[n]? = some node := (Expression.mem_nodes.mp (by simp [split])).2
  have inside : ∀ entry ∈ (n, node) :: rest, entry ∈ e.nodes := fun entry member => by
    rw [split]
    exact List.mem_append_right done member
  have constant : ∀ v ∈ node.inputs, ∀ type literal name,
      e.graph.values[v]? = some ⟨type, .constant literal name⟩ →
      e.Awaits ((n, node) :: rest) v := fun v operand _ _ _ found =>
    Expression.awaits_leaf ((ordered.leaf_iff found).mpr rfl) inside
      (.inr ⟨_, List.mem_cons_self, operand⟩)
  obtain ⟨clears, -, operands⟩ := clears_resolveAll (P := P) constant first
  obtain ⟨placed, length⟩ := passes second
  obtain ⟨lists, others⟩ := Table.lists_insert_zip (ordered.nodup_outputs here) outs length.symm s
  rw [set] at lists others
  -- where an operand passes through the node, the outputs are what is pending instead
  have handed : ∀ vs, (∀ o ∈ outs, o ∈ vs) → e.Pending rest t' vs := by
    intro vs all
    obtain ⟨o, output, awaited⟩ := Expression.exists_awaited_output ordered walks split
    obtain ⟨w, member, image⟩ := lists.mem output
    exact ⟨o, w, awaited, image, all w member⟩
  refine clears.trans ⟨placed.grown, placed.calls, fun vs made =>
    (placed.made vs made).imp_right (Or.imp_right (handed vs)), ?_⟩
  rintro vs ⟨v, w, ⟨needed, uncomputed⟩, image, member⟩
  by_cases operand : v ∈ node.inputs
  · obtain ⟨w', arg, image'⟩ := operands.mem operand
    obtain rfl := Option.some.inj (image.symm.trans image')
    rcases placed.cleared [w] ⟨w, arg, rfl⟩ with ⟨_, single, taken⟩ | passed
    · obtain rfl := List.mem_singleton.mp single
      exact .inl ⟨_, member, taken⟩
    · refine .inr (handed vs fun o output => ?_)
      rwa [List.mem_singleton.mp (passed o output)]
  · -- the node neither takes nor computes the value, so it stays awaited
    refine .inr ⟨v, w, ⟨?_, fun entry later => uncomputed entry (by simp [later])⟩, ?_, member⟩
    · rcases needed with given | ⟨entry, listed, used⟩
      · exact .inl given
      · rcases List.mem_cons.mp listed with rfl | later
        · exact absurd used operand
        · exact .inr ⟨entry, later, used⟩
    · rw [others v (uncomputed _ List.mem_cons_self), image]

theorem clears_replayNodes (ordered : e.graph.Ordered)
    (walks : e.graph.Walks e.inputs e.outputs [] e.order)
    {done rest : List (NodeId × Node Composite)}
    (split : e.nodes = done ++ rest)
    (passes : ∀ n node, (n, node) ∈ rest → Passes P (place n node.op) node.outputs.length)
    (run : (rest.foldlM (replayNode e τ place) t).exec g = (.ok t', h)) :
    Graph.Clears P g h (e.Pending rest t) (e.Pending [] t') := by
  induction rest generalizing done t g with
  | nil =>
    obtain ⟨rfl, rfl⟩ : t = t' ∧ g = h := by simpa using run
    exact .refl
  | cons entry rest ih =>
    rw [List.foldlM_cons] at run
    obtain ⟨s, k, first, run⟩ := exec_bind_ok run
    have here := clears_replayNode ordered walks split (passes entry.1 entry.2 (by simp)) first
    have split' : e.nodes = (done ++ [entry]) ++ rest := by simp [split]
    exact here.trans (ih split' (fun n node member => passes n node (by simp [member])) run)

/-- What a replay makes, and what it starts with for awaited values, is taken or given back. -/
theorem clears_replay (ordered : e.graph.Ordered)
    (walks : e.graph.Walks e.inputs e.outputs [] e.order)
    (passes : ∀ n node, (n, node) ∈ e.nodes → Passes P (place n node.op) node.outputs.length)
    {outs : List ValueId} (run : (replay e τ place t).exec g = (.ok outs, h)) :
    Graph.Clears P g h (e.Pending e.nodes t) (fun vs => ∃ o ∈ outs, o ∈ vs) ∧
      outs.length = e.outputs.length := by
  rw [replay_eq] at run
  obtain ⟨s, k, first, run⟩ := exec_bind_ok run
  obtain ⟨⟨outs', s'⟩, k', second, last⟩ := exec_bind_ok run
  obtain ⟨rfl, rfl⟩ : outs' = outs ∧ k' = h := by simpa using last
  have nodes := clears_replayNodes ordered walks (List.nil_append e.nodes).symm passes first
  have constant : ∀ v ∈ e.outputs, ∀ type literal name,
      e.graph.values[v]? = some ⟨type, .constant literal name⟩ → e.Awaits [] v :=
    fun v output _ _ _ found =>
      Expression.awaits_leaf ((ordered.leaf_iff found).mpr rfl) (by simp) (.inl output)
  obtain ⟨clears, -, images⟩ := clears_resolveAll (P := P) constant second
  refine ⟨(nodes.trans clears).imp (fun _ pending => pending) ?_, images.length.symm⟩
  rintro vs ⟨v, w, ⟨given | ⟨_, none, _⟩, -⟩, image, member⟩
  · obtain ⟨w', output, image'⟩ := images.mem given
    obtain rfl := Option.some.inj (image.symm.trans image')
    exact ⟨w, output, member⟩
  · cases none

theorem passes_placeWith (sound : σ.Sound P) {op : Op Composite} (good : ∀ c, op = .call c → P c) :
    Passes P (placeWith σ op) ((op.callee?.map Composite.outputCount).getD 1) := by
  intro g h args outs run
  rw [exec_placeWith_eq] at run
  cases placed : op.placement σ (args.map g.typeOf) g.config with
  | error e => simp [placed] at run
  | ok result =>
    obtain ⟨op', types⟩ := result
    obtain ⟨rfl, rfl⟩ : List.range' g.values.size types.length = outs ∧
      g.pushNode op' args types = h := by simpa [placed] using run
    obtain ⟨called, length⟩ := Op.placement_sound sound good placed
    rw [List.length_range']
    exact ⟨.pushNode (fun d same => (called d same).1) args types, length⟩

theorem passes_placeNode (sound : σ.Sound P) (typed : e.graph.Typed) (good : ∀ d ∈ e.callees, P d)
    {n : NodeId} {node : Node Composite} (member : (n, node) ∈ e.nodes) :
    Passes P (placeWith σ node.op) node.outputs.length := by
  rw [typed.length_outputs_eq (Expression.mem_nodes.mp member).2]
  exact passes_placeWith sound fun d called =>
    good d (Expression.mem_callees.mpr ⟨n, node, member, called⟩)

theorem clears_inlineWith (sound : σ.Sound P) {c : Composite} (sourced : c.body.Sourced)
    (good : ∀ d ∈ c.body.callees, P d) {args outs : List ValueId}
    (run : (inlineWith σ c args).exec g = (.ok outs, h)) :
    Graph.Clears P g h (c.body.Pending c.body.nodes (bindInputs c.inputs args))
        (fun vs => ∃ o ∈ outs, o ∈ vs) ∧
      outs.length = c.outputCount ∧ args.length = c.inputCount := by
  obtain ⟨_, k, checked, run⟩ := exec_bind_ok run
  rw [exec_ofExcept, Composite.checkArity_eq] at checked
  split at checked
  · next arity =>
    obtain rfl : g = k := (Prod.mk.inj checked).2
    obtain ⟨clears, length⟩ := clears_replay sourced.closed.ordered sourced.walks
      (fun _ _ member => passes_placeNode sound sourced.closed.typed good member) run
    exact ⟨clears, length, arity⟩
  · cases (Prod.mk.inj checked).1

end Build

namespace Expression.Sourced

variable {e : Expression Composite}

theorem leaf_input (sourced : e.Sourced) {v : ValueId} (input : v ∈ e.inputs) : e.graph.Leaf v := by
  obtain ⟨_, _, free⟩ := (sourced.closed.free v).mpr input
  exact (sourced.closed.ordered.leaf_iff free).mpr rfl

theorem pending_bindInputs (sourced : e.Sourced) (heeds : e.Heeds) {args : List ValueId}
    (lengths : e.inputs.length = args.length) {a : ValueId} (arg : a ∈ args) :
    e.Pending e.nodes (Build.bindInputs e.inputs args) [a] := by
  obtain ⟨lists, -⟩ := Build.lists_bindInputs sourced.closed.distinct lengths
  obtain ⟨v, input, image⟩ := lists.mem_right arg
  have awaited : e.Awaits e.nodes v :=
    awaits_leaf (sourced.leaf_input input) (fun _ member => member) (heeds v input)
  exact ⟨v, a, awaited, image, by simp⟩

end Expression.Sourced

structure Composite.Dissolves (P : Composite → Prop) (c : Composite) : Prop where
  sourced : c.body.Sourced
  callees : ∀ d ∈ c.body.callees, P d
  single : c.outputCount = 1
  heeds : c.body.Heeds

theorem Composite.Dissolves.passes {P : Composite → Prop} {σ : Specialiser} (sound : σ.Sound P)
    {c : Composite} (dissolves : c.Dissolves P) : Build.Passes P (Build.inlineWith σ c) 1 := by
  intro g h args outs run
  obtain ⟨clears, length, arity⟩ :=
    Build.clears_inlineWith sound dissolves.sourced dissolves.callees run
  rw [dissolves.single] at length
  refine ⟨clears.imp ?_ ?_, length⟩
  · rintro vs ⟨a, arg, rfl⟩
    exact dissolves.sourced.pending_bindInputs dissolves.heeds arity.symm arg
  · rintro vs ⟨o, output, member⟩ o' output'
    obtain ⟨only, rfl⟩ := List.length_eq_one_iff.mp length
    rw [List.mem_singleton] at output output'
    rwa [output', ← output]

structure Copy.Whole (copy : Copy) (P : Composite → Prop) : Prop where
  calls : copy.graph.Calls P
  kept : copy.graph.KeptFor copy.outputs

namespace Fresh

variable {config : Config} {g h : Arena} {news outs : List ValueId} {types : List ScalarType}
  {P : Composite → Prop} {before : List ValueId → Prop}

theorem not_made (fresh : Fresh { config } g news types) (vs : List ValueId) : ¬ g.Made vs := by
  have closed : g.Closed news := fresh.closed [] (Graph.closed_empty config)
  have nodes : g.nodes = #[] := fresh.nodes
  intro made
  cases made with
  | node here => simp [nodes] at here
  | @constant v _ _ _ found =>
    have inside := (Array.getElem?_eq_some_iff.mp found).1
    have input : v ∈ news := by
      rw [fresh.range, List.mem_range'_1]
      have := fresh.size
      simp only [List.size_toArray, List.length_nil] at this ⊢
      omega
    obtain ⟨_, _, free⟩ := (closed.free v).mpr input
    simp [found] at free

theorem whole (fresh : Fresh { config } g news types)
    (clears : Graph.Clears P g h before fun vs => ∃ o ∈ outs, o ∈ vs) :
    Copy.Whole ⟨h, news, outs⟩ P := by
  constructor
  · have nodes : g.nodes = #[] := fresh.nodes
    intro n node c found called
    rcases clears.calls found called with old | good
    · simp [nodes] at old
    · exact good
  · intro vs made
    rcases clears.made vs made with old | ⟨v, member, taken⟩ | ⟨o, output, member⟩
    · exact absurd old (fresh.not_made vs)
    · exact ⟨v, member, .inl taken⟩
    · exact ⟨o, member, .inr output⟩

end Fresh

theorem Graph.Clears.heeds {P : Composite → Prop} {g h : Arena} {before : List ValueId → Prop}
    {news outs : List ValueId} (clears : g.Clears P h before fun vs => ∃ o ∈ outs, o ∈ vs)
    (pending : ∀ v ∈ news, before [v]) : h.Heeds news outs := by
  intro v input
  rcases clears.cleared [v] (pending v input) with ⟨w, single, taken⟩ | ⟨o, output, single⟩
  · rw [List.mem_singleton.mp single] at taken
    exact .inl taken
  · rw [List.mem_singleton.mp single] at output
    exact .inr output

namespace Expression

variable {e : Expression Composite} {P : Composite → Prop}

theorem rebuild_whole {config : Config} {τ : ScalarType → ScalarType}
    {place : NodeId → Op Composite → List ValueId → Build (List ValueId)}
    (ordered : e.graph.Ordered) (walks : e.graph.Walks e.inputs e.outputs [] e.order)
    (passes : ∀ n node, (n, node) ∈ e.nodes → Build.Passes P (place n node.op) node.outputs.length)
    {copy : Copy} (success : e.rebuild config τ place = .ok copy) :
    copy.Whole P ∧ (e.Sourced → e.Heeds → copy.graph.Heeds copy.inputs copy.outputs) := by
  obtain ⟨⟨⟨news, outs⟩, graph⟩, run, final⟩ := bind_eq_ok success
  obtain rfl := Except.ok.inj final
  obtain ⟨g, fresh, length, rest⟩ := Build.exists_fresh e.graph (by simp [inputTypes]) run
  obtain ⟨clears, -⟩ := Build.clears_replay ordered walks passes rest
  refine ⟨fresh.whole clears, ?_⟩
  intro sourced heeds
  exact clears.heeds fun v input => sourced.pending_bindInputs heeds length.symm input

namespace Sourced

theorem mem_order (sourced : e.Sourced) (kept : e.graph.KeptFor e.outputs) {n : NodeId}
    {node : Node Composite} (here : e.graph.nodes[n]? = some node) : n ∈ e.order := by
  have ordered := sourced.closed.ordered
  -- a node that takes an output comes later, so the induction goes from the last node down
  induction rank : e.graph.nodes.size - n using Nat.strongRecOn generalizing n node with
  | ind _ ih =>
    obtain ⟨o, output, reached⟩ := kept _ (.node here)
    obtain ⟨k, at_k⟩ := List.getElem?_of_mem output
    obtain ⟨type, found⟩ := ordered.produced.mpr ⟨node, here, at_k⟩
    have beyond : o ∉ e.inputs := fun input => sourced.leaf_input input n node here output
    refine sourced.walks.mem_iff.mpr ⟨o, type, k, ?_, beyond, found⟩
    rcases reached with ⟨m, user, there, operand⟩ | given
    · have later := ordered.layered here there o output operand
      have inside := (Array.getElem?_eq_some_iff.mp here).1
      have met := ih _ (rank ▸ Nat.sub_lt_sub_left inside later) there rfl
      obtain ⟨v, _, _, required, beyond', found'⟩ := sourced.walks.mem_iff.mp met
      exact .operand required beyond' found' there operand
    · exact .output given

theorem exists_user (sourced : e.Sourced) (kept : e.graph.KeptFor e.outputs) {v : ValueId}
    (taken : e.graph.Taken v) : ∃ entry ∈ e.nodes, v ∈ entry.2.inputs := by
  obtain ⟨n, node, here, operand⟩ := taken
  exact ⟨(n, node), mem_nodes.mpr ⟨sourced.mem_order kept here, here⟩, operand⟩

theorem mem_values_of_kept (sourced : e.Sourced) (kept : e.graph.KeptFor e.outputs) {v : Nat}
    (known : v < e.graph.values.size) : v ∈ e.values := by
  have found : e.graph.values[v]? = some e.graph.values[v] := Array.getElem?_eq_getElem known
  generalize e.graph.values[v] = x at found
  obtain ⟨type, source⟩ := x
  cases source with
  | free name => exact mem_values.mpr (.inl ((sourced.closed.free v).mp ⟨type, name, found⟩))
  | constant literal name =>
    obtain ⟨w, single, reached⟩ := kept [v] (.constant found)
    obtain rfl := List.mem_singleton.mp single
    rcases reached with taken | given
    · obtain ⟨entry, inside, operand⟩ := sourced.exists_user kept taken
      exact mem_values.mpr (.inr (.inl ⟨entry, inside, .inl operand⟩))
    · exact mem_values.mpr (.inr (.inr given))
  | output n k =>
    obtain ⟨node, here, at_k⟩ := sourced.closed.ordered.produced.mp ⟨type, found⟩
    have inside : (n, node) ∈ e.nodes := mem_nodes.mpr ⟨sourced.mem_order kept here, here⟩
    exact mem_values.mpr (.inr (.inl ⟨_, inside, .inr (List.mem_of_getElem? at_k)⟩))

theorem heeds_of_kept (sourced : e.Sourced) (kept : e.graph.KeptFor e.outputs)
    (heeds : e.graph.Heeds e.inputs e.outputs) : e.Heeds := by
  intro v input
  rcases heeds v input with taken | given
  · exact .inr (sourced.exists_user kept taken)
  · exact .inl given

end Sourced

end Expression

end ScalarFusion

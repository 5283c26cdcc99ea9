import Mathlib.Algebra.BigOperators.Group.Finset.Basic
import ScalarFusion.Proofs.Walking

/-!
The ancestors of values. The search for them empties its stack, since the operands of a node are
pushed once at most, and what it has seen then is closed under going back to producers.
-/
namespace ScalarFusion

namespace Graph

variable {κ : Type} {g h : Graph κ} {values boundary : List ValueId}

def outputsAt (g : Graph κ) (n : NodeId) : List ValueId :=
  ((g.nodes[n]?).map Node.outputs).getD []

theorem outputsAt_of_node {n : NodeId} {node : Node κ} (here : g.nodes[n]? = some node) :
    g.outputsAt n = node.outputs := by
  simp [outputsAt, here]

def Leaf (g : Graph κ) (v : ValueId) : Prop :=
  ∀ (n : NodeId) (node : Node κ), g.nodes[n]? = some node → v ∉ node.outputs

theorem Ordered.producer_unique (ordered : g.Ordered) {m n : NodeId} {a b : Node κ}
    (here : g.nodes[m]? = some a) (there : g.nodes[n]? = some b) {v : ValueId}
    (output : v ∈ a.outputs) (output' : v ∈ b.outputs) : m = n := by
  obtain ⟨j, at_j⟩ := List.getElem?_of_mem output
  obtain ⟨k, at_k⟩ := List.getElem?_of_mem output'
  obtain ⟨s, found⟩ := ordered.produced.mpr ⟨a, here, at_j⟩
  obtain ⟨t, found'⟩ := ordered.produced.mpr ⟨b, there, at_k⟩
  rw [found] at found'
  simp only [Option.some.injEq, Value.mk.injEq, Source.output.injEq] at found'
  exact found'.2.1

theorem Ordered.leaf_iff (ordered : g.Ordered) {v : ValueId} {x : Value}
    (found : g.values[v]? = some x) : g.Leaf v ↔ x.producer? = none := by
  obtain ⟨type, source⟩ := x
  constructor
  · intro leaf
    cases source with
    | free name => rfl
    | constant literal name => rfl
    | output n k =>
      obtain ⟨node, here, output⟩ := ordered.produced.mp ⟨type, found⟩
      exact absurd (List.mem_of_getElem? output) (leaf n node here)
  · intro unproduced n node here output
    obtain ⟨k, at_k⟩ := List.getElem?_of_mem output
    obtain ⟨t, found'⟩ := ordered.produced.mpr ⟨node, here, at_k⟩
    rw [found] at found'
    obtain rfl := (Value.mk.inj (Option.some.inj found')).2
    simp [Value.producer?] at unproduced

theorem Extends.node_of_output (grown : g.Extends h) (ordered : g.Ordered) (ordered' : h.Ordered)
    {n : NodeId} {node : Node κ} (here : h.nodes[n]? = some node) {v : Nat}
    (output : v ∈ node.outputs) (known : v < g.values.size) : g.nodes[n]? = some node := by
  obtain ⟨k, at_k⟩ := List.getElem?_of_mem output
  obtain ⟨t, found⟩ := ordered'.produced.mpr ⟨node, here, at_k⟩
  have before : g.values[v]? = some g.values[v] := Array.getElem?_eq_getElem known
  have same : g.values[v] = ⟨t, .output n k⟩ :=
    Option.some.inj ((grown.value before).symm.trans found)
  obtain ⟨node', there, -⟩ := ordered.produced.mp ⟨t, same ▸ before⟩
  obtain rfl := Option.some.inj (here.symm.trans (grown.node there))
  exact there

def Reached (g : Graph κ) (values : List ValueId) (nodes : List NodeId) (v : ValueId) : Prop :=
  v ∈ values ∨ ∃ m ∈ nodes, ∃ node, g.nodes[m]? = some node ∧ v ∈ node.inputs

def Met (g : Graph κ) (values boundary : List ValueId) (nodes : List NodeId) (n : NodeId) : Prop :=
  ∃ node o, g.nodes[n]? = some node ∧ o ∈ node.outputs ∧ o ∉ boundary ∧ g.Reached values nodes o

theorem Reached.mono {ns ns' : List NodeId} {v : ValueId} (reached : g.Reached values ns v)
    (more : ∀ n ∈ ns, n ∈ ns') : g.Reached values ns' v := by
  rcases reached with start | ⟨m, member, there⟩
  · exact .inl start
  · exact .inr ⟨m, more m member, there⟩

theorem Met.mono {ns ns' : List NodeId} {n : NodeId} (met : g.Met values boundary ns n)
    (more : ∀ m ∈ ns, m ∈ ns') : g.Met values boundary ns' n := by
  obtain ⟨node, o, here, output, beyond, reached⟩ := met
  exact ⟨node, o, here, output, beyond, reached.mono more⟩

theorem operandsOf_of_node {n : NodeId} {node : Node κ} (here : g.nodes[n]? = some node) :
    g.operandsOf n = node.inputs := by
  rw [operandsOf, here]
  rfl

theorem Ordered.producer?_iff (ordered : g.Ordered) {v : ValueId} {n : NodeId} :
    g.producer? v = some n ↔ ∃ node, g.nodes[n]? = some node ∧ v ∈ node.outputs := by
  constructor
  · intro produced
    obtain ⟨⟨type, source⟩, found, source_eq⟩ := Option.bind_eq_some_iff.mp produced
    cases source with
    | free name => simp [Value.producer?] at source_eq
    | constant literal name => simp [Value.producer?] at source_eq
    | output m k =>
      obtain rfl : m = n := by simpa [Value.producer?] using source_eq
      obtain ⟨node, here, output⟩ := ordered.produced.mp ⟨type, found⟩
      exact ⟨node, here, List.mem_of_getElem? output⟩
  · rintro ⟨node, here, output⟩
    obtain ⟨k, at_k⟩ := List.getElem?_of_mem output
    obtain ⟨type, found⟩ := ordered.produced.mpr ⟨node, here, at_k⟩
    exact Option.bind_eq_some_iff.mpr ⟨_, found, rfl⟩

def found (g : Graph κ) (seen : Table Unit) : List NodeId :=
  (List.range g.nodes.size).filter seen.contains

theorem mem_found {seen : Table Unit} {n : NodeId} :
    n ∈ g.found seen ↔ n < g.nodes.size ∧ seen.contains n = true := by
  rw [found, List.mem_filter, List.mem_range]

theorem found_insert {seen : Table Unit} {n m : NodeId} (inside : n < g.nodes.size) :
    m ∈ g.found (seen.insert n ()) ↔ m = n ∨ m ∈ g.found seen := by
  rw [mem_found, mem_found, Table.contains_insert]
  constructor
  · rintro ⟨small, rfl | old⟩
    · exact .inl rfl
    · exact .inr ⟨small, old⟩
  · rintro (rfl | ⟨small, old⟩)
    · exact ⟨inside, .inl rfl⟩
    · exact ⟨small, .inr old⟩

theorem reached_of_insert {seen : Table Unit} {n : NodeId} {node : Node κ}
    (here : g.nodes[n]? = some node) {v : ValueId}
    (reached : g.Reached values (g.found (seen.insert n ())) v) :
    g.Reached values (g.found seen) v ∨ v ∈ node.inputs := by
  rcases reached with start | ⟨m, member, user, there, input⟩
  · exact .inl (.inl start)
  · rcases (found_insert (Array.getElem?_eq_some_iff.mp here).1).mp member with rfl | old
    · obtain rfl := Option.some.inj (here.symm.trans there)
      exact .inr input
    · exact .inl (.inr ⟨m, old, user, there, input⟩)

theorem unseen?_eq_some {seen : Table Unit} {v : ValueId} {n : NodeId} :
    g.unseen? boundary seen v = some n ↔
      v ∉ boundary ∧ g.producer? v = some n ∧ seen.contains n = false := by
  by_cases member : v ∈ boundary
  · simp [unseen?, member]
  · simp [unseen?, member, Option.filter_eq_some_iff]

theorem unseen?_insert {seen : Table Unit} {v : ValueId} (none : g.unseen? boundary seen v = none)
    (n : NodeId) : g.unseen? boundary (seen.insert n ()) v = .none := by
  rw [Option.eq_none_iff_forall_ne_some] at none ⊢
  intro m unseen
  obtain ⟨beyond, produced, fresh⟩ := unseen?_eq_some.mp unseen
  refine none m (unseen?_eq_some.mpr ⟨beyond, produced, ?_⟩)
  rw [Bool.eq_false_iff] at fresh ⊢
  exact fun old => fresh ((Table.contains_insert _ _ _ _).mpr (.inr old))

theorem unseen?_insert_of_producer {seen : Table Unit} {v : ValueId} {n : NodeId}
    (produced : g.producer? v = some n) : g.unseen? boundary (seen.insert n ()) v = none := by
  rw [Option.eq_none_iff_forall_ne_some]
  intro m unseen
  obtain ⟨-, produced', fresh⟩ := unseen?_eq_some.mp unseen
  obtain rfl := Option.some.inj (produced.symm.trans produced')
  rw [(Table.contains_insert _ _ _ _).mpr (.inl rfl)] at fresh
  exact absurd fresh (by decide)

/-- The state of a search: what is on the stack is reached, every node that was seen is met, and a
    value that is reached is on the stack or has nothing to add. -/
structure Searched (g : Graph κ) (values boundary stack : List ValueId) (seen : Table Unit) :
    Prop where
  reached : ∀ v ∈ stack, g.Reached values (g.found seen) v
  met : ∀ n ∈ g.found seen, g.Met values boundary (g.found seen) n
  settled : ∀ v, g.Reached values (g.found seen) v → v ∈ stack ∨ g.unseen? boundary seen v = none

namespace Searched

variable {stack : List ValueId} {seen : Table Unit} {v : ValueId}

theorem start (g : Graph κ) (values boundary : List ValueId) :
    g.Searched values boundary values.reverse .empty := by
  have nothing : g.found .empty = [] := by simp [found]
  refine ⟨fun v member => .inl (List.mem_reverse.mp member), by simp [nothing], ?_⟩
  rintro v (start | ⟨m, member, -⟩)
  · exact .inl (List.mem_reverse.mpr start)
  · simp [nothing] at member

theorem pop (searched : g.Searched values boundary (v :: stack) seen)
    (none : g.unseen? boundary seen v = none) : g.Searched values boundary stack seen := by
  refine ⟨fun u member => searched.reached u (List.mem_cons_of_mem v member), searched.met, ?_⟩
  intro u reached
  rcases searched.settled u reached with member | settled
  · rcases List.mem_cons.mp member with rfl | member
    · exact .inr none
    · exact .inl member
  · exact .inr settled

theorem push (searched : g.Searched values boundary (v :: stack) seen) (ordered : g.Ordered)
    {n : NodeId} (unseen : g.unseen? boundary seen v = some n) :
    g.Searched values boundary ((g.operandsOf n).reverse ++ stack) (seen.insert n ()) := by
  obtain ⟨beyond, produced, -⟩ := unseen?_eq_some.mp unseen
  obtain ⟨node, here, output⟩ := ordered.producer?_iff.mp produced
  have inside := (Array.getElem?_eq_some_iff.mp here).1
  have more : ∀ m ∈ g.found seen, m ∈ g.found (seen.insert n ()) :=
    fun m old => (found_insert inside).mpr (.inr old)
  have new : n ∈ g.found (seen.insert n ()) := (found_insert inside).mpr (.inl rfl)
  rw [operandsOf_of_node here]
  refine ⟨?_, ?_, ?_⟩
  · intro u member
    rcases List.mem_append.mp member with operand | old
    · exact .inr ⟨n, new, node, here, List.mem_reverse.mp operand⟩
    · exact (searched.reached u (List.mem_cons_of_mem v old)).mono more
  · intro m member
    rcases (found_insert inside).mp member with rfl | old
    · exact ⟨node, v, here, output, beyond, (searched.reached v List.mem_cons_self).mono more⟩
    · exact (searched.met m old).mono more
  · -- what the new node reaches is pushed, and `v` itself has nothing to add any more
    intro u reached
    rcases reached_of_insert here reached with reached | input
    · rcases searched.settled u reached with member | settled
      · rcases List.mem_cons.mp member with rfl | member
        · exact .inr (unseen?_insert_of_producer produced)
        · exact .inl (List.mem_append_right _ member)
      · exact .inr (unseen?_insert settled n)
    · exact .inl (List.mem_append_left _ (List.mem_reverse.mpr input))

end Searched

def unseenOperands (g : Graph κ) (seen : Table Unit) : Nat :=
  ∑ n ∈ Finset.range g.nodes.size, if seen.contains n then 0 else (g.operandsOf n).length

theorem unseenOperands_empty (g : Graph κ) : g.unseenOperands .empty = g.operandCount := by
  simp only [unseenOperands, Table.contains_empty, Bool.false_eq_true, if_false]
  rw [operandCount, List.length_flatMap]
  rfl

theorem unseenOperands_insert {seen : Table Unit} {n : NodeId} (inside : n < g.nodes.size)
    (fresh : seen.contains n = false) :
    g.unseenOperands seen = (g.operandsOf n).length + g.unseenOperands (seen.insert n ()) := by
  have member : n ∈ Finset.range g.nodes.size := Finset.mem_range.mpr inside
  have taken : (seen.insert n ()).contains n = true := (Table.contains_insert _ _ _ _).mpr (.inl rfl)
  unfold unseenOperands
  rw [← Finset.add_sum_erase _ _ member, ← Finset.add_sum_erase _ _ member, fresh, taken]
  simp only [Bool.false_eq_true, if_false, if_true, Nat.zero_add, Nat.add_left_cancel_iff]
  refine Finset.sum_congr rfl fun m other => ?_
  have kept : (seen.insert n ()).contains m = seen.contains m := by
    rw [Bool.eq_iff_iff, Table.contains_insert, or_iff_right (Finset.ne_of_mem_erase other).symm]
  rw [kept]

/-- The fuel of a search is enough to empty the stack. -/
theorem searched_search (ordered : g.Ordered) {stack : List ValueId} {seen : Table Unit} {fuel : Nat}
    (searched : g.Searched values boundary stack seen)
    (enough : stack.length + g.unseenOperands seen ≤ fuel) :
    g.Searched values boundary [] (g.search boundary fuel stack seen) := by
  induction fuel generalizing stack seen with
  | zero =>
    obtain rfl := List.eq_nil_of_length_eq_zero (show stack.length = 0 by omega)
    exact searched
  | succ fuel ih =>
    cases stack with
    | nil => exact searched
    | cons v stack =>
      rw [List.length_cons] at enough
      rw [search]
      cases unseen : g.unseen? boundary seen v with
      | none => exact ih (searched.pop unseen) (by omega)
      | some n =>
        obtain ⟨-, produced, fresh⟩ := unseen?_eq_some.mp unseen
        obtain ⟨node, here, -⟩ := ordered.producer?_iff.mp produced
        have fewer := unseenOperands_insert (Array.getElem?_eq_some_iff.mp here).1 fresh
        refine ih (searched.push ordered unseen) ?_
        rw [List.length_append, List.length_reverse]
        omega

theorem searched_ancestors (ordered : g.Ordered) (values boundary : List ValueId) :
    ∃ seen, g.Searched values boundary [] seen ∧ g.ancestors values boundary = g.found seen := by
  refine ⟨_, searched_search ordered (.start g values boundary) (Nat.le_of_eq ?_), rfl⟩
  rw [List.length_reverse, unseenOperands_empty]

theorem ancestors_ascending (g : Graph κ) (values boundary : List ValueId) :
    (g.ancestors values boundary).Pairwise (· < ·) :=
  List.pairwise_lt_range.filter _

theorem mem_ancestors (ordered : g.Ordered) (values boundary : List ValueId) {n : NodeId} :
    n ∈ g.ancestors values boundary ↔ g.Met values boundary (g.ancestors values boundary) n := by
  obtain ⟨seen, searched, ancestors⟩ := searched_ancestors ordered values boundary
  rw [ancestors]
  constructor
  · exact searched.met n
  · rintro ⟨node, o, here, output, beyond, reached⟩
    have settled := (searched.settled o reached).resolve_left List.not_mem_nil
    by_contra missing
    have fresh : seen.contains n = false := by
      rw [Bool.eq_false_iff]
      exact fun old => missing (mem_found.mpr ⟨(Array.getElem?_eq_some_iff.mp here).1, old⟩)
    have unseen := unseen?_eq_some.mpr ⟨beyond, ordered.producer?_iff.mpr ⟨node, here, output⟩, fresh⟩
    simp [settled] at unseen

/-- A sweep that starts among some values stays there, if the operands of every node that has such
    an output beyond the boundary are there too. -/
theorem Ordered.reached_within (ordered : g.Ordered) {values boundary : List ValueId}
    {region : ValueId → Prop} (start : ∀ v ∈ values, region v)
    (inputs : ∀ {n : NodeId} {node : Node κ}, g.nodes[n]? = some node →
      ∀ o ∈ node.outputs, region o → o ∉ boundary → ∀ v ∈ node.inputs, region v) {v : Nat}
    (reached : g.Reached values (g.ancestors values boundary) v) : region v := by
  -- what is reached through a node is below what that node is reached by
  induction gap : g.values.size - v using Nat.strongRecOn generalizing v with
  | ind gap ih =>
    rcases reached with first | ⟨m, member, node, here, input⟩
    · exact start v first
    · obtain ⟨node', o, here', output, beyond, reached'⟩ :=
        (mem_ancestors ordered values boundary).mp member
      obtain rfl := Option.some.inj (here.symm.trans here')
      have below := ordered.before here v o input output
      have known := ordered.knows_outputs here o output
      exact inputs here o output (ih (g.values.size - o) (by omega) reached' rfl) beyond v input

end Graph

end ScalarFusion

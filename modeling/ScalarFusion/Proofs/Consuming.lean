import ScalarFusion.Composite.Fusion
import ScalarFusion.Proofs.Walking

/-!
The values of an expression, the nodes that use them, and what these say about the calls that
fusion dissolves.
-/
namespace ScalarFusion

namespace Expression

def Seen (seen : Table Unit × Array ValueId) : Prop :=
  ∀ v, seen.1.contains v = true ↔ v ∈ seen.2

theorem seen_see {seen : Table Unit × Array ValueId} (agree : Seen seen) (v : ValueId) :
    Seen (see seen v) ∧ ∀ u, u ∈ (see seen v).2 ↔ u ∈ seen.2 ∨ u = v := by
  unfold see
  split
  · next before =>
    refine ⟨agree, fun u => ⟨.inl, ?_⟩⟩
    rintro (old | rfl)
    · exact old
    · exact (agree u).mp before
  · constructor
    · intro u
      rw [Table.contains_insert, agree u, Array.mem_push, or_comm, eq_comm]
    · exact fun u => Array.mem_push

theorem seen_foldl {seen : Table Unit × Array ValueId} (agree : Seen seen) (vs : List ValueId) :
    Seen (vs.foldl see seen) ∧ ∀ u, u ∈ (vs.foldl see seen).2 ↔ u ∈ seen.2 ∨ u ∈ vs := by
  induction vs generalizing seen with
  | nil => exact ⟨agree, by simp⟩
  | cons v vs ih =>
    obtain ⟨agree', more⟩ := seen_see agree v
    obtain ⟨final, rest⟩ := ih agree'
    refine ⟨final, fun u => ?_⟩
    rw [List.foldl_cons, rest, more, List.mem_cons, or_assoc]

theorem seen_foldl_nodes {κ : Type} {seen : Table Unit × Array ValueId} (agree : Seen seen)
    (entries : List (NodeId × Node κ)) :
    let after := entries.foldl (fun seen entry =>
      entry.2.outputs.foldl see (entry.2.inputs.foldl see seen)) seen
    Seen after ∧ ∀ u, u ∈ after.2 ↔
      u ∈ seen.2 ∨ ∃ entry ∈ entries, u ∈ entry.2.inputs ∨ u ∈ entry.2.outputs := by
  induction entries generalizing seen with
  | nil => exact ⟨agree, by simp⟩
  | cons entry entries ih =>
    obtain ⟨agree', inputs⟩ := seen_foldl agree entry.2.inputs
    obtain ⟨agree'', outputs⟩ := seen_foldl agree' entry.2.outputs
    obtain ⟨final, rest⟩ := ih agree''
    refine ⟨final, fun u => ?_⟩
    rw [List.foldl_cons, rest, outputs, inputs]
    simp only [List.mem_cons, exists_eq_or_imp, or_assoc]

theorem mem_values {κ : Type} {e : Expression κ} {v : ValueId} : v ∈ e.values ↔
    v ∈ e.inputs ∨ (∃ entry ∈ e.nodes, v ∈ entry.2.inputs ∨ v ∈ entry.2.outputs) ∨
      v ∈ e.outputs := by
  have start : Seen (.empty, #[]) := fun u => by simp
  obtain ⟨agree, inputs⟩ := seen_foldl start e.inputs
  obtain ⟨agree', inner⟩ := seen_foldl_nodes agree e.nodes
  obtain ⟨-, outputs⟩ := seen_foldl agree' e.outputs
  rw [values, Array.mem_toList_iff, outputs, inner, inputs]
  simp [or_assoc]

def users {κ : Type} (e : Expression κ) (v : ValueId) : List NodeId :=
  e.order.filter fun n => (e.graph.nodes[n]?).any fun node => node.inputs.contains v

theorem users_eq {κ : Type} (e : Expression κ) (v : ValueId) :
    e.users v = (e.nodes.filter fun entry => entry.2.inputs.contains v).map Prod.fst := by
  unfold users nodes
  induction e.order with
  | nil => rfl
  | cons n order ih =>
    rw [List.filter_cons, List.filterMap_cons, ih]
    cases found : e.graph.nodes[n]? with
    | none => simp
    | some node => by_cases used : v ∈ node.inputs <;> simp [used]

theorem get_addConsumers (n : NodeId) (inputs : List ValueId) (t : Table (List NodeId)) (v : ValueId) :
    ((inputs.foldl (addConsumer n) t).get? v).getD [] =
      if v ∈ inputs ∧ n ∉ (t.get? v).getD [] then (t.get? v).getD [] ++ [n]
      else (t.get? v).getD [] := by
  induction inputs generalizing t with
  | nil => simp
  | cons u inputs ih =>
    have step : ((addConsumer n t u).get? v).getD [] =
        if u = v ∧ n ∉ (t.get? v).getD [] then (t.get? v).getD [] ++ [n]
        else (t.get? v).getD [] := by
      unfold addConsumer
      by_cases same : u = v
      · subst same
        by_cases present : n ∈ (t.get? u).getD [] <;> simp [present]
      · simp only [same, false_and, if_false]
        split
        · rfl
        · rw [Table.get?_insert, if_neg same]
    rw [List.foldl_cons, ih, step]
    by_cases present : n ∈ (t.get? v).getD []
    · simp [present]
    · by_cases same : u = v
      · simp [present, same]
      · by_cases later : v ∈ inputs <;> simp [present, same, later, Ne.symm same]

theorem map_fst_nodes {κ : Type} (e : Expression κ) :
    e.nodes.map Prod.fst = e.order.filter fun n => (e.graph.nodes[n]?).isSome := by
  unfold nodes
  induction e.order with
  | nil => rfl
  | cons n order ih =>
    rw [List.filterMap_cons, List.filter_cons, ← ih]
    cases found : e.graph.nodes[n]? <;> simp

theorem get_foldl_addConsumers {κ : Type} {entries : List (NodeId × Node κ)}
    {t : Table (List NodeId)} {v : ValueId} (distinct : (entries.map Prod.fst).Nodup)
    (fresh : ∀ n ∈ entries.map Prod.fst, n ∉ (t.get? v).getD []) :
    ((entries.foldl (fun t entry => entry.2.inputs.foldl (addConsumer entry.1) t) t).get? v).getD [] =
      (t.get? v).getD [] ++ (entries.filter fun entry => entry.2.inputs.contains v).map Prod.fst := by
  induction entries generalizing t with
  | nil => simp
  | cons entry entries ih =>
    obtain ⟨n, node⟩ := entry
    rw [List.map_cons, List.nodup_cons] at distinct
    have unlisted : n ∉ (t.get? v).getD [] := fresh n (by simp)
    have here := get_addConsumers n node.inputs t v
    rw [List.foldl_cons, ih distinct.2, here]
    · by_cases used : v ∈ node.inputs <;> simp [used, unlisted]
    · intro m member
      have other : m ≠ n := fun same => distinct.1 (same ▸ member)
      have old : m ∉ (t.get? v).getD [] := fresh m (by simp [member])
      rw [here]
      split <;> simp [old, other]

theorem get_consumers {κ : Type} {e : Expression κ} (nodup : e.order.Nodup) (v : ValueId) :
    (e.consumers.get? v).getD [] = e.users v := by
  have distinct : (e.nodes.map Prod.fst).Nodup := by
    rw [map_fst_nodes]
    exact nodup.filter _
  rw [users_eq, consumers, get_foldl_addConsumers distinct (by simp)]
  simp

/-- One node uses the value, which is no output; or none does, and it is the only output. -/
def SingleUse (e : Expression Composite) (v : ValueId) : Prop :=
  ((e.users v).length = 1 ∧ v ∉ e.outputs) ∨
    ((e.users v).length = 0 ∧ v ∈ e.outputs ∧ e.outputs.length = 1)

theorem mem_dissolvable {e : Expression Composite} (nodup : e.order.Nodup) {n : NodeId} :
    n ∈ e.dissolvable ↔ ∃ node c out, (n, node) ∈ e.nodes ∧ node.op = .call c ∧
      node.outputs = [out] ∧ c.outputCount = 1 ∧ e.SingleUse out := by
  unfold SingleUse
  constructor
  · intro member
    obtain ⟨⟨m, node⟩, inside, kept⟩ := List.mem_filterMap.mp member
    simp only [get_consumers nodup] at kept
    split at kept
    · next c out called output =>
      split at kept
      · next dissolves =>
        obtain rfl := Option.some.inj kept
        exact ⟨node, c, out, inside, called, output, by simpa using dissolves⟩
      · cases kept
    · cases kept
  · rintro ⟨node, c, out, inside, called, output, single, use⟩
    refine List.mem_filterMap.mpr ⟨(n, node), inside, ?_⟩
    simp only [called, output, get_consumers nodup]
    rw [if_pos]
    exact ⟨single, by simpa using use⟩

end Expression

end ScalarFusion

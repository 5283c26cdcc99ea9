import Mathlib.Data.List.Nodup
import ScalarFusion.Composite.Replay
import ScalarFusion.Proofs.Walking

/-!
Tables that are filled from lists: what `zip` sets one after another is found again, provided that
the keys are distinct. Tables of copies that are filled so have a copy of whatever is supplied.
-/
namespace ScalarFusion

theorem exists_image_at {α β : Type} {R : α → β → Prop} {xs : List α} {ys : List β}
    (related : List.Forall₂ R xs ys) {k : Nat} {x : α} (place : xs[k]? = some x) :
    ∃ y, ys[k]? = some y ∧ R x y := by
  induction related generalizing k with
  | nil => simp at place
  | cons here _ ih =>
    cases k with
    | zero =>
      obtain rfl := Option.some.inj place
      exact ⟨_, rfl, here⟩
    | succ k => exact ih place

theorem exists_image_of_mem {α β : Type} {R : α → β → Prop} {xs : List α} {ys : List β}
    (related : List.Forall₂ R xs ys) {x : α} (member : x ∈ xs) : ∃ y ∈ ys, R x y := by
  induction related with
  | nil => cases member
  | cons here _ ih =>
    rcases List.mem_cons.mp member with rfl | later
    · exact ⟨_, List.mem_cons_self, here⟩
    · obtain ⟨y, inside, holds⟩ := ih later
      exact ⟨y, List.mem_cons_of_mem _ inside, holds⟩

def Table.Within {α : Type} (t t' : Table α) : Prop :=
  ∀ i a, t.get? i = some a → t'.get? i = some a

theorem Table.Within.refl {α : Type} (t : Table α) : t.Within t :=
  fun _ _ found => found

theorem Table.Within.trans {α : Type} {t t' t'' : Table α} (first : t.Within t')
    (second : t'.Within t'') : t.Within t'' :=
  fun i a found => second i a (first i a found)

theorem Table.within_insert {α : Type} {t : Table α} {i : Nat} (unset : t.get? i = none) (a : α) :
    t.Within (t.insert i a) := by
  intro j b found
  rw [Table.get?_insert, if_neg, found]
  rintro rfl
  rw [unset] at found
  cases found

def Table.Lists {α : Type} (t : Table α) (vs : List Nat) (ws : List α) : Prop :=
  vs.map t.get? = ws.map some

theorem Table.Lists.mono {α : Type} {t t' : Table α} {vs : List Nat} {ws : List α}
    (lists : t.Lists vs ws) (within : t.Within t') : t'.Lists vs ws := by
  unfold Table.Lists at lists ⊢
  induction vs generalizing ws with
  | nil => simpa using lists
  | cons v vs ih =>
    cases ws with
    | nil => simp at lists
    | cons w ws =>
      simp only [List.map_cons, List.cons.injEq] at lists ⊢
      exact ⟨within v w lists.1, ih lists.2⟩

theorem Table.Lists.length {α : Type} {t : Table α} {vs : List Nat} {ws : List α}
    (lists : t.Lists vs ws) : vs.length = ws.length := by
  simpa using congrArg List.length lists

theorem Table.Lists.forall₂ {α : Type} {t : Table α} {vs : List Nat} {ws : List α}
    (lists : t.Lists vs ws) : List.Forall₂ (fun v w => t.get? v = some w) vs ws := by
  have same : List.Forall₂ (· = ·) (vs.map t.get?) (ws.map some) := List.forall₂_eq_eq_eq ▸ lists
  rwa [List.forall₂_map_left_iff, List.forall₂_map_right_iff] at same

theorem Table.Lists.at {α : Type} {t : Table α} {vs : List Nat} {ws : List α} (lists : t.Lists vs ws)
    {k v : Nat} (found : vs[k]? = some v) : ∃ w, ws[k]? = some w ∧ t.get? v = some w := by
  have same := congrArg (·[k]?) lists
  simp only [List.getElem?_map, found, Option.map_some] at same
  obtain ⟨w, here, entry⟩ := Option.map_eq_some_iff.mp same.symm
  exact ⟨w, here, entry.symm⟩

theorem Table.Lists.mem {α : Type} {t : Table α} {vs : List Nat} {ws : List α}
    (lists : t.Lists vs ws) {v : Nat} (member : v ∈ vs) : ∃ w ∈ ws, t.get? v = some w := by
  obtain ⟨k, found⟩ := List.getElem?_of_mem member
  obtain ⟨w, here, entry⟩ := lists.at found
  exact ⟨w, List.mem_of_getElem? here, entry⟩

theorem Table.Lists.mem_right {α : Type} {t : Table α} {vs : List Nat} {ws : List α}
    (lists : t.Lists vs ws) {w : α} (member : w ∈ ws) : ∃ v ∈ vs, t.get? v = some w := by
  obtain ⟨k, at_k⟩ := List.getElem?_of_mem member
  have inside := (List.getElem?_eq_some_iff.mp at_k).1
  rw [← lists.length] at inside
  obtain ⟨w', new, entry⟩ := lists.at (List.getElem?_eq_getElem inside)
  obtain rfl := Option.some.inj (at_k.symm.trans new)
  exact ⟨vs[k], List.getElem_mem inside, entry⟩

theorem Table.Lists.map_eq_of_mem {α β : Type} {t : Table α} {vs : List Nat} {ws : List α}
    (lists : t.Lists vs ws) {f : α → β} {g : Nat → β}
    (each : ∀ v ∈ vs, ∀ w, t.get? v = some w → f w = g v) : ws.map f = vs.map g := by
  induction vs generalizing ws with
  | nil =>
    obtain rfl := List.length_eq_zero_iff.mp lists.length.symm
    rfl
  | cons v vs ih =>
    cases ws with
    | nil => cases lists.length
    | cons w ws =>
      obtain ⟨entry, lists⟩ := List.cons.inj lists
      rw [List.map_cons, List.map_cons, each v (by simp) w entry,
        ih lists fun v member => each v (by simp [member])]

theorem Table.Lists.map_eq {α β : Type} {t : Table α} {vs : List Nat} {ws : List α}
    (lists : t.Lists vs ws) {f : α → β} {g : Nat → β}
    (each : ∀ {v w}, t.get? v = some w → f w = g v) : ws.map f = vs.map g :=
  lists.map_eq_of_mem fun _ _ _ => each

theorem Table.lists_insert_zip {α : Type} {vs : List Nat} (nodup : vs.Nodup) (ws : List α)
    (lengths : vs.length = ws.length) (t : Table α) :
    ((vs.zip ws).foldl (fun t (v, w) => t.insert v w) t).Lists vs ws ∧
      ∀ u, u ∉ vs → ((vs.zip ws).foldl (fun t (v, w) => t.insert v w) t).get? u = t.get? u := by
  induction vs generalizing ws t with
  | nil =>
    obtain rfl := List.length_eq_zero_iff.mp lengths.symm
    exact ⟨rfl, fun _ _ => rfl⟩
  | cons v vs ih =>
    cases ws with
    | nil => cases lengths
    | cons w ws =>
      obtain ⟨fresh, rest⟩ := List.nodup_cons.mp nodup
      obtain ⟨lists, others⟩ := ih rest ws (Nat.succ.inj lengths) (t.insert v w)
      have here := others v fresh
      rw [Table.get?_insert, if_pos rfl] at here
      constructor
      · unfold Table.Lists at lists ⊢
        rw [List.map_cons, List.map_cons, ← lists, ← here]
        rfl
      · intro u outside
        rw [List.mem_cons, not_or] at outside
        rw [List.zip_cons_cons, List.foldl_cons, others u outside.2, Table.get?_insert,
          if_neg (Ne.symm outside.1)]

theorem Table.insert_zip_cases {α : Type} {vs : List Nat} (nodup : vs.Nodup) {ws : List α}
    (lengths : vs.length = ws.length) {t : Table α} {u : Nat} {w : α}
    (entry : ((vs.zip ws).foldl (fun t (v, w) => t.insert v w) t).get? u = some w) :
    (∃ k : Nat, vs[k]? = some u ∧ ws[k]? = some w) ∨ (u ∉ vs ∧ t.get? u = some w) := by
  obtain ⟨lists, others⟩ := Table.lists_insert_zip nodup ws lengths t
  by_cases member : u ∈ vs
  · obtain ⟨k, at_k⟩ := List.getElem?_of_mem member
    obtain ⟨w', new, entry'⟩ := lists.at at_k
    exact .inl ⟨k, at_k, by rw [new, ← entry', entry]⟩
  · rw [others u member] at entry
    exact .inr ⟨member, entry⟩

theorem Table.injective_insert_zip {α : Type} {vs : List Nat} (nodup : vs.Nodup) {ws : List α}
    (distinct : ws.Nodup) (lengths : vs.length = ws.length) {t : Table α}
    (injective : ∀ {u u' w}, t.get? u = some w → t.get? u' = some w → u = u')
    (apart : ∀ {u w}, t.get? u = some w → w ∉ ws) {u u' : Nat} {w : α}
    (first : ((vs.zip ws).foldl (fun t (v, w) => t.insert v w) t).get? u = some w)
    (second : ((vs.zip ws).foldl (fun t (v, w) => t.insert v w) t).get? u' = some w) : u = u' := by
  rcases Table.insert_zip_cases nodup lengths first with ⟨k, at_k, new⟩ | ⟨-, old⟩ <;>
    rcases Table.insert_zip_cases nodup lengths second with ⟨k', at_k', new'⟩ | ⟨-, old'⟩
  · have inside := (List.getElem?_eq_some_iff.mp new).1
    obtain rfl := (List.getElem?_inj inside distinct).mp (new.trans new'.symm)
    exact Option.some.inj (at_k.symm.trans at_k')
  · exact absurd (List.mem_of_getElem? new) (apart old')
  · exact absurd (List.mem_of_getElem? new') (apart old)
  · exact injective old old'

theorem Table.get?_insertNew {α : Type} (t : Table α) (i j : Nat) (a : α) :
    (t.insertNew i a).get? j = if i = j then some ((t.get? i).getD a) else t.get? j := by
  rw [insertNew, contains]
  split
  · next bound =>
    obtain ⟨b, found⟩ := Option.isSome_iff_exists.mp bound
    split
    · next same => rw [← same, found, Option.getD_some]
    · rfl
  · next free =>
    rw [get?_insert, Option.not_isSome_iff_eq_none.mp free, Option.getD_none]

theorem Table.insertNew_zip {α : Type} {vs : List Nat} (nodup : vs.Nodup) (ws : List α)
    {t : Table α} (unset : ∀ v ∈ vs, t.get? v = none) :
    (vs.zip ws).foldl (fun t (v, w) => t.insertNew v w) t =
      (vs.zip ws).foldl (fun t (v, w) => t.insert v w) t := by
  induction vs generalizing ws t with
  | nil => rfl
  | cons v vs ih =>
    cases ws with
    | nil => rfl
    | cons w ws =>
      obtain ⟨fresh, rest⟩ := List.nodup_cons.mp nodup
      have new : t.insertNew v w = t.insert v w := by
        simp [Table.insertNew, Table.contains, unset v (by simp)]
      simp only [List.zip_cons_cons, List.foldl_cons, new]
      apply ih rest
      intro u member
      rw [Table.get?_insert, if_neg, unset u (by simp [member])]
      rintro rfl
      exact fresh member

theorem Table.insertNew_zipWith {α β γ : Type} (f : α → β → γ) (b : Nat → β) (vs : List Nat)
    (as : List α) (t : Table γ) :
    (vs.zip as).foldl (fun t (v, a) => t.insertNew v (f a (b v))) t =
      (vs.zip (List.zipWith f as (vs.map b))).foldl (fun t (v, w) => t.insertNew v w) t := by
  induction vs generalizing as t with
  | nil => rfl
  | cons v vs ih =>
    cases as with
    | nil => rfl
    | cons a as => exact ih as _

theorem Table.get?_insertNew_zip {α : Type} {vs : List Nat} {ws : List α}
    (lengths : ws.length = vs.length) (t : Table α) (v : Nat) :
    ((vs.zip ws).foldl (fun t (v, w) => t.insertNew v w) t).get? v =
      (t.get? v).or ws[vs.idxOf v]? := by
  induction vs generalizing ws t with
  | nil =>
    obtain rfl := List.length_eq_zero_iff.mp lengths
    simp
  | cons u vs ih =>
    cases ws with
    | nil => cases lengths
    | cons w ws =>
      rw [List.zip_cons_cons, List.foldl_cons, ih (Nat.succ.inj lengths), Table.get?_insertNew]
      by_cases same : u = v
      · subst same
        rw [if_pos rfl, List.idxOf_cons_self]
        cases t.get? u <;> simp
      · rw [if_neg same, List.idxOf_cons_ne _ same, List.getElem?_cons_succ]

theorem Table.lists_insertNew_zip {α : Type} {vs : List Nat} (nodup : vs.Nodup) (ws : List α)
    (lengths : vs.length = ws.length) :
    ((vs.zip ws).foldl (fun (t : Table α) (v, w) => t.insertNew v w) .empty).Lists vs ws ∧
      ∀ u, u ∉ vs →
        ((vs.zip ws).foldl (fun (t : Table α) (v, w) => t.insertNew v w) .empty).get? u = none := by
  obtain ⟨lists, others⟩ := Table.lists_insert_zip nodup ws lengths .empty
  rw [Table.insertNew_zip nodup ws (by simp)]
  refine ⟨lists, fun u outside => ?_⟩
  rw [others u outside, Table.get?_empty]

theorem Table.insertNew_zip_cases {α : Type} {vs : List Nat} (nodup : vs.Nodup) {ws : List α}
    (lengths : vs.length = ws.length) {u : Nat} {w : α}
    (entry : ((vs.zip ws).foldl (fun (t : Table α) (v, w) => t.insertNew v w) .empty).get? u = some w) :
    ∃ k : Nat, vs[k]? = some u ∧ ws[k]? = some w := by
  rw [Table.insertNew_zip nodup ws (by simp)] at entry
  rcases Table.insert_zip_cases nodup lengths entry with set | ⟨-, old⟩
  · exact set
  · rw [Table.get?_empty] at old
    cases old

theorem Build.injective_bindInputs {inputs args : List ValueId} (nodup : inputs.Nodup)
    (distinct : args.Nodup) (lengths : inputs.length = args.length) {v v' w : ValueId}
    (first : (bindInputs inputs args).get? v = some w)
    (second : (bindInputs inputs args).get? v' = some w) : v = v' := by
  unfold bindInputs at first second
  rw [Table.insertNew_zip nodup args (by simp)] at first second
  exact Table.injective_insert_zip nodup distinct lengths (by simp) (by simp) first second

theorem Build.lists_bindInputs {inputs args : List ValueId} (nodup : inputs.Nodup)
    (lengths : inputs.length = args.length) :
    (bindInputs inputs args).Lists inputs args ∧
      ∀ u, u ∉ inputs → (bindInputs inputs args).get? u = none :=
  Table.lists_insertNew_zip nodup args lengths

theorem Graph.Ordered.nodup_outputs {κ : Type} {g : Graph κ} (ordered : g.Ordered) {n : NodeId}
    {node : Node κ} (found : g.nodes[n]? = some node) : node.outputs.Nodup := by
  rw [List.nodup_iff_getElem?_ne_getElem?]
  intro i j less inside same
  have at_j : node.outputs[j]? = some node.outputs[j] := List.getElem?_eq_getElem inside
  obtain ⟨t, left⟩ := ordered.produced.mpr ⟨node, found, same.trans at_j⟩
  obtain ⟨s, right⟩ := ordered.produced.mpr ⟨node, found, at_j⟩
  rw [left] at right
  simp only [Option.some.injEq, Value.mk.injEq, Source.output.injEq] at right
  omega

/-- The table has the inputs and the outputs of the nodes of `done`. -/
structure Table.Covers {α κ : Type} (t : Table α) (e : Expression κ) (done : List NodeId) :
    Prop where
  inputs : ∀ v ∈ e.inputs, ∃ w, t.get? v = some w
  produced : ∀ n ∈ done, ∀ node, e.graph.nodes[n]? = some node → ∀ o ∈ node.outputs,
    ∃ w, t.get? o = some w

theorem Table.Covers.mono {α κ : Type} {t t' : Table α} {e : Expression κ} {done : List NodeId}
    (covers : t.Covers e done) (within : t.Within t') : t'.Covers e done where
  inputs v member := (covers.inputs v member).imp fun w => within v w
  produced n member node here o output :=
    (covers.produced n member node here o output).imp fun w => within o w

theorem Table.Covers.entry_or_constant {α κ : Type} {t : Table α} {e : Expression κ}
    {done : List NodeId} (covers : t.Covers e done) (ordered : e.graph.Ordered) {v : ValueId}
    (supplied : e.graph.Supplied e.inputs done v) :
    (∃ a, t.get? v = some a) ∨
      ∃ type literal name, e.graph.values[v]? = some ⟨type, .constant literal name⟩ := by
  cases supplied with
  | input member => exact .inl (covers.inputs v member)
  | constant found => exact .inr ⟨_, _, _, found⟩
  | output found member =>
    obtain ⟨node, here, output⟩ := ordered.produced.mp ⟨_, found⟩
    exact .inl (covers.produced _ member node here v (List.mem_of_getElem? output))

theorem Table.Covers.snoc {α κ : Type} {t t' : Table α} {e : Expression κ} {done : List NodeId}
    (covers : t.Covers e done) {n : NodeId} {node : Node κ} (here : e.graph.nodes[n]? = some node)
    (kept : ∀ v a, t.get? v = some a → ∃ b, t'.get? v = some b)
    (set : ∀ o ∈ node.outputs, ∃ b, t'.get? o = some b) : t'.Covers e (done ++ [n]) := by
  constructor
  · intro v member
    obtain ⟨a, found⟩ := covers.inputs v member
    exact kept v a found
  · intro m member node' here' o output
    rcases List.mem_append.mp member with old | new
    · obtain ⟨a, found⟩ := covers.produced m old node' here' o output
      exact kept o a found
    · obtain rfl := List.mem_singleton.mp new
      obtain rfl := Option.some.inj (here.symm.trans here')
      exact set o output

theorem Table.Covers.set {α κ : Type} {t : Table α} {e : Expression κ} {done : List NodeId}
    (covers : t.Covers e done) (ordered : e.graph.Ordered) {n : NodeId} {node : Node κ}
    (here : e.graph.nodes[n]? = some node) {ws : List α} (lengths : node.outputs.length = ws.length) :
    ((node.outputs.zip ws).foldl (fun t (v, w) => t.insert v w) t).Covers e (done ++ [n]) := by
  obtain ⟨lists, others⟩ := Table.lists_insert_zip (ordered.nodup_outputs here) _ lengths t
  refine covers.snoc here ?_ fun o output => (lists.mem output).imp fun _ => And.right
  intro v a entry
  by_cases output : v ∈ node.outputs
  · exact (lists.mem output).imp fun _ => And.right
  · exact ⟨a, by rw [others v output, entry]⟩

theorem Build.exec_resolve_cases {κ : Type} {e : Expression κ} (ordered : e.graph.Ordered)
    {done : List NodeId} {t : Table ValueId} (covers : t.Covers e done) {v : Nat}
    (supplied : e.graph.Supplied e.inputs done v) (τ : ScalarType → ScalarType) (h : Arena) :
    (∃ w, t.get? v = some w ∧ (resolve e.graph τ t v).exec h = (.ok (w, t), h)) ∨
    ∃ type literal name, t.get? v = none ∧
      e.graph.values[v]? = some ⟨type, .constant literal name⟩ ∧
      (resolve e.graph τ t v).exec h = (.ok (h.values.size, t.insert v h.values.size),
        h.pushValue ⟨τ type, .constant (literal.cast (τ type)) name⟩) := by
  unfold resolve
  cases found : t.get? v with
  | some w => exact .inl ⟨w, rfl, rfl⟩
  | none =>
    cases supplied with
    | input member =>
      obtain ⟨w, image⟩ := covers.inputs v member
      rw [found] at image
      cases image
    | output source member =>
      obtain ⟨node, here, output⟩ := ordered.produced.mp ⟨_, source⟩
      obtain ⟨w, image⟩ := covers.produced _ member node here v (List.mem_of_getElem? output)
      rw [found] at image
      cases image
    | constant source =>
      refine .inr ⟨_, _, _, rfl, source, ?_⟩
      simp only [source]
      rfl

end ScalarFusion

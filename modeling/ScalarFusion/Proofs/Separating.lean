import ScalarFusion.Proofs.Listing
import ScalarFusion.Proofs.Numerals
import ScalarFusion.Proofs.Retyping

/-!
Identifiers are told apart by their text. A position ends where the next underscore stands, and what is
declared has none in its own text, so that an identifier gives back its slot, and the id and the path
before it as one text. Under one id that is the place; under two ids, one of them is the other with a
path after it.
-/
namespace ScalarFusion

theorem Text.append_mark_inj {m : Char} {a b x y : List Char} (clear : m ∉ x) (clear' : m ∉ y)
    (same : a ++ m :: x = b ++ m :: y) : a = b ∧ x = y := by
  have mirrored := congrArg List.reverse same
  simp only [List.reverse_append, List.reverse_cons, List.append_assoc, List.singleton_append]
    at mirrored
  have inside : ∀ {z : List Char}, m ∉ z → ∀ c ∈ z.reverse, (c != m) = true := by
    intro z clear c member
    rw [bne_iff_ne]
    rintro rfl
    exact clear (List.mem_reverse.mp member)
  obtain ⟨last, first⟩ := Real.append_inj_of_run (inside clear) (inside clear') (by simp) (by simp)
    mirrored
  exact ⟨List.reverse_injective (List.cons.inj first).2, List.reverse_injective last⟩

namespace Slot

theorem mark_notMem_text (s : Slot) : '_' ∉ s.text.toList := by
  cases s with
  | temporary n => simp [text]
  | helper h => cases h <;> simp [text, Helper.text]

theorem temporary_ne_helper (n : Nat) (h : Helper) : (temporary n).text ≠ (helper h).text := by
  intro same
  have letters := congrArg String.toList same
  cases h <;> simp [text, Helper.text] at letters

theorem text_injective : Function.Injective text := by
  intro s t same
  cases s with
  | temporary m =>
    cases t with
    | temporary n => simpa [text] using same
    | helper h => exact absurd same (temporary_ne_helper m h)
  | helper h =>
    cases t with
    | temporary n => exact absurd same.symm (temporary_ne_helper n h)
    | helper k => cases h <;> cases k <;> simp [text, Helper.text] at same ⊢

theorem name_inj {id id' : String} {s t : Slot} (same : s.name id = t.name id') : id = id' ∧ s = t := by
  rw [← String.toList_inj] at same
  simp only [name, String.toList_append] at same
  have cut : 'V' :: id.toList ++ '_' :: s.text.toList = 'V' :: id'.toList ++ '_' :: t.text.toList := by
    simpa using same
  obtain ⟨ids, slots⟩ := Text.append_mark_inj s.mark_notMem_text t.mark_notMem_text cut
  exact ⟨String.toList_inj.mp (List.cons.inj ids).2, text_injective (String.toList_inj.mp slots)⟩

end Slot

namespace Place

theorem pathText_append (π ρ : List Nat) : pathText (π ++ ρ) = pathText π ++ pathText ρ := by
  induction π with
  | nil => simp [pathText]
  | cons k π ih => simp [pathText, ih, String.append_assoc]

theorem pathText_eq_empty {π : List Nat} (empty : pathText π = "") : π = [] := by
  cases π with
  | nil => rfl
  | cons k π => simp [pathText] at empty

theorem append_pathText_cases {p q : String} {π ρ : List Nat}
    (same : p ++ pathText π = q ++ pathText ρ) :
    (∃ σ, π = σ ++ ρ ∧ q = p ++ pathText σ) ∨ ∃ σ, ρ = σ ++ π ∧ p = q ++ pathText σ := by
  induction π using List.reverseRecOn generalizing ρ with
  | nil => exact .inr ⟨ρ, by simp, by simpa [pathText] using same⟩
  | append_singleton π k ih =>
    cases ρ using List.reverseRecOn with
    | nil => exact .inl ⟨π ++ [k], by simp, by simpa [pathText] using same.symm⟩
    | append_singleton ρ j =>
      rw [pathText_append, pathText_append, ← String.toList_inj] at same
      simp only [pathText, String.toList_append, String.toList_empty, List.append_nil] at same
      have cut : (p.toList ++ (pathText π).toList) ++ '_' :: (toString k).toList =
          (q.toList ++ (pathText ρ).toList) ++ '_' :: (toString j).toList := by
        simpa using same
      obtain ⟨before, last⟩ := Text.append_mark_inj (by simp) (by simp) cut
      obtain rfl : k = j := Nat.repr_inj.mp (String.toList_inj.mp last)
      rw [← String.toList_append, ← String.toList_append, String.toList_inj] at before
      obtain ⟨σ, rfl, ids⟩ | ⟨σ, rfl, ids⟩ := ih before
      · exact .inl ⟨σ, by simp, ids⟩
      · exact .inr ⟨σ, by simp, ids⟩

def within (path : List Nat) (s : Place) : Place :=
  ⟨path ++ s.path, s.slot⟩

theorem name_within (id : String) (path : List Nat) (s : Place) :
    (s.within path).name id = s.name (id ++ pathText path) := by
  simp [name, within, pathText_append, String.append_assoc]

/-- Places have one identifier under two ids only if they lie on one path. -/
theorem name_eq_cases {p q : String} {s t : Place} (same : s.name p = t.name q) :
    (∃ path, q = p ++ pathText path ∧ s = t.within path) ∨
      ∃ path, p = q ++ pathText path ∧ t = s.within path := by
  obtain ⟨ids, slots⟩ := Slot.name_inj same
  obtain ⟨σ, paths, id⟩ | ⟨σ, paths, id⟩ := append_pathText_cases ids
  · exact .inl ⟨σ, id, by rw [within, ← paths, ← slots]⟩
  · exact .inr ⟨σ, id, by rw [within, ← paths, slots]⟩

theorem name_injective (id : String) : Function.Injective (name id) := by
  have alone : ∀ {path : List Nat}, id = id ++ pathText path → path = [] := by
    intro path same
    exact pathText_eq_empty (String.append_eq_left_iff.mp same.symm)
  intro s t same
  obtain ⟨path, extended, rfl⟩ | ⟨path, extended, rfl⟩ := name_eq_cases same
  · rw [alone extended, within, List.nil_append]
  · rw [alone extended, within, List.nil_append]

end Place

section Places

variable {typeOf : ValueId → ScalarType}

theorem Primitive.nodup_helpers (p : Primitive) (types : List ScalarType) : (p.helpers types).Nodup := by
  unfold helpers
  split
  · exact .nil
  · split
    all_goals first | exact .nil | (split <;> first | decide | (split <;> decide))

theorem Op.nodup_places {op : Op (List Place)} (nested : ∀ inner, op = .call inner → inner.Nodup)
    (types : List ScalarType) : (op.places types).Nodup := by
  cases op with
  | prim p =>
    refine (p.nodup_helpers types).map fun h k same => ?_
    simpa using same
  | call inner => exact nested inner rfl

theorem cases_of_mem_placesFrom {k n : Nat} {nodes : List (Node (List Place))} {s : Place}
    (member : s ∈ placesFrom typeOf k n nodes) :
    (∃ m, n ≤ m ∧ s = ⟨[], .temporary m⟩) ∨ ∃ j t, k ≤ j ∧ s = Place.under j t := by
  induction nodes generalizing k n with
  | nil => cases member
  | cons node nodes ih =>
    rw [placesFrom, List.mem_append, List.mem_append, List.mem_map, List.mem_map] at member
    obtain ⟨m, inside, rfl⟩ | ⟨t, -, rfl⟩ | later := member
    · exact .inl ⟨m, (List.mem_range'_1.mp inside).1, rfl⟩
    · exact .inr ⟨k, t, le_rfl, rfl⟩
    · obtain ⟨m, bound, rfl⟩ | ⟨j, t, bound, rfl⟩ := ih later
      · exact .inl ⟨m, by omega, rfl⟩
      · exact .inr ⟨j, t, by omega, rfl⟩

theorem mem_placesFrom_under {k n j : Nat} {nodes : List (Node (List Place))} {t : Place} :
    Place.under j t ∈ placesFrom typeOf k n nodes ↔ ∃ i node, j = k + i ∧ nodes[i]? = some node ∧
      t ∈ node.op.places (node.outputs.map typeOf) := by
  induction nodes generalizing k n with
  | nil => simp [placesFrom]
  | cons node nodes ih =>
    rw [placesFrom, List.mem_append, List.mem_append, ih]
    constructor
    · rintro (here | here | ⟨i, other, rfl, later, inside⟩)
      · simp [Place.under] at here
      · obtain ⟨u, inside, same⟩ := List.mem_map.mp here
        obtain ⟨rfl, rfl⟩ : k = j ∧ u = t := by
          cases u
          cases t
          simpa [Place.under, and_assoc] using same
        exact ⟨0, node, rfl, rfl, inside⟩
      · exact ⟨i + 1, other, by omega, later, inside⟩
    · rintro ⟨i, other, rfl, found, inside⟩
      cases i with
      | zero =>
        obtain rfl := Option.some.inj found
        exact .inr (.inl (List.mem_map_of_mem inside))
      | succ i => exact .inr (.inr ⟨i, other, by omega, found, inside⟩)

theorem nodup_placesFrom {k n : Nat} {nodes : List (Node (List Place))}
    (nested : ∀ node ∈ nodes, ∀ inner, node.op = .call inner → inner.Nodup) :
    (placesFrom typeOf k n nodes).Nodup := by
  induction nodes generalizing k n with
  | nil => exact .nil
  | cons node nodes ih =>
    have rest := ih (k := k + 1) (n := n + node.outputs.length)
      fun other member => nested other (by simp [member])
    have here := (Op.nodup_places (nested node (by simp)) (node.outputs.map typeOf)).map
      (f := Place.under k) (by rintro ⟨π, s⟩ ⟨ρ, t⟩ same; simpa [Place.under] using same)
    have temporaries : ((List.range' n node.outputs.length).map
        fun m => (⟨[], .temporary m⟩ : Place)).Nodup :=
      (List.nodup_range' 1).map fun m m' same => by simpa using same
    refine temporaries.append (here.append rest ?_) ?_
    · -- what comes later lies under later positions, or is a temporary
      intro s inside later
      obtain ⟨t, -, rfl⟩ := List.mem_map.mp inside
      obtain ⟨m, -, same⟩ | ⟨j, u, bound, same⟩ := cases_of_mem_placesFrom later
      · simp [Place.under] at same
      · have := (List.cons.inj (Place.mk.inj same).1).1
        omega
    · intro s inside later
      obtain ⟨m, range, rfl⟩ := List.mem_map.mp inside
      obtain within | later := List.mem_append.mp later
      · obtain ⟨t, -, same⟩ := List.mem_map.mp within
        simp [Place.under] at same
      · obtain ⟨m', bound, same⟩ | ⟨j, u, -, same⟩ := cases_of_mem_placesFrom later
        · have number : m = m' := by simpa using same
          have := (List.mem_range'_1.mp range).2
          omega
        · simp [Place.under] at same

end Places

theorem Composite.WellBuilt.nodup_places {c : Composite} (good : c.WellBuilt) : c.places.Nodup := by
  induction good with
  | @mk e _ _ ih =>
    rw [places_eq]
    refine nodup_placesFrom ?_
    intro node member inner called
    obtain ⟨entry, inside, rfl⟩ := List.mem_map.mp member
    cases op : entry.2.op with
    | prim p => simp [Node.map, op, Op.map] at called
    | call d =>
      obtain rfl : d.places = inner := by simpa [Node.map, op, Op.map] using called
      exact ih (Expression.mem_nodes.mp inside).2 op

namespace Composite

def nested? (c : Composite) : List Nat → Option Composite
  | [] => some c
  | k :: path =>
    match c.body.nodes[k]? with
    | some (_, node) =>
      match node.op with
      | .call d => d.nested? path
      | .prim _ => none
    | none => none

theorem nested?_cons_eq_some {c d : Composite} {k : Nat} {path : List Nat} :
    c.nested? (k :: path) = some d ↔ ∃ n node inner, c.body.nodes[k]? = some (n, node) ∧
      node.op = .call inner ∧ inner.nested? path = some d := by
  rw [nested?]
  cases c.body.nodes[k]? with
  | none => simp
  | some entry =>
    obtain ⟨n, node⟩ := entry
    cases op : node.op <;> simp [op]

variable {a b c d : Composite} {s : Place} {path : List Nat}

theorem under_mem_places {k : Nat} : s.under k ∈ c.places ↔ ∃ n node, c.body.nodes[k]? = some (n, node) ∧
    s ∈ (node.op.map places).places (node.outputs.map c.graph.typeOf) := by
  rw [places_eq, mem_placesFrom_under]
  simp only [Nat.zero_add, List.getElem?_map, Option.map_eq_some_iff]
  constructor
  · rintro ⟨i, node, rfl, ⟨entry, found, rfl⟩, inside⟩
    exact ⟨entry.1, entry.2, found, inside⟩
  · rintro ⟨n, node, found, inside⟩
    exact ⟨k, node.map places, rfl, ⟨(n, node), found, rfl⟩, inside⟩

theorem helper_notMem_places (h : Helper) : ⟨[], .helper h⟩ ∉ c.places := by
  intro member
  rw [places_eq] at member
  obtain ⟨m, -, same⟩ | ⟨j, t, -, same⟩ := cases_of_mem_placesFrom member
  · simp at same
  · simp [Place.under] at same

theorem within_mem_places (reached : c.nested? path = some d) (member : s ∈ d.places) :
    s.within path ∈ c.places := by
  induction path generalizing c with
  | nil =>
    obtain rfl := Option.some.inj reached
    exact member
  | cons k path ih =>
    obtain ⟨n, node, inner, found, called, reached⟩ := nested?_cons_eq_some.mp reached
    refine under_mem_places (s := s.within path).mpr ⟨n, node, found, ?_⟩
    rw [called]
    exact ih reached

/-- What a body declares within a path, a body at the end of the path declares. -/
theorem exists_nested_of_within (other : ∀ h, s ≠ ⟨[], .helper h⟩) (member : s.within path ∈ c.places) :
    ∃ d, c.nested? path = some d ∧ s ∈ d.places := by
  induction path generalizing c with
  | nil => exact ⟨c, rfl, member⟩
  | cons k path ih =>
    obtain ⟨n, node, found, inside⟩ := under_mem_places (s := s.within path).mp member
    cases op : node.op with
    | prim p =>
      rw [op] at inside
      obtain ⟨h, -, same⟩ := List.mem_map.mp inside
      have here : s = ⟨[], .helper h⟩ := by
        cases s
        simp_all [Place.within]
      exact absurd here (other h)
    | call inner =>
      rw [op] at inside
      obtain ⟨d, reached, member⟩ := ih inside
      exact ⟨d, nested?_cons_eq_some.mpr ⟨n, node, inner, found, op, reached⟩, member⟩

theorem WellBuilt.temporary_mem_places (good : c.WellBuilt) (nodes : c.body.nodes ≠ []) :
    ⟨[], .temporary 0⟩ ∈ c.places := by
  obtain ⟨entry, rest, list⟩ := List.exists_cons_of_ne_nil nodes
  have member : entry ∈ c.body.nodes := by simp [list]
  have here := (Expression.mem_nodes.mp member).2
  have output : 0 < entry.2.outputs.length := by
    rw [good.body.sourced.closed.typed.length_outputs_eq here]
    cases op : entry.2.op with
    | prim p => exact Nat.one_pos
    | call d => exact List.length_pos_of_ne_nil (good.callees here op).body.nonempty
  rw [places_eq, list, List.map_cons, placesFrom]
  refine List.mem_append_left _ (List.mem_map_of_mem (a := 0) ?_)
  exact List.mem_range'_1.mpr ⟨le_rfl, by simpa [Node.map] using output⟩

theorem nodes_ne_nil_of_mem_places (member : s ∈ c.places) : c.body.nodes ≠ [] := by
  intro none
  rw [places_eq, none] at member
  cases member

def Extends (c : Composite) (p q : String) : Prop :=
  ∃ path d, q = p ++ Place.pathText path ∧ c.nested? path = some d ∧ d.body.nodes ≠ []

theorem Extends.eq {p q : String} (extended : c.Extends p q) (clear : '_' ∉ q.toList) : q = p := by
  obtain ⟨path, d, rfl, -, -⟩ := extended
  cases path with
  | nil => simp [Place.pathText]
  | cons k path => simp [Place.pathText] at clear

theorem extends_of_within {p q : String} (id : q = p ++ Place.pathText path) (member : s ∈ b.places)
    (inside : s.within path ∈ a.places) : a.Extends p q := by
  obtain ⟨d, reached, declared⟩ :=
    exists_nested_of_within (fun h same => helper_notMem_places h (same ▸ member)) inside
  exact ⟨path, d, id, reached, nodes_ne_nil_of_mem_places declared⟩

theorem WellBuilt.nested (good : c.WellBuilt) (reached : c.nested? path = some d) : d.WellBuilt := by
  induction path generalizing c with
  | nil =>
    obtain rfl := Option.some.inj reached
    exact good
  | cons k path ih =>
    obtain ⟨n, node, inner, found, called, reached⟩ := nested?_cons_eq_some.mp reached
    exact ih (good.callees (Expression.mem_nodes.mp (List.mem_of_getElem? found)).2 called) reached

theorem WellBuilt.temporary_within (good : c.WellBuilt) (reached : c.nested? path = some d)
    (nodes : d.body.nodes ≠ []) (p : String) :
    Place.name (p ++ Place.pathText path) ⟨[], .temporary 0⟩ ∈ c.places.map (Place.name p) := by
  rw [← Place.name_within]
  exact List.mem_map_of_mem
    (within_mem_places reached ((good.nested reached).temporary_mem_places nodes))

theorem WellBuilt.shares_iff (good : a.WellBuilt) (good' : b.WellBuilt) {p q : String} :
    (∃ x, x ∈ a.places.map (Place.name p) ∧ x ∈ b.places.map (Place.name q)) ↔
      a.Extends p q ∧ b.body.nodes ≠ [] ∨ b.Extends q p ∧ a.body.nodes ≠ [] := by
  constructor
  · rintro ⟨x, inside, inside'⟩
    obtain ⟨s, first, rfl⟩ := List.mem_map.mp inside
    obtain ⟨t, second, same⟩ := List.mem_map.mp inside'
    obtain ⟨path, id, rfl⟩ | ⟨path, id, rfl⟩ := Place.name_eq_cases same.symm
    · exact .inl ⟨extends_of_within id second first, nodes_ne_nil_of_mem_places second⟩
    · exact .inr ⟨extends_of_within id first second, nodes_ne_nil_of_mem_places first⟩
  · rintro (⟨⟨path, d, rfl, reached, nodes⟩, nodes'⟩ | ⟨⟨path, d, rfl, reached, nodes⟩, nodes'⟩)
    · exact ⟨_, good.temporary_within reached nodes p,
        List.mem_map_of_mem (good'.temporary_mem_places nodes')⟩
    · exact ⟨_, List.mem_map_of_mem (good.temporary_mem_places nodes'),
        good'.temporary_within reached nodes q⟩

end Composite

end ScalarFusion

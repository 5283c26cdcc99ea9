import Mathlib.Data.List.Basic
import ScalarFusion.Primitive.Typing
import ScalarFusion.Proofs.Typing

/-!
The join of types in another order. Types are joined from the left, two at a time, and the join of two
types is commutative but not associative: a signed type and uint16 meet in a signed type of 32 bits or
more, which takes part in floating arithmetic with double precision, though neither of the two does.
Where these two and a continuous type stand together the order decides the precision of the join, and
this is the only case in which it decides anything.
-/
namespace ScalarFusion

namespace ScalarType

theorem bool_promote (t : ScalarType) : bool.promote t = t := by
  cases t <;> rfl

theorem upcast_eq_foldl {ts : List ScalarType} (nonempty : ts ≠ []) :
    upcast ts = some (ts.foldl promote bool) := by
  cases ts with
  | nil => exact absurd rfl nonempty
  | cons t ts => rw [upcast, List.foldl_cons, bool_promote]

/-- A class of types that joins do not leave, and in which they can be taken in any order. -/
structure Coherent (C : ScalarType → Bool) : Prop where
  promote : ∀ s t, C s = true → C t = true → C (s.promote t) = true
  swap : ∀ r s t, C r = true → C s = true → C t = true →
    (r.promote s).promote t = (r.promote t).promote s

theorem coherent_unsigned : Coherent fun t => !t.isSigned :=
  ⟨by decide +kernel, by decide +kernel⟩

theorem coherent_apart : Coherent fun t => t != .unsigned .w16 :=
  ⟨by decide +kernel, by decide +kernel⟩

theorem coherent_discrete : Coherent fun t => t.isDiscrete || t == .float .double :=
  ⟨by decide +kernel, by decide +kernel⟩

theorem Coherent.foldl_eq {C : ScalarType → Bool} (coherent : Coherent C) {us ts : List ScalarType}
    (perm : us.Perm ts) (inside : ∀ t ∈ us, C t = true) {start : ScalarType}
    (first : C start = true) :
    us.foldl ScalarType.promote start = ts.foldl ScalarType.promote start := by
  induction perm generalizing start with
  | nil => rfl
  | cons t perm ih =>
    exact ih (fun s member => inside s (by simp [member]))
      (coherent.promote start t first (inside t (by simp)))
  | swap s t ts =>
    rw [List.foldl_cons, List.foldl_cons, List.foldl_cons, List.foldl_cons,
      coherent.swap start t s first (inside t (by simp)) (inside s (by simp))]
  | trans perm perm' ih ih' =>
    have inside' := fun t member => inside t (perm.mem_iff.mpr member)
    exact (ih inside first).trans (ih' inside' first)

theorem Coherent.upcast_eq {C : ScalarType → Bool} (coherent : Coherent C) (bool : C .bool = true)
    {us ts : List ScalarType} (perm : us.Perm ts) (inside : ∀ t ∈ ts, C t = true) :
    upcast us = upcast ts := by
  by_cases nonempty : ts = []
  · subst nonempty
    rw [perm.eq_nil]
  · have nonempty' : us ≠ [] := fun empty => nonempty (empty ▸ perm).nil_eq.symm
    rw [upcast_eq_foldl nonempty, upcast_eq_foldl nonempty',
      coherent.foldl_eq perm (fun t member => inside t (perm.mem_iff.mp member)) bool]

theorem isComplex_promote (s t : ScalarType) :
    (s.promote t).isComplex = (s.isComplex || t.isComplex) := by
  revert s t
  decide +kernel

theorem precision_promote (s t : ScalarType)
    (double : s.precision = .double ∨ t.precision = .double) :
    (s.promote t).precision = .double := by
  revert s t
  decide +kernel

theorem precision_promote_ne (s t : ScalarType) (continuous : s.isDiscrete = false)
    (narrow : s.precision ≠ .double ∧ t.precision ≠ .double) :
    (s.promote t).precision ≠ .double := by
  revert s t
  decide +kernel

theorem isComplex_foldl (ts : List ScalarType) (t : ScalarType) :
    (ts.foldl promote t).isComplex = (t :: ts).any isComplex := by
  induction ts generalizing t with
  | nil => simp
  | cons s ts ih => simp only [List.foldl_cons, ih, List.any_cons, isComplex_promote, Bool.or_assoc]

theorem precision_foldl_ne {ts : List ScalarType} (narrow : ∀ s ∈ ts, s.precision ≠ .double)
    {t : ScalarType} (continuous : t.isDiscrete = false) (start : t.precision ≠ .double) :
    (ts.foldl promote t).precision ≠ .double := by
  induction ts generalizing t with
  | nil => exact start
  | cons s ts ih =>
    have narrow' : ∀ u ∈ ts, u.precision ≠ .double := fun u member => narrow u (by simp [member])
    exact ih narrow' (isDiscrete_promote (.inl continuous))
      (precision_promote_ne t s continuous ⟨start, narrow s (by simp)⟩)

theorem eq_of_double {s t : ScalarType} (continuous : s.isDiscrete = false ∧ t.isDiscrete = false)
    (double : s.precision = .double ∧ t.precision = .double) (kind : s.isComplex = t.isComplex) :
    s = t := by
  revert s t
  decide +kernel

/-- A signed type, uint16 and a continuous type stand together, and no type has double precision. -/
structure Torn (ts : List ScalarType) : Prop where
  signed : ∃ t ∈ ts, t.isSigned = true
  unsigned : .unsigned .w16 ∈ ts
  continuous : ∃ t ∈ ts, t.isDiscrete = false
  narrow : ∀ t ∈ ts, t.precision ≠ .double

theorem Torn.of_perm {us ts : List ScalarType} (torn : Torn ts) (perm : us.Perm ts) : Torn us where
  signed := torn.signed.imp fun _ => .imp_left perm.mem_iff.mpr
  unsigned := perm.mem_iff.mpr torn.unsigned
  continuous := torn.continuous.imp fun _ => .imp_left perm.mem_iff.mpr
  narrow := fun t member => torn.narrow t (perm.mem_iff.mp member)

theorem upcast_eq_of_double {us ts : List ScalarType} (perm : us.Perm ts)
    (continuous : ∃ t ∈ ts, t.isDiscrete = false) (double : ∃ t ∈ ts, t.precision = .double) :
    upcast us = upcast ts := by
  have kind : ∀ {vs : List ScalarType} {v : ScalarType}, upcast vs = some v →
      (v.isComplex = vs.any isComplex) := by
    intro vs v join
    cases vs with
    | nil => cases join
    | cons t vs =>
      obtain rfl : vs.foldl promote t = v := Option.some.inj join
      exact isComplex_foldl vs t
  have members : ∀ {P : ScalarType → Prop}, (∃ t ∈ ts, P t) → ∃ t ∈ us, P t :=
    fun some => some.imp fun t => .imp_left perm.mem_iff.mpr
  obtain ⟨t, join, smooth⟩ := exists_upcast continuous
  obtain ⟨s, join', smooth'⟩ := exists_upcast (members continuous)
  obtain ⟨_, again, wide⟩ := upcast_of_absorbed precision_promote double
  obtain ⟨_, again', wide'⟩ := upcast_of_absorbed precision_promote (members double)
  obtain rfl := Option.some.inj (join.symm.trans again)
  obtain rfl := Option.some.inj (join'.symm.trans again')
  rw [join, join', eq_of_double ⟨smooth', smooth⟩ ⟨wide', wide⟩]
  rw [kind join, kind join', perm.any_eq]

theorem upcast_eq_of_perm {us ts : List ScalarType} (perm : us.Perm ts) (whole : ¬ Torn ts) :
    upcast us = upcast ts := by
  by_cases signed : ∃ t ∈ ts, t.isSigned = true
  · by_cases unsigned : .unsigned .w16 ∈ ts
    · by_cases continuous : ∃ t ∈ ts, t.isDiscrete = false
      · apply upcast_eq_of_double perm continuous
        by_contra narrow
        exact whole ⟨signed, unsigned, continuous, by simpa using narrow⟩
      · exact coherent_discrete.upcast_eq rfl perm fun t member => by simp_all
    · refine coherent_apart.upcast_eq rfl perm fun t member => ?_
      rw [bne_iff_ne]
      rintro rfl
      exact unsigned member
  · exact coherent_unsigned.upcast_eq rfl perm fun t member => by simp_all

theorem precision_promote_uint16 (s : ScalarType) (signed : s.isSigned = true)
    (narrow : s.precision ≠ .double) : (s.promote (.unsigned .w16)).precision = .double := by
  revert s
  decide +kernel

/-- With the two integer types in front the join has double precision, as that of the two has. -/
theorem Torn.exists_double {ts : List ScalarType} (torn : Torn ts) :
    ∃ us : List ScalarType, us.Perm ts ∧ ∃ t, upcast us = some t ∧ t.precision = .double := by
  obtain ⟨s, member, signed⟩ := torn.signed
  have apart : .unsigned .w16 ≠ s := by
    rintro rfl
    cases signed
  have second : .unsigned .w16 ∈ ts.erase s := (List.mem_erase_of_ne apart).mpr torn.unsigned
  have double := precision_promote_uint16 s signed (torn.narrow s member)
  have joined := upcast_of_absorbed precision_promote
    ⟨_, List.mem_cons_self (l := (ts.erase s).erase (.unsigned .w16)), double⟩
  exact ⟨s :: .unsigned .w16 :: (ts.erase s).erase (.unsigned .w16),
    ((List.perm_cons_erase second).symm.cons s).trans (List.perm_cons_erase member).symm, joined⟩

/-- With the continuous type in front no two integer types are joined. -/
theorem Torn.exists_narrow {ts : List ScalarType} (torn : Torn ts) :
    ∃ us : List ScalarType, us.Perm ts ∧ ∃ t, upcast us = some t ∧ t.precision ≠ .double := by
  obtain ⟨s, member, continuous⟩ := torn.continuous
  have rest : ∀ t ∈ ts.erase s, t.precision ≠ .double :=
    fun t remains => torn.narrow t (List.mem_of_mem_erase remains)
  exact ⟨s :: ts.erase s, (List.perm_cons_erase member).symm, _, rfl,
    precision_foldl_ne rest continuous (torn.narrow s member)⟩

theorem forall_perm_upcast_eq_iff (ts : List ScalarType) :
    (∀ us : List ScalarType, us.Perm ts → upcast us = upcast ts) ↔ ¬ Torn ts := by
  constructor
  · intro same torn
    obtain ⟨us, perm, s, join, double⟩ := torn.exists_double
    obtain ⟨us', perm', t, join', narrow⟩ := torn.exists_narrow
    have equal : some s = some t := by
      rw [← join, ← join', same us perm, same us' perm']
    exact narrow (Option.some.inj equal ▸ double)
  · intro whole us perm
    exact upcast_eq_of_perm perm whole

end ScalarType

namespace Primitive

open ScalarType

def Joining (p : Primitive) : Prop :=
  p = add ∨ p = mul ∨ p = mean ∨ ∃ b, p = bitwise b

theorem refuse_eq_ok_iff {p : Primitive} {excluded : ScalarType → Bool} {ts : List ScalarType} :
    p.refuse excluded ts = .ok () ↔ ∀ t ∈ ts, excluded t = false := by
  rw [refuse]
  cases found : ts.find? excluded with
  | some t => simpa using ⟨t, List.mem_of_find?_eq_some found, List.find?_some found⟩
  | none => simpa using found

theorem joined_eq_ok_iff {p : Primitive} {ts : List ScalarType} {t : ScalarType} :
    p.joined ts = .ok t ↔ upcast ts = some t := by
  rw [joined]
  cases upcast ts <;> simp

theorem outputType_bitwise_iff {b : Bitwise} {ts : List ScalarType} {config : Config} {t : ScalarType} :
    (bitwise b).outputType ts config = .ok t ↔
      (bitwise b).arity.admits ts.length = true ∧ (∀ s ∈ ts, s.isFloat = false) ∧
        upcast ts = some t := by
  rw [← refuse_eq_ok_iff (p := bitwise b), ← joined_eq_ok_iff (p := bitwise b)]
  by_cases admitted : (bitwise b).arity.admits ts.length = true
  · cases refused : (bitwise b).refuse isFloat ts <;> simp [outputType, checkArity, admitted, refused]
  · simp [outputType, checkArity, admitted]

theorem outputType_iff_of_perm {p : Primitive} (joining : p.Joining) {us ts : List ScalarType}
    (perm : us.Perm ts) (same : upcast us = upcast ts) (config : Config) (t : ScalarType) :
    p.outputType us config = .ok t ↔ p.outputType ts config = .ok t := by
  rcases joining with rfl | rfl | rfl | ⟨b, rfl⟩
  · simp only [outputType, joined, perm.length_eq, same]
  · simp only [outputType, joined, perm.length_eq, same]
  · simp only [outputType, perm.length_eq, same]
  · simp only [outputType_bitwise_iff, perm.length_eq, perm.mem_iff, same]

theorem outputType_iff_of_continuous {p : Primitive} (joining : p.Joining) {ts : List ScalarType}
    (continuous : ∃ t ∈ ts, t.isDiscrete = false) (config : Config) (t : ScalarType) :
    p.outputType ts config = .ok t ↔
      (p.arity.admits ts.length = true ∧ ((∃ b, p = bitwise b) → ∀ s ∈ ts, s.isFloat = false)) ∧
        upcast ts = some t := by
  obtain ⟨s, join, smooth⟩ := exists_upcast continuous
  rcases joining with rfl | rfl | rfl | ⟨b, rfl⟩
  · by_cases admitted : add.arity.admits ts.length = true <;>
      simp [outputType, checkArity, admitted, joined_eq_ok_iff]
  · by_cases admitted : mul.arity.admits ts.length = true <;>
      simp [outputType, checkArity, admitted, joined_eq_ok_iff]
  · by_cases admitted : mean.arity.admits ts.length = true <;>
      simp [outputType, checkArity, admitted, join, upgrade, smooth]
  · simp [outputType_bitwise_iff, and_assoc]

end Primitive

/-- When the order of operands decides nothing. The join of a list of types is the same in every order
    exactly if the list is not torn: a signed type, uint16 and a continuous type, none of double
    precision at all. The output type of a sum, a product, a mean or a bitwise operation is the same
    in every order of the operands exactly if they are not torn or the operation refuses them. -/
theorem order_decides_nothing_iff (ts : List ScalarType) :
    ((∀ us : List ScalarType, us.Perm ts → ScalarType.upcast us = ScalarType.upcast ts) ↔
      ¬ ScalarType.Torn ts) ∧
    ∀ (p : Primitive) (config : Config), p.Joining →
      ((∀ us : List ScalarType, us.Perm ts → ∀ t,
          p.outputType us config = .ok t ↔ p.outputType ts config = .ok t) ↔
        ¬ (ScalarType.Torn ts ∧ ∃ t, p.outputType ts config = .ok t)) := by
  have joins := ScalarType.forall_perm_upcast_eq_iff ts
  refine ⟨joins, fun p config joining => ⟨?_, ?_⟩⟩
  · rintro same ⟨torn, t, typed⟩
    refine joins.mp (fun us perm => ?_) torn
    have typed' := (same us perm t).mpr typed
    rw [Primitive.outputType_iff_of_continuous joining torn.continuous] at typed
    rw [Primitive.outputType_iff_of_continuous joining (torn.of_perm perm).continuous] at typed'
    exact typed'.2.trans typed.2.symm
  · intro settled us perm t
    by_cases torn : ScalarType.Torn ts
    · -- a refusal looks at the operands wherever they stand, so that no order has a type
      obtain ⟨s, join, -⟩ := ScalarType.exists_upcast torn.continuous
      have refused : ¬ (p.arity.admits ts.length = true ∧
          ((∃ b, p = .bitwise b) → ∀ s ∈ ts, s.isFloat = false)) := by
        intro accepted
        have typed := (Primitive.outputType_iff_of_continuous joining torn.continuous config s).mpr
          ⟨accepted, join⟩
        exact settled ⟨torn, s, typed⟩
      rw [Primitive.outputType_iff_of_continuous joining torn.continuous,
        Primitive.outputType_iff_of_continuous joining (torn.of_perm perm).continuous]
      simp only [perm.length_eq, perm.mem_iff, refused, false_and]
    · exact Primitive.outputType_iff_of_perm joining perm (joins.mpr torn us perm) config t

theorem doubles_joined_in_any_order :
    ¬ ScalarType.Torn [.signed .w16, .unsigned .w16, .float .double] ∧ Primitive.add.Joining ∧
    (∀ us : List ScalarType, us.Perm [.signed .w16, .unsigned .w16, .float .double] →
      ScalarType.upcast us = some (.float .double)) ∧
    ∀ us : List ScalarType, us.Perm [.signed .w16, .unsigned .w16, .float .double] →
      Primitive.add.outputType us {} = .ok (.float .double) := by
  have whole : ¬ ScalarType.Torn [.signed .w16, .unsigned .w16, .float .double] := by
    intro torn
    exact torn.narrow (.float .double) (by simp) rfl
  have joining : Primitive.add.Joining := .inl rfl
  obtain ⟨joins, types⟩ :=
    order_decides_nothing_iff [.signed .w16, .unsigned .w16, .float .double]
  have typed := (types .add {} joining).mpr fun torn => whole torn.1
  exact ⟨whole, joining, fun us perm => joins.mpr whole us perm,
    fun us perm => (typed us perm (.float .double)).mpr rfl⟩

/-- Torn types: the sum is of double precision if the two integer types are added first. -/
theorem integers_first_widen :
    ScalarType.Torn [.signed .w16, .unsigned .w16, .float .single] ∧
    Primitive.add.outputType [.signed .w16, .unsigned .w16, .float .single] {} =
      .ok (.float .double) ∧
    Primitive.add.outputType [.signed .w16, .float .single, .unsigned .w16] {} =
      .ok (.float .single) := by
  have torn : ScalarType.Torn [.signed .w16, .unsigned .w16, .float .single] :=
    { signed := ⟨.signed .w16, by simp, rfl⟩
      unsigned := by simp
      continuous := ⟨.float .single, by simp, rfl⟩
      narrow := by decide }
  exact ⟨torn, rfl, rfl⟩

end ScalarFusion

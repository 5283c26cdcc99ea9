import ScalarFusion.Proofs.Doubles
import ScalarFusion.Proofs.BitwiseWords

/-!
Comparisons of integers. Operands of discrete types are compared in the join of their types, which
holds the integers of all of them, so that the comparison is that of the integers. The exception is a
signed type beside the widest unsigned one: their join is float64, and what is compared are the
integers rounded to 53 binary digits.
-/
namespace ScalarFusion

namespace Real

open Float.Model (UnpackedFloat)

/-- How many times the least positive double goes into `m · 2^q`. -/
def units (m : Nat) (q : Int) : Nat :=
  m * 2 ^ (q + 1074).toNat

theorem Same.units_eq {m m' : Nat} {q q' : Int} (same : Same m q m' q') (low : -1074 ≤ q)
    (low' : -1074 ≤ q') : units m q = units m' q' := by
  obtain ⟨j, k, mantissas, exponents⟩ := same
  have powers : (q + 1074).toNat + k = j + (q' + 1074).toNat := by omega
  apply Nat.eq_of_mul_eq_mul_right (Nat.two_pow_pos k)
  calc m * 2 ^ (q + 1074).toNat * 2 ^ k = m * 2 ^ j * 2 ^ (q' + 1074).toNat := by
        rw [Nat.mul_assoc, ← Nat.pow_add, powers, Nat.pow_add, Nat.mul_assoc]
    _ = m' * 2 ^ (q' + 1074).toNat * 2 ^ k := by
        rw [mantissas]
        exact Nat.mul_right_comm _ _ _

theorem Canonical.lt_of_exponent_lt {m m' : Nat} {q q' : Int} (first : Canonical m q)
    (second : Canonical m' q') (less : q < q') :
    units m q < units m' q' := by
  obtain ⟨small, low, -⟩ := first
  obtain ⟨-, -, subnormal | full⟩ := second
  · omega
  · have exponents : (q' + 1074).toNat = (q' - q).toNat + (q + 1074).toNat := by omega
    have step : 2 ^ 1 ≤ 2 ^ (q' - q).toNat := Nat.pow_le_pow_right (by decide) (by omega)
    have mantissas : m < m' * 2 ^ (q' - q).toNat := by
      calc m < 2 ^ 52 * 2 ^ 1 := small
        _ ≤ m' * 2 ^ (q' - q).toNat := Nat.mul_le_mul full step
    rw [units, units, exponents, Nat.pow_add, ← Nat.mul_assoc]
    exact Nat.mul_lt_mul_of_pos_right mantissas (Nat.two_pow_pos _)

theorem Canonical.compare_eq {m m' : Nat} {q q' : Int} (first : Canonical m q)
    (second : Canonical m' q') :
    (compare q q').then (compare m m') = compare (units m q) (units m' q') := by
  rcases lt_trichotomy q q' with less | rfl | greater
  · rw [compare_lt_iff_lt.mpr less, compare_lt_iff_lt.mpr (first.lt_of_exponent_lt second less)]
    rfl
  · rw [compare_eq_iff_eq.mpr rfl, Ordering.eq_then, ← cmp_eq_compare, ← cmp_eq_compare, units, units,
      cmp_mul_pos_right (Nat.two_pow_pos _)]
  · rw [compare_gt_iff_gt.mpr greater, compare_gt_iff_gt.mpr (second.lt_of_exponent_lt first greater)]
    rfl

theorem units_pos {m : Nat} (positive : 0 < m) (q : Int) : 0 < units m q :=
  Nat.mul_pos positive (Nat.two_pow_pos _)

theorem units_zero (q : Int) : units 0 q = 0 :=
  Nat.zero_mul _

theorem applySign_zero (negative : Bool) : applySign negative 0 = 0 := by
  cases negative <;> rfl

theorem applySign_pos {n : Nat} (positive : 0 < n) : 0 < applySign false n :=
  Int.natCast_pos.mpr positive

theorem applySign_neg {n : Nat} (positive : 0 < n) : applySign true n < 0 :=
  Int.neg_neg_of_pos (Int.natCast_pos.mpr positive)

theorem compare_applySign_positive (a b : Nat) :
    compare (applySign false a) (applySign false b) = compare a b := by
  rw [← cmp_eq_compare, ← cmp_eq_compare]
  exact Nat.strictMono_cast.cmp_map_eq a b

theorem compare_applySign_negative (a b : Nat) :
    compare (applySign true a) (applySign true b) = (compare a b).swap := by
  rw [← cmp_eq_compare, ← cmp_eq_compare, cmp_swap]
  exact (Nat.strictMono_cast.neg).cmp_map_eq a b

theorem compare_unpacked {u v : UnpackedFloat} {s s' : Bool} {m m' : Nat} {q q' : Int}
    (first : Reading.ofUnpacked u = .finite s m q) (second : Reading.ofUnpacked v = .finite s' m' q')
    (canonical : Canonical m q) (canonical' : Canonical m' q') :
    u.compare v = some (compare (applySign s (units m q)) (applySign s' (units m' q'))) := by
  cases u <;> cases v <;>
    simp only [Reading.ofUnpacked, reduceCtorEq, Reading.finite.injEq] at first second
  case zero.zero s₁ s₂ =>
    obtain ⟨-, rfl, rfl⟩ := first
    obtain ⟨-, rfl, rfl⟩ := second
    rw [units_zero, applySign_zero, applySign_zero]
    rfl
  case zero.finite s₁ s₂ m₂ e₂ positive =>
    obtain ⟨-, rfl, rfl⟩ := first
    obtain ⟨rfl, rfl, rfl⟩ := second
    have above := units_pos positive e₂
    rw [units_zero, applySign_zero]
    cases s₂ with
    | positive => exact congrArg some (compare_lt_iff_lt.mpr (applySign_pos above)).symm
    | negative => exact congrArg some (compare_gt_iff_gt.mpr (applySign_neg above)).symm
  case finite.zero s₁ m₁ e₁ positive s₂ =>
    obtain ⟨rfl, rfl, rfl⟩ := first
    obtain ⟨-, rfl, rfl⟩ := second
    have above := units_pos positive e₁
    rw [units_zero, applySign_zero]
    cases s₁ with
    | positive => exact congrArg some (compare_gt_iff_gt.mpr (applySign_pos above)).symm
    | negative => exact congrArg some (compare_lt_iff_lt.mpr (applySign_neg above)).symm
  case finite.finite s₁ m₁ e₁ positive s₂ m₂ e₂ positive' =>
    obtain ⟨rfl, rfl, rfl⟩ := first
    obtain ⟨rfl, rfl, rfl⟩ := second
    have order := canonical.compare_eq canonical'
    have above := units_pos positive e₁
    have above' := units_pos positive' e₂
    cases s₁ <;> cases s₂
    case positive.positive =>
      rw [Reading.ofSign, compare_applySign_positive, ← order]
      rfl
    case negative.negative =>
      rw [Reading.ofSign, compare_applySign_negative, ← order]
      rfl
    case negative.positive =>
      have less := Int.lt_trans (applySign_neg above) (applySign_pos above')
      exact congrArg some (compare_lt_iff_lt.mpr less).symm
    case positive.negative =>
      have greater := Int.lt_trans (applySign_neg above') (applySign_pos above)
      exact congrArg some (compare_gt_iff_gt.mpr greater).symm

theorem canonical_of_read {x : Float} {s : Bool} {m : Nat} {q : Int} (reading : read x = .finite s m q) :
    Canonical m q := by
  rcases read_cases x with nan | infinite | ⟨m', q', finite, canonical⟩
  · simp [reading] at nan
  · simp [reading] at infinite
  · obtain ⟨-, rfl, rfl⟩ := Reading.finite.inj (reading.symm.trans finite)
    exact canonical

theorem order_of_reads {x y : Float} {s s' : Bool} {m m' : Nat} {q q' : Int}
    (first : read x = .finite s m q) (second : read y = .finite s' m' q') :
    (x < y ↔ applySign s (units m q) < applySign s' (units m' q')) ∧
    ((x == y) = true ↔ applySign s (units m q) = applySign s' (units m' q')) := by
  have order := compare_unpacked ((read_eq x).symm.trans first) ((read_eq y).symm.trans second)
    (canonical_of_read first) (canonical_of_read second)
  constructor
  · have less : x < y ↔ (x.toModel.unpack.compare y.toModel.unpack == some .lt) = true :=
      decide_eq_true_iff
    rw [less, order]
    simp [compare_lt_iff_lt]
  · have equal : (x == y) = (x.toModel.unpack.compare y.toModel.unpack == some .eq) := rfl
    rw [equal, order]
    simp

def nearestNat (k : Nat) : Nat :=
  shiftRound k (bitLength k - 53) * 2 ^ (bitLength k - 53)

def nearest (n : Int) : Int :=
  applySign (decide (n < 0)) (nearestNat n.natAbs)

theorem nearestNat_of_lt {k : Nat} (small : k < 2 ^ 53) : nearestNat k = k := by
  have short : bitLength k - 53 = 0 := Nat.sub_eq_zero_of_le (bitLength_le small)
  have kept := shiftRound_exact k 0
  rw [nearestNat, short]
  simpa using kept

theorem nearest_eq {n : Int} (small : n.natAbs ≤ 2 ^ 53) : nearest n = n := by
  have kept : nearestNat n.natAbs = n.natAbs := by
    rcases Nat.lt_or_eq_of_le small with less | last
    · exact nearestNat_of_lt less
    · rw [last]
      decide
  rw [nearest, kept, applySign]
  split
  · next negative =>
    have below := of_decide_eq_true negative
    omega
  · next positive =>
    have above := of_decide_eq_false (Bool.eq_false_of_not_eq_true positive)
    omega

theorem round_nat {k : Nat} (small : k < 2 ^ 64) :
    ∃ r t, Format.double.round k 0 = some (r, t) ∧ Same r t (nearestNat k) 0 := by
  rcases Nat.eq_zero_or_pos k with rfl | positive
  · refine ⟨0, -1074, rfl, 0, 1074, ?_, by decide⟩
    rw [nearestNat_of_lt (by decide), Nat.zero_mul, Nat.zero_mul]
  · have length := bitLength_le small
    have target : Format.double.target k 0 = bitLength k - 53 := by
      simp only [Format.target, Format.double]
      omega
    have inside : ¬ (Format.double.greatest < Format.double.target k 0) ∧
        Format.double.target k 0 ≠ Format.double.greatest := by
      rw [target]
      simp only [Format.double]
      omega
    refine ⟨Format.roundedAt k 0 (Format.double.target k 0), Format.double.target k 0, ?_, ?_⟩
    · rw [Format.round_eq _ positive, if_neg (by tauto)]
    · rw [target, Format.roundedAt, nearestNat]
      split
      · next short =>
        have none : bitLength k - 53 = 0 := by omega
        have kept := shiftRound_exact k 0
        rw [Nat.pow_zero, Nat.mul_one] at kept
        rw [none, kept]
        exact ⟨0, (0 - ((bitLength k : Int) - 53)).toNat, by simp, by omega⟩
      · next long =>
        have shift : ((bitLength k : Int) - 53 - 0).toNat = bitLength k - 53 := by omega
        rw [shift]
        exact ⟨bitLength k - 53, 0, by simp, by omega⟩

theorem applySign_units (negative : Bool) (k : Nat) :
    applySign negative (units k 0) = applySign negative k * (units 1 0 : Nat) := by
  have product : units k 0 = k * units 1 0 := by rw [units, units, Nat.one_mul]
  rw [product]
  generalize units 1 0 = unit
  cases negative <;> simp [applySign]

theorem read_ofInt {n : Int} (small : n.natAbs < 2 ^ 64) :
    ∃ s m q, read (ofInt n) = .finite s m q ∧
      applySign s (units m q) = nearest n * (units 1 0 : Nat) := by
  obtain ⟨r, t, rounded, same⟩ := round_nat small
  obtain ⟨m, q, reading, same'⟩ := @read_of_round (decide (n < 0)) n.natAbs r 0 t rounded
  refine ⟨_, m, q, reading, ?_⟩
  rw [(same'.trans same).units_eq (canonical_of_read reading).2.1 (by decide), applySign_units, nearest]

theorem order_ofInt {m n : Int} (small : m.natAbs < 2 ^ 64) (small' : n.natAbs < 2 ^ 64) :
    (ofInt m < ofInt n ↔ nearest m < nearest n) ∧
    ((ofInt m == ofInt n) = true ↔ nearest m = nearest n) := by
  obtain ⟨s, k, q, reading, number⟩ := read_ofInt small
  obtain ⟨s', k', q', reading', number'⟩ := read_ofInt small'
  have unit : (0 : Int) < (units 1 0 : Nat) := Int.natCast_pos.mpr (units_pos (by decide) 0)
  obtain ⟨less, equal⟩ := order_of_reads reading reading'
  rw [less, equal, number, number', Int.mul_lt_mul_right unit]
  exact ⟨Iff.rfl, Int.mul_eq_mul_right_iff (Int.ne_of_gt unit)⟩

end Real

namespace ScalarType

def Fits (s t : ScalarType) : Prop :=
  t.bounds.1 ≤ s.bounds.1 ∧ s.bounds.2 ≤ t.bounds.2

instance (s t : ScalarType) : Decidable (Fits s t) :=
  inferInstanceAs (Decidable (_ ∧ _))

theorem Fits.trans {r s t : ScalarType} (first : Fits r s) (second : Fits s t) : Fits r t :=
  ⟨Int.le_trans second.1 first.1, Int.le_trans first.2 second.2⟩

theorem Fits.holds {s t : ScalarType} (fits : Fits s t) {n : Int} (inside : s.holds n = true) :
    t.holds n = true := by
  obtain ⟨low, high⟩ := of_decide_eq_true inside
  exact decide_eq_true ⟨Int.le_trans fits.1 low, Int.le_trans high fits.2⟩

theorem fits_promote (s t : ScalarType) : Fits s (s.promote t) ∧ Fits t (s.promote t) := by
  revert s t
  decide +kernel

theorem fits_foldl {ts : List ScalarType} {t s : ScalarType} (member : s ∈ t :: ts) :
    Fits s (ts.foldl promote t) := by
  induction ts generalizing t s with
  | nil =>
    obtain rfl := List.mem_singleton.mp member
    exact ⟨Int.le_refl _, Int.le_refl _⟩
  | cons u ts ih =>
    have joined : Fits (t.promote u) (ts.foldl promote (t.promote u)) := ih List.mem_cons_self
    rcases List.mem_cons.mp member with rfl | rest
    · exact (fits_promote s u).1.trans joined
    · rcases List.mem_cons.mp rest with rfl | later
      · exact (fits_promote t s).2.trans joined
      · exact ih (List.mem_cons_of_mem _ later)

theorem fits_upcast {ts : List ScalarType} {t s : ScalarType} (join : upcast ts = some t)
    (member : s ∈ ts) : Fits s t := by
  cases ts with
  | nil => cases member
  | cons r ts =>
    obtain rfl : ts.foldl promote r = t := Option.some.inj join
    exact fits_foldl member

end ScalarType

namespace Literal

theorem exists_toInt {t : ScalarType} (discrete : t.isDiscrete = true) {v : Literal}
    (normal : v.cast t = v) : ∃ n, v.toInt? = some n ∧ t.holds n = true := by
  rw [← normal]
  cases t with
  | bool => exact ⟨_, rfl, by cases v.isTruthy <;> rfl⟩
  | signed w =>
    refine ⟨v.truncated.bmod w.modulus, by rw [cast, toInt?, toInt_wrapped], decide_eq_true ?_⟩
    have low := Int.le_bmod (x := v.truncated) (m := w.modulus) (by cases w <;> decide)
    have high := Int.bmod_lt (x := v.truncated) (m := w.modulus) (by cases w <;> decide)
    cases w <;> simp only [Width.modulus, ScalarType.bounds] at low high ⊢ <;> omega
  | unsigned w =>
    refine ⟨v.truncated % w.modulus, by rw [cast, toInt?, toNat_wrapped], decide_eq_true ?_⟩
    cases w <;> simp only [Width.modulus, ScalarType.bounds] <;> omega
  | _ => cases discrete

theorem truncated_of_integer {v : Literal} {n : Int} (integer : v.toInt? = some n) :
    v.truncated = n := by
  rw [truncated, integer]

theorem isTruthy_of_integer {v : Literal} {n : Int} (integer : v.toInt? = some n) :
    v.isTruthy = decide (n ≠ 0) := by
  cases v with
  | bool b =>
    obtain rfl := Option.some.inj integer
    cases b <;> rfl
  | signed k =>
    obtain rfl := Option.some.inj integer
    rw [isTruthy, Bool.eq_iff_iff, bne_iff_ne, decide_eq_true_iff, ne_eq, ne_eq, ← Int64.toInt_inj]
    rfl
  | unsigned k =>
    obtain rfl := Option.some.inj integer
    rw [isTruthy, Bool.eq_iff_iff, bne_iff_ne, decide_eq_true_iff, ne_eq, ne_eq, ← UInt64.toNat_inj,
      Int.natCast_eq_zero]
    rfl
  | _ => cases integer

theorem real_of_integer {v : Literal} {n : Int} (integer : v.toInt? = some n) :
    v.real = Real.ofInt n := by
  cases v with
  | bool b =>
    obtain rfl := Option.some.inj integer
    cases b <;> rfl
  | signed k => rw [← Option.some.inj integer, real]
  | unsigned k => rw [← Option.some.inj integer, real]
  | _ => cases integer

theorem intIn_of_holds {t : ScalarType} (discrete : t.isDiscrete = true) {v : Literal} {n : Int}
    (integer : v.toInt? = some n) (inside : t.holds n = true) : v.intIn t = n := by
  have bounds := of_decide_eq_true inside
  cases t with
  | bool =>
    simp only [ScalarType.bounds] at bounds
    rw [intIn, cast, isTruthy_of_integer integer, toInt?, Option.getD_some]
    simp only [ne_eq, decide_not, Bool.not_eq_true', decide_eq_false_iff_not]
    split <;> omega
  | signed w =>
    rw [intIn, cast, truncated_of_integer integer, toInt?, toInt_wrapped, bmod_of_holds inside,
      Option.getD_some]
  | unsigned w =>
    simp only [ScalarType.bounds] at bounds
    rw [intIn, cast, truncated_of_integer integer, toInt?, toNat_wrapped, Option.getD_some]
    exact Int.emod_eq_of_lt bounds.1 (by omega)
  | _ => cases discrete

end Literal

namespace Comparison

def Holds : Comparison → Int → Int → Prop
  | gt, m, n => n < m
  | lt, m, n => m < n
  | le, m, n => m ≤ n
  | ge, m, n => n ≤ m
  | eq, m, n => m = n
  | neq, m, n => m ≠ n

theorem holds_iff (c : Comparison) (m n : Int) :
    c.holds (some (compareOfLessAndEq m n)) = true ↔ c.Holds m n := by
  rw [compareOfLessAndEq]
  cases c <;> simp only [holds, Holds] <;> split <;> simp <;> omega

end Comparison

namespace Primitive

open ScalarType (Clash)

instance (types : List ScalarType) : Decidable (Clash types) :=
  inferInstanceAs (Decidable (_ ∧ _))

/-- The integer of an operand as it is compared with others of these types. -/
def seenAmong (types : List ScalarType) (n : Int) : Int :=
  if Clash types then Real.nearest n else n

theorem seenAmong_of_clash {types : List ScalarType} (clash : Clash types) :
    seenAmong types = Real.nearest :=
  funext fun _ => if_pos clash

theorem seenAmong_eq {types : List ScalarType} {n : Int}
    (exactly : ¬ Clash types ∨ n.natAbs ≤ 2 ^ 53) : seenAmong types n = n := by
  rw [seenAmong]
  split
  · next clash => exact Real.nearest_eq (exactly.resolve_left fun apart => apart clash)
  · rfl

theorem natAbs_lt_of_holds {t : ScalarType} (discrete : t.isDiscrete = true) {n : Int}
    (inside : t.holds n = true) : n.natAbs < 2 ^ 64 := by
  have bounds := of_decide_eq_true inside
  rcases t with _ | (_ | _ | _ | _) | (_ | _ | _ | _) | _ | _ <;> try cases discrete
  all_goals
    simp only [ScalarType.bounds, Width.modulus] at bounds
    omega

theorem compareIn_double {a b : Literal} {m n : Int} (first : a.toInt? = some m)
    (second : b.toInt? = some n) (small : m.natAbs < 2 ^ 64) (small' : n.natAbs < 2 ^ 64) :
    compareIn (.float .double) a b =
      some (compareOfLessAndEq (Real.nearest m) (Real.nearest n)) := by
  obtain ⟨less, equal⟩ := Real.order_ofInt small small'
  obtain ⟨greater, -⟩ := Real.order_ofInt small' small
  simp only [compareIn, compareOfLessAndEq, Literal.real_of_integer first,
    Literal.real_of_integer second, less, equal, greater]
  split
  · rfl
  · split
    · rfl
    · rw [if_pos (by omega)]

theorem compareIn_discrete {t : ScalarType} (discrete : t.isDiscrete = true) (a b : Literal) :
    compareIn t a b = some (compareOfLessAndEq (a.intIn t) (b.intIn t)) := by
  cases t <;> first | rfl | cases discrete

theorem holds_compareIn {types : List ScalarType} (discrete : ∀ t ∈ types, t.isDiscrete = true)
    (c : Comparison) {s t : ScalarType} (member : s ∈ types) (member' : t ∈ types) {a b : Literal}
    {m n : Int} (first : a.toInt? = some m) (second : b.toInt? = some n)
    (inside : s.holds m = true) (inside' : t.holds n = true) :
    c.holds (compareIn (comparedIn types) a b) = true ↔
      c.Holds (seenAmong types m) (seenAmong types n) := by
  obtain ⟨join, joined, clash, apart⟩ :=
    ScalarType.upcast_discrete (List.ne_nil_of_mem member) discrete
  have common : comparedIn types = join := by rw [comparedIn, joined, Option.getD_some]
  rw [common, seenAmong, seenAmong]
  split
  · next clashes =>
    have small := natAbs_lt_of_holds (discrete s member) inside
    have small' := natAbs_lt_of_holds (discrete t member') inside'
    rw [clash clashes, compareIn_double first second small small']
    exact c.holds_iff _ _
  · next whole =>
    have within := (ScalarType.fits_upcast joined member).holds inside
    have within' := (ScalarType.fits_upcast joined member').holds inside'
    rw [compareIn_discrete (apart whole), Literal.intIn_of_holds (apart whole) first within,
      Literal.intIn_of_holds (apart whole) second within']
    exact c.holds_iff m n

end Primitive

def Between (lower upper : Bool) (k m n : Int) : Prop :=
  (if lower then m ≤ k else m < k) ∧ (if upper then k ≤ n else k < n)

theorem between_iff (lower upper : Bool) (k m n : Int) :
    Between lower upper k m n ↔ (if lower then Comparison.ge else .gt).Holds k m ∧
      (if upper then Comparison.le else .lt).Holds k n := by
  cases lower <;> cases upper <;> rfl

/-- Comparisons of discrete operands, each a literal of its type. A comparison of two operands and a
    range test of three always have a truth value. It is that of the comparisons of the integers,
    unless a signed type and the widest unsigned type are both among the types of all the operands;
    then it is that of the integers to 53 binary digits, to nearest with ties to even, and so still of
    the integers themselves if none is beyond 2^53. -/
theorem comparison_exact_unless_clash [Numerics] :
    (∀ (c : Comparison) (s t : ScalarType) (a b : Literal),
      (∀ type ∈ [s, t], type.isDiscrete = true) → a.cast s = a → b.cast t = b →
      ∃ m n r, a.toInt? = some m ∧ b.toInt? = some n ∧
        (Primitive.compare c).evaluate [a, b] [s, t] [.bool] = .ok [.bool r] ∧
        (¬ ScalarType.Clash [s, t] ∨ (∀ i ∈ [m, n], i.natAbs ≤ 2 ^ 53) →
          (r = true ↔ c.Holds m n)) ∧
        (ScalarType.Clash [s, t] → (r = true ↔ c.Holds (Real.nearest m) (Real.nearest n)))) ∧
    (∀ (lower upper : Bool) (s t u : ScalarType) (x low high : Literal),
      (∀ type ∈ [s, t, u], type.isDiscrete = true) → x.cast s = x → low.cast t = low →
      high.cast u = high →
      ∃ k m n r, x.toInt? = some k ∧ low.toInt? = some m ∧ high.toInt? = some n ∧
        (Primitive.inRange lower upper).evaluate [x, low, high] [s, t, u] [.bool] =
          .ok [.bool r] ∧
        (¬ ScalarType.Clash [s, t, u] ∨ (∀ i ∈ [k, m, n], i.natAbs ≤ 2 ^ 53) →
          (r = true ↔ Between lower upper k m n)) ∧
        (ScalarType.Clash [s, t, u] →
          (r = true ↔ Between lower upper (Real.nearest k) (Real.nearest m) (Real.nearest n)))) := by
  constructor
  · intro c s t a b discrete normal normal'
    obtain ⟨m, first, inside⟩ := Literal.exists_toInt (discrete s (by simp)) normal
    obtain ⟨n, second, inside'⟩ := Literal.exists_toInt (discrete t (by simp)) normal'
    have answer := Primitive.holds_compareIn discrete c (by simp) (by simp) first second inside inside'
    refine ⟨m, n, _, first, second, rfl, fun exactly => ?_, fun clash => ?_⟩
    · rw [Primitive.seenAmong_eq (exactly.imp_right (· m (by simp))),
        Primitive.seenAmong_eq (exactly.imp_right (· n (by simp)))] at answer
      exact answer
    · rw [Primitive.seenAmong_of_clash clash] at answer
      exact answer
  · intro lower upper s t u x low high discrete normal normal' normal''
    obtain ⟨k, first, inside⟩ := Literal.exists_toInt (discrete s (by simp)) normal
    obtain ⟨m, second, inside'⟩ := Literal.exists_toInt (discrete t (by simp)) normal'
    obtain ⟨n, third, inside''⟩ := Literal.exists_toInt (discrete u (by simp)) normal''
    have above := Primitive.holds_compareIn discrete (if lower then .ge else .gt) (by simp) (by simp)
      first second inside inside'
    have below := Primitive.holds_compareIn discrete (if upper then .le else .lt) (by simp) (by simp)
      first third inside inside''
    have answer := Bool.and_eq_true_iff.trans (and_congr above below)
    rw [← between_iff] at answer
    refine ⟨k, m, n, _, first, second, third, rfl, fun exactly => ?_, fun clash => ?_⟩
    · rw [Primitive.seenAmong_eq (exactly.imp_right (· k (by simp))),
        Primitive.seenAmong_eq (exactly.imp_right (· m (by simp))),
        Primitive.seenAmong_eq (exactly.imp_right (· n (by simp)))] at answer
      exact answer
    · rw [Primitive.seenAmong_of_clash clash] at answer
      exact answer

theorem byte_compared :
    ¬ ScalarType.Clash [.signed .w8, .unsigned .w32] ∧
    ScalarType.Clash [.signed .w8, .bool, .unsigned .w64] ∧
    Real.nearest 18446744073709551615 = 18446744073709551616 ∧
    (Primitive.compare .lt).evaluate [.signed (-128), .unsigned 4294967295]
      [.signed .w8, .unsigned .w32] [.bool] = .ok [.bool true] ∧
    (Primitive.inRange true true).evaluate [.signed 5, .bool true, .unsigned 18446744073709551615]
      [.signed .w8, .bool, .unsigned .w64] [.bool] = .ok [.bool true] := by
  have apart : ¬ ScalarType.Clash [.signed .w8, .unsigned .w32] := by decide
  have clash : ScalarType.Clash [.signed .w8, .bool, .unsigned .w64] := by decide
  obtain ⟨compared, ranged⟩ := comparison_exact_unless_clash
  obtain ⟨m, n, r, first, second, value, exactly, -⟩ := compared .lt (.signed .w8) (.unsigned .w32)
    (.signed (-128)) (.unsigned 4294967295) (by decide) (by decide) (by decide)
  obtain ⟨k, m', n', r', first', second', third', value', -, rounded⟩ := ranged true true
    (.signed .w8) .bool (.unsigned .w64) (.signed 5) (.bool true) (.unsigned 18446744073709551615)
    (by decide) (by decide) (by decide) (by decide)
  obtain rfl := Option.some.inj first
  obtain rfl := Option.some.inj second
  obtain rfl := Option.some.inj first'
  obtain rfl := Option.some.inj second'
  obtain rfl := Option.some.inj third'
  have less : r = true := (exactly (.inl apart)).mpr (by decide : (-128 : Int) < 4294967295)
  have inside : r' = true := (rounded clash).mpr
    (by decide : (1 : Int) ≤ 5 ∧ (5 : Int) ≤ 18446744073709551616)
  subst less inside
  exact ⟨apart, clash, by decide, value, value'⟩

/-- Beside the widest unsigned type the last digit of a signed integer is lost. -/
theorem widest_compared_rounded :
    (Literal.signed 9007199254740993).cast (.signed .w64) = .signed 9007199254740993 ∧
    (Literal.unsigned 9007199254740992).cast (.unsigned .w64) = .unsigned 9007199254740992 ∧
    Comparison.gt.Holds 9007199254740993 9007199254740992 ∧
    (Primitive.compare .gt).evaluate [.signed 9007199254740993, .unsigned 9007199254740992]
      [.signed .w64, .unsigned .w64] [.bool] = .ok [.bool false] :=
  ⟨by decide, by decide, by simp [Comparison.Holds], by decide⟩

end ScalarFusion

import Mathlib
import ScalarFusion.Real.Binary

/-!
Rounding to a binary format depends on the rounded number only, not on the mantissa and exponent
that give it, and what it yields it leaves as it is. So narrowing a double a second time does
nothing.
-/
namespace ScalarFusion.Real

@[simp]
theorem pow2_eq (k : Nat) : pow2 k = 2 ^ k := rfl

theorem bitLength_spec {m : Nat} (positive : 0 < m) :
    2 ^ (bitLength m - 1) ≤ m ∧ m < 2 ^ bitLength m := by
  rw [bitLength, if_neg (by omega), Nat.add_sub_cancel]
  exact ⟨Nat.log2_self_le (by omega), Nat.lt_log2_self⟩

theorem bitLength_scale {m : Nat} (positive : 0 < m) (k : Nat) :
    bitLength (m * 2 ^ k) = bitLength m + k := by
  have scaled : 0 < m * 2 ^ k := Nat.mul_pos positive (Nat.two_pow_pos k)
  have log : (m * 2 ^ k).log2 = m.log2 + k := by
    rw [Nat.log2_eq_iff (by omega), Nat.pow_add, Nat.add_right_comm, Nat.pow_add]
    exact ⟨Nat.mul_le_mul_right _ (Nat.log2_self_le (by omega)),
      Nat.mul_lt_mul_of_pos_right Nat.lt_log2_self (Nat.two_pow_pos k)⟩
  rw [bitLength, bitLength, if_neg (by omega), if_neg (by omega), log]
  omega

theorem bitLength_le {m k : Nat} (small : m < 2 ^ k) : bitLength m ≤ k := by
  rcases Nat.eq_zero_or_pos m with rfl | positive
  · simp [bitLength]
  · have less := Nat.lt_of_le_of_lt (bitLength_spec positive).1 small
    have := (Nat.pow_lt_pow_iff_right (by decide : 1 < 2)).mp less
    omega

theorem shiftRound_eq (m k : Nat) : shiftRound m k =
    if 2 ^ k < 2 * (m % 2 ^ k) ∨ (2 * (m % 2 ^ k) = 2 ^ k ∧ m / 2 ^ k % 2 = 1) then m / 2 ^ k + 1
    else m / 2 ^ k := by
  simp only [shiftRound, Bool.or_eq_true, Bool.and_eq_true, decide_eq_true_eq]
  rfl

theorem shiftRound_scale (m j k : Nat) : shiftRound (m * 2 ^ k) (j + k) = shiftRound m j := by
  have positive := Nat.two_pow_pos k
  have quotient : m * 2 ^ k / (2 ^ j * 2 ^ k) = m / 2 ^ j := Nat.mul_div_mul_right _ _ positive
  have remainder : m * 2 ^ k % (2 ^ j * 2 ^ k) = m % 2 ^ j * 2 ^ k := Nat.mul_mod_mul_right _ _ _
  have above : 2 ^ j * 2 ^ k < 2 * (m % 2 ^ j) * 2 ^ k ↔ 2 ^ j < 2 * (m % 2 ^ j) :=
    Nat.mul_lt_mul_right positive
  have tie : 2 * (m % 2 ^ j) * 2 ^ k = 2 ^ j * 2 ^ k ↔ 2 * (m % 2 ^ j) = 2 ^ j :=
    Nat.mul_left_inj (by omega)
  simp only [shiftRound_eq, Nat.pow_add, quotient, remainder, ← Nat.mul_assoc, above, tie]

theorem shiftRound_exact (m j : Nat) : shiftRound (m * 2 ^ j) j = m := by
  have positive := Nat.two_pow_pos j
  rw [shiftRound_eq, Nat.mul_mod_left, Nat.mul_div_cancel _ positive, if_neg]
  omega

theorem shiftRound_le (m j : Nat) : shiftRound m j ≤ m / 2 ^ j + 1 := by
  rw [shiftRound_eq]
  split <;> omega

theorem le_shiftRound (m j : Nat) : m / 2 ^ j ≤ shiftRound m j := by
  rw [shiftRound_eq]
  split <;> omega

def Same (m : Nat) (q : Int) (m' : Nat) (q' : Int) : Prop :=
  ∃ j k : Nat, m * 2 ^ j = m' * 2 ^ k ∧ q - j = q' - k

theorem Same.refl (m : Nat) (q : Int) : Same m q m q :=
  ⟨0, 0, rfl, rfl⟩

theorem Same.symm {m m' : Nat} {q q' : Int} (same : Same m q m' q') : Same m' q' m q := by
  obtain ⟨j, k, mantissas, exponents⟩ := same
  exact ⟨k, j, mantissas.symm, exponents.symm⟩

theorem Same.trans {m m' m'' : Nat} {q q' q'' : Int} (first : Same m q m' q')
    (second : Same m' q' m'' q'') : Same m q m'' q'' := by
  obtain ⟨j, k, mantissas, exponents⟩ := first
  obtain ⟨j', k', mantissas', exponents'⟩ := second
  refine ⟨j + j', k + k', ?_, by omega⟩
  calc m * 2 ^ (j + j') = m' * 2 ^ j' * 2 ^ k := by
        rw [Nat.pow_add, ← Nat.mul_assoc, mantissas]
        exact Nat.mul_right_comm _ _ _
    _ = m'' * 2 ^ (k + k') := by
        rw [mantissas', Nat.mul_assoc, ← Nat.pow_add, Nat.add_comm k']

namespace Format

def target (f : Format) (m : Nat) (q : Int) : Int :=
  max f.least (q + bitLength m - f.digits)

def roundedAt (m : Nat) (q t : Int) : Nat :=
  if t ≤ q then m * 2 ^ (q - t).toNat else shiftRound m (t - q).toNat

theorem round_eq (f : Format) {m : Nat} (positive : 0 < m) (q : Int) :
    f.round m q =
      if f.greatest < f.target m q ∨
        (f.target m q = f.greatest ∧ 2 ^ f.digits ≤ roundedAt m q (f.target m q)) then none
      else some (roundedAt m q (f.target m q), f.target m q) := by
  rw [round, if_neg (by omega)]
  rfl

theorem roundedAt_scale (m : Nat) (q t : Int) (k : Nat) :
    roundedAt (m * 2 ^ k) (q - k) t = roundedAt m q t := by
  unfold roundedAt
  by_cases fine : t ≤ q - k
  · rw [if_pos fine, if_pos (by omega), Nat.mul_assoc, ← Nat.pow_add]
    congr 2
    omega
  · rw [if_neg fine]
    by_cases between : t ≤ q
    · rw [if_pos between]
      have split : k = (q - t).toNat + (t - (q - k)).toNat := by omega
      have whole : m * 2 ^ k = m * 2 ^ (q - t).toNat * 2 ^ (t - (q - k)).toNat := by
        rw [Nat.mul_assoc, ← Nat.pow_add, ← split]
      rw [whole, shiftRound_exact]
    · rw [if_neg between]
      have more : (t - (q - k)).toNat = (t - q).toNat + k := by omega
      rw [more, shiftRound_scale]

theorem round_scale (f : Format) (m : Nat) (q : Int) (k : Nat) :
    f.round (m * 2 ^ k) (q - k) = f.round m q := by
  rcases Nat.eq_zero_or_pos m with rfl | positive
  · simp [round]
  · have target : f.target (m * 2 ^ k) (q - k) = f.target m q := by
      rw [Format.target, Format.target, bitLength_scale positive]
      omega
    rw [round_eq f positive, round_eq f (Nat.mul_pos positive (Nat.two_pow_pos k)), target,
      roundedAt_scale]

theorem round_congr (f : Format) {m m' : Nat} {q q' : Int} (same : Same m q m' q') :
    f.round m q = f.round m' q' := by
  obtain ⟨j, k, mantissas, exponents⟩ := same
  rw [← f.round_scale m q j, ← f.round_scale m' q' k, mantissas, exponents]

def Holds (f : Format) (m : Nat) (q : Int) : Prop :=
  ∃ r t, r < 2 ^ f.digits ∧ f.least ≤ t ∧ t ≤ f.greatest ∧ Same m q r t

theorem round_of_holds {f : Format} {m : Nat} {q : Int} (holds : f.Holds m q) :
    ∃ r t, f.round m q = some (r, t) ∧ Same r t m q := by
  obtain ⟨r, t, small, least, greatest, same⟩ := holds
  rw [f.round_congr same]
  rcases Nat.eq_zero_or_pos r with rfl | positive
  · refine ⟨0, f.least, by simp [round], .trans ?_ same.symm⟩
    exact ⟨(f.least - t).toNat, (t - f.least).toNat, by simp, by omega⟩
  · have length := bitLength_le small
    have fine : f.target r t ≤ t := by
      rw [target]
      omega
    have mantissa : roundedAt r t (f.target r t) = r * 2 ^ (t - f.target r t).toNat := if_pos fine
    refine ⟨roundedAt r t (f.target r t), f.target r t, ?_, .trans ?_ same.symm⟩
    · rw [round_eq f positive, if_neg]
      rintro (beyond | ⟨top, overflow⟩)
      · omega
      · have last : (t - f.target r t).toNat = 0 := by omega
        rw [mantissa, last] at overflow
        omega
    · rw [mantissa]
      exact ⟨0, (t - f.target r t).toNat, by simp, by omega⟩

theorem roundedAt_le (f : Format) {m : Nat} (positive : 0 < m) (q : Int) :
    roundedAt m q (f.target m q) ≤ 2 ^ f.digits := by
  have bound := (bitLength_spec positive).2
  have below : q + bitLength m - f.digits ≤ f.target m q := by
    rw [target]
    omega
  generalize f.target m q = t at below
  unfold roundedAt
  split
  · calc m * 2 ^ (q - t).toNat ≤ 2 ^ bitLength m * 2 ^ (q - t).toNat :=
          Nat.mul_le_mul_right _ (Nat.le_of_lt bound)
      _ = 2 ^ (bitLength m + (q - t).toNat) := (Nat.pow_add _ _ _).symm
      _ ≤ 2 ^ f.digits := Nat.pow_le_pow_right (by decide) (by omega)
  · have quotient : m / 2 ^ (t - q).toNat < 2 ^ f.digits := by
      rw [Nat.div_lt_iff_lt_mul (Nat.two_pow_pos _), ← Nat.pow_add]
      exact Nat.lt_of_lt_of_le bound (Nat.pow_le_pow_right (by decide) (by omega))
    exact Nat.le_trans (shiftRound_le _ _) quotient

theorem holds_of_round {f : Format} (wide : 0 < f.digits) (span : f.least ≤ f.greatest)
    {m r : Nat} {q t : Int} (rounded : f.round m q = some (r, t)) : f.Holds r t := by
  rcases Nat.eq_zero_or_pos m with rfl | positive
  · obtain ⟨rfl, rfl⟩ : 0 = r ∧ f.least = t := by simpa [round] using rounded
    exact ⟨0, f.least, Nat.two_pow_pos _, by omega, span, .refl _ _⟩
  · rw [round_eq f positive] at rounded
    split at rounded
    · cases rounded
    · next fits =>
      obtain ⟨rfl, rfl⟩ := Prod.mk.inj (Option.some.inj rounded)
      have bound := f.roundedAt_le positive q
      have least : f.least ≤ f.target m q := by
        rw [target]
        omega
      rcases Nat.lt_or_ge (roundedAt m q (f.target m q)) (2 ^ f.digits) with small | full
      · exact ⟨_, _, small, least, by omega, .refl _ _⟩
      · -- a carry out of the last digit: the mantissa is a power of two
        have carry : roundedAt m q (f.target m q) = 2 ^ (f.digits - 1) * 2 ^ 1 := by
          rw [← Nat.pow_add, Nat.sub_add_cancel wide]
          omega
        refine ⟨2 ^ (f.digits - 1), f.target m q + 1, ?_, by omega, by omega, 0, 1, ?_, by omega⟩
        · exact Nat.pow_lt_pow_right (by decide) (by omega)
        · rw [carry]
          simp

theorem le_roundedAt {f : Format} (wide : 0 < f.digits) {m : Nat} (positive : 0 < m) {q : Int}
    (above : f.least < f.target m q) : 2 ^ (f.digits - 1) ≤ roundedAt m q (f.target m q) := by
  have bound := (bitLength_spec positive).1
  have exact_target : f.target m q = q + bitLength m - f.digits := by
    rw [target] at above ⊢
    omega
  have length : 0 < bitLength m := by simp [bitLength, Nat.ne_of_gt positive]
  rw [exact_target]
  unfold roundedAt
  split
  · calc 2 ^ (f.digits - 1) ≤ 2 ^ (bitLength m - 1 + (q - (q + bitLength m - f.digits)).toNat) :=
          Nat.pow_le_pow_right (by decide) (by omega)
      _ = 2 ^ (bitLength m - 1) * 2 ^ (q - (q + bitLength m - f.digits)).toNat := Nat.pow_add _ _ _
      _ ≤ _ := Nat.mul_le_mul_right _ bound
  · refine Nat.le_trans ?_ (le_shiftRound _ _)
    rw [Nat.le_div_iff_mul_le (Nat.two_pow_pos _), ← Nat.pow_add]
    exact Nat.le_trans (Nat.pow_le_pow_right (by decide) (by omega)) bound

theorem round_bounds {f : Format} (wide : 0 < f.digits) (span : f.least ≤ f.greatest) {m r : Nat}
    {q t : Int} (rounded : f.round m q = some (r, t)) :
    f.least ≤ t ∧ t ≤ f.greatest ∧ r ≤ 2 ^ f.digits ∧ (f.least < t → 2 ^ (f.digits - 1) ≤ r) ∧
      (t = f.greatest → r < 2 ^ f.digits) := by
  rcases Nat.eq_zero_or_pos m with rfl | positive
  · obtain ⟨rfl, rfl⟩ : 0 = r ∧ f.least = t := by simpa [round] using rounded
    exact ⟨by omega, span, Nat.zero_le _, by omega, fun _ => Nat.two_pow_pos _⟩
  · have bound := f.roundedAt_le positive q
    have lower := le_roundedAt (q := q) wide positive
    have least : f.least ≤ f.target m q := by
      rw [target]
      omega
    rw [round_eq f positive] at rounded
    split at rounded
    · cases rounded
    · obtain ⟨rfl, rfl⟩ := Prod.mk.inj (Option.some.inj rounded)
      exact ⟨least, by omega, bound, lower, by omega⟩

end Format

theorem toBits_ofBits {w : UInt64}
    (number : w.toNat / 2 ^ 52 % 2 ^ 11 ≠ 2047 ∨ w.toNat % 2 ^ 52 = 0) :
    (Float.ofBits w).toBits = w := by
  have valid : Float.Model.Format.binary64.Valid w.toBitVec := by
    refine ⟨fun field fraction => ?_⟩
    rcases number with finite | infinite
    · refine absurd ?_ finite
      have := congrArg BitVec.toNat field
      simpa [Float.Model.UnpackedFloat.unpackExponent, BitVec.extractLsb, Nat.shiftRight_eq_div_pow]
        using this
    · refine absurd ?_ fraction
      apply BitVec.eq_of_toNat_eq
      simpa [Float.Model.UnpackedFloat.unpackMantissa, BitVec.extractLsb] using infinite
  exact congrArg Float.toBits (Float.ofBits_toBits (.ofModel ⟨w, valid⟩))

theorem read_ofBits {negative : Bool} {field fraction : Nat} (finite : field < 2047)
    (small : fraction < 2 ^ 52) :
    read (Float.ofBits (UInt64.ofNat (signWord negative + field * 2 ^ 52 + fraction))) =
      if field = 0 then .finite negative fraction (-1074)
      else .finite negative (2 ^ 52 + fraction) (field - 1075) := by
  obtain ⟨sign, signed, at_sign⟩ : ∃ sign, signWord negative = sign * 2 ^ 63 ∧
      (sign = 0 ∧ negative = false ∨ sign = 1 ∧ negative = true) := by
    cases negative
    · exact ⟨0, rfl, .inl ⟨rfl, rfl⟩⟩
    · exact ⟨1, rfl, .inr ⟨rfl, rfl⟩⟩
  have word : (UInt64.ofNat (signWord negative + field * 2 ^ 52 + fraction)).toNat =
      signWord negative + field * 2 ^ 52 + fraction := by
    rw [UInt64.toNat_ofNat']
    omega
  have kept := @toBits_ofBits (UInt64.ofNat (signWord negative + field * 2 ^ 52 + fraction))
    (by rw [word]; omega)
  unfold read
  simp only [kept, word, pow2_eq]
  have sign_bit : decide (2 ^ 63 ≤ signWord negative + field * 2 ^ 52 + fraction) = negative := by
    rcases at_sign with ⟨rfl, rfl⟩ | ⟨rfl, rfl⟩
    · exact decide_eq_false (by omega)
    · exact decide_eq_true (by omega)
  have field_eq : (signWord negative + field * 2 ^ 52 + fraction) / 2 ^ 52 % 2 ^ 11 = field := by
    omega
  have fraction_eq : (signWord negative + field * 2 ^ 52 + fraction) % 2 ^ 52 = fraction := by
    omega
  rw [sign_bit, field_eq, fraction_eq, if_neg (by omega)]

theorem read_infinity (negative : Bool) : read (infinity negative) = .infinite negative := by
  cases negative <;> rfl

theorem read_of_round {negative : Bool} {m r : Nat} {q t : Int}
    (rounded : Format.double.round m q = some (r, t)) :
    ∃ m' q', read (ofDyadic negative m q) = .finite negative m' q' ∧ Same m' q' r t := by
  obtain ⟨least, greatest, bound, lower, top⟩ := Format.round_bounds (by decide) (by decide) rounded
  simp only [Format.double] at least greatest bound lower top
  obtain ⟨field, rfl⟩ : ∃ field : Nat, t = field - 1074 := ⟨(t + 1074).toNat, by omega⟩
  have word : ofDyadic negative m q =
      Float.ofBits (UInt64.ofNat (signWord negative + field * 2 ^ 52 + r)) := by
    rw [ofDyadic, rounded]
    simp
  rw [word]
  rcases Nat.lt_or_ge r (2 ^ 52) with subnormal | normal
  · obtain rfl : field = 0 := by omega
    exact ⟨r, -1074, read_ofBits (by omega) subnormal, .refl _ _⟩
  · rcases Nat.lt_or_ge r (2 ^ 53) with fits | carry
    · have here := @read_ofBits negative (field + 1) (r - 2 ^ 52) (by omega) (by omega)
      have same : signWord negative + (field + 1) * 2 ^ 52 + (r - 2 ^ 52) =
          signWord negative + field * 2 ^ 52 + r := by omega
      rw [same, if_neg (by omega)] at here
      exact ⟨_, _, here, 0, 0, by omega, by omega⟩
    · have here := @read_ofBits negative (field + 2) 0 (by omega) (by omega)
      have same : signWord negative + (field + 2) * 2 ^ 52 + 0 =
          signWord negative + field * 2 ^ 52 + r := by omega
      rw [same, if_neg (by omega)] at here
      exact ⟨_, _, here, 1, 0, by omega, by omega⟩

theorem ofDyadic_congr (negative : Bool) {m m' : Nat} {q q' : Int} (same : Same m q m' q') :
    ofDyadic negative m q = ofDyadic negative m' q' := by
  rw [ofDyadic, ofDyadic, Format.double.round_congr same]

namespace Format

structure Narrow (f : Format) : Prop where
  wide : 0 < f.digits
  digits : f.digits ≤ 53
  least : -1074 ≤ f.least
  span : f.least ≤ f.greatest
  greatest : f.greatest ≤ 971

theorem Holds.mono {f f' : Format} {m : Nat} {q : Int} (holds : f.Holds m q)
    (digits : f.digits ≤ f'.digits) (least : f'.least ≤ f.least)
    (greatest : f.greatest ≤ f'.greatest) : f'.Holds m q := by
  obtain ⟨r, t, small, above, below, same⟩ := holds
  exact ⟨r, t, Nat.lt_of_lt_of_le small (Nat.pow_le_pow_right (by decide) digits),
    Int.le_trans least above, Int.le_trans below greatest, same⟩

theorem narrow_of_holds {f : Format} (narrow : f.Narrow) {m : Nat} {q : Int}
    (holds : f.Holds m q) (negative : Bool) :
    f.narrow (ofDyadic negative m q) = ofDyadic negative m q := by
  have asDouble : Format.double.Holds m q :=
    holds.mono narrow.digits narrow.least narrow.greatest
  obtain ⟨r, t, rounded, same⟩ := round_of_holds asDouble
  obtain ⟨m', q', read_eq, same'⟩ := @read_of_round negative _ _ _ _ rounded
  obtain ⟨r', t', kept, same''⟩ := round_of_holds holds
  rw [← f.round_congr (same'.trans same)] at kept
  rw [Format.narrow, read_eq]
  simp only [kept]
  exact ofDyadic_congr negative same''

theorem narrow_infinity (f : Format) (negative : Bool) :
    f.narrow (infinity negative) = infinity negative := by
  rw [narrow, read_infinity]

theorem narrow_cases {f : Format} (narrow : f.Narrow) (x : Float) :
    (f.narrow x = x ∧ ∀ f' : Format, f'.narrow x = x) ∨
      (∃ negative, f.narrow x = infinity negative) ∨
      ∃ negative m q, f.Holds m q ∧ f.narrow x = ofDyadic negative m q := by
  cases reading : read x with
  | nan =>
    have fixed : ∀ f' : Format, f'.narrow x = x := fun f' => by rw [Format.narrow, reading]
    exact .inl ⟨fixed f, fixed⟩
  | infinite negative =>
    have fixed : ∀ f' : Format, f'.narrow x = x := fun f' => by rw [Format.narrow, reading]
    exact .inl ⟨fixed f, fixed⟩
  | finite negative m q =>
    refine .inr ?_
    rw [Format.narrow, reading]
    simp only
    cases rounded : f.round m q with
    | none => exact .inl ⟨negative, rfl⟩
    | some entry =>
      obtain ⟨r, t⟩ := entry
      exact .inr ⟨negative, r, t, holds_of_round narrow.wide narrow.span rounded, rfl⟩

theorem narrow_narrow {f f' : Format} (narrow : f.Narrow) (narrow' : f'.Narrow)
    (digits : f.digits ≤ f'.digits) (least : f'.least ≤ f.least)
    (greatest : f.greatest ≤ f'.greatest) (x : Float) :
    f'.narrow (f.narrow x) = f.narrow x := by
  rcases narrow_cases narrow x with ⟨same, fixed⟩ | ⟨negative, same⟩ | ⟨negative, m, q, holds, same⟩
  · rw [same, fixed f']
  · rw [same, narrow_infinity]
  · rw [same, narrow_of_holds narrow' (holds.mono digits least greatest)]

theorem narrow_half : half.Narrow := by
  constructor <;> decide

theorem narrow_single : single.Narrow := by
  constructor <;> decide

end Format

end ScalarFusion.Real

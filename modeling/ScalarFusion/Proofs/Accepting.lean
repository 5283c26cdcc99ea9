import ScalarFusion.Proofs.Projecting

/-!
Checked conversion to the discrete types. What a literal is gets compared with the range of the
type after its magnitude was cut to 128 bits, and the result is made by the conversion that wraps.
Neither matters: integers beyond 128 bits are beyond every discrete type, and within the range there
is nothing to wrap. So the accepted literals are those that are an integer of the type.
-/
namespace ScalarFusion

def Real.Equals (x : Float) (r : ℚ) : Prop :=
  ∃ negative m q, read x = .finite negative m q ∧ (if negative then -1 else 1) * (m * 2 ^ q) = r

def Literal.Equals : Literal → ℚ → Prop
  | bool b, r => (if b then 1 else 0) = r
  | signed n, r => n.toInt = r
  | unsigned n, r => n.toNat = r
  | float x, r => Real.Equals x r
  | complex z, r => Real.Equals z.re r ∧ Real.Equals z.im 0

namespace Real

theorem dyadic_eq_iff (m : Nat) (q : Int) (n : Nat) :
    (m : ℚ) * 2 ^ q = n ↔ isIntegral m q = true ∧ integerPart m q = n := by
  rcases Int.lt_or_le q 0 with fraction | whole
  · obtain ⟨k, rfl⟩ : ∃ k : Nat, q = -k := ⟨(-q).toNat, by omega⟩
    have cleared : (m : ℚ) * 2 ^ (-k : Int) = n ↔ m = n * 2 ^ k := by
      rw [zpow_neg, zpow_natCast, ← div_eq_mul_inv, div_eq_iff (by positivity)]
      exact_mod_cast Iff.rfl
    have positive := Nat.two_pow_pos k
    simp only [cleared, isIntegral, integerPart, pow2_eq, neg_neg, Int.toNat_natCast,
      Bool.or_eq_true, decide_eq_true_iff, beq_iff_eq, Int.not_le.mpr fraction, false_or]
    constructor
    · rintro rfl
      exact ⟨Nat.mul_mod_left _ _, Nat.mul_div_cancel _ positive⟩
    · rintro ⟨exactly, rfl⟩
      exact (Nat.div_mul_cancel (Nat.dvd_of_mod_eq_zero exactly)).symm
  · obtain ⟨k, rfl⟩ : ∃ k : Nat, q = k := ⟨q.toNat, by omega⟩
    simp only [isIntegral, integerPart, if_pos whole, pow2_eq, Int.toNat_natCast, zpow_natCast,
      decide_eq_true whole, Bool.true_or, true_and]
    exact_mod_cast Iff.rfl

theorem dyadic_eq_int_iff (m : Nat) (q n : Int) :
    (m : ℚ) * 2 ^ q = n ↔ isIntegral m q = true ∧ (integerPart m q : Int) = n := by
  constructor
  · intro same
    have nonnegative : (0 : ℚ) ≤ n := same ▸ by positivity
    obtain ⟨k, rfl⟩ := Int.eq_ofNat_of_zero_le (by exact_mod_cast nonnegative : 0 ≤ n)
    exact_mod_cast (dyadic_eq_iff m q k).mp (by exact_mod_cast same)
  · rintro ⟨exactly, rfl⟩
    exact_mod_cast (dyadic_eq_iff m q (integerPart m q)).mpr ⟨exactly, rfl⟩

theorem equals_iff {x : Float} {s : Bool} {m : Nat} {q : Int} (reading : read x = .finite s m q)
    (n : Int) : Equals x n ↔ isIntegral m q = true ∧ applySign s (integerPart m q) = n := by
  have unique : Equals x n ↔ (if s then -1 else 1) * ((m : ℚ) * 2 ^ q) = n := by
    constructor
    · rintro ⟨s', m', q', reading', same⟩
      obtain ⟨rfl, rfl, rfl⟩ := Reading.finite.inj (reading.symm.trans reading')
      exact same
    · intro same
      exact ⟨s, m, q, reading, same⟩
  rw [unique]
  cases s with
  | false => simpa [applySign] using dyadic_eq_int_iff m q n
  | true =>
    have opposite := dyadic_eq_int_iff m q (-n)
    rw [Int.cast_neg, ← neg_eq_iff_eq_neg] at opposite
    simpa [applySign, neg_eq_iff_eq_neg] using opposite

theorem not_equals {x : Float} {r : ℚ} (notFinite : ∀ s m q, read x ≠ .finite s m q) :
    ¬ Equals x r := by
  rintro ⟨s, m, q, reading, -⟩
  exact notFinite s m q reading

theorem Equals.unique {x : Float} {r r' : ℚ} (first : Equals x r) (second : Equals x r') : r = r' := by
  obtain ⟨s, m, q, reading, rfl⟩ := first
  obtain ⟨s', m', q', reading', rfl⟩ := second
  obtain ⟨rfl, rfl, rfl⟩ := Reading.finite.inj (reading.symm.trans reading')
  rfl

theorem integer?_eq_some_iff (x : Float) (k : Int) :
    integer? x = some k ↔ ∃ n : Int, Equals x n ∧ clampWide n = k := by
  unfold integer?
  split
  · next reading =>
    simp only [equals_iff reading]
    constructor
    · intro found
      split at found
      · next exactly => exact ⟨_, ⟨exactly, rfl⟩, Option.some.inj found⟩
      · cases found
    · rintro ⟨n, ⟨exactly, rfl⟩, rfl⟩
      rw [if_pos exactly]
  · next other =>
    simp only [not_equals other, false_and, exists_false, reduceCtorEq]

theorem truncate_of_equals {x : Float} {n : Int} (equals : Equals x n) : truncate x = clampWide n := by
  obtain ⟨s, m, q, reading, -⟩ := id equals
  rw [truncate, reading]
  simp only [((equals_iff reading n).mp equals).2]

theorem beq_zero_iff (x : Float) : (x == 0.0) = true ↔ Equals x 0 := by
  have equal : (x == 0.0) = (x.toModel.unpack.compare (.zero .positive) == some .eq) := rfl
  have reading := read_eq x
  rw [equal]
  cases unpacked : x.toModel.unpack with
  | notANumber =>
    rw [unpacked] at reading
    exact iff_of_false (by decide) (not_equals (by simp [reading, Reading.ofUnpacked]))
  | infinity s =>
    rw [unpacked] at reading
    exact iff_of_false (by cases s <;> decide) (not_equals (by simp [reading, Reading.ofUnpacked]))
  | zero s =>
    rw [unpacked] at reading
    exact iff_of_true rfl ⟨_, _, _, reading, by simp⟩
  | finite s m e positive =>
    rw [unpacked] at reading
    refine iff_of_false (by cases s <;> exact Bool.false_ne_true) ?_
    rintro ⟨s', m', q', reading', zero⟩
    obtain ⟨-, rfl, -⟩ := Reading.finite.inj (reading.symm.trans reading')
    have nonzero : (m : ℚ) ≠ 0 := by exact_mod_cast Nat.ne_of_gt positive
    split at zero <;> simp [nonzero, zpow_ne_zero] at zero

theorem bne_zero_iff (x : Float) : (x != 0.0) = false ↔ Equals x 0 := by
  rw [bne, Bool.not_eq_false', beq_zero_iff]

end Real

/-- Integers beyond 128 bits are beyond the discrete types, so that cutting them does not matter. -/
theorem ScalarType.holds_clampWide {t : ScalarType} (discrete : t.isDiscrete = true) (n : Int) :
    t.holds (Real.clampWide n) = true ↔ t.InRange n := by
  have wide : Real.wide = 2 ^ 127 := rfl
  rw [holds_iff_inRange discrete, Real.clampWide, wide]
  rcases t with _ | (_ | _ | _ | _) | (_ | _ | _ | _) | _ | _ <;> try cases discrete
  all_goals
    simp only [InRange, Width.bits]
    split
    · omega
    · split <;> omega

theorem ScalarType.clampWide_of_inRange {t : ScalarType} {n : Int} (inside : t.InRange n) :
    Real.clampWide n = n := by
  have narrow : -2 ^ 63 ≤ n ∧ n < 2 ^ 64 := by
    rcases t with _ | (_ | _ | _ | _) | (_ | _ | _ | _) | _ | _ <;>
      simp only [InRange, Width.bits] at inside <;> omega
  have wide : Real.wide = 2 ^ 127 := rfl
  rw [Real.clampWide, wide, if_neg (by omega), if_neg (by omega)]

namespace Literal

variable {v w : Literal} {t : ScalarType} {n : Int}

theorem Equals.unique {r r' : ℚ} (first : v.Equals r) (second : v.Equals r') : r = r' := by
  cases v with
  | float x => exact Real.Equals.unique first second
  | complex z => exact Real.Equals.unique first.1 second.1
  | _ => exact first.symm.trans second

theorem equals_of_integer (denotes : v.toInt? = some n) : v.Equals n := by
  cases v with
  | bool b =>
    obtain rfl := Option.some.inj denotes
    cases b <;> simp [Equals]
  | signed k =>
    obtain rfl := Option.some.inj denotes
    rfl
  | unsigned k =>
    obtain rfl := Option.some.inj denotes
    simp [Equals]
  | _ => cases denotes

theorem clampWide_of_integer (denotes : v.toInt? = some n) : Real.clampWide n = n := by
  cases v with
  | bool b =>
    obtain rfl := Option.some.inj denotes
    cases b <;> decide
  | signed k =>
    obtain rfl := Option.some.inj denotes
    have low := k.le_toInt
    have high := k.toInt_lt
    exact ScalarType.clampWide_of_inRange (t := .signed .w64) ⟨low, high⟩
  | unsigned k =>
    obtain rfl := Option.some.inj denotes
    have high := k.toNat_lt
    exact ScalarType.clampWide_of_inRange (t := .unsigned .w64) ⟨by omega, by exact_mod_cast high⟩
  | _ => cases denotes

theorem Equals.integer_or_real (equals : v.Equals n) :
    v.toInt? = some n ∨ v.toInt? = none ∧ Real.Equals v.real n := by
  cases denotes : v.toInt? with
  | some m =>
    have same : (m : ℚ) = n := (equals_of_integer denotes).unique equals
    exact .inl (by rw [Int.cast_inj.mp same])
  | none =>
    cases v with
    | float x => exact .inr ⟨rfl, equals⟩
    | complex z => exact .inr ⟨rfl, equals.1⟩
    | _ => cases denotes

theorem Equals.integer?_eq (equals : v.Equals n) : v.integer? = some (Real.clampWide n) := by
  rcases equals.integer_or_real with denotes | ⟨other, real⟩
  · simp only [integer?, denotes, clampWide_of_integer denotes]
  · simp only [integer?, other]
    exact (Real.integer?_eq_some_iff _ _).mpr ⟨n, real, rfl⟩

theorem Equals.truncated_eq (equals : v.Equals n) : v.truncated = Real.clampWide n := by
  rcases equals.integer_or_real with denotes | ⟨other, real⟩
  · rw [truncated_of_integer denotes, clampWide_of_integer denotes]
  · simp only [truncated, other]
    exact Real.truncate_of_equals real

theorem Equals.isTruthy_eq (equals : v.Equals n) : v.isTruthy = decide (n ≠ 0) := by
  have bne_zero : ∀ {x : Float}, Real.Equals x n → (x != 0.0) = decide (n ≠ 0) := by
    intro x real
    have zero : (x != 0.0) = false ↔ n = 0 := by
      rw [Real.bne_zero_iff]
      constructor
      · intro here
        exact_mod_cast real.unique here
      · rintro rfl
        exact_mod_cast real
    rw [Bool.eq_iff_iff, ← Bool.not_eq_false, zero, decide_eq_true_iff]
  cases v with
  | float x => exact bne_zero equals
  | complex z =>
    rw [isTruthy, bne_zero equals.1, (Real.bne_zero_iff _).mpr equals.2, Bool.or_false]
  | _ =>
    rcases equals.integer_or_real with denotes | ⟨other, -⟩
    · exact isTruthy_of_integer denotes
    · cases other

theorem Equals.cast_toInt (equals : v.Equals n) (inside : t.InRange n) :
    (v.cast t).toInt? = some n := by
  have kept : v.truncated = n := by
    rw [equals.truncated_eq, ScalarType.clampWide_of_inRange inside]
  cases t with
  | bool =>
    rw [cast, equals.isTruthy_eq]
    rcases inside with rfl | rfl <;> rfl
  | signed w =>
    have holds := (ScalarType.holds_iff_inRange (t := .signed w) rfl n).mpr inside
    rw [cast, toInt?, toInt_wrapped, kept, bmod_of_holds holds]
  | unsigned w =>
    rw [cast, toInt?, toNat_wrapped, kept, Width.modulus_eq]
    exact congrArg some (Int.emod_eq_of_lt inside.1 (by exact_mod_cast inside.2))
  | _ => cases inside

theorem Equals.checkedCast_eq (equals : v.Equals n) (discrete : t.isDiscrete = true)
    (inside : t.InRange n) : v.checkedCast t = .ok (v.cast t) := by
  have holds := (ScalarType.holds_clampWide discrete n).mpr inside
  cases v with
  | complex z =>
    have noIm := (Real.bne_zero_iff _).mpr equals.2
    simp [checkedCast, noIm, discrete, equals.integer?_eq, holds]
  | _ => simp [checkedCast, discrete, equals.integer?_eq, holds]

theorem exists_equals {k : Int} (real : ∀ z, v = .complex z → Real.Equals z.im 0)
    (found : v.integer? = some k) : ∃ n : Int, v.Equals n ∧ Real.clampWide n = k := by
  cases denotes : v.toInt? with
  | some m =>
    simp only [integer?, denotes, Option.some.injEq] at found
    exact ⟨m, equals_of_integer denotes, found ▸ clampWide_of_integer denotes⟩
  | none =>
    simp only [integer?, denotes] at found
    obtain ⟨n, equals, cut⟩ := (Real.integer?_eq_some_iff _ _).mp found
    cases v with
    | float x => exact ⟨n, equals, cut⟩
    | complex z => exact ⟨n, ⟨equals, real z rfl⟩, cut⟩
    | _ => cases denotes

theorem integer?_of_checkedCast (discrete : t.isDiscrete = true)
    (success : v.checkedCast t = .ok w) :
    (∀ z, v = .complex z → Real.Equals z.im 0) ∧ ∃ k, v.integer? = some k ∧ t.holds k = true := by
  have notComplex : t.isComplex = false := by cases t <;> first | rfl | cases discrete
  simp only [← Real.bne_zero_iff]
  cases v <;> grind [checkedCast]

theorem family_of_checkedCast {error : Error} (failure : v.checkedCast t = .error error) :
    error.family = .domain := by
  cases v <;> grind [checkedCast, Error.family]

end Literal

/-- Checked conversion to a discrete type accepts exactly the literals that are an integer of the
    type: those without an imaginary part whose real part is one of the integers that the type holds,
    whatever kind of literal it is. The result is the value of the type that denotes the integer, and
    every refusal is a domain error. -/
theorem checkedCast_accepts_exactly (v : Literal) {t : ScalarType} (discrete : t.isDiscrete = true) :
    ((∃ w, v.checkedCast t = .ok w) ↔ ∃ n : Int, v.Equals n ∧ t.InRange n) ∧
    (∀ w, v.checkedCast t = .ok w → t.Has w ∧ ∃ n : Int, v.Equals n ∧ w.toInt? = some n) ∧
    ∀ error, v.checkedCast t = .error error → error.family = .domain := by
  have only : ∀ {w}, v.checkedCast t = .ok w → ∃ n : Int, v.Equals n ∧ t.InRange n := by
    intro w success
    obtain ⟨real, k, found, inside⟩ := Literal.integer?_of_checkedCast discrete success
    obtain ⟨n, equals, rfl⟩ := Literal.exists_equals real found
    exact ⟨n, equals, (ScalarType.holds_clampWide discrete n).mp inside⟩
  refine ⟨⟨?_, ?_⟩, ?_, fun error failure => Literal.family_of_checkedCast failure⟩
  · rintro ⟨w, success⟩
    exact only success
  · rintro ⟨n, equals, inside⟩
    exact ⟨v.cast t, equals.checkedCast_eq discrete inside⟩
  · intro w success
    obtain ⟨n, equals, inside⟩ := only success
    obtain rfl := Literal.cast_of_checkedCast success
    exact ⟨v.has_cast t, n, equals, equals.cast_toInt inside⟩

def Literal.edge : Literal :=
  .complex ⟨Float.ofBits 0x43e0000000000000, Float.ofBits 0x8000000000000000⟩

theorem edge_accepted :
    Literal.edge.checkedCast (.unsigned .w64) = .ok (.unsigned 9223372036854775808) ∧
    ScalarType.Has (.unsigned .w64) (.unsigned 9223372036854775808) ∧
    Literal.edge.Equals (9223372036854775808 : Int) ∧
    Literal.edge.checkedCast (.signed .w64) = .error (.outOfRange .edge (.signed .w64)) ∧
    Error.family (.outOfRange .edge (.signed .w64)) = .domain := by
  have accepted : Literal.edge.checkedCast (.unsigned .w64) =
      .ok (.unsigned 9223372036854775808) := by decide +kernel
  have refused : Literal.edge.checkedCast (.signed .w64) =
      .error (.outOfRange .edge (.signed .w64)) := by decide +kernel
  obtain ⟨-, sound, -⟩ := checkedCast_accepts_exactly .edge (t := .unsigned .w64) rfl
  obtain ⟨has, n, equals, same⟩ := sound _ accepted
  obtain rfl : 9223372036854775808 = n := by
    have closed : (Literal.unsigned 9223372036854775808).toInt? = some 9223372036854775808 := by
      decide +kernel
    exact Option.some.inj (closed.symm.trans same)
  obtain ⟨-, -, domain⟩ := checkedCast_accepts_exactly .edge (t := .signed .w64) rfl
  exact ⟨accepted, has, equals, refused, domain _ refused⟩

end ScalarFusion

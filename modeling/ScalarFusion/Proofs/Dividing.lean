import Mathlib.Data.Rat.Floor
import ScalarFusion.Proofs.Residues

/-!
Division of the integer types. Quotient and remainder are truncated first and then corrected, each by
a test of signs of its own. The two tests agree, so that both are corrected or none is: the quotient
is the one rounded down, and divisor times quotient plus remainder is the dividend. The remainder fits
the type; the quotient does too, but for the least integer divided by -1, and wraps there.
-/
namespace ScalarFusion

theorem Literal.Residue.modEq {t : ScalarType} {m n : Int} {r : Literal} (residue : Residue t n r)
    (stores : Stores t m r) : m ≡ n [ZMOD 2 ^ t.bits] := by
  obtain ⟨m', stores', congruent⟩ := residue
  cases stores <;> cases stores' <;> exact congruent

namespace Primitive

variable {a b : Int}

theorem tmod_neg_iff (left : a.tmod b ≠ 0) : a.tmod b < 0 ↔ a < 0 := by
  constructor
  · intro negative
    by_contra natural
    have := Int.tmod_nonneg b (not_lt.mp natural)
    omega
  · intro negative
    have opposite := Int.tmod_nonneg b (neg_nonneg.mpr negative.le)
    rw [Int.neg_tmod] at opposite
    omega

theorem natAbs_tmod_lt (a : Int) (nonzero : b ≠ 0) : (a.tmod b).natAbs < b.natAbs := by
  rw [Int.natAbs_tmod]
  exact Nat.mod_lt _ (Int.natAbs_pos.mpr nonzero)

/-- Quotient and remainder are corrected together, where the remainder is on the wrong side of 0. -/
theorem floor_cases (a : Int) (nonzero : b ≠ 0) :
    floorDiv a b = a.tdiv b ∧ floorMod a b = a.tmod b ∧ (a.tmod b = 0 ∨ (a.tmod b < 0 ↔ b < 0)) ∨
    floorDiv a b = a.tdiv b - 1 ∧ floorMod a b = a.tmod b + b ∧ a.tmod b ≠ 0 ∧
      ¬(a.tmod b < 0 ↔ b < 0) := by
  unfold floorDiv floorMod
  rw [if_neg nonzero, if_neg nonzero]
  by_cases left : a.tmod b = 0
  · simp [left]
  · have sides := tmod_neg_iff left
    by_cases same : a.tmod b < 0 ↔ b < 0
    · have same' : a < 0 ↔ b < 0 := sides.symm.trans same
      simp [same, same']
    · have differ : ¬(a < 0 ↔ b < 0) := fun same' => same (sides.trans same')
      simp [left, same, differ]

theorem floorDiv_add_floorMod (a : Int) (nonzero : b ≠ 0) :
    b * floorDiv a b + floorMod a b = a := by
  have truncated := Int.mul_tdiv_add_tmod a b
  rcases floor_cases a nonzero with ⟨quotient, remainder, -⟩ | ⟨quotient, remainder, -⟩
  · rw [quotient, remainder, truncated]
  · rw [quotient, remainder]
    linarith

theorem floorMod_bounds (a : Int) (nonzero : b ≠ 0) :
    0 < b ∧ 0 ≤ floorMod a b ∧ floorMod a b < b ∨ b < 0 ∧ b < floorMod a b ∧ floorMod a b ≤ 0 := by
  have less := natAbs_tmod_lt a nonzero
  rcases floor_cases a nonzero with ⟨-, remainder, side⟩ | ⟨-, remainder, left, wrong⟩ <;> omega

theorem sign_floorMod (a : Int) (nonzero : b ≠ 0) :
    floorMod a b = 0 ∨ (floorMod a b).sign = b.sign := by
  by_cases exact : floorMod a b = 0
  · exact .inl exact
  · refine .inr ?_
    rcases floorMod_bounds a nonzero with ⟨positive, low, -⟩ | ⟨negative, -, high⟩
    · rw [Int.sign_eq_one_of_pos positive, Int.sign_eq_one_of_pos (by omega)]
    · rw [Int.sign_eq_neg_one_of_neg negative, Int.sign_eq_neg_one_of_neg (by omega)]

theorem abs_floorMod_lt (a : Int) (nonzero : b ≠ 0) : |floorMod a b| < |b| := by
  rcases floorMod_bounds a nonzero with ⟨positive, low, high⟩ | ⟨negative, low, high⟩
  · rwa [abs_of_nonneg low, abs_of_pos positive]
  · rw [abs_of_nonpos high, abs_of_neg negative]
    exact neg_lt_neg low

theorem floorDiv_eq_floor (a : Int) (nonzero : b ≠ 0) : floorDiv a b = ⌊(a : ℚ) / b⌋ := by
  have law : (b : ℚ) * floorDiv a b + floorMod a b = a := by
    exact_mod_cast floorDiv_add_floorMod a nonzero
  symm
  rw [Int.floor_eq_iff]
  rcases floorMod_bounds a nonzero with ⟨positive, low, high⟩ | ⟨negative, low, high⟩
  · have positive' : (0 : ℚ) < b := by exact_mod_cast positive
    have low' : (0 : ℚ) ≤ floorMod a b := by exact_mod_cast low
    have high' : (floorMod a b : ℚ) < b := by exact_mod_cast high
    rw [le_div_iff₀ positive', div_lt_iff₀ positive']
    constructor <;> linarith
  · have negative' : (b : ℚ) < 0 := by exact_mod_cast negative
    have low' : (b : ℚ) < floorMod a b := by exact_mod_cast low
    have high' : (floorMod a b : ℚ) ≤ 0 := by exact_mod_cast high
    rw [le_div_iff_of_neg negative', div_lt_iff_of_neg negative']
    constructor <;> linarith

theorem floorMod_eq (a : Int) (nonzero : b ≠ 0) : floorMod a b = a - b * ⌊(a : ℚ) / b⌋ := by
  rw [← floorDiv_eq_floor a nonzero]
  have law := floorDiv_add_floorMod a nonzero
  omega

theorem holds_floorMod {t : ScalarType} (integer : t.isInteger = true) (inside : t.holds b = true)
    (a : Int) : t.holds (floorMod a b) = true := by
  have bounds := of_decide_eq_true inside
  refine decide_eq_true ?_
  by_cases nonzero : b = 0
  · rw [floorMod, if_pos nonzero, ← nonzero]
    exact bounds
  · have between := floorMod_bounds a nonzero
    rcases t with _ | (_ | _ | _ | _) | (_ | _ | _ | _) | _ | _ <;> try cases integer
    all_goals
      simp only [ScalarType.bounds, Width.modulus] at bounds ⊢
      omega

end Primitive

/-- Division at an integer type. By 0, quotient and remainder are 0. Otherwise the quotient is the one
    literal that stands for the exact quotient rounded down, the remainder is exact, less than the
    divisor and on its side of 0, and the two make up the dividend, as far as the type can tell. -/
theorem integer_division_law [Numerics] {t : ScalarType} (integer : t.isInteger = true)
    {a b : Literal} {x y : Int} (dividend : a.intIn t = x) (divisor : b.intIn t = y)
    (inputTypes others : List ScalarType) :
    ∃ q r, Primitive.intDiv.evaluate [a, b] inputTypes (t :: others) = .ok [q] ∧
      Primitive.mod.evaluate [a, b] inputTypes (t :: others) = .ok [r] ∧
      (y = 0 → Literal.Stores t 0 q ∧ Literal.Stores t 0 r) ∧
      (y ≠ 0 → Literal.Residue t ⌊(x : ℚ) / y⌋ q ∧
        (∀ s, Literal.Residue t ⌊(x : ℚ) / y⌋ s → s = q) ∧
        ∃ n, Literal.Stores t n r ∧ n = x - y * ⌊(x : ℚ) / y⌋ ∧ (n = 0 ∨ n.sign = y.sign) ∧
          |n| < |y| ∧ ∀ m, Literal.Stores t m q → y * m + n ≡ x [ZMOD 2 ^ t.bits]) := by
  subst dividend divisor
  have quotient : Primitive.intDiv.compute [a, b] inputTypes t =
      .ok (.ofInt (Primitive.floorDiv (a.intIn t) (b.intIn t))) := by
    cases t <;> first | rfl | cases integer
  have remainder : Primitive.mod.compute [a, b] inputTypes t =
      .ok (.ofInt (Primitive.floorMod (a.intIn t) (b.intIn t))) := by
    cases t <;> first | rfl | cases integer
  refine ⟨_, _, Primitive.evaluate_of_compute rfl quotient others,
    Primitive.evaluate_of_compute rfl remainder others, ?_, ?_⟩
  -- The quotient may leave the type, by dividing the least integer by -1. The remainder never does.
  all_goals
    have wrapped := Literal.residue_ofInt (m := Primitive.floorDiv (a.intIn t) (b.intIn t)) integer rfl
    have stored := (Literal.residue_ofInt integer rfl).stores
      (Primitive.holds_floorMod integer (Literal.stores_cast integer b).holds (a.intIn t))
  · intro zero
    have holds : t.holds 0 = true := by
      rw [← zero]
      exact (Literal.stores_cast integer b).holds
    rw [Primitive.floorDiv, if_pos zero] at wrapped ⊢
    rw [Primitive.floorMod, if_pos zero] at stored ⊢
    exact ⟨wrapped.stores holds, stored⟩
  · intro nonzero
    have law := Primitive.floorDiv_add_floorMod (a.intIn t) nonzero
    refine ⟨?_, ?_, _, stored, Primitive.floorMod_eq _ nonzero, Primitive.sign_floorMod _ nonzero,
      Primitive.abs_floorMod_lt _ nonzero, ?_⟩
    · rwa [← Primitive.floorDiv_eq_floor _ nonzero]
    · rw [← Primitive.floorDiv_eq_floor _ nonzero]
      exact fun s other => wrapped.unique other
    · intro m stores
      have made := ((wrapped.modEq stores).mul_left (b.intIn t)).add_right
        (Primitive.floorMod (a.intIn t) (b.intIn t))
      rwa [law] at made

theorem bytes_divided :
    Primitive.intDiv.evaluate [.signed (-128), .signed (-1)] [] [.signed .w8] = .ok [.signed (-128)] ∧
    Primitive.mod.evaluate [.signed (-128), .signed (-1)] [] [.signed .w8] = .ok [.signed 0] ∧
    Literal.Residue (.signed .w8) ⌊((-128 : Int) : ℚ) / (-1 : Int)⌋ (.signed (-128)) ∧
    Primitive.intDiv.evaluate [.signed 7, .signed (-2)] [] [.signed .w8] = .ok [.signed (-4)] ∧
    Primitive.mod.evaluate [.signed 7, .signed (-2)] [] [.signed .w8] = .ok [.signed (-1)] ∧
    Literal.Stores (.signed .w8) (7 - -2 * ⌊((7 : Int) : ℚ) / (-2 : Int)⌋) (.signed (-1)) := by
  have closed : Primitive.intDiv.evaluate [.signed (-128), .signed (-1)] [] [.signed .w8] =
      .ok [.signed (-128)] := by decide +kernel
  have closed' : Primitive.mod.evaluate [.signed 7, .signed (-2)] [] [.signed .w8] =
      .ok [.signed (-1)] := by decide +kernel
  obtain ⟨q, r, quotient, remainder, -, least⟩ := integer_division_law (t := .signed .w8) rfl
    (a := .signed (-128)) (b := .signed (-1)) (x := -128) (y := -1) (by decide +kernel)
    (by decide +kernel) [] []
  obtain ⟨q', r', quotient', remainder', -, mixed⟩ := integer_division_law (t := .signed .w8) rfl
    (a := .signed 7) (b := .signed (-2)) (x := 7) (y := -2) (by decide +kernel)
    (by decide +kernel) [] []
  obtain rfl : Literal.signed (-128) = q := by simpa using closed.symm.trans quotient
  obtain rfl : Literal.signed (-1) = r' := by simpa using closed'.symm.trans remainder'
  obtain ⟨n, stores, rfl, -⟩ := (mixed (by decide)).2.2
  exact ⟨closed, by decide +kernel, (least (by decide)).1, by decide +kernel, closed', stores⟩

end ScalarFusion

import Mathlib.Algebra.BigOperators.Group.List.Basic
import Mathlib.Data.Int.ModEq
import ScalarFusion.Proofs.BitwiseWords

/-!
Arithmetic of the integer types. Operations compute with integers, wrap what they get to 64 bits after
each step and convert the last of it to the output type. All of these steps keep residues modulo the
number of integers of the type, so the result is the one literal of the type that is congruent to the
exact value, for sums and products of any length, differences, opposites and powers.
-/
namespace ScalarFusion

namespace Literal

inductive Stores : ScalarType → Int → Literal → Prop where
  | signed {w : Width} {k : Int64} (range : (ScalarType.signed w).holds k.toInt = true) :
      Stores (.signed w) k.toInt (.signed k)
  | unsigned {w : Width} {k : UInt64} (range : (ScalarType.unsigned w).holds k.toNat = true) :
      Stores (.unsigned w) k.toNat (.unsigned k)

/-- The literal of an integer type stands for an integer that may be out of its range: it denotes one
    that is congruent to it, modulo the number of integers of the type. -/
def Residue (t : ScalarType) (n : Int) (r : Literal) : Prop :=
  ∃ m, Stores t m r ∧ m ≡ n [ZMOD 2 ^ t.bits]

variable {t : ScalarType} {m n : Int} {r s : Literal}

theorem Stores.holds (stores : Stores t m r) : t.holds m = true := by
  cases stores <;> assumption

theorem Stores.unique (stores : Stores t m r) (stores' : Stores t m s) : r = s := by
  generalize same : m = m' at stores'
  cases stores with
  | signed =>
    cases stores'
    rw [Int64.toInt_inj.mp same]
  | unsigned =>
    cases stores'
    rw [UInt64.toNat_inj.mp (Int.ofNat_inj.mp same)]

theorem eq_of_modEq (integer : t.isInteger = true) (inside : t.holds m = true)
    (inside' : t.holds n = true) (congruent : m ≡ n [ZMOD 2 ^ t.bits]) : m = n := by
  have bounds := of_decide_eq_true inside
  have bounds' := of_decide_eq_true inside'
  unfold Int.ModEq at congruent
  rcases t with _ | (_ | _ | _ | _) | (_ | _ | _ | _) | _ | _ <;> try cases integer
  all_goals
    simp only [ScalarType.bounds, ScalarType.bits, Width.bits, Width.modulus] at bounds bounds' congruent
    omega

theorem Stores.isInteger (stores : Stores t m r) : t.isInteger = true := by
  cases stores <;> rfl

theorem Residue.unique (residue : Residue t n r) (residue' : Residue t n s) : s = r := by
  obtain ⟨m, stores, congruent⟩ := residue
  obtain ⟨m', stores', congruent'⟩ := residue'
  obtain rfl : m' = m := eq_of_modEq stores.isInteger stores'.holds stores.holds
    (congruent'.trans congruent.symm)
  exact stores'.unique stores

theorem Residue.stores (residue : Residue t n r) (inside : t.holds n = true) : Stores t n r := by
  obtain ⟨m, stores, congruent⟩ := residue
  exact eq_of_modEq stores.isInteger stores.holds inside congruent ▸ stores

theorem stores_cast (integer : t.isInteger = true) (v : Literal) :
    Stores t (v.intIn t) (v.cast t) := by
  cases t with
  | signed w =>
    refine .signed (decide_eq_true ?_)
    rw [toInt_wrapped]
    have low := Int.le_bmod (x := v.truncated) (m := w.modulus) (by cases w <;> decide)
    have high := Int.bmod_lt (x := v.truncated) (m := w.modulus) (by cases w <;> decide)
    cases w <;> simp only [ScalarType.bounds, Width.modulus] at low high ⊢ <;> omega
  | unsigned w =>
    refine .unsigned (decide_eq_true ?_)
    rw [toNat_wrapped]
    cases w <;> simp only [ScalarType.bounds, Width.modulus] <;> omega
  | _ => cases integer

theorem intIn_modEq (integer : t.isInteger = true) (v : Literal) :
    v.intIn t ≡ v.truncated [ZMOD 2 ^ t.bits] := by
  cases t with
  | signed w =>
    have wrapped : v.intIn (.signed w) = v.truncated.bmod w.modulus := toInt_wrapped _ w
    rw [wrapped, ScalarType.bits, Width.modulus_eq]
    exact_mod_cast Int.bmod_emod
  | unsigned w =>
    have wrapped : v.intIn (.unsigned w) = v.truncated % w.modulus := toNat_wrapped _ w
    rw [wrapped, ScalarType.bits, Width.modulus_eq]
    exact_mod_cast Int.emod_emod_of_dvd _ (Int.dvd_refl _)
  | _ => cases integer

theorem truncated_ofInt_modEq (n : Int) : (ofInt n).truncated ≡ n [ZMOD 2 ^ 64] := by
  unfold ofInt
  split
  · show (Int64.ofInt n).toInt ≡ n [ZMOD 2 ^ 64]
    rw [Int64.toInt_ofInt]
    exact Int.bmod_emod
  · show ((UInt64.ofInt n).toNat : Int) ≡ n [ZMOD 2 ^ 64]
    rw [UInt64.ofInt, UInt64.toNat_ofNat', Int.ModEq]
    omega

theorem residue_ofInt (integer : t.isInteger = true) (congruent : m ≡ n [ZMOD 2 ^ 64]) :
    Residue t n ((ofInt m).cast t) := by
  have divides : (2 : Int) ^ t.bits ∣ 2 ^ 64 := pow_dvd_pow 2 (bits_le integer)
  refine ⟨_, stores_cast integer _, (intIn_modEq integer _).trans ?_⟩
  exact ((truncated_ofInt_modEq m).trans congruent).of_dvd divides

theorem intIn_bounds (integer : t.isInteger = true) (v : Literal) :
    -2 ^ 63 ≤ v.intIn t ∧ v.intIn t < 2 ^ 64 := by
  have bounds := of_decide_eq_true (stores_cast integer v).holds
  rcases t with _ | (_ | _ | _ | _) | (_ | _ | _ | _) | _ | _ <;> try cases integer
  all_goals
    simp only [ScalarType.bounds, Width.modulus] at bounds
    omega

theorem signed_of_intIn_neg (integer : t.isInteger = true) {v : Literal} (negative : v.intIn t < 0) :
    ∃ w, t = .signed w := by
  cases t with
  | signed w => exact ⟨w, rfl⟩
  | unsigned w =>
    have bounds := of_decide_eq_true (stores_cast integer v).holds
    simp only [ScalarType.bounds] at bounds
    omega
  | _ => cases integer

end Literal

theorem wrap64_modEq (n : Int) : wrap64 n ≡ n [ZMOD 2 ^ 64] :=
  Int.bmod_emod

theorem wrap64_bounds (n : Int) : -2 ^ 63 ≤ wrap64 n ∧ wrap64 n < 2 ^ 63 :=
  ⟨Int.le_bmod (by decide), Int.bmod_lt (by decide)⟩

theorem Real.lt_two_pow_bitLength (m : Nat) : m < 2 ^ Real.bitLength m := by
  rcases Nat.eq_zero_or_pos m with rfl | positive
  · decide
  · exact (Real.bitLength_spec positive).2

/-- An integer may lose what is beyond 128 bits before it is wrapped to 64. -/
theorem wrap64_bmod (n : Int) : wrap64 (n.bmod (2 ^ 128)) = wrap64 n :=
  Int.bmod_bmod_of_dvd (by decide)

namespace Primitive

def accumulated (ints : Int → Int → Int) (t : ScalarType) (first : Literal) (done : List Literal) :
    Int :=
  (done.map (Literal.intIn t)).foldl (fun a b => wrap64 (ints a b)) (first.intIn t)

/-- The integers that an operation computes on the way to its result, before they are wrapped. -/
inductive Computes (t : ScalarType) : Primitive → List Literal → Int → Prop where
  | add (first next : Literal) (done left : List Literal) :
      Computes t .add (first :: (done ++ next :: left))
        (accumulated (· + ·) t first done + next.intIn t)
  | mul (first next : Literal) (done left : List Literal) :
      Computes t .mul (first :: (done ++ next :: left))
        (accumulated (· * ·) t first done * next.intIn t)
  | sub (first next : Literal) (done left : List Literal) :
      Computes t .sub (first :: (done ++ next :: left))
        (accumulated (· - ·) t first done - next.intIn t)
  | neg (v : Literal) : Computes t .neg [v] (-v.intIn t)

def onIntegers? : Primitive → List Int → Option Int
  | add, n :: ns => some (n :: ns).sum
  | mul, n :: ns => some (n :: ns).prod
  | sub, [a, b] => some (a - b)
  | neg, [a] => some (-a)
  | _, _ => none

variable {t : ScalarType}

theorem fold_integer (integer : t.isInteger = true) (ints : Int → Int → Int)
    (floats : Float → Float → Float) (complexes : ComplexFloat → ComplexFloat → ComplexFloat)
    (v : Literal) (vs : List Literal) :
    fold ints floats complexes t (v :: vs) = .ofInt (accumulated ints t v vs) := by
  cases t <;> first | rfl | cases integer

theorem foldl_wrap64_modEq {ints : Int → Int → Int}
    (respects : ∀ {a a'} b, a ≡ a' [ZMOD 2 ^ 64] → ints a b ≡ ints a' b [ZMOD 2 ^ 64])
    (bs : List Int) {a a' : Int} (start : a ≡ a' [ZMOD 2 ^ 64]) :
    bs.foldl (fun a b => wrap64 (ints a b)) a ≡ bs.foldl ints a' [ZMOD 2 ^ 64] := by
  induction bs generalizing a a' with
  | nil => exact start
  | cons b bs ih => exact ih ((wrap64_modEq _).trans (respects b start))

theorem accumulated_add (t : ScalarType) (v : Literal) (vs : List Literal) :
    accumulated (· + ·) t v vs ≡ ((v :: vs).map (Literal.intIn t)).sum [ZMOD 2 ^ 64] := by
  rw [List.sum_eq_foldl, List.map_cons, List.foldl_cons, zero_add]
  exact foldl_wrap64_modEq (fun b congruent => congruent.add_right b) _ rfl

theorem accumulated_mul (t : ScalarType) (v : Literal) (vs : List Literal) :
    accumulated (· * ·) t v vs ≡ ((v :: vs).map (Literal.intIn t)).prod [ZMOD 2 ^ 64] := by
  rw [List.prod_eq_foldl, List.map_cons, List.foldl_cons, one_mul]
  exact foldl_wrap64_modEq (fun b congruent => congruent.mul_right b) _ rfl

theorem compute_integer [Numerics] (integer : t.isInteger = true) {p : Primitive}
    {values : List Literal}
    {n : Int} (exactly : p.onIntegers? (values.map (Literal.intIn t)) = some n)
    (inputTypes : List ScalarType) : p.arity.admits values.length = true ∧
      ∃ m, p.compute values inputTypes t = .ok (.ofInt m) ∧ m ≡ n [ZMOD 2 ^ 64] := by
  cases p with
  | add =>
    cases values with
    | nil => cases exactly
    | cons v vs =>
      obtain rfl := Option.some.inj exactly
      exact ⟨by simp [arity, Arity.admits], _, congrArg Except.ok (fold_integer integer _ _ _ v vs),
        accumulated_add t v vs⟩
  | mul =>
    cases values with
    | nil => cases exactly
    | cons v vs =>
      obtain rfl := Option.some.inj exactly
      exact ⟨by simp [arity, Arity.admits], _, congrArg Except.ok (fold_integer integer _ _ _ v vs),
        accumulated_mul t v vs⟩
  | sub =>
    rcases values with _ | ⟨a, _ | ⟨b, _ | ⟨c, vs⟩⟩⟩ <;> try cases exactly
    exact ⟨rfl, _, congrArg Except.ok (fold_integer integer _ _ _ a [b]), wrap64_modEq _⟩
  | neg =>
    rcases values with _ | ⟨a, _ | ⟨b, vs⟩⟩ <;> try cases exactly
    refine ⟨rfl, -a.intIn t, ?_, rfl⟩
    cases t <;> first | rfl | cases integer
  | _ => cases exactly

theorem accumulated_bounds (integer : t.isInteger = true) (ints : Int → Int → Int) (first : Literal)
    (done : List Literal) :
    -2 ^ 63 ≤ accumulated ints t first done ∧ accumulated ints t first done < 2 ^ 64 := by
  rcases List.eq_nil_or_concat done with rfl | ⟨before, last, rfl⟩
  · exact first.intIn_bounds integer
  · rw [accumulated, List.concat_eq_append, List.map_append, List.foldl_append]
    have bounds := wrap64_bounds (ints (accumulated ints t first before) (last.intIn t))
    exact ⟨bounds.1, bounds.2.trans (by decide)⟩

theorem Computes.bounds {p : Primitive} {values : List Literal} {n : Int} (integer : t.isInteger = true)
    (computes : p.Computes t values n) (other : p ≠ .mul) : -Real.wide ≤ n ∧ n < Real.wide := by
  have wide : Real.wide = 2 ^ 127 := rfl
  rw [wide]
  cases computes with
  | mul => exact absurd rfl other
  | add first next done left =>
    have sum := accumulated_bounds integer (· + ·) first done
    have term := next.intIn_bounds integer
    omega
  | sub first next done left =>
    have difference := accumulated_bounds integer (· - ·) first done
    have term := next.intIn_bounds integer
    omega
  | neg v =>
    have operand := v.intIn_bounds integer
    omega

theorem fold_mul_bmod (floats : Float → Float → Float)
    (complexes : ComplexFloat → ComplexFloat → ComplexFloat) (t : ScalarType) (values : List Literal) :
    fold (fun a b => (a * b).bmod (2 ^ 128)) floats complexes t values =
      fold (· * ·) floats complexes t values := by
  cases values with
  | nil => rfl
  | cons v vs => simp only [fold, wrap64_bmod]

theorem powerLoop_modEq (fuel : Nat) (base : Int) {exponent : Nat} (enough : exponent < 2 ^ fuel)
    (acc : Int) : powerLoop fuel base exponent acc ≡ acc * base ^ exponent [ZMOD 2 ^ 64] := by
  induction fuel generalizing base exponent acc with
  | zero =>
    obtain rfl : exponent = 0 := by simpa using enough
    simp [powerLoop]
  | succ fuel ih =>
    rw [powerLoop]
    split
    · next done => simp [done]
    · have half : exponent / 2 < 2 ^ fuel := by omega
      have last : (if exponent % 2 = 1 then wrap64 (acc * base) else acc) ≡
          acc * base ^ (exponent % 2) [ZMOD 2 ^ 64] := by
        rcases Nat.mod_two_eq_zero_or_one exponent with even | odd
        · simp [even]
        · simpa [odd] using wrap64_modEq (acc * base)
      have squared := (wrap64_modEq (base * base)).pow (exponent / 2)
      have digits : acc * base ^ (exponent % 2) * (base * base) ^ (exponent / 2) =
          acc * base ^ exponent := by
        rw [mul_assoc, ← pow_two, ← pow_mul, ← pow_add, Nat.mod_add_div]
      exact (ih _ half _).trans (digits ▸ last.mul squared)

theorem integerPower_modEq (base : Int) {exponent : Int} (nonnegative : 0 ≤ exponent) :
    integerPower base exponent ≡ base ^ exponent.toNat [ZMOD 2 ^ 64] := by
  rw [integerPower, if_neg (not_lt.mpr nonnegative)]
  simpa using powerLoop_modEq _ base (Real.lt_two_pow_bitLength exponent.toNat) 1

def inversePower (base : Int) (exponent : Nat) : Int :=
  if base = 1 then 1 else if base = -1 then (-1) ^ exponent else 0

theorem integerPower_neg (base : Int) {exponent : Int} (negative : exponent < 0) :
    integerPower base exponent = inversePower base exponent.natAbs := by
  rw [integerPower, if_pos negative, inversePower]
  congr 2
  split
  · next even =>
    have even : Even exponent.natAbs := Int.natAbs_even.mpr (Int.even_iff.mpr even)
    exact even.neg_one_pow.symm
  · next odd =>
    have odd : Odd exponent.natAbs := Int.natAbs_odd.mpr (Int.not_even_iff_odd.mp (mt Int.even_iff.mp odd))
    exact odd.neg_one_pow.symm

theorem inversePower_cases (base : Int) (exponent : Nat) :
    inversePower base exponent = 1 ∨ inversePower base exponent = -1 ∨
      inversePower base exponent = 0 := by
  unfold inversePower
  rcases neg_one_pow_eq_or Int exponent with even | odd <;> grind

theorem evaluate_integer [Numerics] (integer : t.isInteger = true) {p : Primitive}
    {values : List Literal}
    {n : Int} (exactly : p.onIntegers? (values.map (Literal.intIn t)) = some n)
    (inputTypes others : List ScalarType) :
    ∃ r, p.evaluate values inputTypes (t :: others) = .ok [r] ∧ Literal.Residue t n r := by
  obtain ⟨arity, m, computed, congruent⟩ := compute_integer integer exactly inputTypes
  exact ⟨_, evaluate_of_compute arity computed others, Literal.residue_ofInt integer congruent⟩

theorem onIntegers?_perm {p : Primitive} (commutes : p = .add ∨ p = .mul) {ns ms : List Int}
    (shuffled : ns.Perm ms) : p.onIntegers? ns = p.onIntegers? ms := by
  cases ns with
  | nil => rw [List.nil_perm.mp shuffled]
  | cons n ns =>
    cases ms with
    | nil => cases List.perm_nil.mp shuffled
    | cons m ms =>
      rcases commutes with rfl | rfl
      · exact congrArg some shuffled.sum_eq
      · exact congrArg some shuffled.prod_eq

end Primitive

/-- Sums, products, differences and opposites at an integer type. Evaluation gives the one literal of
    the type that is congruent to the exact value. The order of summands and factors does not count.
    No sum, difference or opposite on the way leaves 128 bits, and products may lose what does. -/
theorem integer_arithmetic_exact [Numerics] {t : ScalarType} (integer : t.isInteger = true)
    {p : Primitive} {values : List Literal} {n : Int}
    (exactly : p.onIntegers? (values.map (Literal.intIn t)) = some n)
    (inputTypes others : List ScalarType) :
    (∃ r, p.evaluate values inputTypes (t :: others) = .ok [r] ∧ Literal.Residue t n r ∧
      ∀ s, Literal.Residue t n s → s = r) ∧
    (p = .add ∨ p = .mul → ∀ shuffled, values.Perm shuffled →
      p.evaluate shuffled inputTypes (t :: others) = p.evaluate values inputTypes (t :: others)) ∧
    (∀ m, p.Computes t values m → p ≠ .mul → -Real.wide ≤ m ∧ m < Real.wide) ∧
    Primitive.fold (fun a b => (a * b).bmod (2 ^ 128)) (· * ·) .mul t values =
      Primitive.fold (· * ·) (· * ·) .mul t values := by
  obtain ⟨r, evaluated, residue⟩ := Primitive.evaluate_integer integer exactly inputTypes others
  refine ⟨⟨r, evaluated, residue, fun s other => residue.unique other⟩, ?_,
    fun m computes other => computes.bounds integer other, Primitive.fold_mul_bmod _ _ t values⟩
  intro commutes shuffled permuted
  rw [Primitive.onIntegers?_perm commutes (permuted.map (Literal.intIn t))] at exactly
  obtain ⟨s, evaluated', residue'⟩ := Primitive.evaluate_integer integer exactly inputTypes others
  rw [evaluated, evaluated', residue.unique residue']

theorem widest_product_wraps :
    Primitive.mul.onIntegers? ([.unsigned 18446744073709551615, .signed (-1), .bool true,
      .signed 3].map (Literal.intIn (.unsigned .w64))) = some (3 * (2 ^ 64 - 1) ^ 2) ∧
    Primitive.mul.evaluate [.unsigned 18446744073709551615, .signed (-1), .bool true, .signed 3] []
      [.unsigned .w64] = .ok [.unsigned 3] ∧
    Literal.Residue (.unsigned .w64) (3 * (2 ^ 64 - 1) ^ 2) (.unsigned 3) := by
  have exactly : Primitive.mul.onIntegers? ([.unsigned 18446744073709551615, .signed (-1), .bool true,
      .signed 3].map (Literal.intIn (.unsigned .w64))) = some (3 * (2 ^ 64 - 1) ^ 2) := by
    decide +kernel
  have closed : Primitive.mul.evaluate [.unsigned 18446744073709551615, .signed (-1), .bool true,
      .signed 3] [] [.unsigned .w64] = .ok [.unsigned 3] := by decide +kernel
  obtain ⟨⟨r, evaluated, residue, -⟩, -⟩ := integer_arithmetic_exact rfl exactly [] []
  obtain rfl : Literal.unsigned 3 = r := by simpa using closed.symm.trans evaluated
  exact ⟨exactly, closed, residue⟩

/-- Powers at an integer type. For an exponent that is not negative, evaluation gives the one literal of
    the type that is congruent to the exact power; else the truncated inverse power itself. -/
theorem integer_power_exact [Numerics] {t : ScalarType} (integer : t.isInteger = true)
    (base exponent : Literal) (inputTypes others : List ScalarType) :
    ∃ r, Primitive.pow.evaluate [base, exponent] inputTypes (t :: others) = .ok [r] ∧
      (0 ≤ exponent.intIn t →
        Literal.Residue t (base.intIn t ^ (exponent.intIn t).toNat) r ∧
          ∀ s, Literal.Residue t (base.intIn t ^ (exponent.intIn t).toNat) s → s = r) ∧
      (exponent.intIn t < 0 →
        Literal.Stores t (Primitive.inversePower (base.intIn t) (exponent.intIn t).natAbs) r) := by
  have computed : Primitive.pow.compute [base, exponent] inputTypes t =
      .ok (.ofInt (Primitive.integerPower (base.intIn t) (exponent.intIn t))) := by
    cases t <;> first | rfl | cases integer
  refine ⟨_, Primitive.evaluate_of_compute rfl computed others, ?_, ?_⟩
  · intro nonnegative
    have residue := Literal.residue_ofInt integer
      (Primitive.integerPower_modEq (base.intIn t) nonnegative)
    exact ⟨residue, fun s other => residue.unique other⟩
  · intro negative
    rw [Primitive.integerPower_neg _ negative]
    obtain ⟨w, rfl⟩ := exponent.signed_of_intIn_neg integer negative
    refine (Literal.residue_ofInt integer rfl).stores ?_
    rcases Primitive.inversePower_cases (base.intIn (.signed w)) (exponent.intIn (.signed w)).natAbs
      with value | value | value <;> rw [value] <;> cases w <;> decide

theorem powers_wrapped :
    Primitive.pow.evaluate [.unsigned 18446744073709551615, .unsigned 17] [] [.unsigned .w64] =
      .ok [.unsigned 18446744073709551615] ∧
    Literal.Residue (.unsigned .w64) ((2 ^ 64 - 1) ^ 17) (.unsigned 18446744073709551615) ∧
    Primitive.pow.evaluate [.signed (-1), .signed (-3)] [] [.signed .w8] = .ok [.signed (-1)] ∧
    Literal.Stores (.signed .w8) ((-1) ^ 3) (.signed (-1)) := by
  have closed : Primitive.pow.evaluate [.unsigned 18446744073709551615, .unsigned 17] []
      [.unsigned .w64] = .ok [.unsigned 18446744073709551615] := by decide +kernel
  have closed' : Primitive.pow.evaluate [.signed (-1), .signed (-3)] [] [.signed .w8] =
      .ok [.signed (-1)] := by decide +kernel
  obtain ⟨r, evaluated, power, -⟩ := integer_power_exact (t := .unsigned .w64) rfl
    (.unsigned 18446744073709551615) (.unsigned 17) [] []
  obtain ⟨r', evaluated', -, inverse⟩ := integer_power_exact (t := .signed .w8) rfl
    (.signed (-1)) (.signed (-3)) [] []
  obtain rfl : Literal.unsigned 18446744073709551615 = r := by simpa using closed.symm.trans evaluated
  obtain rfl : Literal.signed (-1) = r' := by simpa using closed'.symm.trans evaluated'
  refine ⟨closed, ?_, closed', ?_⟩
  · have base : Literal.intIn (.unsigned .w64) (.unsigned 18446744073709551615) = 2 ^ 64 - 1 := by
      decide +kernel
    have exponent : Literal.intIn (.unsigned .w64) (.unsigned 17) = 17 := by decide +kernel
    have residue := (power (by rw [exponent]; decide)).1
    rwa [base, exponent] at residue
  · have base : Literal.intIn (.signed .w8) (.signed (-1)) = -1 := by decide +kernel
    have exponent : Literal.intIn (.signed .w8) (.signed (-3)) = -3 := by decide +kernel
    have stores := inverse (by rw [exponent]; decide)
    rwa [base, exponent] at stores

end ScalarFusion

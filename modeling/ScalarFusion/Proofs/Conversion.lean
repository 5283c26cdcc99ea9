import ScalarFusion.Graph.Evaluation
import ScalarFusion.Proofs.Building
import ScalarFusion.Proofs.Rounding

/-!
Converting a literal to a type twice is converting it once, and operations see of a literal only
what conversions see of it.
-/
namespace ScalarFusion

theorem Precision.round_round (p : Precision) (x : Float) : p.round (p.round x) = p.round x := by
  cases p with
  | half =>
    simp only [round]
    have through := Real.Format.narrow_narrow Real.Format.narrow_half Real.Format.narrow_single
      (by decide) (by decide) (by decide) (Real.Format.single.narrow x)
    rw [through]
    exact Real.Format.narrow_narrow Real.Format.narrow_half Real.Format.narrow_half
      (by decide) (by decide) (by decide) _
  | single =>
    exact Real.Format.narrow_narrow Real.Format.narrow_single Real.Format.narrow_single
      (by decide) (by decide) (by decide) x
  | double => rfl

namespace Literal

theorem toInt_wrapped (n : Int) (w : Width) :
    (Int64.ofInt (n.bmod w.modulus)).toInt = n.bmod w.modulus := by
  have low := Int.le_bmod (x := n) (m := w.modulus) (by cases w <;> decide)
  have high := Int.bmod_lt (x := n) (m := w.modulus) (by cases w <;> decide)
  apply Int64.toInt_ofInt_of_le
  · cases w <;> simp only [Width.modulus] at low ⊢ <;> omega
  · cases w <;> simp only [Width.modulus] at high ⊢ <;> omega

theorem toNat_wrapped (n : Int) (w : Width) :
    ((UInt64.ofInt (n % w.modulus)).toNat : Int) = n % w.modulus := by
  rw [UInt64.ofInt, UInt64.toNat_ofNat']
  cases w <;> simp only [Width.modulus] <;> omega

@[simp]
theorem cast_cast (v : Literal) (t : ScalarType) : (v.cast t).cast t = v.cast t := by
  cases t with
  | bool => rfl
  | signed w =>
    simp only [cast, truncated, toInt?, toInt_wrapped]
    rw [Int.bmod_bmod]
  | unsigned w =>
    simp only [cast, truncated, toInt?, toNat_wrapped]
    rw [Int.emod_emod_of_dvd _ (Int.dvd_refl _)]
  | float p => simp only [cast, real, Precision.round_round]
  | complex p => simp only [cast, toComplex, Precision.round_round]

/-- Literals that no conversion tells apart. -/
def Alike (a b : Literal) : Prop :=
  a.cast = b.cast

theorem Alike.refl (a : Literal) : Alike a a := rfl

theorem Alike.symm {a b : Literal} (alike : Alike a b) : Alike b a := Eq.symm alike

theorem Alike.cast_eq {a b : Literal} (alike : Alike a b) (t : ScalarType) : a.cast t = b.cast t :=
  congrFun alike t

theorem Alike.real {a b : Literal} (alike : Alike a b) : a.real = b.real := by
  have same := alike.cast_eq (.float .double)
  simpa only [cast, Precision.round, Literal.float.injEq] using same

theorem Alike.toComplex {a b : Literal} (alike : Alike a b) : a.toComplex = b.toComplex := by
  have same := alike.cast_eq (.complex .double)
  simpa only [cast, Precision.round, PartPrecision.toPrecision, Literal.complex.injEq] using same

theorem Alike.isTruthy {a b : Literal} (alike : Alike a b) : a.isTruthy = b.isTruthy := by
  have same := alike.cast_eq .bool
  simpa only [cast, Literal.bool.injEq] using same

theorem Alike.intIn {a b : Literal} (alike : Alike a b) (t : ScalarType) :
    a.intIn t = b.intIn t := by
  rw [Literal.intIn, Literal.intIn, alike.cast_eq]

theorem map_of_alike {α : Type} {f : Literal → α} (sees : ∀ a b, Alike a b → f a = f b)
    {vs ws : List Literal} (alike : vs.map cast = ws.map cast) : vs.map f = ws.map f := by
  induction vs generalizing ws with
  | nil =>
    obtain rfl : ws = [] := by simpa using alike.symm
    rfl
  | cons v vs ih =>
    cases ws with
    | nil => simp at alike
    | cons w ws =>
      simp only [List.map_cons, List.cons.injEq] at alike ⊢
      exact ⟨sees v w alike.1, ih alike.2⟩

theorem alike_of_integer {n : Int64} {m : UInt64} (same : n.toInt = m.toNat) :
    Alike (signed n) (unsigned m) := by
  have zero : (n != 0) = (m != 0) := by
    have left : n = 0 ↔ n.toInt = 0 := by
      rw [← Int64.toInt_inj]
      rfl
    have right : m = 0 ↔ m.toNat = 0 := by
      rw [← UInt64.toNat_inj]
      rfl
    rw [Bool.eq_iff_iff]
    simp only [bne_iff_ne, ne_eq, left, right]
    omega
  funext t
  cases t <;> simp [cast, isTruthy, truncated, toInt?, real, toComplex, same, zero]

theorem smallestSigned_holds {n : Int} (inside : (ScalarType.signed .w64).holds n = true) :
    ∃ w, smallestSigned n = .signed w ∧ (ScalarType.signed w).holds n = true := by
  unfold smallestSigned
  split
  · exact ⟨.w8, rfl, by assumption⟩
  · split
    · exact ⟨.w16, rfl, by assumption⟩
    · split
      · exact ⟨.w32, rfl, by assumption⟩
      · exact ⟨.w64, rfl, inside⟩

theorem bmod_of_holds {n : Int} {w : Width} (inside : (ScalarType.signed w).holds n = true) :
    n.bmod w.modulus = n := by
  have bounds := of_decide_eq_true inside
  simp only [ScalarType.bounds] at bounds
  apply Int.bmod_eq_of_le
  · cases w <;> simp only [Width.modulus] at bounds ⊢ <;> omega
  · cases w <;> simp only [Width.modulus] at bounds ⊢ <;> omega

theorem cast_inferType_signed (n : Int64) : (signed n).cast (signed n).inferType = signed n := by
  have inside : (ScalarType.signed .w64).holds n.toInt = true := by
    have low := Int64.le_toInt n
    have high := Int64.toInt_lt n
    apply decide_eq_true
    simp only [ScalarType.bounds, Width.modulus]
    omega
  obtain ⟨w, type, small⟩ := smallestSigned_holds inside
  simp only [inferType, type, cast, truncated, toInt?, bmod_of_holds small, Int64.ofInt_toInt]

theorem cast_unsigned_w64 (n : UInt64) : (unsigned n).cast (.unsigned .w64) = unsigned n := by
  have bound := UInt64.toNat_lt n
  simp only [cast, truncated, toInt?, Width.modulus, Literal.unsigned.injEq]
  rw [← UInt64.toNat_inj, UInt64.ofInt, UInt64.toNat_ofNat']
  omega

theorem alike_inferType (v : Literal) : Alike (v.cast v.inferType) v := by
  cases v with
  | bool b => rfl
  | signed n =>
    rw [cast_inferType_signed]
    exact .refl _
  | unsigned n =>
    simp only [inferType]
    split
    · next inside =>
      obtain ⟨w, type, small⟩ := smallestSigned_holds inside
      rw [type]
      refine alike_of_integer (m := n) ?_
      rw [truncated]
      simp only [toInt?]
      rw [toInt_wrapped, bmod_of_holds small]
    · rw [cast_unsigned_w64]
      exact .refl _
  | float x => rfl
  | complex z => rfl

theorem cast_of_checkedCast {v w : Literal} {t : ScalarType} (checked : v.checkedCast t = .ok w) :
    w = v.cast t := by
  cases v <;> grind [checkedCast]

end Literal

namespace Primitive

open Literal

variable {vs ws : List Literal}

theorem fold_alike (alike : vs.map Literal.cast = ws.map Literal.cast) (ints : Int → Int → Int)
    (floats : Float → Float → Float)
    (complexes : ComplexFloat → ComplexFloat → ComplexFloat) (t : ScalarType) :
    fold ints floats complexes t vs = fold ints floats complexes t ws := by
  cases vs with
  | nil =>
    obtain rfl : ws = [] := by simpa using alike.symm
    rfl
  | cons v vs =>
    cases ws with
    | nil => simp at alike
    | cons w ws =>
      simp only [List.map_cons, List.cons.injEq] at alike
      obtain ⟨first, rest⟩ := alike
      have first : Alike v w := first
      simp only [fold, first.toComplex, first.real, first.intIn,
        map_of_alike (fun _ _ same => same.toComplex) rest,
        map_of_alike (fun _ _ same => same.real) rest,
        map_of_alike (fun _ _ same => same.intIn t) rest]

theorem average_alike [Numerics] (alike : vs.map Literal.cast = ws.map Literal.cast)
    (t : ScalarType) : average t vs = average t ws := by
  have length : vs.length = ws.length := by simpa using congrArg List.length alike
  have empty : vs.isEmpty = ws.isEmpty := by
    cases vs <;> cases ws <;> simp_all
  simp only [average, empty, length, map_of_alike (fun _ _ same => same.toComplex) alike,
    map_of_alike (fun _ _ same => same.real) alike]

theorem compareIn_alike {a b c d : Literal} (first : Alike a c) (second : Alike b d)
    (t : ScalarType) : compareIn t a b = compareIn t c d := by
  simp only [compareIn, first.toComplex, second.toComplex, first.real, second.real,
    first.intIn, second.intIn]

/-- Operations see of their operands what conversions see of them. -/
theorem compute_alike [Numerics] (p : Primitive) (alike : vs.map Literal.cast = ws.map Literal.cast)
    (admitted : p.arity.admits vs.length = true) (inputTypes : List ScalarType) (t : ScalarType) :
    (p.compute vs inputTypes t).map (Literal.cast · t) =
      (p.compute ws inputTypes t).map (Literal.cast · t) := by
  have length : vs.length = ws.length := by simpa using congrArg List.length alike
  have unary : vs.length = 1 → ∃ a b, vs = [a] ∧ ws = [b] ∧ Alike a b := by
    intro one
    obtain ⟨a, rfl⟩ := List.length_eq_one_iff.mp one
    obtain ⟨b, rfl⟩ := List.length_eq_one_iff.mp (length ▸ one)
    exact ⟨a, b, rfl, rfl, by simpa [Alike] using alike⟩
  have binary : vs.length = 2 → ∃ a b c d, vs = [a, b] ∧ ws = [c, d] ∧ Alike a c ∧ Alike b d := by
    intro two
    obtain ⟨a, b, rfl⟩ := List.length_eq_two.mp two
    obtain ⟨c, d, rfl⟩ := List.length_eq_two.mp (length ▸ two)
    exact ⟨a, b, c, d, rfl, rfl, by simpa [Alike] using alike⟩
  have ternary : vs.length = 3 → ∃ a b c x y z, vs = [a, b, c] ∧ ws = [x, y, z] ∧ Alike a x ∧
      Alike b y ∧ Alike c z := by
    intro three
    obtain ⟨a, b, c, rfl⟩ := List.length_eq_three.mp three
    obtain ⟨x, y, z, rfl⟩ := List.length_eq_three.mp (length ▸ three)
    exact ⟨a, b, c, x, y, z, rfl, rfl, by simpa [Alike] using alike⟩
  cases p with
  | add => simp only [compute, fold_alike alike]
  | mul => simp only [compute, fold_alike alike]
  | sub => simp only [compute, fold_alike alike]
  | mean => simp only [compute, average_alike alike]
  | bitwise b =>
    simp only [compute, Bitwise.evaluate, map_of_alike (fun _ _ same => same.isTruthy) alike,
      map_of_alike (f := fun v => Int64.ofInt (v.intIn t))
        (fun _ _ same => by rw [same.intIn]) alike]
  | neg =>
    obtain ⟨a, b, rfl, rfl, same⟩ := unary (by simpa [arity, Arity.admits] using admitted)
    simp only [compute, same.toComplex, same.real, same.intIn]
  | reciprocal =>
    obtain ⟨a, b, rfl, rfl, same⟩ := unary (by simpa [arity, Arity.admits] using admitted)
    simp only [compute, same.toComplex, same.real]
  | identity =>
    obtain ⟨a, b, rfl, rfl, same⟩ := unary (by simpa [arity, Arity.admits] using admitted)
    simp only [compute, Except.map, same.cast_eq]
  | cast target =>
    obtain ⟨a, b, rfl, rfl, same⟩ := unary (by simpa [arity, Arity.admits] using admitted)
    simp only [compute, Except.map, same.cast_eq]
  | elementary f =>
    obtain ⟨a, b, rfl, rfl, same⟩ := unary (by simpa [arity, Arity.admits] using admitted)
    simp only [compute, same.toComplex, same.real]
  | trueDiv =>
    obtain ⟨a, b, c, d, rfl, rfl, first, second⟩ :=
      binary (by simpa [arity, Arity.admits] using admitted)
    simp only [compute, first.toComplex, second.toComplex, first.real, second.real]
  | intDiv =>
    obtain ⟨a, b, c, d, rfl, rfl, first, second⟩ :=
      binary (by simpa [arity, Arity.admits] using admitted)
    simp only [compute, first.real, second.real, first.intIn, second.intIn]
  | mod =>
    obtain ⟨a, b, c, d, rfl, rfl, first, second⟩ :=
      binary (by simpa [arity, Arity.admits] using admitted)
    simp only [compute, first.real, second.real, first.intIn, second.intIn]
  | pow =>
    obtain ⟨a, b, c, d, rfl, rfl, first, second⟩ :=
      binary (by simpa [arity, Arity.admits] using admitted)
    simp only [compute, first.toComplex, second.toComplex, first.real, second.real, first.intIn,
      second.intIn]
  | arctan2 =>
    obtain ⟨a, b, c, d, rfl, rfl, first, second⟩ :=
      binary (by simpa [arity, Arity.admits] using admitted)
    simp only [compute, first.real, second.real]
  | compare comparison =>
    obtain ⟨a, b, c, d, rfl, rfl, first, second⟩ :=
      binary (by simpa [arity, Arity.admits] using admitted)
    simp only [compute, compareIn_alike first second]
  | switch =>
    obtain ⟨a, b, c, x, y, z, rfl, rfl, first, second, third⟩ :=
      ternary (by simpa [arity, Arity.admits] using admitted)
    simp only [compute, Except.map, first.isTruthy]
    split <;> simp only [second.cast_eq, third.cast_eq]
  | inRange lower upper =>
    obtain ⟨a, b, c, x, y, z, rfl, rfl, first, second, third⟩ :=
      ternary (by simpa [arity, Arity.admits] using admitted)
    simp only [compute, compareIn_alike first second, compareIn_alike first third]

theorem evaluate_of_compute [Numerics] {p : Primitive} {values : List Literal}
    {inputTypes : List ScalarType}
    {t : ScalarType} {v : Literal} (arity : p.arity.admits values.length = true)
    (computed : p.compute values inputTypes t = .ok v) (others : List ScalarType) :
    p.evaluate values inputTypes (t :: others) = .ok [v.cast t] := by
  simp only [evaluate, checkArity, arity, if_true, computed, ok_bind]

theorem evaluate_alike [Numerics] (p : Primitive)
    (alike : vs.map Literal.cast = ws.map Literal.cast) (inputTypes outputTypes : List ScalarType) :
    p.evaluate vs inputTypes outputTypes = p.evaluate ws inputTypes outputTypes := by
  have length : vs.length = ws.length := by simpa using congrArg List.length alike
  unfold evaluate checkArity
  rw [← length]
  by_cases admitted : p.arity.admits vs.length = true
  · rw [if_pos admitted]
    cases outputTypes with
    | nil => rfl
    | cons t ts =>
      have same := compute_alike p alike admitted inputTypes t
      simp only [ok_bind]
      cases left : p.compute vs inputTypes t <;> cases right : p.compute ws inputTypes t <;>
        rw [left, right] at same <;> simp_all [Except.map]
  · rw [if_neg admitted]
    rfl

end Primitive

end ScalarFusion

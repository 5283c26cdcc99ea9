import ScalarFusion.Proofs.Comparing
import ScalarFusion.Proofs.Residues

/-!
Conversion projects literals onto the values of a type. The values are given here without
conversion: booleans, the integers that a number of bits can hold, and the doubles that are not
finite or are numbers of a binary format. Converted literals are values of their type, and values
are what conversion leaves alone. Between integer types it keeps residues, so that a way through a
type that is not narrower makes no difference.
-/
namespace ScalarFusion

def ScalarType.InRange : ScalarType → Int → Prop
  | bool, n => n = 0 ∨ n = 1
  | signed w, n => -2 ^ (w.bits - 1) ≤ n ∧ n < 2 ^ (w.bits - 1)
  | unsigned w, n => 0 ≤ n ∧ n < 2 ^ w.bits
  | float _, _ => False
  | complex _, _ => False

theorem ScalarType.holds_iff_inRange {t : ScalarType} (discrete : t.isDiscrete = true) (n : Int) :
    t.holds n = true ↔ t.InRange n := by
  rw [holds, decide_eq_true_iff]
  rcases t with _ | (_ | _ | _ | _) | (_ | _ | _ | _) | _ | _ <;> try cases discrete
  all_goals
    simp only [bounds, InRange, Width.modulus, Width.bits]
    omega

def Precision.format : Precision → Real.Format
  | half => .half
  | single => .single
  | double => .double

def Precision.Has (p : Precision) (x : Float) : Prop :=
  ∀ negative m q, Real.read x = .finite negative m q → p.format.Holds m q

inductive ScalarType.Has : ScalarType → Literal → Prop where
  | bool (b : Bool) : Has .bool (.bool b)
  | signed {w : Width} {n : Int64} (range : InRange (.signed w) n.toInt) : Has (.signed w) (.signed n)
  | unsigned {w : Width} {n : UInt64} (range : InRange (.unsigned w) n.toNat) :
      Has (.unsigned w) (.unsigned n)
  | float {p : Precision} {x : Float} (fits : p.Has x) : Has (.float p) (.float x)
  | complex {p : PartPrecision} {z : ComplexFloat} (re : p.toPrecision.Has z.re)
      (im : p.toPrecision.Has z.im) : Has (.complex p) (.complex z)

namespace Real

theorem le_of_read {x : Float} {s : Bool} {m : Nat} {q : Int} (reading : read x = .finite s m q) :
    q ≤ 971 := by
  unfold read at reading
  dsimp only [pow2_eq] at reading
  split at reading
  · split at reading <;> cases reading
  · split at reading
    · cases reading
      decide
    · next field _ =>
      cases reading
      omega

theorem double_holds {x : Float} {s : Bool} {m : Nat} {q : Int} (reading : read x = .finite s m q) :
    Format.double.Holds m q := by
  obtain ⟨small, low, -⟩ := canonical_of_read reading
  exact ⟨m, q, small, low, le_of_read reading, .refl m q⟩

theorem Canonical.eq_of_same {m m' : Nat} {q q' : Int} (first : Canonical m q)
    (second : Canonical m' q') (same : Same m q m' q') : m = m' ∧ q = q' := by
  have order := first.compare_eq second
  rw [same.units_eq first.2.1 second.2.1, compare_eq_iff_eq.mpr rfl, Ordering.then_eq_eq,
    compare_eq_iff_eq, compare_eq_iff_eq] at order
  exact ⟨order.2, order.1⟩

theorem ofDyadic_of_read {x : Float} {s : Bool} {m : Nat} {q : Int}
    (reading : read x = .finite s m q) : ofDyadic s m q = x := by
  obtain ⟨r, t, rounded, kept⟩ := Format.round_of_holds (double_holds reading)
  obtain ⟨m', q', reading', same⟩ := @read_of_round s _ _ _ _ rounded
  obtain ⟨rfl, rfl⟩ := (canonical_of_read reading').eq_of_same (canonical_of_read reading)
    (same.trans kept)
  exact read_inj (reading'.trans reading.symm)

namespace Format

theorem Holds.of_same {f : Format} {m m' : Nat} {q q' : Int} (holds : f.Holds m q)
    (same : Same m' q' m q) : f.Holds m' q' := by
  obtain ⟨r, t, small, least, greatest, here⟩ := holds
  exact ⟨r, t, small, least, greatest, same.trans here⟩

theorem holds_of_narrow {f : Format} (narrow : f.Narrow) (x : Float) {s : Bool} {m : Nat} {q : Int}
    (reading : read (f.narrow x) = .finite s m q) : f.Holds m q := by
  unfold Format.narrow at reading
  split at reading
  · next nan => simp [nan] at reading
  · next infinite => simp [infinite] at reading
  · split at reading
    · simp [read_infinity] at reading
    · next rounded =>
      have holds := holds_of_round narrow.wide narrow.span rounded
      have asDouble : Format.double.Holds _ _ :=
        holds.mono narrow.digits narrow.least narrow.greatest
      obtain ⟨r, t, again, kept⟩ := round_of_holds asDouble
      obtain ⟨m', q', reading', same⟩ := read_of_round again
      obtain ⟨-, rfl, rfl⟩ := Reading.finite.inj (reading.symm.trans reading')
      exact holds.of_same (same.trans kept)

theorem narrow_eq_of_holds {f : Format} (narrow : f.Narrow) {x : Float}
    (holds : ∀ s m q, read x = .finite s m q → f.Holds m q) : f.narrow x = x := by
  cases reading : read x with
  | nan => rw [Format.narrow, reading]
  | infinite s => rw [Format.narrow, reading]
  | finite s m q =>
    rw [← ofDyadic_of_read reading]
    exact narrow_of_holds narrow (holds s m q reading) s

end Format

end Real

namespace Precision

theorem has_round (p : Precision) (x : Float) : p.Has (p.round x) := by
  intro s m q reading
  cases p with
  | half => exact Real.Format.holds_of_narrow Real.Format.narrow_half _ reading
  | single => exact Real.Format.holds_of_narrow Real.Format.narrow_single _ reading
  | double => exact Real.double_holds reading

theorem round_eq_iff (p : Precision) (x : Float) : p.round x = x ↔ p.Has x := by
  constructor
  · intro kept
    rw [← kept]
    exact p.has_round x
  · intro fits
    cases p with
    | half =>
      have asSingle : Real.Format.single.narrow x = x :=
        Real.Format.narrow_eq_of_holds Real.Format.narrow_single fun s m q reading =>
          (fits s m q reading).mono (by decide) (by decide) (by decide)
      rw [round, asSingle]
      exact Real.Format.narrow_eq_of_holds Real.Format.narrow_half fits
    | single => exact Real.Format.narrow_eq_of_holds Real.Format.narrow_single fits
    | double => rfl

end Precision

namespace Literal

variable {v : Literal} {s t : ScalarType} {n : Int}

theorem Stores.has {r : Literal} (stores : Stores t n r) : t.Has r := by
  cases stores with
  | signed range => exact .signed ((ScalarType.holds_iff_inRange rfl _).mp range)
  | unsigned range => exact .unsigned ((ScalarType.holds_iff_inRange rfl _).mp range)

theorem has_cast (v : Literal) (t : ScalarType) : t.Has (v.cast t) := by
  cases t with
  | bool => exact .bool _
  | signed w => exact (stores_cast rfl v).has
  | unsigned w => exact (stores_cast rfl v).has
  | float p => exact .float (p.has_round _)
  | complex p => exact .complex (Precision.has_round _ _) (Precision.has_round _ _)

theorem cast_eq_iff (v : Literal) (t : ScalarType) : v.cast t = v ↔ t.Has v := by
  constructor
  · intro kept
    rw [← kept]
    exact has_cast v t
  · intro has
    cases has with
    | bool b => rfl
    | @signed w n range =>
      have inside := (ScalarType.holds_iff_inRange (t := .signed w) rfl _).mpr range
      simp only [cast, truncated, toInt?, bmod_of_holds inside, Int64.ofInt_toInt]
    | @unsigned w n range =>
      have inside := (ScalarType.holds_iff_inRange (t := .unsigned w) rfl _).mpr range
      have stores := stores_cast (t := .unsigned w) rfl (.unsigned n)
      rw [intIn_of_holds rfl rfl inside] at stores
      exact stores.unique (.unsigned inside)
    | float fits => simp only [cast, real, (Precision.round_eq_iff _ _).mpr fits]
    | complex re im =>
      simp only [cast, toComplex, (Precision.round_eq_iff _ _).mpr re,
        (Precision.round_eq_iff _ _).mpr im]

theorem residue_cast (integer : t.isInteger = true) (denotes : v.toInt? = some n) :
    Residue t n (v.cast t) := by
  have congruent := intIn_modEq integer v
  rw [truncated_of_integer denotes] at congruent
  exact ⟨v.intIn t, stores_cast integer v, congruent⟩

theorem Stores.toInt_eq {r : Literal} (stores : Stores t n r) : r.toInt? = some n := by
  cases stores <;> rfl

theorem cast_cast_of_bits_le (integer : s.isInteger = true) (integer' : t.isInteger = true)
    (wider : t.bits ≤ s.bits) (denotes : v.toInt? = some n) : (v.cast s).cast t = v.cast t := by
  obtain ⟨m, stores, congruent⟩ := residue_cast integer denotes
  obtain ⟨k, stores', congruent'⟩ := residue_cast integer' stores.toInt_eq
  have divides : (2 : Int) ^ t.bits ∣ 2 ^ s.bits := pow_dvd_pow 2 wider
  exact (residue_cast integer' denotes).unique
    ⟨k, stores', congruent'.trans (congruent.of_dvd divides)⟩

end Literal

/-- Conversion is a projection onto the values of a type. For every literal and all types: the
    converted literal is a value of the type, converting it again does nothing, and only the values
    of the type are left as they are. For an integer type and a literal that denotes an integer, the
    result denotes one that is congruent to it modulo the number of integers of the type, and
    converting to an integer type that is not narrower first gives the same. -/
theorem cast_projects (v : Literal) (s t : ScalarType) :
    t.Has (v.cast t) ∧ (v.cast t).cast t = v.cast t ∧ (v.cast t = v ↔ t.Has v) ∧
    ∀ n, v.toInt? = some n → t.isInteger = true →
      (∃ m, (v.cast t).toInt? = some m ∧ m ≡ n [ZMOD 2 ^ t.bits]) ∧
      (s.isInteger = true → t.bits ≤ s.bits → (v.cast s).cast t = v.cast t) := by
  refine ⟨v.has_cast t, v.cast_cast t, v.cast_eq_iff t, ?_⟩
  intro n denotes integer
  constructor
  · obtain ⟨m, stores, congruent⟩ := Literal.residue_cast integer denotes
    exact ⟨m, stores.toInt_eq, congruent⟩
  · intro integer' wider
    exact Literal.cast_cast_of_bits_le integer' integer wider denotes

theorem byte_projected :
    (Literal.signed 200).toInt? = some 200 ∧
    (Literal.signed 200).cast (.signed .w8) = .signed (-56) ∧
    ScalarType.Has (.signed .w8) (.signed (-56)) ∧ -56 ≡ 200 [ZMOD 2 ^ 8] ∧
    ((Literal.signed 200).cast (.unsigned .w16)).cast (.signed .w8) = .signed (-56) := by
  have denotes : (Literal.signed 200).toInt? = some 200 := by decide +kernel
  have wrapped : (Literal.signed 200).cast (.signed .w8) = .signed (-56) := by decide +kernel
  obtain ⟨has, -, -, more⟩ := cast_projects (.signed 200) (.unsigned .w16) (.signed .w8)
  obtain ⟨⟨m, same, congruent⟩, detour⟩ := more 200 denotes rfl
  rw [wrapped] at has same detour
  obtain rfl : -56 = m := by
    have closed : (Literal.signed (-56)).toInt? = some (-56) := by decide +kernel
    exact Option.some.inj (closed.symm.trans same)
  exact ⟨denotes, wrapped, has, congruent, detour rfl (by decide)⟩

end ScalarFusion

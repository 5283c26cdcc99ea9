import ScalarFusion.Proofs.Rounding

/-!
A double is determined by what it reads as, since there is one NaN only, and changing its sign
changes the sign that is read and nothing else.
-/
namespace ScalarFusion.Real

open Float.Model (UnpackedFloat Format)
open Float.Model.UnpackedFloat

def Canonical (m : Nat) (q : Int) : Prop :=
  m < 2 ^ 53 ∧ -1074 ≤ q ∧ (q = -1074 ∨ 2 ^ 52 ≤ m)

theorem read_cases (x : Float) : read x = .nan ∨ read x = .infinite (isNegative x) ∨
    ∃ m q, read x = .finite (isNegative x) m q ∧ Canonical m q := by
  unfold read Canonical isNegative
  dsimp only
  split
  · split
    · exact .inr (.inl rfl)
    · exact .inl rfl
  · split
    · refine .inr (.inr ⟨_, _, rfl, ?_, le_rfl, .inl rfl⟩)
      rw [pow2_eq]
      omega
    · next normal =>
      simp only [pow2_eq] at normal
      refine .inr (.inr ⟨_, _, rfl, ?_, ?_, .inr ?_⟩) <;> simp only [pow2_eq] <;> omega

namespace Reading

def ofSign : Sign → Bool
  | .negative => true
  | .positive => false

def ofUnpacked : UnpackedFloat → Reading
  | .notANumber => .nan
  | .infinity s => .infinite (ofSign s)
  | .zero s => .finite (ofSign s) 0 (-1074)
  | .finite s m e _ => .finite (ofSign s) m e

theorem ofSign_inj {s t : Sign} (same : ofSign s = ofSign t) : s = t := by
  cases s <;> cases t <;> trivial

theorem ofUnpacked_inj {u v : UnpackedFloat} (same : ofUnpacked u = ofUnpacked v) : u = v := by
  cases u <;> cases v <;> simp only [ofUnpacked, reduceCtorEq, infinite.injEq, finite.injEq] at same
  · rw [ofSign_inj same]
  · rfl
  · rw [ofSign_inj same.1]
  · omega
  · omega
  · obtain ⟨sign, rfl, rfl⟩ := same
    rw [ofSign_inj sign]

def mapSign (f : Bool → Bool) : Reading → Reading
  | nan => nan
  | infinite negative => infinite (f negative)
  | finite negative m q => finite (f negative) m q

end Reading

theorem ofSign_unpackSign (w : UInt64) :
    Reading.ofSign (.ofBitVec (@unpackSign .binary64 w.toBitVec)) = decide (2 ^ 63 ≤ w.toNat) := by
  have sign : (@unpackSign .binary64 w.toBitVec).toNat = w.toNat / 2 ^ 63 % 2 := by
    simp [unpackSign, BitVec.extractLsb, Nat.shiftRight_eq_div_pow]
  have bound := w.toNat_lt
  rcases BitVec.eq_zero_or_eq_one (@unpackSign .binary64 w.toBitVec) with zero | one
  · rw [zero] at sign ⊢
    exact (decide_eq_false (by simp at sign; omega)).symm
  · rw [one] at sign ⊢
    exact (decide_eq_true (by simp at sign; omega)).symm

theorem toNat_one_append (m : BitVec 52) : (1#1 ++ m).toNat = 2 ^ 52 + m.toNat := by
  rw [BitVec.toNat_append, ← Nat.shiftLeft_add_eq_or_of_lt m.isLt]
  rfl

theorem read_eq (x : Float) : read x = .ofUnpacked x.toModel.unpack := by
  have exponent : (@unpackExponent .binary64 x.toBits.toBitVec).toNat =
      x.toBits.toNat / 2 ^ 52 % 2 ^ 11 := by
    simp [unpackExponent, BitVec.extractLsb, Nat.shiftRight_eq_div_pow]
  have mantissa : (@unpackMantissa .binary64 x.toBits.toBitVec).toNat = x.toBits.toNat % 2 ^ 52 := by
    simp [unpackMantissa, BitVec.extractLsb]
  have top : @unpackExponent .binary64 x.toBits.toBitVec = -1#_ ↔
      x.toBits.toNat / 2 ^ 52 % 2 ^ 11 = 2047 := by
    rw [← exponent, ← BitVec.toNat_inj]
    rfl
  have bottom : @unpackExponent .binary64 x.toBits.toBitVec = 0#_ ↔
      x.toBits.toNat / 2 ^ 52 % 2 ^ 11 = 0 := by
    rw [← exponent, ← BitVec.toNat_inj]
    rfl
  have empty : @unpackMantissa .binary64 x.toBits.toBitVec = 0#_ ↔ x.toBits.toNat % 2 ^ 52 = 0 := by
    rw [← mantissa, ← BitVec.toNat_inj]
    rfl
  have sign := ofSign_unpackSign x.toBits
  have here : x.toModel.unpack = unpack .binary64 x.toBits.toBitVec := rfl
  rw [here]
  unfold read unpack
  dsimp only [pow2_eq]
  split
  · next field =>
    rw [if_pos (top.mpr field)]
    split
    · next fraction =>
      rw [if_pos (empty.mpr fraction)]
      exact congrArg Reading.infinite sign.symm
    · next fraction =>
      rw [if_neg (mt empty.mp fraction)]
      rfl
  · next field =>
    rw [if_neg (mt top.mp field)]
    split
    · next zero =>
      rw [if_pos (bottom.mpr zero)]
      split
      · next fraction =>
        rw [empty.mp fraction]
        exact congrArg (Reading.finite · 0 (-1074)) sign.symm
      · rw [Reading.ofUnpacked, mantissa, exponent, zero, sign]
        rfl
    · next normal =>
      rw [if_neg (mt bottom.mp normal), Reading.ofUnpacked, toNat_one_append, mantissa, exponent,
        sign]
      rfl

theorem read_inj {x y : Float} (same : read x = read y) : x = y := by
  rw [read_eq, read_eq] at same
  have words := (unpack_inj_of_valid x.toModel.valid y.toModel.valid).mp
    (Reading.ofUnpacked_inj same)
  exact Float.toBits_inj.mp (UInt64.toBitVec_inj.mp words)

def mapSign (f : Sign → Sign) : UnpackedFloat → UnpackedFloat
  | .notANumber => .notANumber
  | .infinity s => .infinity (f s)
  | .zero s => .zero (f s)
  | .finite s m e positive => .finite (f s) m e positive

theorem unpack_pack_unpack (b : BitVec Format.binary64.numBits) :
    unpack .binary64 (pack .binary64 (unpack .binary64 b)) = unpack .binary64 b := by
  rw [pack_unpack]
  split
  · next nan =>
    have fields : unpackExponent b = -1#_ ∧ unpackMantissa b ≠ 0#_ := by
      simpa [isNaNBits] using nan
    rw [unpack_packedNaN, unpack, if_pos fields.1, if_neg fields.2]
  · rfl

theorem mapSign_unpack (f : Sign → Sign) (b : BitVec Format.binary64.numBits) :
    mapSign f (unpack .binary64 b) = unpack .binary64 (packComponents .binary64
      (f (.ofBitVec (unpackSign b))) (unpackExponent b) (unpackMantissa b)) := by
  simp only [unpack, unpackExponent_packComponents, unpackMantissa_packComponents,
    unpackSign_packComponents, Sign.ofBitVec_toBitVec]
  split
  · split <;> rfl
  · split
    · split <;> rfl
    · rfl

theorem read_of_mapSign {x y : Float} {f : Sign → Sign} {f' : Bool → Bool}
    (signs : ∀ s, Reading.ofSign (f s) = f' (Reading.ofSign s))
    (model : y.toModel = .pack (mapSign f x.toModel.unpack)) : read y = (read x).mapSign f' := by
  have unpacked : y.toModel.unpack = mapSign f x.toModel.unpack := by
    rw [model]
    show unpack .binary64 (pack .binary64 (mapSign f (unpack .binary64 x.toBits.toBitVec))) =
      mapSign f (unpack .binary64 x.toBits.toBitVec)
    rw [mapSign_unpack, unpack_pack_unpack]
  rw [read_eq, read_eq, unpacked]
  cases x.toModel.unpack <;> simp [mapSign, Reading.ofUnpacked, Reading.mapSign, signs]

theorem read_neg (x : Float) : read (-x) = (read x).mapSign not := by
  have model : x.toModel.unpack.neg = mapSign (- ·) x.toModel.unpack := by
    cases x.toModel.unpack <;> rfl
  exact read_of_mapSign (fun s => by cases s <;> rfl) (congrArg Float.Model.pack model)

theorem read_abs (x : Float) : read x.abs = (read x).mapSign fun _ => false := by
  have model : x.toModel.unpack.abs = mapSign (fun _ => .positive) x.toModel.unpack := by
    cases x.toModel.unpack <;> rfl
  exact read_of_mapSign (fun s => by cases s <;> rfl) (congrArg Float.Model.pack model)

theorem eq_of_abs_eq {x y : Float} (magnitudes : x.abs = y.abs)
    (signs : isNegative x = isNegative y) : x = y := by
  have same : (read x).mapSign (fun _ => false) = (read y).mapSign fun _ => false := by
    rw [← read_abs, ← read_abs, magnitudes]
  apply read_inj
  rcases read_cases x with nan | infinite | ⟨m, q, finite, -⟩ <;>
    rcases read_cases y with nan' | infinite' | ⟨m', q', finite', -⟩ <;>
    simp_all [Reading.mapSign]

end ScalarFusion.Real

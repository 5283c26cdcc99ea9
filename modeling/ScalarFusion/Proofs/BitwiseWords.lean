import Mathlib.Data.List.Basic
import ScalarFusion.Primitive.Typing
import ScalarFusion.Proofs.Conversion
import ScalarFusion.Proofs.Typing

/-!
Bitwise operations on words. An integer type stands for the words of its width, in two's complement,
and a boolean is a word of one bit. Operations on operands of discrete types act on each bit of the
words as the logical operation does, unless a signed type meets the widest unsigned one: these two
have no integer type in common.
-/
namespace ScalarFusion

def Literal.word (t : ScalarType) (v : Literal) : BitVec t.bits :=
  BitVec.ofInt t.bits (v.intIn t)

namespace Bitwise

def Logical : Bitwise → List Bool → Prop
  | and, bs => ∀ b ∈ bs, b = true
  | or, bs => ∃ b ∈ bs, b = true
  | xor, bs => bs.count true % 2 = 1
  | invert, bs => ∀ b ∈ bs, b = false

theorem foldl_xor (bs : List Bool) (start : Bool) :
    bs.foldl Bool.xor start = true ↔ (start.toNat + bs.count true) % 2 = 1 := by
  induction bs generalizing start with
  | nil => cases start <;> simp
  | cons b bs ih =>
    rw [List.foldl_cons, ih]
    cases start <;> cases b <;> simp <;> omega

theorem foldl_and (bs : List Bool) (start : Bool) :
    bs.foldl (· && ·) start = (start && bs.all id) := by
  induction bs generalizing start with
  | nil => simp
  | cons b bs ih => rw [List.foldl_cons, ih, List.all_cons, id_eq, Bool.and_assoc]

theorem foldl_or (bs : List Bool) (start : Bool) :
    bs.foldl (· || ·) start = (start || bs.any id) := by
  induction bs generalizing start with
  | nil => simp
  | cons b bs ih => rw [List.foldl_cons, ih, List.any_cons, id_eq, Bool.or_assoc]

theorem ne_nil_of_admits {α : Type} {b : Bitwise} {xs : List α}
    (arity : (Primitive.bitwise b).arity.admits xs.length = true) : xs ≠ [] := by
  rintro rfl
  cases b <;> cases arity

theorem onBools_iff {b : Bitwise} {bs : List Bool}
    (arity : (Primitive.bitwise b).arity.admits bs.length = true) :
    b.onBools bs = true ↔ b.Logical bs := by
  cases b with
  | and => simp [onBools, Logical]
  | or => simp [onBools, Logical]
  | xor => simpa [onBools, Logical] using foldl_xor bs false
  | invert =>
    obtain ⟨b, rfl⟩ := Arity.exists_one arity
    simp [onBools, Logical]

theorem getLsbD_onWords (b : Bitwise) (ws : List Int64) {k : Nat} (inside : k < 64) :
    (b.onWords ws).toBitVec.getLsbD k = b.onBools (ws.map fun w => w.toBitVec.getLsbD k) := by
  have folded : ∀ (f : Int64 → Int64 → Int64) (g : Bool → Bool → Bool),
      (∀ x y, (f x y).toBitVec.getLsbD k = g (x.toBitVec.getLsbD k) (y.toBitVec.getLsbD k)) →
      ∀ start, (ws.foldl f start).toBitVec.getLsbD k =
        (ws.map fun w => w.toBitVec.getLsbD k).foldl g (start.toBitVec.getLsbD k) := by
    intro f g step start
    rw [List.foldl_map]
    exact (List.foldl_hom (fun w : Int64 => w.toBitVec.getLsbD k) fun x y => (step x y).symm).symm
  cases b with
  | and =>
    have start : (-1 : Int64).toBitVec.getLsbD k = true := by
      rw [show (-1 : Int64).toBitVec = BitVec.allOnes 64 from rfl, BitVec.getLsbD_allOnes]
      exact decide_eq_true inside
    rw [onWords, folded _ (· && ·) fun _ _ => by simp, foldl_and, start]
    rfl
  | or =>
    rw [onWords, folded _ (· || ·) fun _ _ => by simp, foldl_or]
    simp [onBools]
  | xor =>
    rw [onWords, folded _ Bool.xor fun _ _ => by simp]
    simp [onBools]
  | invert =>
    rw [onWords, Int64.toBitVec_not, BitVec.getLsbD_not, decide_eq_true inside, Bool.true_and]
    cases ws <;> simp [onBools]

theorem not_logical_of_false {b : Bitwise} (other : b ≠ invert) {bs : List Bool} (nonempty : bs ≠ [])
    (none : ∀ x ∈ bs, x = false) : ¬ b.Logical bs := by
  cases b with
  | and =>
    intro all
    obtain ⟨x, member⟩ := List.exists_mem_of_ne_nil bs nonempty
    exact Bool.false_ne_true ((none x member).symm.trans (all x member))
  | or =>
    rintro ⟨x, member, holds⟩
    exact Bool.false_ne_true ((none x member).symm.trans holds)
  | xor =>
    have absent : bs.count true = 0 :=
      List.count_eq_zero.mpr fun member => Bool.false_ne_true (none true member).symm
    simp [Logical, absent]
  | invert => exact absurd rfl other

theorem onWords_eq_zero {b : Bitwise} (other : b ≠ invert) {ws : List Int64}
    (arity : (Primitive.bitwise b).arity.admits ws.length = true) (zero : ∀ w ∈ ws, w = 0) :
    b.onWords ws = 0 := by
  have nonempty := ne_nil_of_admits arity
  apply Int64.toBitVec_inj.mp
  apply BitVec.eq_of_getLsbD_eq
  intro k inside
  have unset : ∀ x ∈ ws.map fun w => w.toBitVec.getLsbD k, x = false := by
    intro x member
    obtain ⟨w, operand, rfl⟩ := List.mem_map.mp member
    rw [zero w operand]
    simp
  have clear := not_logical_of_false other (by simpa using nonempty) unset
  rw [← onBools_iff (by simpa using arity)] at clear
  rw [getLsbD_onWords b ws inside, Bool.eq_false_of_not_eq_true clear]
  simp

end Bitwise

theorem Width.modulus_eq (w : Width) : w.modulus = 2 ^ w.bits := by
  cases w <;> rfl

theorem setWidth_ofInt (n : Int) {w : Nat} (narrow : w ≤ 64) :
    (BitVec.ofInt 64 n).setWidth w = BitVec.ofInt w n := by
  have divides : ((2 ^ w : Nat) : Int) ∣ ((2 ^ 64 : Nat) : Int) :=
    Int.natCast_dvd_natCast.mpr (Nat.pow_dvd_pow 2 narrow)
  have low : (0 : Int) ≤ n % ((2 ^ 64 : Nat) : Int) := Int.emod_nonneg _ (by decide)
  apply BitVec.eq_of_toNat_eq
  rw [BitVec.toNat_setWidth, BitVec.toNat_ofInt, BitVec.toNat_ofInt, ← Int.emod_emod_of_dvd n divides,
    Int.toNat_emod low (Int.natCast_nonneg _), Int.toNat_natCast]

namespace Literal

theorem bits_le {t : ScalarType} (integer : t.isInteger = true) : t.bits ≤ 64 := by
  rcases t with _ | (_ | _ | _ | _) | (_ | _ | _ | _) | _ | _ <;> first | decide | cases integer

theorem getLsbD_word_bool (v : Literal) : (v.word .bool).getLsbD 0 = v.isTruthy := by
  rw [word, intIn, cast]
  cases v.isTruthy <;> rfl

theorem word_eq {t : ScalarType} (integer : t.isInteger = true) (v : Literal) :
    v.word t = (Int64.ofInt (v.intIn t)).toBitVec.setWidth t.bits := by
  rw [word, Int64.toBitVec_ofInt, setWidth_ofInt _ (bits_le integer)]

theorem word_cast {t : ScalarType} (integer : t.isInteger = true) (n : Int64) :
    ((signed n).cast t).word t = n.toBitVec.setWidth t.bits := by
  have whole : n.toBitVec = BitVec.ofInt 64 n.toInt := by
    rw [← Int64.toInt_toBitVec, BitVec.ofInt_toInt]
  rw [word, intIn, cast_cast, whole, setWidth_ofInt _ (bits_le integer)]
  apply BitVec.eq_of_toInt_eq
  rw [BitVec.toInt_ofInt, BitVec.toInt_ofInt]
  cases t with
  | signed w =>
    simp only [cast, truncated, toInt?, toInt_wrapped, Option.getD_some]
    rw [Width.modulus_eq]
    exact Int.bmod_bmod
  | unsigned w =>
    simp only [cast, truncated, toInt?, toNat_wrapped, Option.getD_some]
    rw [Width.modulus_eq]
    exact Int.emod_bmod _ _
  | _ => cases integer

end Literal

namespace ScalarType

def Clash (ts : List ScalarType) : Prop :=
  (∃ t ∈ ts, t.isSigned = true) ∧ .unsigned .w64 ∈ ts

theorem not_clash_singleton (t : ScalarType) : ¬ Clash [t] := by
  rintro ⟨⟨s, member, signed⟩, widest⟩
  obtain rfl := List.mem_singleton.mp member
  obtain rfl := List.mem_singleton.mp widest
  cases signed

/-- The join of discrete types, told by whether one of them is signed and whether one is the widest
    unsigned type. -/
inductive Joins (signs widest : Bool) (t : ScalarType) : Prop where
  | discrete (discrete : t.isDiscrete = true) (signed : t.isSigned = signs)
      (unsigned : (t == .unsigned .w64) = widest)
  | clash (signed : signs = true) (unsigned : widest = true) (float : t = .float .double)

theorem Joins.promote {signs widest : Bool} {t s : ScalarType} (joins : Joins signs widest t)
    (discrete : s.isDiscrete = true) :
    Joins (signs || s.isSigned) (widest || s == .unsigned .w64) (t.promote s) := by
  cases joins with
  | clash signed unsigned float =>
    subst signed unsigned float
    refine .clash rfl rfl ?_
    rcases s with _ | (_ | _ | _ | _) | (_ | _ | _ | _) | _ | _ <;> first | rfl | cases discrete
  | discrete discrete' signed unsigned =>
    subst signed unsigned
    rcases t with _ | (_ | _ | _ | _) | (_ | _ | _ | _) | _ | _ <;> try cases discrete'
    all_goals
      rcases s with _ | (_ | _ | _ | _) | (_ | _ | _ | _) | _ | _ <;> try cases discrete
    all_goals first | exact .discrete rfl rfl rfl | exact .clash rfl rfl rfl

theorem Joins.foldl {ts : List ScalarType} {signs widest : Bool} {t : ScalarType}
    (joins : Joins signs widest t) (discrete : ∀ s ∈ ts, s.isDiscrete = true) :
    Joins (signs || ts.any isSigned) (widest || ts.any (· == .unsigned .w64))
      (ts.foldl ScalarType.promote t) := by
  induction ts generalizing signs widest t with
  | nil => simpa using joins
  | cons s ts ih =>
    rw [List.any_cons, List.any_cons, ← Bool.or_assoc, ← Bool.or_assoc, List.foldl_cons]
    exact ih (joins.promote (discrete s (by simp))) fun u member => discrete u (by simp [member])

theorem upcast_discrete {ts : List ScalarType} (nonempty : ts ≠ [])
    (discrete : ∀ t ∈ ts, t.isDiscrete = true) :
    ∃ t, upcast ts = some t ∧ (Clash ts → t = .float .double) ∧ (¬ Clash ts → t.isDiscrete = true) := by
  obtain ⟨t, ts, rfl⟩ := List.exists_cons_of_ne_nil nonempty
  have rest : ∀ s ∈ ts, s.isDiscrete = true := fun s member => discrete s (by simp [member])
  have joins : Joins ((t :: ts).any isSigned) ((t :: ts).any (· == .unsigned .w64))
      (ts.foldl ScalarType.promote t) := by
    rw [List.any_cons, List.any_cons]
    exact (Joins.discrete (discrete t (by simp)) rfl rfl).foldl rest
  have clash : Clash (t :: ts) ↔ (t :: ts).any isSigned = true ∧
      (t :: ts).any (· == .unsigned .w64) = true := by
    simp only [Clash, List.any_eq_true, beq_iff_eq, exists_eq_right]
  refine ⟨_, rfl, ?_, ?_⟩
  · intro clashes
    obtain ⟨signs, widest⟩ := clash.mp clashes
    cases joins with
    | clash _ _ float => exact float
    | discrete _ signed unsigned =>
      rw [widest, beq_iff_eq] at unsigned
      rw [unsigned, signs] at signed
      cases signed
  · intro apart
    cases joins with
    | clash signs widest _ => exact absurd (clash.mpr ⟨signs, widest⟩) apart
    | discrete discrete _ _ => exact discrete

end ScalarType

namespace Primitive

theorem outputType_bitwise {b : Bitwise} {types : List ScalarType}
    (arity : (bitwise b).arity.admits types.length = true)
    (discrete : ∀ t ∈ types, t.isDiscrete = true) (config : Config) :
    ∃ t, (bitwise b).outputType types config = .ok t ∧
      (ScalarType.Clash types → t = .float .double) ∧
      (¬ ScalarType.Clash types → t.isDiscrete = true) := by
  have nonempty := Bitwise.ne_nil_of_admits arity
  have refused : types.find? ScalarType.isFloat = none := by
    rw [List.find?_eq_none]
    intro t member
    have := discrete t member
    cases t <;> simp_all [ScalarType.isFloat, ScalarType.isDiscrete, ScalarType.isBool,
      ScalarType.isInteger, ScalarType.isSigned, ScalarType.isUnsigned]
  obtain ⟨t, join, kind⟩ := ScalarType.upcast_discrete nonempty discrete
  refine ⟨t, ?_, kind⟩
  simp only [outputType, checkArity, arity, if_true, refuse, refused, joined, join, ok_bind]

theorem evaluate_bitwise_of_ok [Numerics] {b : Bitwise} {values : List Literal}
    (arity : (bitwise b).arity.admits values.length = true) (types : List ScalarType)
    {t : ScalarType} {v : Literal} (success : b.evaluate t values = .ok v) :
    (bitwise b).evaluate values types [t] = .ok [v.cast t] := by
  have computed : (bitwise b).compute values types t = .ok v := by
    cases values <;> exact success
  exact evaluate_of_compute arity computed []

theorem evaluate_bitwise [Numerics] {b : Bitwise} {values : List Literal}
    (arity : (bitwise b).arity.admits values.length = true) (types : List ScalarType)
    {t : ScalarType} (discrete : t.isDiscrete = true) :
    ∃ r, (bitwise b).evaluate values types [t] = .ok [r] ∧ r.cast t = r ∧
      ∀ k < t.bits, (r.word t).getLsbD k = true ↔
        b.Logical (values.map fun v => (v.word t).getLsbD k) := by
  -- booleans are one bit, and combined by their truth values instead
  by_cases integer : t.isInteger = true
  · have success : b.evaluate t values =
        .ok (.signed (b.onWords (values.map fun v => Int64.ofInt (v.intIn t)))) := by
      cases t <;> first | rfl | cases integer
    refine ⟨_, evaluate_bitwise_of_ok arity types success, Literal.cast_cast _ t, fun k inside => ?_⟩
    have wide : k < 64 := Nat.lt_of_lt_of_le inside (Literal.bits_le integer)
    have operands : (values.map fun v => (v.word t).getLsbD k) =
        (values.map fun v => Int64.ofInt (v.intIn t)).map fun w => w.toBitVec.getLsbD k := by
      rw [List.map_map]
      refine List.map_congr_left fun v _ => ?_
      rw [Literal.word_eq integer, BitVec.getLsbD_setWidth, decide_eq_true inside, Bool.true_and]
      rfl
    rw [Literal.word_cast integer, BitVec.getLsbD_setWidth, decide_eq_true inside, Bool.true_and,
      Bitwise.getLsbD_onWords b _ wide, operands]
    exact Bitwise.onBools_iff (by simpa using arity)
  · obtain rfl : t = .bool := by
      cases t <;> simp_all [ScalarType.isDiscrete, ScalarType.isBool, ScalarType.isInteger,
        ScalarType.isSigned, ScalarType.isUnsigned]
    refine ⟨_, evaluate_bitwise_of_ok arity types rfl, rfl, fun k inside => ?_⟩
    obtain rfl : k = 0 := Nat.lt_one_iff.mp inside
    have operands : (values.map fun v => (v.word .bool).getLsbD 0) = values.map Literal.isTruthy :=
      List.map_congr_left fun v _ => v.getLsbD_word_bool
    rw [Literal.getLsbD_word_bool, operands]
    exact Bitwise.onBools_iff (by simpa using arity)

/-- No operand has an integer in float64, so the words are all zero. -/
theorem evaluate_bitwise_double [Numerics] {b : Bitwise} (other : b ≠ .invert)
    {values : List Literal}
    (arity : (bitwise b).arity.admits values.length = true) (types : List ScalarType) :
    (bitwise b).evaluate values types [.float .double] = .ok [.float (Real.ofInt 0)] := by
  have zero : b.onWords (values.map fun v => Int64.ofInt (v.intIn (.float .double))) = 0 := by
    refine Bitwise.onWords_eq_zero other (by simpa using arity) ?_
    intro w member
    obtain ⟨v, -, rfl⟩ := List.mem_map.mp member
    rfl
  have success : b.evaluate (.float .double) values = .ok (.signed 0) := by
    rw [Bitwise.evaluate, zero] <;> simp
  exact evaluate_bitwise_of_ok arity types success

end Primitive

/-- Bitwise operations on discrete operands. There is always an output type. It is discrete unless a
    signed type meets the widest unsigned one, and then the value is the literal of that type whose
    bits are, place by place, the logical operation on the bits of the operands converted to it. If
    the two types meet, the output type is float64 and the value is zero whatever the operands. -/
theorem bitwise_on_words [Numerics] (b : Bitwise) {types : List ScalarType}
    (arity : (Primitive.bitwise b).arity.admits types.length = true)
    (discrete : ∀ t ∈ types, t.isDiscrete = true) (config : Config) :
    ∃ t, (Primitive.bitwise b).outputType types config = .ok t ∧
      (ScalarType.Clash types → t = .float .double ∧
        ∀ values : List Literal, values.length = types.length →
          (Primitive.bitwise b).evaluate values types [t] = .ok [.float (Real.ofInt 0)]) ∧
      (¬ ScalarType.Clash types → t.isDiscrete = true ∧
        ∀ values : List Literal, values.length = types.length →
          ∃ r, (Primitive.bitwise b).evaluate values types [t] = .ok [r] ∧ r.cast t = r ∧
            ∀ k < t.bits, (r.word t).getLsbD k = true ↔
              b.Logical (values.map fun v => (v.word t).getLsbD k)) := by
  obtain ⟨t, typed, clash, apart⟩ := Primitive.outputType_bitwise arity discrete config
  refine ⟨t, typed, fun mixed => ⟨clash mixed, fun values count => ?_⟩,
    fun unmixed => ⟨apart unmixed, fun values count => ?_⟩⟩
  · have other : b ≠ .invert := by
      rintro rfl
      obtain ⟨s, rfl⟩ := Arity.exists_one arity
      exact ScalarType.not_clash_singleton s mixed
    rw [← count] at arity
    rw [clash mixed]
    exact Primitive.evaluate_bitwise_double other arity types
  · rw [← count] at arity
    exact Primitive.evaluate_bitwise arity types (apart unmixed)

theorem bytes_combined :
    ¬ ScalarType.Clash [.unsigned .w8, .signed .w8] ∧
    (Primitive.bitwise .xor).outputType [.unsigned .w8, .signed .w8] {} = .ok (.signed .w16) ∧
    ∃ r, (Primitive.bitwise .xor).evaluate [.unsigned 200, .signed (-1)]
        [.unsigned .w8, .signed .w8] [.signed .w16] = .ok [r] ∧ r = .signed (-201) ∧
      r.cast (.signed .w16) = r ∧
      ∀ k < 16, (r.word (.signed .w16)).getLsbD k = true ↔
        Bitwise.xor.Logical ([.unsigned 200, .signed (-1)].map fun v =>
          (Literal.word (.signed .w16) v).getLsbD k) := by
  have apart : ¬ ScalarType.Clash [.unsigned .w8, .signed .w8] := by
    simp [ScalarType.Clash]
  have arity : (Primitive.bitwise .xor).arity.admits
      [ScalarType.unsigned .w8, ScalarType.signed .w8].length = true := rfl
  obtain ⟨t, typed, -, rest⟩ := bitwise_on_words .xor arity (by simp [ScalarType.isDiscrete,
    ScalarType.isInteger, ScalarType.isUnsigned, ScalarType.isSigned]) {}
  obtain rfl : ScalarType.signed .w16 = t := Except.ok.inj typed
  obtain ⟨r, evaluated, kept, bits⟩ := (rest apart).2 [.unsigned 200, .signed (-1)] rfl
  have same : r = .signed (-201) := by
    have closed : (Primitive.bitwise .xor).evaluate [.unsigned 200, .signed (-1)]
        [.unsigned .w8, .signed .w8] [.signed .w16] = .ok [.signed (-201)] := by decide
    simpa using evaluated.symm.trans closed
  exact ⟨apart, typed, r, evaluated, same, kept, bits⟩

/-- Where the two types meet the bits are lost: one and one is zero. -/
theorem widest_words_lost [Numerics] :
    (Primitive.bitwise .and).outputType [.signed .w64, .unsigned .w64] {} = .ok (.float .double) ∧
    (Primitive.bitwise .and).evaluate [.signed 1, .unsigned 1] [.signed .w64, .unsigned .w64]
      [.float .double] = .ok [.float (Real.ofInt 0)] :=
  ⟨rfl, rfl⟩

end ScalarFusion

import ScalarFusion.Literal.Text
import ScalarFusion.Proofs.Numerals

/-!
Integer constants in C. The reader takes the constant expressions of integers apart, and they are
evaluated in the types that C gives them, where a sign or a difference must not overflow. The text
of every literal of a discrete type is read as the integer of the literal.
-/
namespace ScalarFusion

inductive CSuffix where
  | plain
  | ll
  | u
  | ull
  deriving DecidableEq, Repr

namespace CSuffix

def text : CSuffix → String
  | plain => ""
  | ll => "LL"
  | u => "u"
  | ull => "ULL"

def limit : CSuffix → Nat
  | plain => 2 ^ 63 - 1
  | ll => 2 ^ 63 - 1
  | u => 2 ^ 32 - 1
  | ull => 2 ^ 64 - 1

def read? (cs : List Char) : Option CSuffix :=
  [plain, ll, u, ull].find? fun s => s.text.toList == cs

end CSuffix

structure CNumeral where
  value : Nat
  suffix : CSuffix
  deriving DecidableEq, Repr

namespace CNumeral

def type (n : CNumeral) : ScalarType :=
  match n.suffix with
  | .plain => if (ScalarType.signed .w32).holds n.value then .signed .w32 else .signed .w64
  | .ll => .signed .w64
  | .u => .unsigned .w32
  | .ull => .unsigned .w64

/-- Reads a decimal number. Digits that start with a needless zero are octal in C and refused. -/
def read? (cs : List Char) : Option CNumeral :=
  let digits := cs.takeWhile Char.isDigit
  if digits = [] ∨ digits.head? = some '0' ∧ digits ≠ ['0'] then none
  else (CSuffix.read? (cs.dropWhile Char.isDigit)).map fun suffix =>
    ⟨Nat.ofDigitChars 10 digits 0, suffix⟩

end CNumeral

inductive CConstant where
  | numeral (n : CNumeral)
  | negative (n : CNumeral)
  | difference (first second : CConstant)
  deriving DecidableEq, Repr

namespace CConstant

def numerals : CConstant → List CNumeral
  | numeral n => [n]
  | negative n => [n]
  | difference first second => first.numerals ++ second.numerals

def signedResult (t : ScalarType) (n : Int) : Option (ScalarType × Int) :=
  if t.isSigned && t.holds n then some (t, n) else none

/-- The type and the value. Signs and differences of unsigned numbers are left out: they wrap. -/
def eval : CConstant → Option (ScalarType × Int)
  | numeral n => if n.value ≤ n.suffix.limit then some (n.type, n.value) else none
  | negative n => if n.value ≤ n.suffix.limit then signedResult n.type (-n.value) else none
  | difference first second => do
    let x ← first.eval
    let y ← second.eval
    if x.1.isSigned && y.1.isSigned then signedResult (x.1.promote y.1) (x.2 - y.2) else none

def readSigned? : List Char → Option CConstant
  | '-' :: cs => (CNumeral.read? cs).map negative
  | cs => (CNumeral.read? cs).map numeral

def read? : List Char → Option CConstant
  | '(' :: cs => do
    let first ← readSigned? (cs.takeWhile (· != ' '))
    match cs.dropWhile (· != ' ') with
    | ' ' :: '-' :: ' ' :: rest =>
      let second ← readSigned? (rest.takeWhile (· != ')'))
      if rest.dropWhile (· != ')') = [')'] then some (difference first second) else none
    | _ => none
  | cs => readSigned? cs

end CConstant

theorem CSuffix.read?_text (s : CSuffix) : read? s.text.toList = some s := by
  cases s <;> decide +kernel

theorem ScalarType.holds_signed_iff {w : Width} {n : Int} : (signed w).holds n = true ↔
    -((w.modulus / 2 : Nat) : Int) ≤ n ∧ n < ((w.modulus / 2 : Nat) : Int) := by
  rw [holds, decide_eq_true_iff]
  simp only [bounds]
  omega

theorem Real.head_toDigits_ne_zero {n : Nat} (positive : 0 < n) :
    (Nat.toDigits 10 n).head? ≠ some '0' := by
  induction n using Nat.strongRecOn with
  | ind n ih =>
    rcases Nat.lt_or_ge n 10 with small | large
    · rw [Nat.toDigits_of_lt_base small]
      interval_cases n <;> decide
    · rw [Nat.toDigits_of_base_le (by decide) large,
        List.head?_append_of_ne_nil _ Nat.toDigits_ne_nil]
      exact ih (n / 10) (by omega) (by omega)

namespace CNumeral

theorem run_toDigits (n : Nat) (s : CSuffix) :
    (Nat.toDigits 10 n ++ s.text.toList).takeWhile Char.isDigit = Nat.toDigits 10 n ∧
      (Nat.toDigits 10 n ++ s.text.toList).dropWhile Char.isDigit = s.text.toList := by
  have digits := @Real.isDigit_of_mem_toDigits n
  rw [List.takeWhile_append_of_pos digits, List.dropWhile_append_of_pos digits]
  cases s <;> simp [CSuffix.text]

theorem read?_toDigits (n : Nat) (s : CSuffix) :
    read? (Nat.toDigits 10 n ++ s.text.toList) = some ⟨n, s⟩ := by
  obtain ⟨digits, suffix⟩ := run_toDigits n s
  have decimal : ¬ (Nat.toDigits 10 n = [] ∨
      (Nat.toDigits 10 n).head? = some '0' ∧ Nat.toDigits 10 n ≠ ['0']) := by
    rintro (empty | ⟨zero, longer⟩)
    · exact Nat.toDigits_ne_nil empty
    · rcases Nat.eq_zero_or_pos n with rfl | positive
      · exact longer (Nat.toDigits_zero 10)
      · exact Real.head_toDigits_ne_zero positive zero
  unfold read?
  rw [digits, suffix]
  simp only [if_neg decimal, CSuffix.read?_text, Option.map_some, Nat.ofDigitChars_ten_toDigits]

end CNumeral

namespace CConstant

theorem read?_cons {c : Char} (opens : c ≠ '(') (minus : c ≠ '-') (cs : List Char) :
    read? (c :: cs) = (CNumeral.read? (c :: cs)).map numeral := by
  unfold read?
  split
  · next same => exact absurd (List.cons.inj same).1 opens
  · unfold readSigned?
    split
    · next same => exact absurd (List.cons.inj same).1 minus
    · rfl

theorem read?_toDigits (n : Nat) (s : CSuffix) :
    read? (Nat.toDigits 10 n ++ s.text.toList) = some (numeral ⟨n, s⟩) := by
  have number := CNumeral.read?_toDigits n s
  obtain ⟨c, rest, shape⟩ :=
    List.exists_cons_of_ne_nil (Nat.toDigits_ne_nil : Nat.toDigits 10 n ≠ [])
  have digit : c.isDigit = true := Real.isDigit_of_mem_toDigits (n := n) c (by simp [shape])
  rw [shape, List.cons_append] at number ⊢
  rw [read?_cons (by rintro rfl; cases digit) (by rintro rfl; cases digit), number, Option.map_some]

theorem read?_minus (n : Nat) (s : CSuffix) :
    read? ('-' :: (Nat.toDigits 10 n ++ s.text.toList)) = some (negative ⟨n, s⟩) := by
  show (CNumeral.read? (Nat.toDigits 10 n ++ s.text.toList)).map negative = _
  rw [CNumeral.read?_toDigits, Option.map_some]

theorem le_limit_of_eval {x : CConstant} {r : ScalarType × Int} (evaluated : x.eval = some r) :
    ∀ m ∈ x.numerals, m.value ≤ m.suffix.limit := by
  induction x generalizing r with
  | numeral n | negative n =>
    rw [eval] at evaluated
    split at evaluated
    · next fits => simpa [numerals] using fits
    · cases evaluated
  | difference first second ihFirst ihSecond =>
    rw [eval] at evaluated
    obtain ⟨x, left, rest⟩ := Option.bind_eq_some_iff.mp evaluated
    obtain ⟨y, right, -⟩ := Option.bind_eq_some_iff.mp rest
    intro m member
    rcases List.mem_append.mp member with inFirst | inSecond
    · exact ihFirst left m inFirst
    · exact ihSecond right m inSecond

def Denotes (text : String) (n : Int) : Prop :=
  ∃ x type, read? text.toList = some x ∧ x.eval = some (type, n)

theorem denotes_of_nonneg {n : Int} (positive : 0 ≤ n) {s : CSuffix} (fits : n ≤ s.limit) :
    Denotes (toString n ++ s.text) n := by
  refine ⟨numeral ⟨n.toNat, s⟩, CNumeral.type ⟨n.toNat, s⟩, ?_, ?_⟩
  · rw [String.toList_append, Real.toList_toString_int, if_pos positive, read?_toDigits]
  · have inside : n.toNat ≤ s.limit := by omega
    rw [eval, if_pos inside, Int.toNat_of_nonneg positive]

theorem holds_opposite {m : Nat} {s : CSuffix} (signed : s = .plain ∨ s = .ll) (fits : m < 2 ^ 63) :
    (CNumeral.type ⟨m, s⟩).isSigned = true ∧ (CNumeral.type ⟨m, s⟩).holds (-m) = true := by
  have wide : (ScalarType.signed .w64).holds (-m) = true := by
    rw [ScalarType.holds_signed_iff]
    simp only [Width.modulus]
    omega
  rcases signed with rfl | rfl
  · simp only [CNumeral.type]
    split
    · next small =>
      refine ⟨rfl, ?_⟩
      rw [ScalarType.holds_signed_iff] at small ⊢
      omega
    · exact ⟨rfl, wide⟩
  · exact ⟨rfl, wide⟩

theorem denotes_of_signed {n : Int} (above : -2 ^ 63 < n) (below : n < 2 ^ 63) {s : CSuffix}
    (signed : s = .plain ∨ s = .ll) : Denotes (toString n ++ s.text) n := by
  have limit : s.limit = 2 ^ 63 - 1 := by rcases signed with rfl | rfl <;> rfl
  rcases lt_or_ge n 0 with minus | positive
  · obtain ⟨m, rfl⟩ : ∃ m : Nat, n = -m := ⟨n.natAbs, by omega⟩
    obtain ⟨type, holds⟩ := holds_opposite signed (by omega : m < 2 ^ 63)
    refine ⟨negative ⟨m, s⟩, CNumeral.type ⟨m, s⟩, ?_, ?_⟩
    · rw [String.toList_append, Real.toList_toString_int, if_neg (by omega), List.cons_append,
        Int.neg_neg, Int.toNat_natCast, read?_minus]
    · have fits : m ≤ s.limit := by omega
      rw [eval, if_pos fits]
      simp only [signedResult, type, holds]
      rfl
  · exact denotes_of_nonneg positive (by omega)

theorem denotes_signedCText {n : Int} (inside : (ScalarType.signed .w64).holds n = true) :
    Denotes (Literal.signedCText n) n := by
  rw [ScalarType.holds_signed_iff] at inside
  simp only [Width.modulus] at inside
  unfold Literal.signedCText
  split
  · next least =>
    -- no signed type holds the magnitude, so this one is not a number after a sign
    subst least
    exact ⟨.difference (.negative ⟨2 ^ 63 - 1, .ll⟩) (.numeral ⟨1, .plain⟩), .signed .w64,
      by decide +kernel, by decide +kernel⟩
  · next other =>
    have above : -2 ^ 63 < n := by
      simp only [ScalarType.bounds, Width.modulus] at other
      omega
    have below : n < 2 ^ 63 := by omega
    split
    · rw [← String.append_empty (s := toString n)]
      exact denotes_of_signed (s := .plain) above below (.inl rfl)
    · exact denotes_of_signed (s := .ll) above below (.inr rfl)

theorem denotes_unsignedCText {n : Nat} (inside : n < 2 ^ 64) :
    Denotes (Literal.unsignedCText n) n := by
  unfold Literal.unsignedCText
  split
  · next small =>
    have fits : (n : Int) ≤ CSuffix.u.limit := by
      simp only [Width.modulus] at small
      simp only [CSuffix.limit]
      omega
    exact denotes_of_nonneg (s := .u) (Int.natCast_nonneg n) fits
  · have fits : (n : Int) ≤ CSuffix.ull.limit := by
      simp only [CSuffix.limit]
      omega
    exact denotes_of_nonneg (s := .ull) (Int.natCast_nonneg n) fits

theorem denotes_cText (v : Literal) {t : ScalarType} (discrete : t.isDiscrete = true) :
    ∃ n, (v.cast t).toInt? = some n ∧ Denotes (v.cText t) n := by
  cases t with
  | bool =>
    refine ⟨_, rfl, ?_⟩
    simp only [Literal.cText, Literal.cast]
    cases v.isTruthy
    · exact denotes_of_nonneg (n := 0) (s := .plain) (by decide) (by decide)
    · exact denotes_of_nonneg (n := 1) (s := .plain) (by decide) (by decide)
  | signed w =>
    refine ⟨_, rfl, denotes_signedCText ?_⟩
    rw [ScalarType.holds_signed_iff]
    exact ⟨Int64.le_toInt _, Int64.toInt_lt _⟩
  | unsigned w => exact ⟨_, rfl, denotes_unsignedCText (UInt64.toNat_lt _)⟩
  | float p => cases discrete
  | complex p => cases discrete

end CConstant

/-- Integer constants denote what they stand for. For every literal and every discrete type, the
    text is a constant expression of C; its value, in the types that C gives its parts and with no
    overflow on the way, is the integer of the converted literal; and every number in it has a type
    that holds it. -/
theorem integer_constants_denote (v : Literal) {t : ScalarType} (discrete : t.isDiscrete = true) :
    ∃ n x type, (v.cast t).toInt? = some n ∧ CConstant.read? (v.cText t).toList = some x ∧
      x.eval = some (type, n) ∧ ∀ m ∈ x.numerals, m.value ≤ m.suffix.limit := by
  obtain ⟨n, value, x, type, parsed, evaluated⟩ := CConstant.denotes_cText v discrete
  exact ⟨n, x, type, value, parsed, evaluated, CConstant.le_limit_of_eval evaluated⟩

theorem least_integer_denoted : ScalarType.isDiscrete (.signed .w64) = true ∧
    (Literal.unsigned 9223372036854775808).cText (.signed .w64) = "(-9223372036854775807LL - 1)" ∧
    ∃ x type, CConstant.read? "(-9223372036854775807LL - 1)".toList = some x ∧
      x.eval = some (type, -9223372036854775808) ∧ ∀ m ∈ x.numerals, m.value ≤ m.suffix.limit := by
  have text : (Literal.unsigned 9223372036854775808).cText (.signed .w64) =
      "(-9223372036854775807LL - 1)" := by decide +kernel
  have least : ((Literal.unsigned 9223372036854775808).cast (.signed .w64)).toInt? =
      some (-9223372036854775808) := by decide +kernel
  obtain ⟨n, x, type, value, parsed, evaluated, fits⟩ :=
    integer_constants_denote (.unsigned 9223372036854775808) (t := .signed .w64) rfl
  obtain rfl := Option.some.inj (least.symm.trans value)
  exact ⟨rfl, text, x, type, text ▸ parsed, evaluated, fits⟩

end ScalarFusion

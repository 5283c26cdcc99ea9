import ScalarFusion.Composite.Emission
import ScalarFusion.Proofs.Numerals
import ScalarFusion.Proofs.Typing
import ScalarFusion.Proofs.Valuing

/-!
Where the minus signs stand in C code. Two of them side by side are a decrement, and texts that are
written one after another put none there if each is sealed: it has no decrement and does not end in a
minus. Literals are sealed, and so is the statement of an operation with sealed operands, negation
apart.
-/
namespace ScalarFusion

namespace Text

/-- Two minus signs side by side, which C reads as one token. -/
def Decrements (cs : List Char) : Prop :=
  ['-', '-'] <:+: cs

instance (cs : List Char) : Decidable (Decrements cs) :=
  inferInstanceAs (Decidable (['-', '-'] <:+: cs))

/-- A text that any text may follow without a decrement where they meet. -/
structure Sealed (cs : List Char) : Prop where
  apart : ¬Decrements cs
  closed : cs.getLast? ≠ some '-'

/-- A sealed text that starts with a minus, if `minus`, and else with something else. -/
structure Leads (minus : Bool) (cs : List Char) : Prop where
  sealed : Sealed cs
  head : ∃ c rest, cs = c :: rest ∧ (c == '-') = minus

variable {c : Char} {a b cs : List Char}

@[simp]
theorem not_decrements_nil : ¬Decrements [] := by
  decide

theorem decrements_cons :
    Decrements (c :: cs) ↔ c = '-' ∧ cs.head? = some '-' ∨ Decrements cs := by
  unfold Decrements
  rw [List.infix_cons_iff]
  cases cs with
  | nil => simp
  | cons d cs => simp [List.cons_prefix_cons, @eq_comm _ '-']

@[simp]
theorem decrements_cons_of_ne (other : c ≠ '-') : Decrements (c :: cs) ↔ Decrements cs := by
  simp [decrements_cons, other]

@[simp]
theorem sealed_nil : Sealed [] :=
  ⟨not_decrements_nil, by simp⟩

@[simp]
theorem sealed_cons_of_ne (other : c ≠ '-') : Sealed (c :: cs) ↔ Sealed cs := by
  cases cs with
  | nil =>
    refine iff_of_true ⟨?_, ?_⟩ sealed_nil <;> simp [other]
  | cons d cs =>
    constructor
    · intro sealed
      exact ⟨by simpa [other] using sealed.apart, by simpa using sealed.closed⟩
    · intro sealed
      exact ⟨by simpa [other] using sealed.apart, by simpa using sealed.closed⟩

@[simp]
theorem sealed_minus (other : c ≠ '-') : Sealed ('-' :: c :: cs) ↔ Sealed (c :: cs) := by
  constructor
  · intro sealed
    exact ⟨fun decrements => sealed.apart (decrements_cons.mpr (.inr decrements)),
      by simpa using sealed.closed⟩
  · intro sealed
    refine ⟨?_, by simpa using sealed.closed⟩
    simpa [decrements_cons (c := '-'), other] using sealed.apart

/-- After a sealed text the search for a decrement starts afresh. -/
theorem Sealed.decrements_append (sealed : Sealed a) : Decrements (a ++ b) ↔ Decrements b := by
  induction a with
  | nil => rfl
  | cons c a ih =>
    by_cases minus : c = '-'
    · subst minus
      -- a minus is neither last nor before another, so the next character stands between
      cases a with
      | nil => exact absurd rfl sealed.closed
      | cons d a =>
        have other : d ≠ '-' := by
          rintro rfl
          exact sealed.apart (decrements_cons.mpr (.inl ⟨rfl, rfl⟩))
        rw [← ih ((sealed_minus other).mp sealed)]
        simp [decrements_cons (c := '-'), other]
    · rw [List.cons_append, decrements_cons_of_ne minus, ih ((sealed_cons_of_ne minus).mp sealed)]

@[simp]
theorem Sealed.append_iff (sealed : Sealed a) : Sealed (a ++ b) ↔ Sealed b := by
  cases b with
  | nil => simpa using sealed
  | cons c b =>
    constructor
    · intro both
      exact ⟨sealed.decrements_append.not.mp both.apart, by simpa using both.closed⟩
    · intro rest
      exact ⟨sealed.decrements_append.not.mpr rest.apart, by simpa using rest.closed⟩

theorem Sealed.append (first : Sealed a) (second : Sealed b) : Sealed (a ++ b) :=
  first.append_iff.mpr second

theorem sealed_of_notMem (free : '-' ∉ cs) : Sealed cs := by
  induction cs with
  | nil => exact sealed_nil
  | cons c cs ih =>
    rw [List.mem_cons, not_or] at free
    exact (sealed_cons_of_ne (Ne.symm free.1)).mpr (ih free.2)

theorem Leads.append {minus : Bool} (leads : Leads minus a) (sealed : Sealed b) :
    Leads minus (a ++ b) := by
  obtain ⟨c, rest, rfl, sign⟩ := leads.head
  exact ⟨leads.sealed.append sealed, c, rest ++ b, rfl, sign⟩

@[simp]
theorem leads_cons_of_ne (other : c ≠ '-') : Leads false (c :: cs) ↔ Sealed cs := by
  constructor
  · exact fun leads => (sealed_cons_of_ne other).mp leads.sealed
  · exact fun sealed => ⟨(sealed_cons_of_ne other).mpr sealed, c, cs, rfl, beq_false_of_ne other⟩

theorem Leads.minus (leads : Leads false cs) : Leads true ('-' :: cs) := by
  obtain ⟨c, rest, rfl, sign⟩ := leads.head
  exact ⟨(sealed_minus (by simpa using sign)).mpr leads.sealed, '-', _, rfl, rfl⟩

theorem Leads.decrements_minus {minus : Bool} (leads : Leads minus cs) :
    Decrements ('-' :: cs) ↔ minus = true := by
  have apart := leads.sealed.apart
  obtain ⟨c, rest, rfl, rfl⟩ := leads.head
  simp [decrements_cons (c := '-'), apart]

theorem sealed_intercalate {sep : List Char} {parts : List (List Char)} (between : Sealed sep)
    (each : ∀ part ∈ parts, Sealed part) : Sealed (sep.intercalate parts) := by
  induction parts with
  | nil => exact sealed_nil
  | cons part parts ih =>
    have first := each part (by simp)
    have rest := ih fun other member => each other (by simp [member])
    cases parts with
    | nil => simpa using first
    | cons next parts =>
      rw [List.intercalate_cons_cons]
      exact (first.append between).append rest

theorem decrements_append_cons (other : c ≠ '-') :
    Decrements (a ++ c :: b) ↔ Decrements a ∨ Decrements b := by
  induction a with
  | nil => simp [other]
  | cons d a ih =>
    rw [List.cons_append, decrements_cons, ih, decrements_cons, or_assoc]
    cases a <;> simp [other]

theorem decrements_intercalate {parts : List (List Char)} :
    Decrements (['\n'].intercalate parts) ↔ ∃ part ∈ parts, Decrements part := by
  induction parts with
  | nil => simp
  | cons part parts ih =>
    cases parts with
    | nil => simp
    | cons next parts =>
      rw [List.intercalate_cons_cons, List.append_assoc, List.singleton_append,
        decrements_append_cons (by decide), ih]
      exact (List.exists_mem_cons_iff _ _ _).symm

theorem decrements_joined (lines : List String) :
    Decrements (String.intercalate "\n" lines).toList ↔ ∃ l ∈ lines, Decrements l.toList := by
  have newline : "\n".toList = ['\n'] := by simp
  rw [String.toList_intercalate, newline, decrements_intercalate]
  simp

theorem splitLines_ne_nil (cs : List Char) : splitLines cs ≠ [] := by
  cases cs with
  | nil => simp [splitLines]
  | cons c cs =>
    rw [splitLines, List.foldr_cons]
    split
    · simp
    · split <;> simp

theorem intercalate_splitLines (cs : List Char) : ['\n'].intercalate (splitLines cs) = cs := by
  induction cs with
  | nil => rfl
  | cons c cs ih =>
    cases pieces : splitLines cs with
    | nil => exact absurd pieces (splitLines_ne_nil cs)
    | cons l rest =>
      rw [pieces] at ih
      rw [splitLines, List.foldr_cons, ← splitLines, pieces]
      dsimp only
      split
      · next newline =>
        rw [List.intercalate_cons_cons, ih, newline]
        rfl
      · rw [List.intercalate_cons_cons_left, ih]

theorem decrements_dropReturn (l : List Char) : Decrements (dropReturn l) ↔ Decrements l := by
  unfold dropReturn
  split
  · next ends =>
    have whole := List.dropLast_append_getLast? '\r' ends
    rw [← whole, List.dropLast_concat, decrements_append_cons (by decide)]
    simp
  · rfl

theorem decrements_lines (cs : List Char) : (∃ l ∈ lines cs, Decrements l) ↔ Decrements cs := by
  conv_rhs => rw [← intercalate_splitLines cs, decrements_intercalate]
  unfold lines
  cases pieces : (splitLines cs).reverse with
  | nil => exact absurd (List.reverse_eq_nil_iff.mp pieces) (splitLines_ne_nil cs)
  | cons last rest =>
    have ended : (∃ l ∈ rest.reverse.map dropReturn, Decrements l) ↔ ∃ l ∈ rest, Decrements l := by
      simp [decrements_dropReturn]
    have all : (∃ l ∈ splitLines cs, Decrements l) ↔
        (∃ l ∈ rest, Decrements l) ∨ Decrements last := by
      rw [← List.reverse_reverse (splitLines cs), pieces]
      simp [or_comm]
    rw [all, ← ended]
    dsimp only
    split
    · -- only an empty last piece is left out
      next empty => simp [List.isEmpty_iff.mp empty]
    · simp only [List.mem_append, List.mem_singleton, or_and_right, exists_or, exists_eq_left]

theorem decrements_indentLines (s : String) :
    Decrements (indentLines s).toList ↔ Decrements s.toList := by
  rw [indentLines, decrements_joined, ← decrements_lines s.toList]
  simp

end Text

open Text

theorem decrements_block (body : String) :
    Decrements (block body).toList ↔ Decrements body.toList := by
  rw [block, String.toList_append, String.toList_append]
  simp [decrements_append_cons, decrements_indentLines]

namespace Real

theorem sealed_of_digits {cs : List Char} (digits : ∀ c ∈ cs, c.isDigit = true) : Sealed cs := by
  refine sealed_of_notMem fun minus => ?_
  exact absurd (digits '-' minus) (by decide)

theorem sealed_toDigits (n : Nat) : Sealed (Nat.toDigits 10 n) :=
  sealed_of_digits isDigit_of_mem_toDigits

theorem leads_toDigits (n : Nat) : Leads false (Nat.toDigits 10 n) := by
  refine ⟨sealed_toDigits n, ?_⟩
  cases digits : Nat.toDigits 10 n with
  | nil => exact absurd digits Nat.toDigits_ne_nil
  | cons c cs =>
    refine ⟨c, cs, rfl, ?_⟩
    rw [beq_eq_false_iff_ne]
    rintro rfl
    exact absurd (@isDigit_of_mem_toDigits n '-' (by simp [digits])) (by decide)

theorem leads_toString_int (n : Int) : Leads (decide (n < 0)) (toString n).toList := by
  rw [toList_toString_int]
  split
  · next natural =>
    rw [decide_eq_false (Int.not_lt.mpr natural)]
    exact leads_toDigits _
  · next negative =>
    rw [decide_eq_true (Int.not_le.mp negative)]
    exact (leads_toDigits _).minus

theorem Numeral.sealed_text (n : Numeral) : Sealed n.text := by
  have whole : Sealed n.whole := sealed_of_digits fun c member => n.digits c (by simp [member])
  have fraction : Sealed n.fraction := sealed_of_digits fun c member => n.digits c (by simp [member])
  have point : Sealed n.point := by
    unfold Numeral.point
    split <;> simp [fraction]
  have scale : Sealed n.scale := by
    unfold Numeral.scale
    split
    · exact sealed_nil
    · exact (sealed_cons_of_ne (by decide)).mpr (leads_toString_int _).sealed
  exact whole.append (point.append scale)

namespace Reading

variable {a : Reading}

theorem sealed_bodyText (canonical : a.IsCanonical) : Sealed a.bodyText := by
  cases a with
  | nan => simp [bodyText]
  | infinite negative => simp [bodyText]
  | finite negative m q =>
    obtain ⟨n, text, -⟩ := Layout.literal.exists_magnitude canonical
    rw [bodyText, ← text]
    exact n.sealed_text

theorem leads_bodyText (canonical : a.IsCanonical) : Leads false a.bodyText := by
  obtain ⟨c, cs, body, other⟩ := bodyText_ne_nil canonical
  exact ⟨sealed_bodyText canonical, c, cs, body, beq_false_of_ne other⟩

def isSigned : Reading → Bool
  | nan => false
  | infinite negative => negative
  | finite negative _ _ => negative

theorem signText_eq (a : Reading) : a.signText = if a.isSigned then ['-'] else [] := by
  rcases a with _ | (_ | _) | ⟨_ | _, _, _⟩ <;> rfl

end Reading

theorem leads_text (x : Float) : Leads (read x).isSigned (text x).toList := by
  have body := Reading.leads_bodyText (isCanonical_read x)
  rw [toList_text, Reading.signText_eq]
  cases (read x).isSigned with
  | false => exact body
  | true => exact body.minus

end Real

namespace Literal

theorem leads_floatCText (x : Float) (single : Bool) :
    Leads (Real.read x).isSigned (floatCText x single).toList := by
  have text := Real.leads_text x
  unfold floatCText
  cases reading : Real.read x with
  | nan => simp [Real.Reading.isSigned]
  | infinite negative =>
    cases negative with
    | false => simp [Real.Reading.isSigned]
    | true =>
      have shown : "-INFINITY".toList = '-' :: "INFINITY".toList := by simp
      show Leads true "-INFINITY".toList
      rw [shown]
      exact Leads.minus (by simp)
  | finite negative m q =>
    rw [reading] at text
    rw [String.toList_append]
    refine text.append ?_
    cases single <;> simp

theorem leads_signedCText (n : Int) :
    Leads (decide (n < 0) && decide (n ≠ (ScalarType.signed .w64).bounds.1))
      (signedCText n).toList := by
  unfold signedCText
  split
  · next least =>
    rw [decide_eq_false (not_not.mpr least), Bool.and_false]
    simp
  · next other =>
    rw [decide_eq_true other, Bool.and_true]
    split
    · exact Real.leads_toString_int n
    · rw [String.toList_append]
      exact (Real.leads_toString_int n).append (by simp)

theorem leads_unsignedCText (n : Nat) : Leads false (unsignedCText n).toList := by
  have digits : (toString n).toList = Nat.toDigits 10 n := by
    rw [Nat.toString_eq_repr, Nat.toList_repr]
  unfold unsignedCText
  split <;> rw [String.toList_append, digits] <;> exact (Real.leads_toDigits n).append (by simp)

def hasMinus (v : Literal) (t : ScalarType) : Bool :=
  match v.cast t with
  | signed n => decide (n.toInt < 0) && decide (n.toInt ≠ (ScalarType.signed .w64).bounds.1)
  | float x => (Real.read x).isSigned
  | _ => false

theorem leads_cText (v : Literal) (t : ScalarType) : Leads (v.hasMinus t) (v.cText t).toList := by
  unfold hasMinus cText
  cases v.cast t with
  | bool b => cases b <;> simp
  | signed n => exact leads_signedCText _
  | unsigned n => exact leads_unsignedCText _
  | float x => exact leads_floatCText x _
  | complex z =>
    have re := fun single => (leads_floatCText z.re single).sealed
    have im := fun single => (leads_floatCText z.im single).sealed
    simp [re, im]

end Literal

theorem ScalarType.sealed_cName {t : ScalarType} {name : String} (named : t.cName = .ok name) :
    Sealed name.toList := by
  rcases t with _ | (_ | _ | _ | _) | (_ | _ | _ | _) | (_ | _ | _) | (_ | _) <;> cases named <;> simp

theorem Operand.sealed_convert {x : Operand} {t : ScalarType} {text : String}
    (sealed : Sealed x.text.toList) (converted : x.convert t = .ok text) : Sealed text.toList := by
  unfold convert at converted
  split at converted
  · cases converted
    exact sealed
  · obtain ⟨name, named, converted⟩ := bind_eq_ok converted
    have type := ScalarType.sealed_cName named
    split at converted
    · cases converted
      simp [type, sealed]
    · split at converted <;> cases converted
      · split <;> simp [type, sealed]
      · simp [type, sealed]

theorem Operand.sealed_convert_all {xs : List Operand} {t : ScalarType} {texts : List String}
    (sealed : ∀ x ∈ xs, Sealed x.text.toList) (converted : xs.mapM (·.convert t) = .ok texts) :
    ∀ text ∈ texts, Sealed text.toList := by
  intro text member
  obtain ⟨x, inside, same⟩ := exists_image_of_mem (forall₂_of_mapM converted).flip member
  exact (x.sealed_convert (sealed x inside) same)

theorem Operand.exists_two_converted {a b : Operand} {t : ScalarType} {code : String}
    {k : String → String → Except Error String} (first : Sealed a.text.toList)
    (second : Sealed b.text.toList)
    (written : (a.convert t >>= fun x => b.convert t >>= fun y => k x y) = .ok code) :
    ∃ x y, Sealed x.toList ∧ Sealed y.toList ∧ k x y = .ok code := by
  obtain ⟨x, left, written⟩ := bind_eq_ok written
  obtain ⟨y, right, written⟩ := bind_eq_ok written
  exact ⟨x, y, a.sealed_convert first left, b.sealed_convert second right, written⟩

theorem sealed_cFunction {base f : String} {t : ScalarType} (sealed : Sealed base.toList)
    (found : cFunction base t = .ok f) : Sealed f.toList := by
  unfold cFunction at found
  split at found <;> cases found <;> simp [sealed]

namespace Elementary

variable {t : ScalarType} {x code : String}

theorem sealed_cCall {base : String} (named : Sealed base.toList) (sealed : Sealed x.toList)
    (written : cCall base t x = .ok code) : Sealed code.toList := by
  obtain ⟨f, found, last⟩ := bind_eq_ok written
  cases last
  simp [sealed_cFunction named found, sealed]

theorem sealed_cExpression (f : Elementary) (sealed : Sealed x.toList)
    (written : f.cExpression t x = .ok code) : Sealed code.toList := by
  have constant := fun c => (Literal.leads_floatCText c t.isSingle).sealed
  cases f with
  | deg2rad | rad2deg =>
    cases written
    simp [sealed, constant]
  | log2 | log10 | expm1 =>
    rw [cExpression] at written
    split at written
    · obtain ⟨call, called, last⟩ := bind_eq_ok written
      cases last
      simp [sealed_cCall (by simp) sealed called, constant]
    · exact sealed_cCall (by simp) sealed written
  | log1p | exp2 =>
    rw [cExpression] at written
    split at written
    · exact sealed_cCall (by simp) (by simp [sealed, constant]) written
    · exact sealed_cCall (by simp) sealed written
  | _ => exact sealed_cCall (by simp) sealed written

end Elementary

namespace Primitive

theorem sealed_joined {texts : List String} (each : ∀ text ∈ texts, Sealed text.toList)
    {sep : String} (between : Sealed sep.toList) :
    Sealed (String.intercalate sep texts).toList := by
  rw [String.toList_intercalate]
  refine sealed_intercalate between ?_
  simpa using each

theorem sealed_braced {statements : List String} (each : ∀ s ∈ statements, Sealed s.toList) :
    Sealed (braced statements).toList := by
  have inner : Sealed (String.intercalate "\n" (statements.map ("    " ++ ·))).toList :=
    sealed_joined (by simpa using each) (by simp)
  rw [braced, String.toList_append, String.toList_append]
  simp [inner, -String.toList_intercalate]

section

variable {type out a b id : String} (types : Sealed type.toList) (outs : Sealed out.toList)
  (first : Sealed a.toList) (second : Sealed b.toList) (ids : Sealed id.toList)

include types outs first second ids

theorem sealed_signedQuotient : Sealed (signedQuotient type out a b id).toList := by
  refine sealed_braced ?_
  simp [types, outs, first, second, ids]

theorem sealed_signedRemainder : Sealed (signedRemainder type out a b id).toList := by
  refine sealed_braced ?_
  simp [types, outs, first, second, ids]

theorem sealed_floatRemainder {f : String} (function : Sealed f.toList) :
    Sealed (floatRemainder type out f a b id).toList := by
  refine sealed_braced ?_
  simp [types, outs, first, second, ids, function]

theorem sealed_powerLoopText (unsigned : Bool) :
    Sealed (powerLoopText type unsigned out a b id).toList := by
  refine sealed_braced ?_
  cases unsigned <;> simp [types, outs, first, second, ids]

end

variable {p : Primitive} {inputs : List Operand} {out : Operand} {id code : String}

theorem exactly_cases {n : Nat} (arity : p.arity = .exactly n) : n = 1 ∨ n = 2 ∨ n = 3 := by
  cases p with
  | bitwise b => cases b <;> simp_all [Primitive.arity]
  | _ => simp_all [Primitive.arity]

section

variable (outs : Sealed out.text.toList)
include outs

theorem sealed_set {text : String} (expression : Sealed text.toList) :
    Sealed (out.text ++ " = " ++ text ++ ";").toList := by
  simp [outs, expression]

theorem sealed_unary {a : Operand} (operand : Sealed a.text.toList) (arity : p.arity = .exactly 1)
    (other : p ≠ neg) (written : p.assignment [a] out id = .ok code) : Sealed code.toList := by
  obtain ⟨type, -, written⟩ := bind_eq_ok written
  cases p with
  | neg => exact absurd rfl other
  | identity | cast _ =>
    obtain ⟨x, converted, last⟩ := bind_eq_ok written
    cases last
    exact sealed_set outs (a.sealed_convert operand converted)
  | reciprocal =>
    obtain ⟨x, converted, last⟩ := bind_eq_ok written
    cases last
    have one := (Literal.leads_floatCText 1.0 out.type.isSingle).sealed
    exact sealed_set outs (by simp [one, a.sealed_convert operand converted])
  | elementary f =>
    obtain ⟨x, converted, written⟩ := bind_eq_ok written
    obtain ⟨expression, applied, last⟩ := bind_eq_ok written
    cases last
    exact sealed_set outs (f.sealed_cExpression (a.sealed_convert operand converted) applied)
  | bitwise b =>
    cases b with
    | invert =>
      dsimp only at written
      split at written
      · cases written
      · obtain ⟨x, converted, last⟩ := bind_eq_ok written
        cases last
        exact sealed_set outs (by split <;> simp [a.sealed_convert operand converted])
    | _ => cases arity
  | _ => cases arity

theorem sealed_binary {a b : Operand} (left : Sealed a.text.toList) (right : Sealed b.text.toList)
    (ids : Sealed id.toList) (arity : p.arity = .exactly 2)
    (written : p.assignment [a, b] out id = .ok code) : Sealed code.toList := by
  obtain ⟨type, named, written⟩ := bind_eq_ok written
  have types := ScalarType.sealed_cName named
  -- operands stand between other characters in every statement here, which is what negation lacks
  cases p with
  | sub | trueDiv =>
    obtain ⟨args, converted, last⟩ := bind_eq_ok written
    cases last
    exact sealed_set outs (sealed_joined
      (Operand.sealed_convert_all (by simp [left, right]) converted) (by simp))
  | intDiv =>
    obtain ⟨x, y, first, second, written⟩ := Operand.exists_two_converted left right written
    split at written
    · cases written
    · split at written
      · obtain ⟨f, found, last⟩ := bind_eq_ok written
        cases last
        exact sealed_set outs (by simp [first, second, sealed_cFunction (by simp) found])
      · split at written <;> cases written
        · exact sealed_signedQuotient types outs first second ids
        · exact sealed_set outs (by simp [first, second])
  | mod =>
    obtain ⟨x, y, first, second, written⟩ := Operand.exists_two_converted left right written
    split at written
    · cases written
    · split at written
      · obtain ⟨f, found, last⟩ := bind_eq_ok written
        cases last
        exact sealed_floatRemainder types outs first second ids (sealed_cFunction (by simp) found)
      · split at written <;> cases written
        · exact sealed_signedRemainder types outs first second ids
        · exact sealed_set outs (by simp [first, second])
  | pow =>
    obtain ⟨x, y, first, second, written⟩ := Operand.exists_two_converted left right written
    split at written
    · cases written
      exact sealed_powerLoopText types outs first second ids _
    · obtain ⟨f, found, last⟩ := bind_eq_ok written
      cases last
      exact sealed_set outs (by simp [first, second, sealed_cFunction (by simp) found])
  | arctan2 =>
    obtain ⟨x, y, first, second, written⟩ := Operand.exists_two_converted left right written
    obtain ⟨f, found, last⟩ := bind_eq_ok written
    cases last
    exact sealed_set outs (by simp [first, second, sealed_cFunction (by simp) found])
  | compare c =>
    obtain ⟨x, y, first, second, last⟩ := Operand.exists_two_converted left right written
    cases last
    exact sealed_set outs (by cases c <;> simp [first, second, Comparison.symbol])
  | bitwise b => cases b <;> cases arity
  | _ => cases arity

theorem sealed_ternary {a b c : Operand} (operands : ∀ x ∈ [a, b, c], Sealed x.text.toList)
    (arity : p.arity = .exactly 3) (written : p.assignment [a, b, c] out id = .ok code) :
    Sealed code.toList := by
  have first := operands a (by simp)
  have second := operands b (by simp)
  have third := operands c (by simp)
  obtain ⟨type, -, written⟩ := bind_eq_ok written
  cases p with
  | switch =>
    obtain ⟨x, y, left, right, last⟩ := Operand.exists_two_converted second third written
    cases last
    exact sealed_set outs (by simp [first, left, right])
  | inRange lower upper =>
    obtain ⟨x, converted, written⟩ := bind_eq_ok written
    obtain ⟨y, z, low, high, last⟩ := Operand.exists_two_converted second third written
    cases last
    have number := a.sealed_convert first converted
    exact sealed_set outs (by cases lower <;> cases upper <;> simp [number, low, high])
  | bitwise b => cases b <;> cases arity
  | _ => cases arity

theorem sealed_variadic {n : Nat} (operands : ∀ x ∈ inputs, Sealed x.text.toList)
    (arity : p.arity = .atLeast n) (written : p.assignment inputs out id = .ok code) :
    Sealed code.toList := by
  obtain ⟨type, -, written⟩ := bind_eq_ok written
  have convertAll := @Operand.sealed_convert_all inputs out.type
  cases p with
  | add | mul =>
    obtain ⟨args, converted, last⟩ := bind_eq_ok written
    cases last
    exact sealed_set outs (sealed_joined (convertAll operands converted) (by split <;> simp))
  | bitwise b =>
    cases b with
    | invert => cases arity
    | _ =>
      dsimp only at written
      split at written
      · cases written
      · obtain ⟨args, converted, last⟩ := bind_eq_ok written
        cases last
        exact sealed_set outs (sealed_joined (convertAll operands converted)
          (by simp [Bitwise.symbol]))
  | mean =>
    cases inputs with
    | nil =>
      cases written
      exact sealed_set outs (by simp)
    | cons a rest =>
      obtain ⟨args, converted, last⟩ := bind_eq_ok written
      cases last
      have sum : Sealed (String.intercalate " + " args).toList :=
        sealed_joined (convertAll operands converted) (by simp)
      have count := fun c => (Literal.leads_floatCText c out.type.isSingle).sealed
      exact sealed_set outs (by simp [sum, count, -String.toList_intercalate])
  | _ => cases arity

end

theorem sealed_assignment (admitted : p.arity.admits inputs.length = true) (other : p ≠ neg)
    (operands : ∀ x ∈ inputs, Sealed x.text.toList) (outs : Sealed out.text.toList)
    (ids : Sealed id.toList) (written : p.assignment inputs out id = .ok code) :
    Sealed code.toList := by
  cases arity : p.arity with
  | atLeast n => exact sealed_variadic outs operands arity written
  | exactly n =>
    rw [arity] at admitted
    obtain rfl | rfl | rfl := exactly_cases arity
    · obtain ⟨a, rfl⟩ := Arity.exists_one admitted
      exact sealed_unary outs (operands a (by simp)) arity other written
    · obtain ⟨a, b, rfl⟩ := Arity.exists_two admitted
      exact sealed_binary outs (operands a (by simp)) (operands b (by simp)) ids arity written
    · obtain ⟨a, b, c, rfl⟩ := Arity.exists_three admitted
      exact sealed_ternary outs operands arity written

theorem decrements_neg {a : Operand} {minus : Bool} (same : a.type = out.type)
    (leads : Leads minus a.text.toList) (outs : Sealed out.text.toList)
    (written : neg.assignment [a] out id = .ok code) : Decrements code.toList ↔ minus = true := by
  obtain ⟨type, -, written⟩ := bind_eq_ok written
  obtain ⟨x, converted, last⟩ := bind_eq_ok written
  rw [Operand.convert, if_pos same] at converted
  cases converted
  cases last
  have ended : Leads minus (a.text.toList ++ [';']) := leads.append (by simp)
  simp [outs.decrements_append, ended.decrements_minus]

end Primitive

end ScalarFusion

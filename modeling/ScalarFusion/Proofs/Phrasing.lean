import ScalarFusion.Proofs.Listing
import ScalarFusion.Proofs.Minuses
import ScalarFusion.Proofs.Readability
import ScalarFusion.Proofs.Shuffling

/-!
What the statement of an operation consists of: one assignment, or a block with helpers in four forms.
The texts in it hold no newline, and the letter C only where a complex type is named, if the operands do
so. Whoever lists the lines of code, or looks for a complex type in it, goes through the forms and no
longer through the operations.
-/
namespace ScalarFusion

namespace Text

def Foreign (F : Char → Bool) : Prop :=
  ∀ c, c ≠ '\n' → c ≠ 'C' → F c = false

theorem foreign_newline : Foreign (· == '\n') :=
  fun _ other _ => beq_false_of_ne other

def Clear (F : Char → Bool) (s : String) : Prop :=
  ∀ c ∈ s.toList, F c = false

variable {F : Char → Bool}

@[simp high]
theorem clear_append {a b : String} : Clear F (a ++ b) ↔ Clear F a ∧ Clear F b := by
  simp [Clear, or_imp, forall_and]

theorem Foreign.clear (foreign : Foreign F) {s : String}
    (plain : s.toList.all (fun c => c != '\n' && c != 'C') = true) : Clear F s := by
  intro c member
  have other := List.all_eq_true.mp plain c member
  simp only [Bool.and_eq_true, bne_iff_ne] at other
  exact foreign c other.1 other.2

theorem clear_joined {sep : String} {texts : List String} (between : Clear F sep)
    (each : ∀ text ∈ texts, Clear F text) : Clear F (String.intercalate sep texts) := by
  induction texts with
  | nil => simp [Clear]
  | cons text texts ih =>
    have first := each text (by simp)
    have rest := ih fun other member => each other (by simp [member])
    cases texts with
    | nil => simpa using first
    | cons next texts =>
      rw [String.intercalate_cons_cons]
      simp [first, between, rest]

end Text

open Text

variable {F : Char → Bool}

def ScalarType.Spares (t : ScalarType) (F : Char → Bool) : Prop :=
  F 'C' = true → t.isComplex = false

structure Operand.Lacks (o : Operand) (F : Char → Bool) : Prop where
  text : Clear F o.text
  type : o.type.Spares F

namespace Literal

theorem clear_of_isNumeric (foreign : Foreign F) {s : String}
    (numeric : ∀ c ∈ s.toList, Real.isNumeric c = true) : Clear F s := by
  intro c member
  have kind := numeric c member
  refine foreign c ?_ ?_ <;> rintro rfl <;> exact absurd kind (by decide)

theorem clear_floatCText (foreign : Foreign F) (f : Float) (single : Bool) :
    Clear F (floatCText f single) := by
  have canonical := Real.isCanonical_read f
  have shown := Real.toList_text f
  unfold floatCText
  cases reading : Real.read f with
  | nan => exact foreign.clear (by simp)
  | infinite negative => cases negative <;> exact foreign.clear (by simp)
  | finite negative m q =>
    rw [reading] at canonical shown
    obtain ⟨n, written, -⟩ := Real.Layout.literal.exists_magnitude canonical
    have number : Clear F (Real.text f) := by
      refine clear_of_isNumeric foreign fun c member => ?_
      rw [shown, Real.Reading.bodyText, ← written] at member
      rcases List.mem_append.mp member with sign | body
      · cases negative with
        | false => cases sign
        | true =>
          obtain rfl := List.mem_singleton.mp sign
          decide
      · exact Real.isNumeric_numeral n c body
    rw [clear_append]
    exact ⟨number, foreign.clear (by cases single <;> simp)⟩

theorem clear_cText (foreign : Foreign F) (v : Literal) (t : ScalarType) : Clear F (v.cText t) := by
  have float := clear_floatCText foreign
  unfold cText
  cases v.cast t with
  | bool b => cases b <;> exact foreign.clear (by simp)
  | signed n =>
    have integer := clear_of_isNumeric foreign (Real.isNumeric_int n.toInt)
    show Clear F (signedCText n.toInt)
    unfold signedCText
    split
    · exact foreign.clear (by simp)
    · split
      · exact integer
      · exact clear_append.mpr ⟨integer, foreign.clear (by simp)⟩
  | unsigned n =>
    have natural : Clear F (toString n.toNat) := clear_of_isNumeric foreign fun c member => by
      rw [Nat.toString_eq_repr, Nat.toList_repr] at member
      exact Real.isNumeric_of_isDigit (Real.isDigit_of_mem_toDigits c member)
    show Clear F (unsignedCText n.toNat)
    unfold unsignedCText
    split <;> exact clear_append.mpr ⟨natural, foreign.clear (by simp)⟩
  | float f => exact float f _
  | complex z => simp [float, foreign.clear]

end Literal

theorem ScalarType.Spares.clear_cName {t : ScalarType} (spares : t.Spares F) (foreign : Foreign F)
    {name : String} (named : t.cName = .ok name) : Clear F name := by
  have lines : name.toList.all (fun c => c != '\n') = true := by
    rcases t with _ | (_ | _ | _ | _) | (_ | _ | _ | _) | (_ | _ | _) | (_ | _) <;> cases named <;>
      decide +kernel
  have letters : t.isComplex = false → name.toList.all (fun c => c != 'C') = true := by
    intro real
    rcases t with _ | (_ | _ | _ | _) | (_ | _ | _ | _) | (_ | _ | _) | (_ | _) <;> cases named <;>
      first | decide +kernel | cases real
  intro c member
  by_cases letter : c = 'C'
  · subst letter
    cases complex : t.isComplex with
    | false => exact absurd (List.all_eq_true.mp (letters complex) 'C' member) (by decide)
    | true =>
      rw [Bool.eq_false_iff]
      exact fun inside => absurd (spares inside) (by simp [complex])
  · exact foreign c (bne_iff_ne.mp (List.all_eq_true.mp lines c member)) letter

theorem ScalarType.isFloat_eq (t : ScalarType) : t.isFloat = (!t.isComplex && !t.isDiscrete) := by
  cases t <;> rfl

theorem ScalarType.isSigned_of_continuous {t : ScalarType} (continuous : t.isDiscrete = false) :
    t.isSigned = false := by
  cases t <;> first | rfl | cases continuous

namespace Operand.Lacks

variable {o : Operand} {t : ScalarType}

section

variable (foreign : Foreign F)
include foreign

theorem clear_convert (lacks : o.Lacks F) (spares : t.Spares F) {text : String}
    (converted : o.convert t = .ok text) : Clear F text := by
  unfold convert at converted
  split at converted
  · cases converted
    exact lacks.text
  · obtain ⟨name, named, converted⟩ := bind_eq_ok converted
    have type := spares.clear_cName foreign named
    have text := lacks.text
    split at converted
    · cases converted
      simp [foreign.clear, type, text]
    · split at converted <;> cases converted
      · split <;> simp [foreign.clear, type, text]
      · simp [foreign.clear, type, text]

theorem clear_convert_all {xs : List Operand} (lacks : ∀ o ∈ xs, o.Lacks F) (spares : t.Spares F)
    {texts : List String} (converted : xs.mapM (·.convert t) = .ok texts) :
    ∀ text ∈ texts, Clear F text := by
  intro text member
  obtain ⟨o, inside, same⟩ := exists_image_of_mem (forall₂_of_mapM converted).flip member
  exact (lacks o inside).clear_convert foreign spares same

theorem exists_two_converted {a b : Operand} (first : a.Lacks F) (second : b.Lacks F)
    (spares : t.Spares F) {k : String → String → Except Error String} {code : String}
    (written : (a.convert t >>= fun u => b.convert t >>= fun v => k u v) = .ok code) :
    ∃ u v, Clear F u ∧ Clear F v ∧ k u v = .ok code := by
  obtain ⟨u, left, written⟩ := bind_eq_ok written
  obtain ⟨v, right, written⟩ := bind_eq_ok written
  exact ⟨u, v, first.clear_convert foreign spares left, second.clear_convert foreign spares right, written⟩

end

theorem spares_upcast {xs : List Operand} (lacks : ∀ o ∈ xs, o.Lacks F) (spares : t.Spares F) :
    ((ScalarType.upcast (xs.map Operand.type)).getD t).Spares F := by
  cases xs with
  | nil => exact spares
  | cons o xs =>
    intro letter
    have real : ∀ o' ∈ o :: xs, o'.type.isComplex = false := fun o' member =>
      (lacks o' member).type letter
    simp only [List.map_cons, ScalarType.upcast, Option.getD_some, ScalarType.isComplex_foldl]
    rw [← List.map_cons, List.any_map, List.any_eq_false]
    intro o' member
    simp [real o' member]

end Operand.Lacks

theorem clear_cFunction (foreign : Foreign F) {base f : String} {t : ScalarType}
    (clear : Clear F base) (found : cFunction base t = .ok f) : Clear F f := by
  unfold cFunction at found
  split at found <;> cases found <;> simp [foreign.clear, clear]

namespace Elementary

variable {t : ScalarType} {a code : String}

theorem clear_cCall (foreign : Foreign F) {base : String} (named : Clear F base)
    (clear : Clear F a) (written : cCall base t a = .ok code) : Clear F code := by
  obtain ⟨f, found, last⟩ := bind_eq_ok written
  cases last
  have function := clear_cFunction foreign named found
  simp [foreign.clear, function, clear]

theorem clear_cExpression (foreign : Foreign F) (f : Elementary) (clear : Clear F a)
    (written : f.cExpression t a = .ok code) : Clear F code := by
  have constant := fun c => Literal.clear_floatCText foreign c t.isSingle
  have call : ∀ {base b code : String}, Clear F base → Clear F b → cCall base t b = .ok code →
      Clear F code := clear_cCall foreign
  cases f with
  | deg2rad | rad2deg =>
    cases written
    simp [foreign.clear, clear, constant]
  | log2 | log10 | expm1 =>
    rw [cExpression] at written
    split at written
    · obtain ⟨text, called, last⟩ := bind_eq_ok written
      cases last
      simp [foreign.clear, call (foreign.clear (by simp)) clear called, constant]
    · exact call (foreign.clear (by simp)) clear written
  | log1p | exp2 =>
    rw [cExpression] at written
    split at written
    · exact call (foreign.clear (by simp)) (by simp [foreign.clear, clear, constant]) written
    · exact call (foreign.clear (by simp)) clear written
  | _ => exact call (foreign.clear (by simp)) clear written

end Elementary

namespace Primitive

/-- The forms of a statement, with the helpers that they declare. -/
inductive Assigns (F : Char → Bool) (type out id : String) : List Helper → String → Prop
  | expression {text : String} (clear : Clear F text) :
      Assigns F type out id [] (out ++ " = " ++ text ++ ";")
  | quotient {a b : String} (first : Clear F a) (second : Clear F b) :
      Assigns F type out id [.dividend, .divisor] (signedQuotient type out a b id)
  | remainder {a b : String} (first : Clear F a) (second : Clear F b) :
      Assigns F type out id [.divisor, .remainder] (signedRemainder type out a b id)
  | fraction {f a b : String} (function : Clear F f) (first : Clear F a)
      (second : Clear F b) : Assigns F type out id [.remainder] (floatRemainder type out f a b id)
  | power {unsigned : Bool} {a b : String} (first : Clear F a) (second : Clear F b) :
      Assigns F type out id [.base, .exponent, .accumulator] (powerLoopText type unsigned out a b id)

variable {p : Primitive} {inputs : List Operand} {out : Operand} {type id code : String}

section

variable (foreign : Foreign F) (spares : out.type.Spares F) (named : out.type.cName = .ok type)
include foreign spares named

theorem assigns_unary {a : Operand} (lacks : a.Lacks F) (arity : p.arity = .exactly 1)
    (written : p.assignment [a] out id = .ok code) :
    Assigns F type out.text id (p.helpers [out.type]) code := by
  rw [assignment, named, ok_bind] at written
  cases p with
  | neg =>
    obtain ⟨text, converted, last⟩ := bind_eq_ok written
    cases last
    have clear := lacks.clear_convert foreign spares converted
    exact .expression (by simp [foreign.clear, clear])
  | identity | cast _ =>
    obtain ⟨text, converted, last⟩ := bind_eq_ok written
    cases last
    exact .expression (lacks.clear_convert foreign spares converted)
  | reciprocal =>
    obtain ⟨text, converted, last⟩ := bind_eq_ok written
    cases last
    have clear := lacks.clear_convert foreign spares converted
    have one := Literal.clear_floatCText foreign 1.0 out.type.isSingle
    exact .expression (by simp [foreign.clear, clear, one])
  | elementary f =>
    obtain ⟨text, converted, written⟩ := bind_eq_ok written
    obtain ⟨expression, applied, last⟩ := bind_eq_ok written
    cases last
    exact .expression (f.clear_cExpression foreign (lacks.clear_convert foreign spares converted) applied)
  | bitwise b =>
    cases b with
    | invert =>
      dsimp only at written
      split at written
      · cases written
      · obtain ⟨text, converted, last⟩ := bind_eq_ok written
        cases last
        have clear := lacks.clear_convert foreign spares converted
        exact .expression (by split <;> simp [foreign.clear, clear])
    | _ => cases arity
  | _ => cases arity

theorem assigns_binary {a b : Operand} (lacks : ∀ o ∈ [a, b], o.Lacks F)
    (arity : p.arity = .exactly 2) (written : p.assignment [a, b] out id = .ok code) :
    Assigns F type out.text id (p.helpers [out.type]) code := by
  have first := lacks a (by simp)
  have second := lacks b (by simp)
  rw [assignment, named, ok_bind] at written
  cases p with
  | sub | trueDiv =>
    obtain ⟨args, converted, last⟩ := bind_eq_ok written
    cases last
    exact .expression (clear_joined (by simp [foreign.clear])
      (Operand.Lacks.clear_convert_all foreign lacks spares converted))
  | intDiv =>
    obtain ⟨u, v, left, right, written⟩ := first.exists_two_converted foreign second spares written
    split at written
    · cases written
    · split at written
      · next continuous =>
        obtain ⟨f, found, last⟩ := bind_eq_ok written
        cases last
        have function := clear_cFunction foreign (by simp [foreign.clear]) found
        have unsigned := ScalarType.isSigned_of_continuous (by simpa using continuous)
        simp only [helpers, unsigned]
        exact .expression (by simp [foreign.clear, left, right, function])
      · split at written
        · next signed =>
          cases written
          simp only [helpers, if_pos signed]
          exact .quotient left right
        · next unsigned =>
          cases written
          simp only [helpers, if_neg unsigned]
          exact .expression (by simp [foreign.clear, left, right])
  | mod =>
    obtain ⟨u, v, left, right, written⟩ := first.exists_two_converted foreign second spares written
    split at written
    · cases written
    · split at written
      · next real continuous =>
        obtain ⟨f, found, last⟩ := bind_eq_ok written
        cases last
        have function := clear_cFunction foreign (by simp [foreign.clear]) found
        have float : out.type.isFloat = true := by
          rw [ScalarType.isFloat_eq, continuous, Bool.eq_false_iff.mpr real]
          rfl
        simp only [helpers, float]
        exact .fraction function left right
      · next discrete =>
        have whole : out.type.isFloat = false := by
          rw [ScalarType.isFloat_eq, Bool.eq_false_iff.mpr discrete, Bool.and_false]
        split at written
        · next signed =>
          cases written
          simp only [helpers, whole, if_pos signed]
          exact .remainder left right
        · next unsigned =>
          cases written
          simp only [helpers, whole, if_neg unsigned]
          exact .expression (by simp [foreign.clear, left, right])
  | pow =>
    obtain ⟨u, v, left, right, written⟩ := first.exists_two_converted foreign second spares written
    split at written
    · next discrete =>
      cases written
      simp only [helpers, if_pos discrete]
      exact .power left right
    · next continuous =>
      obtain ⟨f, found, last⟩ := bind_eq_ok written
      cases last
      have function := clear_cFunction foreign (by simp [foreign.clear]) found
      simp only [helpers, if_neg continuous]
      exact .expression (by simp [foreign.clear, left, right, function])
  | arctan2 =>
    obtain ⟨u, v, left, right, written⟩ := first.exists_two_converted foreign second spares written
    obtain ⟨f, found, last⟩ := bind_eq_ok written
    cases last
    have function := clear_cFunction foreign (by simp [foreign.clear]) found
    exact .expression (by simp [foreign.clear, left, right, function])
  | compare c =>
    obtain ⟨u, v, left, right, last⟩ :=
      first.exists_two_converted foreign second (Operand.Lacks.spares_upcast lacks spares) written
    cases last
    exact .expression (by
      cases c <;> simp [foreign.clear, left, right, Comparison.symbol])
  | bitwise b => cases b <;> cases arity
  | _ => cases arity

theorem assigns_ternary {a b c : Operand} (lacks : ∀ o ∈ [a, b, c], o.Lacks F)
    (arity : p.arity = .exactly 3) (written : p.assignment [a, b, c] out id = .ok code) :
    Assigns F type out.text id (p.helpers [out.type]) code := by
  have first := lacks a (by simp)
  have second := lacks b (by simp)
  have third := lacks c (by simp)
  rw [assignment, named, ok_bind] at written
  cases p with
  | switch =>
    obtain ⟨u, v, left, right, last⟩ := second.exists_two_converted foreign third spares written
    cases last
    have test := first.text
    exact .expression (by simp [foreign.clear, test, left, right])
  | inRange lower upper =>
    have joined := Operand.Lacks.spares_upcast lacks spares
    obtain ⟨u, converted, written⟩ := bind_eq_ok written
    obtain ⟨v, w, low, high, last⟩ := second.exists_two_converted foreign third joined written
    cases last
    have number := first.clear_convert foreign joined converted
    exact .expression (by
      cases lower <;> cases upper <;> simp [foreign.clear, number, low, high])
  | bitwise b => cases b <;> cases arity
  | _ => cases arity

theorem assigns_variadic {n : Nat} (lacks : ∀ o ∈ inputs, o.Lacks F) (arity : p.arity = .atLeast n)
    (written : p.assignment inputs out id = .ok code) :
    Assigns F type out.text id (p.helpers [out.type]) code := by
  have convertAll := @Operand.Lacks.clear_convert_all F out.type foreign inputs lacks spares
  rw [assignment, named, ok_bind] at written
  cases p with
  | add | mul =>
    obtain ⟨args, converted, last⟩ := bind_eq_ok written
    cases last
    exact .expression (clear_joined (by split <;> simp [foreign.clear])
      (convertAll converted))
  | bitwise b =>
    cases b with
    | invert => cases arity
    | _ =>
      dsimp only at written
      split at written
      · cases written
      · obtain ⟨args, converted, last⟩ := bind_eq_ok written
        cases last
        exact .expression (clear_joined
          (by simp [foreign.clear, Bitwise.symbol]) (convertAll converted))
  | mean =>
    cases inputs with
    | nil =>
      cases written
      exact .expression (by simp [foreign.clear])
    | cons a rest =>
      obtain ⟨args, converted, last⟩ := bind_eq_ok written
      cases last
      have sum : Clear F (String.intercalate " + " args) :=
        clear_joined (by simp [foreign.clear]) (convertAll converted)
      have count := fun c => Literal.clear_floatCText foreign c out.type.isSingle
      exact .expression (by
        simp [foreign.clear, sum, count])
  | _ => cases arity

end

theorem assigns_of_statement (foreign : Foreign F) {outputs : List Operand}
    (lacks : ∀ o ∈ inputs, o.Lacks F) (spares : ∀ o ∈ outputs, o.type.Spares F)
    (written : p.statement inputs outputs id = .ok code) :
    ∃ out type, out ∈ outputs ∧ out.type.cName = .ok type ∧
      Assigns F type out.text id (p.helpers (outputs.map Operand.type)) code := by
  obtain ⟨_, checked, written⟩ := bind_eq_ok written
  have admitted : p.arity.admits inputs.length = true := by
    unfold checkArity at checked
    split at checked
    · assumption
    · cases checked
  cases outputs with
  | nil => cases written
  | cons out rest =>
    obtain ⟨type, named, -⟩ := bind_eq_ok written
    have spares := spares out (by simp)
    have same : p.helpers ((out :: rest).map Operand.type) = p.helpers [out.type] := rfl
    refine ⟨out, type, by simp, named, ?_⟩
    rw [same]
    cases arity : p.arity with
    | atLeast n => exact assigns_variadic foreign spares named lacks arity written
    | exactly n =>
      rw [arity] at admitted
      obtain rfl | rfl | rfl := exactly_cases arity
      · obtain ⟨a, rfl⟩ := Arity.exists_one admitted
        exact assigns_unary foreign spares named (lacks a (by simp)) arity written
      · obtain ⟨a, b, rfl⟩ := Arity.exists_two admitted
        exact assigns_binary foreign spares named lacks arity written
      · obtain ⟨a, b, c, rfl⟩ := Arity.exists_three admitted
        exact assigns_ternary foreign spares named lacks arity written

end Primitive

end ScalarFusion

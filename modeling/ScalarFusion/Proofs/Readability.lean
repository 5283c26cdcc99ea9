import ScalarFusion.Proofs.Agreement

/-!
Texts of terms are read in one way, up to agreement: if two terms are written alike, whatever ends
their texts, then they agree. Where a text starts tells what kind of term it is, and the parts
follow one by one.
-/
namespace ScalarFusion

inductive Form where
  | between (symbol : String)
  | marked (symbol : String)
  | named (word : String)
  | braced (word inner : String)
  deriving DecidableEq

def Form.isBraced : Form → Bool
  | braced _ _ => true
  | _ => false

def Form.write : Form → List String → String
  | between symbol, args => Primitive.between symbol args
  | marked symbol, args => "(" ++ symbol ++ String.intercalate ", " args ++ ")"
  | named word, args => word ++ Primitive.listed args
  | braced word inner, args => word ++ "\x7b" ++ inner ++ "\x7d" ++ Primitive.listed args

namespace Primitive

def form : Primitive → Form
  | add => .between "+"
  | mul => .between "*"
  | sub => .between "-"
  | trueDiv => .between "/"
  | intDiv => .between "//"
  | mod => .between "%"
  | pow => .between "**"
  | neg => .marked "-"
  | compare c => .between c.symbol
  | bitwise .invert => .marked "~"
  | bitwise b => .between b.symbol
  | cast t => .braced "cast" t.name
  | inRange lower upper => .braced "in_range" (endpointText lower ++ "," ++ endpointText upper)
  | p => .named p.name

theorem write_eq (p : Primitive) (args : List String) : p.write args = p.form.write args := by
  cases p with
  | bitwise b => cases b <;> rfl
  | cast t => simp [write, form, Form.write]
  | inRange lower upper => simp [write, form, Form.write, String.append_assoc]
  | _ => rfl

end Primitive

theorem ScalarType.name_inj {s t : ScalarType} (same : s.name = t.name) : s = t := by
  have found : ∀ u : ScalarType, all.find? (fun v => v.name == u.name) = some u := by
    intro u
    rcases u with _ | (_ | _ | _ | _) | (_ | _ | _ | _) | (_ | _ | _) | (_ | _) <;> rfl
  exact Option.some.inj ((found s).symm.trans (same ▸ found t))

namespace Primitive

theorem mem_named {p : Primitive} (plain : p.form.isBraced = false) : p ∈ named := by
  cases p with
  | compare c => cases c <;> decide
  | bitwise b => cases b <;> decide
  | elementary f => cases f <;> decide
  | cast t => cases plain
  | inRange lower upper => cases plain
  | _ => decide

theorem braced_cases {p : Primitive} (braced : p.form.isBraced = true) :
    (∃ t, p = cast t) ∨ ∃ lower upper, p = inRange lower upper := by
  cases p with
  | bitwise b => cases b <;> cases braced
  | cast t => exact .inl ⟨t, rfl⟩
  | inRange lower upper => exact .inr ⟨lower, upper, rfl⟩
  | _ => cases braced

theorem form_inj {p q : Primitive} (same : p.form = q.form) : p = q := by
  have found : ∀ r ∈ named, named.find? (fun r' => decide (r'.form = r.form)) = some r := by
    decide +kernel
  have braces := congrArg Form.isBraced same
  cases braced : p.form.isBraced with
  | false =>
    have first := found p (mem_named braced)
    rw [same] at first
    exact Option.some.inj (first.symm.trans (found q (mem_named (braces ▸ braced))))
  | true =>
    rcases braced_cases braced with ⟨t, rfl⟩ | ⟨lower, upper, rfl⟩ <;>
      rcases braced_cases (braces ▸ braced) with ⟨u, rfl⟩ | ⟨lower', upper', rfl⟩
    · rw [ScalarType.name_inj (Form.braced.inj same).2]
    · exact absurd (Form.braced.inj same).1 (by decide)
    · exact absurd (Form.braced.inj same).1 (by decide)
    · revert same
      cases lower <;> cases upper <;> cases lower' <;> cases upper' <;> decide

end Primitive

def isPlain (c : Char) : Bool :=
  c.isAlphanum || c == '_' || c == '.' || c == '-' || c == '+'

def Ends (r : List Char) : Prop :=
  ∀ c ∈ r.head?, c ∈ [' ', ',', ')', '}']

theorem Ends.stop {r : List Char} (ends : Ends r) : ∀ c ∈ r.head?, isPlain c = false := by
  intro c member
  have listed := ends c member
  simp only [List.mem_cons, List.not_mem_nil, or_false] at listed
  rcases listed with rfl | rfl | rfl | rfl <;> decide

theorem ends_cons {c : Char} (listed : c ∈ [' ', ',', ')', '}']) (r : List Char) :
    Ends (c :: r) := by
  intro d member
  obtain rfl : c = d := by simpa using member
  exact listed

namespace Real

def isNumeric (c : Char) : Bool :=
  c.isDigit || ['.', 'e', '-'].contains c

theorem isNumeric_of_isDigit {c : Char} (digit : c.isDigit = true) : isNumeric c = true := by
  simp [isNumeric, digit]

theorem isNumeric_int (n : Int) : ∀ c ∈ (toString n).toList, isNumeric c = true := by
  intro c member
  rw [toList_toString_int] at member
  split at member
  · exact isNumeric_of_isDigit (isDigit_of_mem_toDigits c member)
  · rcases List.mem_cons.mp member with rfl | digit
    · decide
    · exact isNumeric_of_isDigit (isDigit_of_mem_toDigits c digit)

theorem isNumeric_numeral (n : Numeral) : ∀ c ∈ n.text, isNumeric c = true := by
  intro c member
  simp only [Numeral.text, Numeral.point, Numeral.scale, List.mem_append] at member
  rcases member with whole | point | scale
  · exact isNumeric_of_isDigit (n.digits c (by simp [whole]))
  · split at point
    · cases point
    · rcases List.mem_cons.mp point with rfl | fraction
      · decide
      · exact isNumeric_of_isDigit (n.digits c (by simp [fraction]))
  · split at scale
    · cases scale
    · rcases List.mem_cons.mp scale with rfl | exponent
      · decide
      · exact isNumeric_int _ c exponent

end Real

structure IsWord (w : List Char) : Prop where
  plain : ∀ c ∈ w, isPlain c = true ∧ c ≠ 'j'
  nonempty : w ≠ []

def NamesInput (w : List Char) : Prop :=
  ∃ d r, d.isDigit = true ∧ (w = 'i' :: d :: r ∨ w = '-' :: 'i' :: d :: r)

theorem plain_of_all {w : List Char} (all : w.all (fun c => isPlain c && c != 'j') = true) :
    ∀ c ∈ w, isPlain c = true ∧ c ≠ 'j' := by
  simpa using all

theorem isPlain_of_isDigit {c : Char} (digit : c.isDigit = true) : isPlain c = true ∧ c ≠ 'j' := by
  constructor
  · simp [isPlain, Char.isAlphanum, digit]
  · rintro rfl
    exact absurd digit (by decide)

namespace Real

theorem isWord_of_isNumeric {w : List Char} (nonempty : w ≠ [])
    (numeric : ∀ c ∈ w, isNumeric c = true) : IsWord w ∧ ¬NamesInput w := by
  refine ⟨⟨?_, nonempty⟩, ?_⟩
  · intro c member
    have kind := numeric c member
    simp only [isNumeric, Bool.or_eq_true, List.contains_iff_mem, List.mem_cons, List.not_mem_nil,
      or_false] at kind
    rcases kind with digit | rfl | rfl | rfl
    · exact isPlain_of_isDigit digit
    all_goals decide
  · rintro ⟨d, r, -, rfl | rfl⟩ <;> exact absurd (numeric 'i' (by simp)) (by decide)

theorem isWord_text (x : Float) : IsWord (text x).toList ∧ ¬NamesInput (text x).toList := by
  have named : ∀ w ∈ [['N', 'a', 'N'], ['i', 'n', 'f'], ['-', 'i', 'n', 'f']],
      IsWord w ∧ ¬NamesInput w := by
    intro w member
    simp only [List.mem_cons, List.not_mem_nil, or_false] at member
    rcases member with rfl | rfl | rfl
    all_goals
      refine ⟨⟨plain_of_all rfl, by simp⟩, ?_⟩
      rintro ⟨d, r, digit, same | same⟩ <;> simp at same
    all_goals
      rw [← same.1] at digit
      exact absurd digit (by decide)
  rw [toList_text]
  have canonical := isCanonical_read x
  cases reading : read x with
  | nan => exact named _ (by decide)
  | infinite negative => cases negative <;> exact named _ (by decide)
  | finite negative m q =>
    rw [reading] at canonical
    obtain ⟨n, written, -⟩ := Layout.literal.exists_magnitude canonical
    have digits := isNumeric_numeral n
    rw [written] at digits
    obtain ⟨c, t, head, -⟩ := Layout.literal.head_magnitude canonical
    apply isWord_of_isNumeric
    · simp [Reading.bodyText, head]
    · intro c member
      rcases List.mem_append.mp member with sign | body
      · cases negative with
        | false => cases sign
        | true =>
          obtain rfl := List.mem_singleton.mp sign
          decide
      · exact digits c body

end Real

namespace Literal

def isComplex : Literal → Bool
  | complex _ => true
  | _ => false

theorem isWord_text {v : Literal} (real : v.isComplex = false) :
    IsWord v.text.toList ∧ ¬NamesInput v.text.toList := by
  cases v with
  | bool b =>
    cases b
    all_goals
      refine ⟨⟨plain_of_all rfl, by simp [text]⟩, ?_⟩
      rintro ⟨d, r, -, same | same⟩ <;> simp [text] at same
  | signed n =>
    apply Real.isWord_of_isNumeric
    · show (toString n.toInt).toList ≠ []
      rw [Real.toList_toString_int]
      split <;> simp
    · exact Real.isNumeric_int _
  | unsigned n =>
    have digits : (unsigned n).text.toList = Nat.toDigits 10 n.toNat := by
      simp [text, Nat.toString_eq_repr, Nat.toList_repr]
    rw [digits]
    apply Real.isWord_of_isNumeric
    · simp
    · exact fun c member => Real.isNumeric_of_isDigit (Real.isDigit_of_mem_toDigits c member)
  | float x => exact Real.isWord_text x
  | complex z => cases real

end Literal

namespace Term

def following (sep : List Char) : List Term → List Char
  | [] => []
  | t :: ts => sep ++ (t.text.toList ++ following sep ts)

def joined (sep : List Char) : List Term → List Char
  | [] => []
  | t :: ts => t.text.toList ++ following sep ts

theorem toList_intercalate_texts (sep : String) (ts : List Term) :
    (String.intercalate sep (texts ts)).toList = joined sep.toList ts := by
  cases ts with
  | nil => simp [texts, joined]
  | cons t ts =>
    induction ts generalizing t with
    | nil => simp [texts, joined, following]
    | cons u ts ih =>
      rw [texts, texts, String.intercalate_cons_cons, ← texts, String.toList_append, ih]
      simp [joined, following]

end Term

namespace Form

def lead : Form → List Char
  | named word => word.toList
  | braced word _ => word.toList
  | _ => []

def tail : Form → List Term → List Char
  | between symbol, ts => '(' :: (Term.joined (' ' :: (symbol.toList ++ [' '])) ts ++ [')'])
  | marked symbol, ts => '(' :: (symbol.toList ++ (Term.joined [',', ' '] ts ++ [')']))
  | named _, ts => '(' :: (Term.joined [',', ' '] ts ++ [')'])
  | braced _ inner, ts =>
    '{' :: (inner.toList ++ '}' :: '(' :: (Term.joined [',', ' '] ts ++ [')']))

theorem toList_write (f : Form) (ts : List Term) :
    (f.write (Term.texts ts)).toList = f.lead ++ f.tail ts := by
  cases f <;> simp [write, lead, tail, Primitive.between, Primitive.listed,
    Term.toList_intercalate_texts, -String.toList_intercalate]

end Form

namespace Term

def callName : List Char :=
  ['C', 'o', 'm', 'p', 'o', 's', 'i', 't', 'e']

def lead : Term → List Char
  | input index _ => ("i" ++ toString index).toList
  | constant literal _ => if literal.isComplex then [] else literal.text.toList
  | apply p _ _ => p.form.lead
  | call _ _ _ _ => callName

def tail : Term → List Char
  | input _ _ => []
  | constant literal _ => if literal.isComplex then literal.text.toList else []
  | apply p args _ => p.form.tail args
  | call body args index _ => '{' :: (joined [',', ' '] body ++ '}' :: '(' ::
      (joined [',', ' '] args ++ ')' :: (Expression.outputMark body.length index).toList))

theorem toList_text (t : Term) : t.text.toList = t.lead ++ t.tail := by
  cases t with
  | input index type =>
    rw [text, lead, tail, List.append_nil]
  | constant literal type =>
    rw [text, lead, tail]
    cases literal.isComplex <;> simp
  | apply p args type => rw [text, Primitive.write_eq, Form.toList_write, lead, tail]
  | call body args index type =>
    simp [text, lead, tail, callName, composed, Primitive.listed, toList_intercalate_texts,
      -String.toList_intercalate]

theorem lead_constant {literal : Literal} (real : literal.isComplex = false) (type : ScalarType) :
    (constant literal type).lead = literal.text.toList := by
  simp [lead, real]

theorem tail_complex (z : ComplexFloat) (type : ScalarType) :
    (constant (.complex z) type).tail = (Literal.complex z).text.toList := by
  simp [tail, Literal.isComplex]

theorem isWord_input (index : Nat) (type : ScalarType) :
    IsWord (input index type).lead ∧ NamesInput (input index type).lead := by
  have digits : (toString index).toList = Nat.toDigits 10 index := by
    rw [Nat.toString_eq_repr, Nat.toList_repr]
  have written : (input index type).lead = 'i' :: Nat.toDigits 10 index := by
    rw [lead, String.toList_append, digits]
    simp
  rw [written]
  refine ⟨⟨?_, by simp⟩, ?_⟩
  · intro c member
    rcases List.mem_cons.mp member with rfl | digit
    · decide
    · exact isPlain_of_isDigit (Real.isDigit_of_mem_toDigits c digit)
  · cases shown : Nat.toDigits 10 index with
    | nil => simp at shown
    | cons d r =>
      have digit := Real.isDigit_of_mem_toDigits (n := index) d (by rw [shown]; simp)
      exact ⟨d, r, digit, .inl rfl⟩

end Term

namespace Form

def isClear : Form → Bool
  | between symbol => symbol.toList.all (· != ' ')
  | marked symbol => symbol == "-" || symbol == "~"
  | named word => word != "" && word != "Composite" && word.toList.all fun c => isPlain c && c != '-'
  | braced word inner => word != "" && word != "Composite" &&
    (word.toList.all fun c => isPlain c && c != '-') && inner.toList.all (· != '}')

theorem isClear_form (p : Primitive) : p.form.isClear = true := by
  have names : ∀ q ∈ Primitive.named, q.form.isClear = true := by decide +kernel
  cases braced : p.form.isBraced with
  | false => exact names p (Primitive.mem_named braced)
  | true =>
    rcases Primitive.braced_cases braced with ⟨t, rfl⟩ | ⟨lower, upper, rfl⟩
    · rcases t with _ | (_ | _ | _ | _) | (_ | _ | _ | _) | (_ | _ | _) | (_ | _) <;> decide +kernel
    · cases lower <;> cases upper <;> decide +kernel

end Form

namespace Primitive

theorem admits_between {p : Primitive} {symbol : String} (form : p.form = .between symbol) {n : Nat}
    (admitted : p.arity.admits n = true) : n ≠ 0 ∧ (n = 1 → p = add ∨ p = mul) := by
  cases p with
  | bitwise b => cases b <;> simp_all [Primitive.form, arity, Arity.admits] <;> omega
  | _ => simp_all [Primitive.form, arity, Arity.admits] <;> omega

theorem admits_marked {p : Primitive} {symbol : String} (form : p.form = .marked symbol) {n : Nat}
    (admitted : p.arity.admits n = true) : n = 1 := by
  cases p with
  | bitwise b => cases b <;> simp_all [Primitive.form, arity, Arity.admits]
  | _ => simp_all [Primitive.form, arity, Arity.admits]

end Primitive

namespace Term

variable {s t : Term} {r r' : List Char}

theorem isPlain_lead (t : Term) : ∀ c ∈ t.lead, isPlain c = true := by
  cases t with
  | input index type => exact fun c member => ((isWord_input index type).1.plain c member).1
  | constant literal type =>
    intro c member
    rw [lead] at member
    split at member
    · cases member
    · next real =>
      have word := (Literal.isWord_text (Bool.eq_false_iff.mpr real)).1
      exact (word.plain c member).1
  | apply p args type =>
    have clear := Form.isClear_form p
    intro c member
    rw [lead] at member
    cases form : p.form with
    | between symbol | marked symbol =>
      rw [form] at member
      cases member
    | named word | braced word inner =>
      rw [form] at member clear
      simp only [Form.isClear, Bool.and_eq_true, List.all_eq_true] at clear
      grind [Form.lead]
  | call body args index type => exact fun c member => (plain_of_all (w := callName) rfl c member).1

theorem head_tail (t : Term) : ∀ c ∈ t.tail.head?, c ∈ ['(', '{'] := by
  cases t with
  | input index type => simp [tail]
  | constant literal type =>
    cases literal with
    | complex z => simp [tail, Literal.isComplex, Literal.toList_text_complex]
    | _ => simp [tail, Literal.isComplex]
  | apply p args type =>
    rw [tail]
    cases p.form <;> simp [Form.tail]
  | call body args index type => simp [tail]

theorem head_tail_append (ends : Ends r) : ∀ c ∈ (t.tail ++ r).head?, isPlain c = false := by
  cases shown : t.tail with
  | nil => exact ends.stop
  | cons c rest =>
    have opened := t.head_tail c (by simp [shown])
    intro d member
    obtain rfl : c = d := by simpa using member
    simp only [List.mem_cons, List.not_mem_nil, or_false] at opened
    rcases opened with rfl | rfl <;> decide

theorem lead_append_inj (ends : Ends r) (ends' : Ends r')
    (same : s.text.toList ++ r = t.text.toList ++ r') :
    s.lead = t.lead ∧ s.tail ++ r = t.tail ++ r' := by
  rw [toList_text, toList_text, List.append_assoc, List.append_assoc] at same
  exact Real.append_inj_of_run s.isPlain_lead t.isPlain_lead (head_tail_append ends)
    (head_tail_append ends') same

theorem ends_ne_tail (ends : Ends r) {c : Char} {rest : List Char} (opened : c ∈ ['(', '{']) :
    r ≠ c :: rest := by
  rintro rfl
  have listed := ends c rfl
  simp only [List.mem_cons, List.not_mem_nil, or_false] at opened
  rcases opened with rfl | rfl <;> simp at listed

theorem head?_tail_eq (ends : Ends r) (ends' : Ends r') (same : s.tail ++ r = t.tail ++ r') :
    s.tail.head? = t.tail.head? := by
  cases first : s.tail with
  | nil =>
    cases second : t.tail with
    | nil => rfl
    | cons d rest' =>
      rw [first, second] at same
      exact absurd same (ends_ne_tail ends (t.head_tail d (by simp [second])))
  | cons c rest =>
    cases second : t.tail with
    | nil =>
      rw [first, second] at same
      exact absurd same.symm (ends_ne_tail ends' (s.head_tail c (by simp [first])))
    | cons d rest' =>
      rw [first, second] at same
      exact congrArg some (List.cons.inj same).1

theorem word_cases (opened : t.tail.head? = none) : (∃ index type, t = input index type) ∨
    ∃ literal type, t = constant literal type ∧ literal.isComplex = false := by
  cases t with
  | input index type => exact .inl ⟨index, type, rfl⟩
  | constant literal type =>
    cases literal with
    | complex z => simp [tail, Literal.isComplex, Literal.toList_text_complex] at opened
    | _ => exact .inr ⟨_, type, rfl, rfl⟩
  | apply p args type =>
    rw [tail] at opened
    cases form : p.form <;> simp [form, Form.tail] at opened
  | call body args index type => simp [tail] at opened

theorem named_cases (opened : t.tail.head? = some '(') (worded : t.lead ≠ []) :
    ∃ p args type word, t = apply p args type ∧ p.form = .named word := by
  cases t with
  | input index type => simp [tail] at opened
  | constant literal type =>
    cases literal with
    | complex z => simp [lead, Literal.isComplex] at worded
    | _ => simp [tail, Literal.isComplex] at opened
  | apply p args type =>
    cases form : p.form with
    | named word => exact ⟨p, args, type, word, rfl, form⟩
    | between symbol | marked symbol => simp [lead, form, Form.lead] at worded
    | braced word inner => simp [tail, form, Form.tail] at opened
  | call body args index type => simp [tail] at opened

theorem braced_cases (opened : t.tail.head? = some '{') :
    (∃ p args type word inner, t = apply p args type ∧ p.form = .braced word inner) ∨
      ∃ body args index type, t = call body args index type := by
  cases t with
  | input index type => simp [tail] at opened
  | constant literal type =>
    cases literal with
    | complex z => simp [tail, Literal.isComplex, Literal.toList_text_complex] at opened
    | _ => simp [tail, Literal.isComplex] at opened
  | apply p args type =>
    cases form : p.form with
    | braced word inner => exact .inl ⟨p, args, type, word, inner, rfl, form⟩
    | _ => simp [tail, form, Form.tail] at opened
  | call body args index type => exact .inr ⟨body, args, index, type, rfl⟩

theorem paren_cases (good : t.Good) (bare : t.lead = []) :
    (∃ z type, t = constant (.complex z) type) ∨
      (∃ p x xs type symbol, t = apply p (x :: xs) type ∧ p.form = .between symbol ∧
        (xs = [] → p = .add ∨ p = .mul)) ∨
      ∃ p x type symbol, t = apply p [x] type ∧ p.form = .marked symbol := by
  cases t with
  | input index type => exact absurd bare (isWord_input index type).1.nonempty
  | constant literal type =>
    cases real : literal.isComplex with
    | false =>
      rw [lead_constant real] at bare
      exact absurd bare (Literal.isWord_text real).1.nonempty
    | true =>
      cases literal with
      | complex z => exact .inl ⟨z, type, rfl⟩
      | _ => cases real
  | apply p args type =>
    obtain ⟨⟨config, typed⟩, -⟩ := good
    have admitted := Primitive.admits_of_outputType typed
    rw [List.length_map] at admitted
    have clear := Form.isClear_form p
    cases form : p.form with
    | between symbol =>
      obtain ⟨some_arg, single⟩ := Primitive.admits_between form admitted
      cases args with
      | nil => exact absurd rfl some_arg
      | cons x xs =>
        refine .inr (.inl ⟨p, x, xs, type, symbol, rfl, form, ?_⟩)
        rintro rfl
        exact single rfl
    | marked symbol =>
      obtain ⟨x, rfl⟩ := List.length_eq_one_iff.mp (Primitive.admits_marked form admitted)
      exact .inr (.inr ⟨p, x, type, symbol, rfl, form⟩)
    | named word | braced word inner =>
      rw [lead, form, Form.lead, String.toList_eq_nil_iff] at bare
      simp [form, Form.isClear, bare] at clear
  | call body args index type => cases bare

theorem lead_append_ne {d : Char} (special : isPlain d = false) (closed : d ∉ ['(', '{']) :
    t.lead ++ (t.tail ++ r) ≠ d :: r' := by
  intro same
  cases first : t.lead with
  | cons c w =>
    have plain := t.isPlain_lead c (by simp [first])
    rw [first] at same
    rw [(List.cons.inj same).1, special] at plain
    cases plain
  | nil =>
    cases second : t.tail with
    | cons c w =>
      have opened := t.head_tail c (by simp [second])
      rw [first, second] at same
      exact closed ((List.cons.inj same).1 ▸ opened)
    | nil =>
      rcases word_cases (t := t) (by rw [second]; rfl) with ⟨index, type, rfl⟩ | ⟨literal, type, rfl, real⟩
      · exact (isWord_input index type).1.nonempty first
      · rw [lead_constant real] at first
        exact (Literal.isWord_text real).1.nonempty first

theorem text_append_ne {close : Char} (closes : close ∈ [')', '}']) :
    t.text.toList ++ r ≠ close :: r' := by
  rw [toList_text, List.append_assoc]
  simp only [List.mem_cons, List.not_mem_nil, or_false] at closes
  rcases closes with rfl | rfl <;> exact lead_append_ne (by decide) (by decide)

/-- Whatever is written like the term agrees with it. -/
def Reads [Numerics] (s : Term) : Prop :=
  ∀ ⦃t : Term⦄ ⦃r r' : List Char⦄, t.Good → Ends r → Ends r' →
    s.text.toList ++ r = t.text.toList ++ r' → Agree s t ∧ r = r'

section

variable {c close : Char} {sep : List Char} (separates : c ∈ [' ', ',']) (closes : close ∈ [')', '}'])

include separates closes

theorem ends_following (ts : List Term) (r : List Char) :
    Ends (following (c :: sep) ts ++ close :: r) := by
  cases ts with
  | nil => exact ends_cons (by grind) r
  | cons t ts => exact ends_cons (by grind) _

theorem reads_following [Numerics] {ss ts : List Term} (reads : ∀ s ∈ ss, Reads s)
    (good : GoodAll ts)
    (same : following (c :: sep) ss ++ close :: r = following (c :: sep) ts ++ close :: r') :
    List.Forall₂ Agree ss ts ∧ r = r' := by
  have apart : c ≠ close := by
    rintro rfl
    grind
  induction ss generalizing ts with
  | nil =>
    cases ts with
    | nil => exact ⟨.nil, (List.cons.inj same).2⟩
    | cons t ts => exact absurd (List.cons.inj same).1.symm apart
  | cons s ss ih =>
    cases ts with
    | nil => exact absurd (List.cons.inj same).1 apart
    | cons t ts =>
      simp only [following, List.append_assoc] at same
      obtain ⟨agree, rest⟩ := reads s (by simp) good.1 (ends_following separates closes ss r)
        (ends_following separates closes ts r') (List.append_cancel_left same)
      obtain ⟨agrees, rest'⟩ := ih (fun u member => reads u (by simp [member])) good.2 rest
      exact ⟨.cons agree agrees, rest'⟩

theorem reads_joined [Numerics] {ss ts : List Term} (reads : ∀ s ∈ ss, Reads s) (good : GoodAll ts)
    (same : joined (c :: sep) ss ++ close :: r = joined (c :: sep) ts ++ close :: r') :
    List.Forall₂ Agree ss ts ∧ r = r' := by
  cases ss with
  | nil =>
    cases ts with
    | nil => exact ⟨.nil, (List.cons.inj same).2⟩
    | cons t ts =>
      rw [joined, joined, List.append_assoc] at same
      exact absurd same.symm (text_append_ne closes)
  | cons s ss =>
    cases ts with
    | nil =>
      rw [joined, joined, List.append_assoc] at same
      exact absurd same (text_append_ne closes)
    | cons t ts =>
      rw [joined, joined, List.append_assoc, List.append_assoc] at same
      obtain ⟨agree, rest⟩ := reads s (by simp) good.1 (ends_following separates closes ss r)
        (ends_following separates closes ts r') same
      obtain ⟨agrees, rest'⟩ := reads_following separates closes
        (fun u member => reads u (by simp [member])) good.2 rest
      exact ⟨.cons agree agrees, rest'⟩

end

theorem toList_toString_inj {m n : Nat} (stop : ∀ c ∈ r.head?, c.isDigit = false)
    (stop' : ∀ c ∈ r'.head?, c.isDigit = false)
    (same : (toString m).toList ++ r = (toString n).toList ++ r') : m = n ∧ r = r' := by
  simp only [Nat.toString_eq_repr, Nat.toList_repr] at same
  exact Real.toDigits_append_inj stop stop' same

theorem agree_word [Numerics] (good : s.Good) (good' : t.Good) (opened : s.tail.head? = none)
    (opened' : t.tail.head? = none) (words : s.lead = t.lead) : Agree s t := by
  rcases word_cases opened with ⟨index, type, rfl⟩ | ⟨literal, type, rfl, real⟩ <;>
    rcases word_cases opened' with ⟨index', type', rfl⟩ | ⟨literal', type', rfl, real'⟩
  · simp only [lead, String.toList_append] at words
    have digits : (toString index).toList ++ [] = (toString index').toList ++ [] := by
      rw [List.append_cancel_left words]
    obtain ⟨rfl, -⟩ := toList_toString_inj (by simp) (by simp) digits
    exact agree_input index type type'
  · have named := (isWord_input index type).2
    rw [words, lead_constant real'] at named
    exact absurd named (Literal.isWord_text real').2
  · have named := (isWord_input index' type').2
    rw [← words, lead_constant real] at named
    exact absurd named (Literal.isWord_text real).2
  · rw [lead_constant real, lead_constant real'] at words
    exact agree_constant good good' (String.toList_injective words)

theorem outputMark_append_inj {n k k' : Nat} (inside : k < n) (inside' : k' < n) (ends : Ends r)
    (ends' : Ends r') (same : (Expression.outputMark n k).toList ++ r =
      (Expression.outputMark n k').toList ++ r') : k = k' ∧ r = r' := by
  have unmarked : ∀ {x : List Char}, Ends x → ∀ {y : List Char}, x ≠ ':' :: y := by
    rintro x ends y rfl
    have listed := ends ':' rfl
    simp at listed
  have digits : ∀ {x : List Char}, Ends x → ∀ c ∈ x.head?, c.isDigit = false := by
    intro x ends c member
    have listed := ends c member
    simp only [List.mem_cons, List.not_mem_nil, or_false] at listed
    rcases listed with rfl | rfl | rfl | rfl <;> decide
  unfold Expression.outputMark at same
  split at same <;> split at same
  · rw [String.toList_append, String.toList_append, List.append_assoc, List.append_assoc] at same
    exact toList_toString_inj (digits ends) (digits ends') (List.append_cancel_left same)
  · have marked : r' = ':' :: ':' :: ((toString k).toList ++ r) := by simpa using same.symm
    exact absurd marked (unmarked ends')
  · have marked : r = ':' :: ':' :: ((toString k').toList ++ r') := by simpa using same
    exact absurd marked (unmarked ends)
  · have zero : k = 0 ∧ k' = 0 := by omega
    exact ⟨by omega, same⟩

theorem exists_complex_word (z : ComplexFloat) :
    ∃ w, (Literal.complex z).text.toList = '(' :: (w ++ [')']) ∧ (∀ c ∈ w, isPlain c = true) ∧
      'j' ∈ w := by
  refine ⟨(Real.text z.re).toList ++ (if Real.isNegative z.im then '-' else '+') ::
    ((Real.text z.im.abs).toList ++ ['j']), ?_, ?_, by simp⟩
  · rw [Literal.toList_text_complex]
    simp
  · intro c member
    simp only [List.mem_append, List.mem_cons, List.not_mem_nil, or_false] at member
    rcases member with re | rfl | im | rfl
    · exact ((Real.isWord_text z.re).1.plain c re).1
    · cases Real.isNegative z.im <;> decide
    · exact ((Real.isWord_text z.im.abs).1.plain c im).1
    · decide

theorem append_text_ne {w : List Char} (plain : ∀ c ∈ w, isPlain c = true) (marked : 'j' ∈ w)
    (sign : List Char) (signs : ∀ c ∈ sign, isPlain c = true ∧ c ≠ 'j') (ends : Ends r) :
    sign ++ (t.text.toList ++ r) ≠ w ++ ')' :: r' := by
  intro same
  rw [toList_text, List.append_assoc, ← List.append_assoc] at same
  have start : ∀ c ∈ sign ++ t.lead, isPlain c = true := by
    intro c member
    rcases List.mem_append.mp member with first | second
    · exact (signs c first).1
    · exact t.isPlain_lead c second
  have closed : ∀ c ∈ (')' :: r').head?, isPlain c = false := (ends_cons (by decide) r').stop
  obtain ⟨rfl, rest⟩ := Real.append_inj_of_run start plain (head_tail_append ends) closed same
  have word : ∀ c ∈ t.lead, c ≠ 'j' := by
    cases shown : t.tail with
    | cons c w =>
      have opened := t.head_tail c (by simp [shown])
      rw [shown] at rest
      rw [(List.cons.inj rest).1] at opened
      simp at opened
    | nil =>
      rcases word_cases (t := t) (by rw [shown]; rfl) with ⟨index, type, rfl⟩ | ⟨literal, type, rfl, real⟩
      · exact fun c member => ((isWord_input index type).1.plain c member).2
      · rw [lead_constant real]
        exact fun c member => ((Literal.isWord_text real).1.plain c member).2
  rcases List.mem_append.mp marked with first | second
  · exact (signs 'j' first).2 rfl
  · exact word 'j' second rfl

theorem minus_cases {w : List Char} (minus : t.lead = '-' :: w) :
    ∃ literal type, t = constant literal type ∧ literal.isComplex = false := by
  cases t with
  | input index type =>
    rw [lead, String.toList_append] at minus
    simp at minus
  | constant literal type =>
    cases literal with
    | complex z => simp [lead, Literal.isComplex] at minus
    | _ => exact ⟨_, type, rfl, rfl⟩
  | apply p args type =>
    have clear := Form.isClear_form p
    rw [lead] at minus
    cases form : p.form with
    | between symbol | marked symbol => simp [form, Form.lead] at minus
    | named word | braced word inner =>
      rw [form] at minus clear
      rw [Form.lead] at minus
      simp [Form.isClear, minus] at clear
  | call body args index type => simp [lead, callName] at minus

theorem between_marked {x y : Term} {symbol : String} (mark : symbol = "-" ∨ symbol = "~")
    (ends : Ends r) (same : x.text.toList ++ r = symbol.toList ++ (y.text.toList ++ ')' :: r')) :
    symbol = "-" ∧ r = ')' :: r' ∧ ∃ a b t u, x = constant a t ∧ y = constant b u ∧
      a.text.toList = '-' :: b.text.toList := by
  have closed : Ends (')' :: r') := ends_cons (by decide) r'
  rw [x.toList_text, y.toList_text, List.append_assoc, List.append_assoc] at same
  rcases mark with rfl | rfl
  · have start : ∀ c ∈ '-' :: y.lead, isPlain c = true := by
      intro c member
      rcases List.mem_cons.mp member with rfl | inside
      · decide
      · exact y.isPlain_lead c inside
    -- a minus is part of the first word, so it is a negative
    -- constant that is read on the other side
    obtain ⟨words, rest⟩ := Real.append_inj_of_run x.isPlain_lead start (head_tail_append ends)
      (head_tail_append closed) same
    obtain ⟨a, t, rfl, real⟩ := minus_cases words
    have first : (constant a t).tail = [] := by simp [tail, real]
    have second : y.tail.head? = none := by
      rw [← head?_tail_eq ends closed rest, first]
      rfl
    refine ⟨rfl, ?_, ?_⟩
    · rw [first, List.head?_eq_none_iff.mp second] at rest
      exact rest
    · rw [lead_constant real] at words
      rcases word_cases second with ⟨index, type, rfl⟩ | ⟨b, u, rfl, real'⟩
      · obtain ⟨d, w, digit, named | named⟩ := (isWord_input index type).2
        · rw [named] at words
          exact absurd ⟨d, w, digit, .inr words⟩ (Literal.isWord_text real).2
        · rw [lead, String.toList_append] at named
          simp at named
      · exact ⟨a, b, t, u, rfl, rfl, words.trans (by rw [lead_constant real'])⟩
  · exact absurd same (lead_append_ne (by decide) (by decide))

section

variable {p q : Primitive} {symbol symbol' : String} {x y : Term} {xs ys : List Term}
  {type type' : ScalarType}

theorem tail_between (form : p.form = .between symbol) : (apply p (x :: xs) type).tail ++ r =
    '(' :: (x.text.toList ++ (following (' ' :: (symbol.toList ++ [' '])) xs ++ ')' :: r)) := by
  simp [tail, form, Form.tail, joined]

theorem tail_marked (form : p.form = .marked symbol) :
    (apply p [x] type).tail ++ r = '(' :: (symbol.toList ++ (x.text.toList ++ ')' :: r)) := by
  simp [tail, form, Form.tail, joined, following]

theorem mark_cases (form : p.form = .marked symbol) : symbol = "-" ∨ symbol = "~" := by
  have clear := Form.isClear_form p
  simpa [form, Form.isClear] using clear

theorem reads_complex [Numerics] {z : ComplexFloat} (good : (constant (.complex z) type).Good)
    (good' : t.Good)
    (bare : t.lead = []) (same : (constant (.complex z) type).tail ++ r = t.tail ++ r') :
    Agree (constant (.complex z) type) t ∧ r = r' := by
  obtain ⟨w, written, plain, marked⟩ := exists_complex_word z
  have closed : ∀ {x : List Char}, ∀ c ∈ (')' :: x).head?, isPlain c = false :=
    fun c => (ends_cons (by decide) _).stop c
  have shown : '(' :: (w ++ ')' :: r) = t.tail ++ r' := by
    rw [← same, tail_complex, written]
    simp
  rcases paren_cases good' bare with ⟨z', type', rfl⟩ | ⟨p, x, xs, type', symbol, rfl, form, -⟩ |
    ⟨p, x, type', symbol, rfl, form⟩
  · obtain ⟨w', written', plain', -⟩ := exists_complex_word z'
    rw [tail_complex, written'] at shown
    have inner : w ++ ')' :: r = w' ++ ')' :: r' := by simpa using (List.cons.inj shown).2
    obtain ⟨rfl, rest⟩ := Real.append_inj_of_run plain plain' closed closed inner
    have texts := String.toList_injective (written.trans written'.symm)
    exact ⟨agree_constant good good' texts, (List.cons.inj rest).2⟩
  · rw [tail_between form] at shown
    have ends : Ends (following (' ' :: (symbol.toList ++ [' '])) xs ++ ')' :: r') :=
      ends_following (by decide) (by decide) xs r'
    exact absurd (List.cons.inj shown).2.symm (append_text_ne plain marked [] (by simp) ends)
  · rw [tail_marked form] at shown
    have inner := (List.cons.inj shown).2.symm
    have ends : Ends (')' :: r') := ends_cons (by decide) r'
    rcases mark_cases form with rfl | rfl
    · exact absurd inner (append_text_ne plain marked ['-'] (plain_of_all rfl) ends)
    · cases w with
      | nil => cases marked
      | cons c w =>
        have same' : '~' = c := (List.cons.inj inner).1
        have plain' := plain c (by simp)
        rw [← same'] at plain'
        cases plain'

theorem reads_between [Numerics] (form : p.form = .between symbol)
    (form' : q.form = .between symbol')
    (single : xs = [] → p = .add ∨ p = .mul) (single' : ys = [] → q = .add ∨ q = .mul)
    (reads : ∀ u ∈ x :: xs, Reads u) (good : GoodAll (y :: ys))
    (same : (apply p (x :: xs) type).tail ++ r = (apply q (y :: ys) type').tail ++ r') :
    Agree (apply p (x :: xs) type) (apply q (y :: ys) type') ∧ r = r' := by
  have ends : ∀ (symbol : String) ts r, Ends (following (' ' :: (symbol.toList ++ [' '])) ts ++ ')' :: r) :=
    fun symbol => ends_following (by decide) (by decide)
  rw [tail_between form, tail_between form'] at same
  obtain ⟨agree, rest⟩ := reads x (by simp) good.1 (ends symbol xs r) (ends symbol' ys r')
    (List.cons.inj same).2
  -- one operand is written alike in sums and products; several show their symbol
  cases xs with
  | nil =>
    cases ys with
    | nil => exact ⟨agree_single (single rfl) (single' rfl) agree type type', (List.cons.inj rest).2⟩
    | cons v ys => simp [following] at rest
  | cons u xs =>
    cases ys with
    | nil => simp [following] at rest
    | cons v ys =>
      have clear := Form.isClear_form p
      have clear' := Form.isClear_form q
      simp only [form, form', Form.isClear, List.all_eq_true] at clear clear'
      have inner := rest
      simp only [following, List.cons_append, List.append_assoc, List.nil_append] at inner
      obtain ⟨symbols, -⟩ := Real.append_inj_of_run clear clear' (by simp) (by simp)
        (List.cons.inj inner).2
      obtain rfl := String.toList_injective symbols
      obtain rfl := Primitive.form_inj (form.trans form'.symm)
      obtain ⟨agrees, rest'⟩ := reads_following (by decide) (by decide)
        (fun w member => reads w (by simp [member])) good.2 rest
      exact ⟨agree_apply (.cons agree agrees) p type type', rest'⟩

theorem agree_between_marked [Numerics] (form : p.form = .between symbol)
    (form' : q.form = .marked symbol')
    (single : xs = [] → p = .add ∨ p = .mul) (good : (apply p (x :: xs) type).Good)
    (good' : (apply q [y] type').Good)
    (same : (apply p (x :: xs) type).tail ++ r = (apply q [y] type').tail ++ r') :
    Agree (apply q [y] type') (apply p (x :: xs) type) ∧ r = r' := by
  rw [tail_between form, tail_marked form'] at same
  obtain ⟨rfl, rest, a, b, t, u, rfl, rfl, minus⟩ := between_marked (mark_cases form')
    (ends_following (by decide) (by decide) xs r) (List.cons.inj same).2
  obtain rfl : q = .neg := Primitive.form_inj (form'.trans rfl)
  cases xs with
  | nil => exact ⟨agree_neg (single rfl) good' good.2.1 minus, (List.cons.inj rest).2⟩
  | cons v xs => simp [following] at rest

theorem reads_marked [Numerics] (form : p.form = .marked symbol) (form' : q.form = .marked symbol')
    (reads : Reads x) (good : y.Good)
    (same : (apply p [x] type).tail ++ r = (apply q [y] type').tail ++ r') :
    Agree (apply p [x] type) (apply q [y] type') ∧ r = r' := by
  have ends : ∀ r, Ends (')' :: r) := ends_cons (by decide)
  rw [tail_marked form, tail_marked form'] at same
  have inner := (List.cons.inj same).2
  obtain rfl : symbol = symbol' := by
    rcases mark_cases form with rfl | rfl <;> rcases mark_cases form' with rfl | rfl
    · rfl
    · simp at inner
    · simp at inner
    · rfl
  obtain rfl := Primitive.form_inj (form.trans form'.symm)
  obtain ⟨agree, rest⟩ := reads good (ends r) (ends r') (List.append_cancel_left inner)
  exact ⟨agree_apply (.cons agree .nil) p type type', (List.cons.inj rest).2⟩

end

theorem mem_goodAll {ts : List Term} (good : GoodAll ts) (member : t ∈ ts) : t.Good :=
  goodAll_iff.mp good t member

theorem reads_paren [Numerics] (good : s.Good)
    (reads : ∀ p args type, s = apply p args type → ∀ u ∈ args, Reads u)
    (good' : t.Good) (bare : s.lead = []) (bare' : t.lead = []) (same : s.tail ++ r = t.tail ++ r') :
    Agree s t ∧ r = r' := by
  rcases paren_cases good bare with ⟨z, type, rfl⟩ | ⟨p, x, xs, type, symbol, rfl, form, single⟩ |
    ⟨p, x, type, symbol, rfl, form⟩
  · exact reads_complex good good' bare' same
  · rcases paren_cases good' bare' with ⟨z, type', rfl⟩ |
      ⟨q, y, ys, type', symbol', rfl, form', single'⟩ | ⟨q, y, type', symbol', rfl, form'⟩
    · obtain ⟨agree, rest⟩ := reads_complex good' good bare same.symm
      exact ⟨agree.symm, rest.symm⟩
    · exact reads_between form form' single single' (reads p _ type rfl) good'.2 same
    · obtain ⟨agree, rest⟩ := agree_between_marked form form' single good good' same
      exact ⟨agree.symm, rest⟩
  · rcases paren_cases good' bare' with ⟨z, type', rfl⟩ |
      ⟨q, y, ys, type', symbol', rfl, form', single'⟩ | ⟨q, y, type', symbol', rfl, form'⟩
    · obtain ⟨agree, rest⟩ := reads_complex good' good bare same.symm
      exact ⟨agree.symm, rest.symm⟩
    · obtain ⟨agree, rest⟩ := agree_between_marked form' form single' good' good same.symm
      exact ⟨agree, rest.symm⟩
    · exact reads_marked form form' (reads p _ type rfl x (by simp)) good'.2.1 same

theorem reads_named [Numerics] {p : Primitive} {args : List Term} {type : ScalarType}
    {word : String} (form : p.form = .named word) (reads : ∀ u ∈ args, Reads u) (good' : t.Good)
    (words : (apply p args type).lead = t.lead) (ends : Ends r) (ends' : Ends r')
    (same : (apply p args type).tail ++ r = t.tail ++ r') : Agree (apply p args type) t ∧ r = r' := by
  have opened : (apply p args type).tail.head? = some '(' := by simp [tail, form, Form.tail]
  have worded : t.lead ≠ [] := by
    have clear := Form.isClear_form p
    rw [← words, lead, form, Form.lead]
    intro none
    rw [String.toList_eq_nil_iff] at none
    simp [form, Form.isClear, none] at clear
  obtain ⟨q, args', type', word', rfl, form'⟩ :=
    named_cases ((head?_tail_eq ends ends' same).symm.trans opened) worded
  simp only [lead, form, form', Form.lead] at words
  obtain rfl := String.toList_injective words
  obtain rfl := Primitive.form_inj (form.trans form'.symm)
  have inner : joined [',', ' '] args ++ ')' :: r = joined [',', ' '] args' ++ ')' :: r' := by
    simpa [tail, form, Form.tail] using same
  obtain ⟨agrees, rest⟩ := reads_joined (by decide) (by decide) reads good'.2 inner
  exact ⟨agree_apply agrees p type type', rest⟩

theorem lead_ne_callName {p : Primitive} {word inner : String} (form : p.form = .braced word inner)
    (args : List Term) (type : ScalarType) : (apply p args type).lead ≠ callName := by
  have clear := Form.isClear_form p
  have name : callName = "Composite".toList := by simp [callName]
  rw [lead, form, Form.lead, name]
  intro same
  obtain rfl := String.toList_injective same
  simp [form, Form.isClear] at clear

theorem reads_braced [Numerics] {p : Primitive} {args : List Term} {type : ScalarType}
    {word inner : String}
    (form : p.form = .braced word inner) (reads : ∀ u ∈ args, Reads u) (good' : t.Good)
    (words : (apply p args type).lead = t.lead) (ends : Ends r) (ends' : Ends r')
    (same : (apply p args type).tail ++ r = t.tail ++ r') : Agree (apply p args type) t ∧ r = r' := by
  have opened : (apply p args type).tail.head? = some '{' := by simp [tail, form, Form.tail]
  have clear := Form.isClear_form p
  rcases braced_cases ((head?_tail_eq ends ends' same).symm.trans opened) with
    ⟨q, args', type', word', inner', rfl, form'⟩ | ⟨body, args', index, type', rfl⟩
  · have clear' := Form.isClear_form q
    simp only [form, form', Form.isClear, Bool.and_eq_true, List.all_eq_true] at clear clear'
    simp only [lead, form, form', Form.lead] at words
    obtain rfl := String.toList_injective words
    simp only [tail, form, form', Form.tail, List.cons_append, List.append_assoc, List.nil_append,
      List.cons.injEq, true_and] at same
    obtain ⟨inners, rest⟩ := Real.append_inj_of_run clear.2 clear'.2 (by simp) (by simp) same
    obtain rfl := String.toList_injective inners
    obtain rfl := Primitive.form_inj (form.trans form'.symm)
    simp only [List.cons.injEq, true_and] at rest
    obtain ⟨agrees, rest'⟩ := reads_joined (by decide) (by decide) reads good'.2 rest
    exact ⟨agree_apply agrees p type type', rest'⟩
  · exact absurd words (lead_ne_callName form args type)

theorem reads_call [Numerics] {body args : List Term} {index : Nat} {type : ScalarType}
    (good : (call body args index type).Good) (reads : ∀ u ∈ body, Reads u)
    (reads' : ∀ u ∈ args, Reads u) (good' : t.Good)
    (words : (call body args index type).lead = t.lead) (ends : Ends r) (ends' : Ends r')
    (same : (call body args index type).tail ++ r = t.tail ++ r') :
    Agree (call body args index type) t ∧ r = r' := by
  have opened : (call body args index type).tail.head? = some '{' := by simp [tail]
  rcases braced_cases ((head?_tail_eq ends ends' same).symm.trans opened) with
    ⟨q, args', type', word', inner', rfl, form'⟩ | ⟨body', args', index', type', rfl⟩
  · exact absurd words.symm (lead_ne_callName form' args' type')
  · simp only [tail, List.cons_append, List.append_assoc, List.cons.injEq, true_and] at same
    obtain ⟨bodies, rest⟩ := reads_joined (by decide) (by decide) reads good'.2.1 same
    simp only [List.cons.injEq, true_and] at rest
    obtain ⟨agrees, rest'⟩ := reads_joined (by decide) (by decide) reads' good'.2.2 rest
    rw [bodies.length_eq] at rest'
    obtain ⟨rfl, rest''⟩ := outputMark_append_inj (bodies.length_eq ▸ good.1) good'.1 ends ends' rest'
    exact ⟨agree_call agrees bodies index type type', rest''⟩

/-- A text is read in one way, up to agreement. -/
theorem reads_of_good [Numerics] (s : Term) (good : s.Good) : Reads s := by
  induction size : sizeOf s using Nat.strongRecOn generalizing s with
  | ind n ih =>
    intro t r r' good' ends ends' same
    -- the first word of the text and the character after it tell the forms apart
    obtain ⟨words, rest⟩ := lead_append_inj ends ends' same
    have each : ∀ {us : List Term}, GoodAll us → sizeOf us < n → ∀ u ∈ us, Reads u := by
      intro us goods less u member
      have smaller := List.sizeOf_lt_of_mem member
      exact ih (sizeOf u) (by omega) u (mem_goodAll goods member) rfl
    cases s with
    | input index type =>
      have opened : t.tail.head? = none := (head?_tail_eq ends ends' rest).symm.trans rfl
      refine ⟨agree_word good good' rfl opened words, ?_⟩
      rwa [List.head?_eq_none_iff.mp opened] at rest
    | constant literal type =>
      cases real : literal.isComplex with
      | false =>
        have shown : (constant literal type).tail = [] := by simp [tail, real]
        have opened := head?_tail_eq ends ends' rest
        rw [shown] at opened rest
        refine ⟨agree_word good good' (by rw [shown]; rfl) opened.symm words, ?_⟩
        rwa [List.head?_eq_none_iff.mp opened.symm] at rest
      | true =>
        have bare : (constant literal type).lead = [] := by simp [lead, real]
        exact reads_paren good (by simp) good' bare (words.symm.trans bare) rest
    | apply p args type =>
      have reads := each good.2 (by simp at size; omega)
      cases form : p.form with
      | named word => exact reads_named form reads good' words ends ends' rest
      | braced word inner => exact reads_braced form reads good' words ends ends' rest
      | between symbol | marked symbol =>
        have bare : (apply p args type).lead = [] := by simp [lead, form, Form.lead]
        refine reads_paren good ?_ good' bare (words.symm.trans bare) rest
        rintro _ _ _ ⟨rfl, rfl, rfl⟩
        exact reads
    | call body args index type =>
      exact reads_call good (each good.2.1 (by simp at size; omega)) (each good.2.2 (by simp at size; omega))
        good' words ends ends' rest

end Term

end ScalarFusion

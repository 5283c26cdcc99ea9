import ScalarFusion.Proofs.Phrasing
import ScalarFusion.Proofs.Reaching
import ScalarFusion.Proofs.Separating

/-!
The declarations of emitted code, read off its text. A line that starts with a type declares the
identifier that follows. The lines of the text are those of the statements, one after another and blocks
deeper by four blanks, so that the text declares what the code does: each temporary and each helper,
once. Two texts declare an identifier in common only if the id of one leads to a body of the other.
-/
namespace ScalarFusion

namespace Text

def typeWords : List (List Char) :=
  ["uint8_t", "uint16_t", "uint32_t", "uint64_t", "int8_t", "int16_t", "int32_t", "int64_t", "float",
    "double"].map String.toList

def firstWord (cs : List Char) : List Char :=
  cs.takeWhile (· != ' ')

def afterWord (cs : List Char) : List Char :=
  (cs.dropWhile (· != ' ')).drop 1

def declarator (cs : List Char) : List Char :=
  if firstWord cs = "_Complex".toList then afterWord cs else cs

def leadingName (cs : List Char) : Option String :=
  match cs.takeWhile CModule.isIdentifierChar with
  | [] => none
  | c :: name => some (String.ofList (c :: name))

/-- The identifier that a line of C declares. A declaration starts with a type, which may be complex,
    and the identifier follows. -/
def declaredOn (line : List Char) : Option String :=
  let code := line.dropWhile (· == ' ')
  if typeWords.contains (firstWord code) then leadingName (declarator (afterWord code)) else none

def declared (text : String) : List String :=
  (splitLines text.toList).filterMap declaredOn

@[simp]
theorem declaredOn_blank (l : List Char) : declaredOn (' ' :: l) = declaredOn l := by
  rw [declaredOn, List.dropWhile_cons_of_pos rfl, ← declaredOn]

variable {w r : List Char}

theorem firstWord_append (clear : ' ' ∉ w) : firstWord (w ++ ' ' :: r) = w := by
  have inside : ∀ c ∈ w, (c != ' ') = true := fun c member =>
    bne_iff_ne.mpr fun same => clear (same ▸ member)
  rw [firstWord, List.takeWhile_append_of_pos inside, List.takeWhile_cons_of_neg (by decide),
    List.append_nil]

theorem afterWord_append (clear : ' ' ∉ w) : afterWord (w ++ ' ' :: r) = r := by
  have inside : ∀ c ∈ w, (c != ' ') = true := fun c member =>
    bne_iff_ne.mpr fun same => clear (same ▸ member)
  rw [afterWord, List.dropWhile_append_of_pos inside, List.dropWhile_cons_of_neg (by decide)]
  rfl

theorem declaredOn_word (clear : ' ' ∉ w) (nonempty : w ≠ []) : declaredOn (w ++ ' ' :: r) =
    if typeWords.contains w then leadingName (declarator r) else none := by
  obtain ⟨c, rest, rfl⟩ := List.exists_cons_of_ne_nil nonempty
  have other : (c == ' ') = false := beq_false_of_ne fun same => clear (by simp [same])
  have start : ((c :: rest) ++ ' ' :: r).dropWhile (· == ' ') = (c :: rest) ++ ' ' :: r :=
    List.dropWhile_cons_of_neg (by simp [other])
  rw [declaredOn, start, firstWord_append clear, afterWord_append clear]

theorem isIdentifierChar_of_typeWord : ∀ w ∈ typeWords, ∀ c ∈ w, CModule.isIdentifierChar c = true := by
  have all : typeWords.all (fun w => w.all CModule.isIdentifierChar) = true := by decide +kernel
  exact fun w listed => List.all_eq_true.mp (List.all_eq_true.mp all w listed)

theorem leadingName_of_sign {c : Char} (sign : CModule.isIdentifierChar c = false) :
    leadingName (c :: r) = none := by
  rw [leadingName, List.takeWhile_cons_of_neg (by simp [sign])]

theorem declarator_cons {c : Char} (other : c ≠ '_') : declarator (c :: r) = c :: r := by
  rw [declarator, if_neg]
  intro same
  by_cases blank : c = ' '
  · simp [firstWord, blank] at same
  · simp [firstWord, blank, other] at same

theorem declaredOn_of_sign (clear : ' ' ∉ w) {c : Char} (sign : c ∈ ['=', '(', '*', '>']) :
    declaredOn (w ++ ' ' :: c :: r) = none := by
  have plain : CModule.isIdentifierChar c = false ∧ c ≠ '_' ∧ c ≠ ' ' := by
    simp only [List.mem_cons, List.not_mem_nil, or_false] at sign
    obtain rfl | rfl | rfl | rfl := sign <;> decide
  by_cases empty : w = []
  · -- then the sign itself starts the line
    have start : (c :: r).dropWhile (· == ' ') = c :: r :=
      List.dropWhile_cons_of_neg (by simp [plain.2.2])
    have word : firstWord (c :: r) = c :: firstWord r :=
      List.takeWhile_cons_of_pos (by simp [plain.2.2])
    rw [empty, List.nil_append, declaredOn_blank, declaredOn, start, word, if_neg]
    intro listed
    have letter := isIdentifierChar_of_typeWord _ (List.contains_iff_mem.mp listed) c (by simp)
    exact absurd letter (by simp [plain.1])
  · rw [declaredOn_word clear empty, declarator_cons plain.2.1, leadingName_of_sign plain.1, ite_self]

def Named (s : String) : Prop :=
  ∃ rest, s.toList = 'V' :: rest ∧ ∀ c ∈ rest, CModule.isIdentifierChar c = true

theorem Named.leadingName {s : String} (named : Named s) {c : Char}
    (stop : CModule.isIdentifierChar c = false) : leadingName (s.toList ++ c :: r) = some s := by
  obtain ⟨rest, letters, inside⟩ := named
  have run : (s.toList ++ c :: r).takeWhile CModule.isIdentifierChar = 'V' :: rest := by
    rw [letters, List.cons_append, List.takeWhile_cons_of_pos (by decide),
      List.takeWhile_append_of_pos inside, List.takeWhile_cons_of_neg (by simp [stop]),
      List.append_nil]
  rw [Text.leadingName, run]
  exact congrArg some (by rw [← letters, String.ofList_toList])

theorem declaredOn_declaration {t : ScalarType} {type s : String} (typed : t.cName = .ok type)
    (named : Named s) {c : Char} (stop : CModule.isIdentifierChar c = false) :
    declaredOn (type.toList ++ ' ' :: (s.toList ++ c :: r)) = some s := by
  have name := named.leadingName (r := r) stop
  have plain : declarator (s.toList ++ c :: r) = s.toList ++ c :: r := by
    obtain ⟨rest, letters, -⟩ := named
    rw [letters]
    exact declarator_cons (by decide)
  have complex : declarator ("_Complex".toList ++ ' ' :: (s.toList ++ c :: r)) = s.toList ++ c :: r := by
    rw [declarator, firstWord_append (by decide), if_pos rfl, afterWord_append (by decide)]
  have word : ∀ w ∈ typeWords, ∀ cs, declaredOn (w ++ ' ' :: cs) = Text.leadingName (declarator cs) := by
    intro w listed cs
    have blank : ' ' ∉ w := fun member =>
      absurd (isIdentifierChar_of_typeWord w listed ' ' member) (by decide)
    have nonempty : w ≠ [] := by
      rintro rfl
      exact absurd listed (by decide +kernel)
    rw [declaredOn_word blank nonempty, if_pos (List.contains_iff_mem.mpr listed)]
  rcases t with _ | (_ | _ | _ | _) | (_ | _ | _ | _) | (_ | _ | _) | (_ | _) <;> cases typed
  case complex.single =>
    have parts : "float _Complex".toList = "float".toList ++ ' ' :: "_Complex".toList := by decide
    rw [parts, List.append_assoc, List.cons_append, word _ (by decide +kernel), complex, name]
  case complex.double =>
    have parts : "double _Complex".toList = "double".toList ++ ' ' :: "_Complex".toList := by decide
    rw [parts, List.append_assoc, List.cons_append, word _ (by decide +kernel), complex, name]
  all_goals rw [word _ (by decide +kernel), plain, name]

def Ended (l : String) : Prop :=
  l.toList.getLast?.any (fun c => c == ';' || c == '{' || c == '}') = true

instance (l : String) : Decidable (Ended l) :=
  inferInstanceAs (Decidable (_ = true))

namespace Ended

variable {l : String}

theorem exists_last (ended : Ended l) :
    ∃ c, l.toList.getLast? = some c ∧ (c = ';' ∨ c = '{' ∨ c = '}') := by
  simpa [Ended, Option.any_eq_true, or_assoc] using ended

theorem append (ended : Ended l) (a : String) : Ended (a ++ l) := by
  obtain ⟨c, last, -⟩ := ended.exists_last
  unfold Ended at ended ⊢
  rw [last] at ended
  rw [String.toList_append, List.getLast?_append, last, Option.some_or]
  exact ended

theorem isEmpty_eq (ended : Ended l) : l.toList.isEmpty = false := by
  obtain ⟨c, last, -⟩ := ended.exists_last
  rw [List.isEmpty_eq_false_iff]
  intro empty
  simp [empty] at last

theorem dropReturn_eq (ended : Ended l) : dropReturn l.toList = l.toList := by
  obtain ⟨c, last, sign⟩ := ended.exists_last
  rw [dropReturn, if_neg]
  rw [last]
  obtain rfl | rfl | rfl := sign <;> decide

end Ended

structure Lists (F : Char → Bool) (text : String) (ls : List String) : Prop where
  joined : text = String.intercalate "\n" ls
  nonempty : ls ≠ []
  clear : ∀ l ∈ ls, Clear F l
  ended : ∀ l ∈ ls, Ended l

theorem splitLines_newline (cs : List Char) : splitLines ('\n' :: cs) = [] :: splitLines cs := by
  cases pieces : splitLines cs with
  | nil => exact absurd pieces (splitLines_ne_nil cs)
  | cons l rest =>
    rw [splitLines, List.foldr_cons, ← splitLines, pieces]
    rfl

theorem splitLines_cons {c : Char} (other : c ≠ '\n') {cs l : List Char} {rest : List (List Char)}
    (pieces : splitLines cs = l :: rest) : splitLines (c :: cs) = (c :: l) :: rest := by
  rw [splitLines, List.foldr_cons, ← splitLines, pieces]
  exact if_neg other

theorem splitLines_line {l : List Char} (whole : '\n' ∉ l) : splitLines l = [l] := by
  induction l with
  | nil => rfl
  | cons c l ih =>
    rw [List.mem_cons, not_or] at whole
    exact splitLines_cons (Ne.symm whole.1) (ih whole.2)

theorem splitLines_append {l : List Char} (whole : '\n' ∉ l) (r : List Char) :
    splitLines (l ++ '\n' :: r) = l :: splitLines r := by
  induction l with
  | nil => exact splitLines_newline r
  | cons c l ih =>
    rw [List.mem_cons, not_or] at whole
    exact splitLines_cons (Ne.symm whole.1) (ih whole.2)

theorem splitLines_joined {ls : List String} (nonempty : ls ≠ [])
    (whole : ∀ l ∈ ls, '\n' ∉ l.toList) :
    splitLines (String.intercalate "\n" ls).toList = ls.map String.toList := by
  induction ls with
  | nil => exact absurd rfl nonempty
  | cons l ls ih =>
    have first := whole l (by simp)
    cases ls with
    | nil => simpa using splitLines_line first
    | cons m ls =>
      have rest := ih (by simp) fun k member => whole k (by simp [member])
      have newline : "\n".toList = ['\n'] := by decide
      rw [String.intercalate_cons_cons, String.toList_append, String.toList_append, newline,
        List.append_assoc, List.singleton_append, splitLines_append first, rest]
      rfl

theorem joined_append {ls ms : List String} (first : ls ≠ []) (second : ms ≠ []) :
    String.intercalate "\n" (ls ++ ms) =
      String.intercalate "\n" ls ++ "\n" ++ String.intercalate "\n" ms := by
  induction ls with
  | nil => exact absurd rfl first
  | cons l ls ih =>
    cases ls with
    | nil =>
      obtain ⟨m, ms, rfl⟩ := List.exists_cons_of_ne_nil second
      simp [String.intercalate_cons_cons]
    | cons k ls =>
      have rest := ih (by simp)
      rw [List.cons_append] at rest
      rw [List.cons_append, List.cons_append, String.intercalate_cons_cons, rest,
        String.intercalate_cons_cons]
      simp only [String.append_assoc]

namespace Lists

variable {F : Char → Bool} {text : String} {ls : List String}

theorem splitLines (lists : Lists F text ls) (newline : F '\n' = true) :
    splitLines text.toList = ls.map String.toList := by
  rw [lists.joined]
  refine splitLines_joined lists.nonempty fun l member inside => ?_
  exact absurd (lists.clear l member '\n' inside) (by simp [newline])

theorem lines (lists : Lists F text ls) (newline : F '\n' = true) :
    Text.lines text.toList = ls.map String.toList := by
  obtain ⟨init, last, rfl⟩ := (List.eq_nil_or_concat ls).resolve_left lists.nonempty
  have kept : init.map (fun l => dropReturn l.toList) = init.map String.toList :=
    List.map_congr_left fun l member => (lists.ended l (by simp [member])).dropReturn_eq
  have full : last.toList.isEmpty = false := (lists.ended last (by simp)).isEmpty_eq
  rw [Text.lines, lists.splitLines newline, List.map_concat, List.concat_eq_append,
    List.reverse_append, List.reverse_singleton, List.singleton_append]
  simp only [List.reverse_reverse, List.map_map, full, Function.comp_def, kept]
  rfl

theorem line (clear : Clear F text) (ended : Ended text) : Lists F text [text] where
  joined := by simp
  nonempty := by simp
  clear := by simpa using clear
  ended := by simpa using ended

theorem append {text' : String} {ls' : List String} (first : Lists F text ls)
    (second : Lists F text' ls') : Lists F (text ++ "\n" ++ text') (ls ++ ls') where
  joined := by rw [first.joined, second.joined, joined_append first.nonempty second.nonempty]
  nonempty := by simp [first.nonempty]
  clear l member := (List.mem_append.mp member).elim (first.clear l) (second.clear l)
  ended l member := (List.mem_append.mp member).elim (first.ended l) (second.ended l)

theorem joined_all {texts : List String} {lss : List (List String)}
    (each : List.Forall₂ (Lists F) texts lss) (nonempty : texts ≠ []) :
    Lists F (String.intercalate "\n" texts) lss.flatten := by
  induction each with
  | nil => exact absurd rfl nonempty
  | @cons text ls texts lss first rest ih =>
    cases texts with
    | nil =>
      cases rest
      simpa using first
    | cons next texts =>
      rw [String.intercalate_cons_cons]
      exact first.append (ih (by simp))

theorem braces (clear : ∀ l ∈ ls, Clear F l) (ended : ∀ l ∈ ls, Ended l) (nonempty : ls ≠ [])
    (foreign : Foreign F) :
    Lists F ("\x7b\n" ++ String.intercalate "\n" (ls.map ("    " ++ ·)) ++ "\n\x7d")
      ("\x7b" :: (ls.map ("    " ++ ·) ++ ["\x7d"])) := by
  have inner : Lists F (String.intercalate "\n" (ls.map ("    " ++ ·))) (ls.map ("    " ++ ·)) := by
    refine ⟨rfl, by simpa using nonempty, ?_, ?_⟩
    · simpa [foreign.clear] using clear
    · intro l member
      obtain ⟨m, inside, rfl⟩ := List.mem_map.mp member
      exact (ended m inside).append _
  have opening : Lists F "\x7b" ["\x7b"] := .line (foreign.clear (by decide)) (by decide +kernel)
  have closing : Lists F "\x7d" ["\x7d"] := .line (foreign.clear (by decide)) (by decide +kernel)
  have top : "\x7b\n" = "\x7b" ++ "\n" := rfl
  have bottom : "\n\x7d" = "\n" ++ "\x7d" := rfl
  rw [top, bottom, ← String.append_assoc]
  exact (opening.append inner).append closing

theorem block (lists : Lists F text ls) (newline : F '\n' = true) (foreign : Foreign F) :
    Lists F (ScalarFusion.block text) ("\x7b" :: (ls.map ("    " ++ ·) ++ ["\x7d"])) := by
  have indented : indentLines text = String.intercalate "\n" (ls.map ("    " ++ ·)) := by
    rw [indentLines, lists.lines newline, List.map_map]
    simp [Function.comp_def]
  rw [ScalarFusion.block, indented]
  exact braces lists.clear lists.ended lists.nonempty foreign

end Lists

def declaredIn (ls : List String) : List String :=
  ls.filterMap fun l => declaredOn l.toList

structure LineReads (F : Char → Bool) (l : String) (name : Option String) : Prop where
  clear : Clear F l
  ended : Ended l
  names : declaredOn l.toList = name

theorem reads_all {F : Char → Bool} {ls : List String} {names : List (Option String)}
    (reads : List.Forall₂ (LineReads F) ls names) :
    (∀ l ∈ ls, Clear F l) ∧ (∀ l ∈ ls, Ended l) ∧ declaredIn ls = names.reduceOption := by
  induction reads with
  | nil => exact ⟨by simp, by simp, rfl⟩
  | @cons l name ls names first _ ih =>
    obtain ⟨clear, ended, named⟩ := ih
    refine ⟨by simpa using ⟨first.clear, clear⟩, by simpa using ⟨first.ended, ended⟩, ?_⟩
    rw [declaredIn, List.filterMap_cons, first.names, ← declaredIn, named]
    cases name <;> rfl

def Declares (F : Char → Bool) (text : String) (names : List String) : Prop :=
  ∃ ls, Lists F text ls ∧ declaredIn ls = names

theorem declaredOn_indented (l : String) : declaredOn ("    " ++ l).toList = declaredOn l.toList := by
  have blanks : ("    " ++ l).toList = ' ' :: ' ' :: ' ' :: ' ' :: l.toList := by simp
  rw [blanks, declaredOn_blank, declaredOn_blank, declaredOn_blank, declaredOn_blank]

theorem declaredIn_braces (ls : List String) :
    declaredIn ("\x7b" :: (ls.map ("    " ++ ·) ++ ["\x7d"])) = declaredIn ls := by
  have top : declaredOn "\x7b".toList = none := by decide +kernel
  have bottom : declaredOn "\x7d".toList = none := by decide +kernel
  unfold declaredIn
  rw [List.filterMap_cons, top, List.filterMap_append, List.filterMap_map, List.filterMap_cons, bottom]
  simp only [Function.comp_def, declaredOn_indented, List.filterMap_nil, List.append_nil]

namespace Declares

variable {F : Char → Bool} {text : String} {names : List String}

theorem declared_eq (declares : Declares F text names) (newline : F '\n' = true) :
    declared text = names := by
  obtain ⟨ls, lists, rfl⟩ := declares
  rw [declared, lists.splitLines newline, List.filterMap_map]
  rfl

theorem line {name : Option String} (reads : LineReads F text name) : Declares F text name.toList := by
  refine ⟨[text], .line reads.clear reads.ended, ?_⟩
  rw [declaredIn, List.filterMap_cons, reads.names]
  cases name <;> rfl

theorem braced {ls : List String} (names : List (Option String)) (foreign : Foreign F)
    (reads : List.Forall₂ (LineReads F) ls names) (nonempty : ls ≠ []) :
    Declares F (Primitive.braced ls) names.reduceOption := by
  obtain ⟨clear, ended, named⟩ := reads_all reads
  exact ⟨_, .braces clear ended nonempty foreign, (declaredIn_braces ls).trans named⟩

theorem block (declares : Declares F text names) (foreign : Foreign F) (newline : F '\n' = true) :
    Declares F (ScalarFusion.block text) names := by
  obtain ⟨ls, lists, rfl⟩ := declares
  exact ⟨_, lists.block newline foreign, declaredIn_braces ls⟩

theorem exists_lists {texts : List String} {nss : List (List String)}
    (each : List.Forall₂ (Declares F) texts nss) :
    ∃ lss, List.Forall₂ (Lists F) texts lss ∧ declaredIn lss.flatten = nss.flatten := by
  induction each with
  | nil => exact ⟨[], .nil, rfl⟩
  | cons first _ ih =>
    obtain ⟨ls, lists, rfl⟩ := first
    obtain ⟨lss, rest, names⟩ := ih
    refine ⟨ls :: lss, .cons lists rest, ?_⟩
    rw [List.flatten_cons, List.flatten_cons, ← names]
    exact List.filterMap_append

theorem joined {texts : List String} {nss : List (List String)}
    (each : List.Forall₂ (Declares F) texts nss) (nonempty : texts ≠ []) :
    Declares F (String.intercalate "\n" texts) nss.flatten := by
  obtain ⟨lss, lists, names⟩ := exists_lists each
  exact ⟨lss.flatten, .joined_all lists nonempty, names⟩

end Declares

end Text

open Text

variable {F : Char → Bool}

structure Text.Usable (F : Char → Bool) (s : String) : Prop where
  named : Named s
  clear : Clear F s

theorem Text.Named.blank_notMem {s : String} (named : Named s) : ' ' ∉ s.toList := by
  obtain ⟨rest, letters, inside⟩ := named
  rw [letters, List.mem_cons, not_or]
  exact ⟨by decide, fun member => absurd (inside ' ' member) (by decide)⟩

theorem Slot.append_helper (id : String) (h : Helper) :
    "V" ++ id ++ ("_" ++ h.text) = name id (.helper h) := by
  rw [← String.append_assoc]
  rfl

theorem Text.LineReads.declaration {t : ScalarType} {type s r : String} (foreign : Foreign F)
    (typed : t.cName = .ok type) (types : Clear F type) (usable : Usable F s) (clear : Clear F r) :
    LineReads F (type ++ " " ++ s ++ " = " ++ r ++ ";") (some s) where
  clear := by simp [foreign.clear, types, usable.clear, clear]
  ended := Ended.append (by decide) _
  names := by
    simpa using declaredOn_declaration (r := '=' :: ' ' :: (r.toList ++ [';'])) typed usable.named
      (show CModule.isIdentifierChar ' ' = false by decide)

theorem Text.LineReads.assignment {s r : String} (foreign : Foreign F) (word : ' ' ∉ s.toList)
    (target : Clear F s) (clear : Clear F r) : LineReads F (s ++ " = " ++ r ++ ";") none where
  clear := by simp [foreign.clear, target, clear]
  ended := Ended.append (by decide) _
  names := by simpa using declaredOn_of_sign word (by decide)

namespace Primitive

section

variable {t : ScalarType} {type out id a b x y z : String} (foreign : Foreign F)
  (typed : t.cName = .ok type) (types : Clear F type) (target : Usable F out) (first : Clear F a)
  (second : Clear F b)

include foreign typed types target first second

theorem declares_signedQuotient (dividend : x = Slot.name id (.helper .dividend))
    (divisor : y = Slot.name id (.helper .divisor)) (usable : Usable F x) (usable' : Usable F y) :
    Declares F (signedQuotient type out a b id) [x, y] := by
  have named : "V" ++ id ++ "_a" = x := dividend ▸ Slot.append_helper id .dividend
  have named' : "V" ++ id ++ "_b" = y := divisor ▸ Slot.append_helper id .divisor
  unfold signedQuotient
  simp only [named, named']
  refine .braced [some x, some y, none] foreign
    (.cons (.declaration foreign typed types usable first)
      (.cons (.declaration foreign typed types usable' second) (.cons ⟨?_, ?_, ?_⟩ .nil))) (by simp)
  · simp [foreign.clear, target.clear, usable.clear, usable'.clear]
  · exact Ended.append (by decide) _
  · simpa using declaredOn_of_sign target.named.blank_notMem (by decide)

theorem declares_signedRemainder (divisor : x = Slot.name id (.helper .divisor))
    (remainder : y = Slot.name id (.helper .remainder)) (usable : Usable F x) (usable' : Usable F y) :
    Declares F (signedRemainder type out a b id) [x, y] := by
  have named : "V" ++ id ++ "_b" = x := divisor ▸ Slot.append_helper id .divisor
  have named' : "V" ++ id ++ "_r" = y := remainder ▸ Slot.append_helper id .remainder
  unfold signedRemainder
  simp only [named, named']
  refine .braced [some x, some y, none] foreign
    (.cons (.declaration foreign typed types usable second)
      (.cons ⟨?_, ?_, ?_⟩ (.cons ⟨?_, ?_, ?_⟩ .nil))) (by simp)
  · simp [foreign.clear, types, first, usable.clear, usable'.clear]
  · exact Ended.append (by decide) _
  · simpa using declaredOn_declaration typed usable'.named
      (show CModule.isIdentifierChar ' ' = false by decide)
  · simp [foreign.clear, target.clear, usable.clear, usable'.clear]
  · exact Ended.append (by decide) _
  · simpa using declaredOn_of_sign target.named.blank_notMem (by decide)

theorem declares_floatRemainder {f : String} (function : Clear F f)
    (remainder : x = Slot.name id (.helper .remainder)) (usable : Usable F x) :
    Declares F (floatRemainder type out f a b id) [x] := by
  have named : "V" ++ id ++ "_r" = x := remainder ▸ Slot.append_helper id .remainder
  unfold floatRemainder
  simp only [named]
  refine .braced [some x, none] foreign (.cons ⟨?_, ?_, ?_⟩ (.cons ⟨?_, ?_, ?_⟩ .nil)) (by simp)
  · simp [foreign.clear, types, function, first, second, usable.clear]
  · exact Ended.append (by decide) _
  · simpa using declaredOn_declaration typed usable.named
      (show CModule.isIdentifierChar ' ' = false by decide)
  · simp [foreign.clear, target.clear, second, usable.clear]
  · exact Ended.append (by decide) _
  · simpa using declaredOn_of_sign target.named.blank_notMem (by decide)

end

section

variable {type out id a b x y z : String} (foreign : Foreign F) (base : Usable F x)
  (exponent : Usable F y) (accumulator : Usable F z)

include foreign base exponent accumulator

theorem reads_powerLoop (target : Usable F out) : List.Forall₂ (LineReads F)
    ["while (" ++ y ++ " > 0) \x7b", "    if (" ++ y ++ " & 1) " ++ z ++ " *= " ++ x ++ ";",
      "    " ++ x ++ " *= " ++ x ++ ";", "    " ++ y ++ " >>= 1;", "\x7d", out ++ " = " ++ z ++ ";"]
    [none, none, none, none, none, none] := by
  have repeats : LineReads F ("while (" ++ y ++ " > 0) \x7b") none :=
    ⟨by simp [foreign.clear, exponent.clear], Ended.append (by decide) _,
      by simpa using declaredOn_of_sign (w := "while".toList) (by decide) (by decide)⟩
  have multiplies : LineReads F ("    if (" ++ y ++ " & 1) " ++ z ++ " *= " ++ x ++ ";") none :=
    ⟨by simp [foreign.clear, base.clear, exponent.clear, accumulator.clear],
      Ended.append (by decide) _,
      by simpa using declaredOn_of_sign (w := "if".toList) (by decide) (by decide)⟩
  have squares : LineReads F ("    " ++ x ++ " *= " ++ x ++ ";") none :=
    ⟨by simp [foreign.clear, base.clear], Ended.append (by decide) _,
      by simpa using declaredOn_of_sign base.named.blank_notMem (by decide)⟩
  have halves : LineReads F ("    " ++ y ++ " >>= 1;") none :=
    ⟨by simp [foreign.clear, exponent.clear], Ended.append (by decide) _,
      by simpa using declaredOn_of_sign exponent.named.blank_notMem (by decide)⟩
  have closes : LineReads F "\x7d" none := ⟨foreign.clear (by decide), by decide, by decide +kernel⟩
  have sets : LineReads F (out ++ " = " ++ z ++ ";") none :=
    .assignment foreign target.named.blank_notMem target.clear accumulator.clear
  exact .cons repeats (.cons multiplies (.cons squares (.cons halves (.cons closes (.cons sets .nil)))))

theorem reads_negativePower : List.Forall₂ (LineReads F) ["if (" ++ y ++ " < 0) \x7b",
    "    " ++ z ++ " = (" ++ x ++ " == 1) ? 1 : (" ++ x ++ " == -1) ? ((" ++ y ++
      " & 1) ? -1 : 1) : 0;", "\x7d"] [none, none, none] := by
  have tests : LineReads F ("if (" ++ y ++ " < 0) \x7b") none :=
    ⟨by simp [foreign.clear, exponent.clear], Ended.append (by decide) _,
      by simpa using declaredOn_of_sign (w := "if".toList) (by decide) (by decide)⟩
  have sets : LineReads F ("    " ++ z ++ " = (" ++ x ++ " == 1) ? 1 : (" ++ x ++ " == -1) ? ((" ++ y ++
      " & 1) ? -1 : 1) : 0;") none :=
    ⟨by simp [foreign.clear, base.clear, exponent.clear, accumulator.clear],
      Ended.append (by decide) _,
      by simpa using declaredOn_of_sign accumulator.named.blank_notMem (by decide)⟩
  have closes : LineReads F "\x7d" none := ⟨foreign.clear (by decide), by decide, by decide +kernel⟩
  exact .cons tests (.cons sets (.cons closes .nil))

theorem declares_powerLoopText {t : ScalarType} {unsigned : Bool} (target : Usable F out)
    (typed : t.cName = .ok type)
    (types : Clear F type) (first : Clear F a) (second : Clear F b)
    (named : x = Slot.name id (.helper .base)) (named' : y = Slot.name id (.helper .exponent))
    (named'' : z = Slot.name id (.helper .accumulator)) :
    Declares F (powerLoopText type unsigned out a b id) [x, y, z] := by
  have blank : CModule.isIdentifierChar ' ' = false := by decide
  have xs : "V" ++ id ++ "_base" = x := named ▸ Slot.append_helper id .base
  have ys : "V" ++ id ++ "_exp" = y := named' ▸ Slot.append_helper id .exponent
  have zs : "V" ++ id ++ "_acc" = z := named'' ▸ Slot.append_helper id .accumulator
  have starts : LineReads F (type ++ " " ++ x ++ " = " ++ a ++ ";") (some x) :=
    .declaration foreign typed types base first
  have resets : LineReads F (type ++ " " ++ z ++ " = 1;") (some z) :=
    ⟨by simp [foreign.clear, types, accumulator.clear], Ended.append (by decide) _,
      by simpa using declaredOn_declaration typed accumulator.named blank⟩
  have loop := reads_powerLoop foreign base exponent accumulator target
  unfold powerLoopText
  simp only [xs, ys, zs]
  cases unsigned with
  | true =>
    have takes : LineReads F ("uint64_t " ++ y ++ " = (uint64_t)" ++ b ++ ";") (some y) :=
      ⟨by simp [foreign.clear, exponent.clear, second], Ended.append (by decide) _,
        by simpa using declaredOn_declaration (t := .unsigned .w64) rfl exponent.named blank⟩
    exact .braced ([some x, some y, some z] ++ [none, none, none, none, none, none]) foreign
      (.cons starts (.cons takes (.cons resets loop))) (by simp)
  | false =>
    have takes : LineReads F ("int64_t " ++ y ++ " = (int64_t)" ++ b ++ ";") (some y) :=
      ⟨by simp [foreign.clear, exponent.clear, second], Ended.append (by decide) _,
        by simpa using declaredOn_declaration (t := .signed .w64) rfl exponent.named blank⟩
    have negative := reads_negativePower foreign base exponent accumulator
    exact .braced ([some x, some y, some z] ++ ([none, none, none] ++
      [none, none, none, none, none, none])) foreign
      (.cons starts (.cons takes (.cons resets (List.rel_append negative loop)))) (by simp)

end

variable {t : ScalarType} {type out id code : String} {helpers : List Helper}

theorem Assigns.declares (assigns : Assigns F type out id helpers code) (foreign : Foreign F)
    (typed : t.cName = .ok type) (types : Clear F type) (target : Usable F out)
    (names : ∀ h ∈ helpers, Usable F (Slot.name id (.helper h))) :
    Declares F code (helpers.map fun h => Slot.name id (.helper h)) := by
  cases assigns with
  | @expression text clear =>
    exact .line (.assignment foreign target.named.blank_notMem target.clear clear)
  | quotient first second =>
    exact declares_signedQuotient foreign typed types target first second rfl rfl
      (names .dividend (by simp)) (names .divisor (by simp))
  | remainder first second =>
    exact declares_signedRemainder foreign typed types target first second rfl rfl
      (names .divisor (by simp)) (names .remainder (by simp))
  | fraction function first second =>
    exact declares_floatRemainder foreign typed types target first second function rfl
      (names .remainder (by simp))
  | power first second =>
    exact declares_powerLoopText foreign (names .base (by simp)) (names .exponent (by simp))
      (names .accumulator (by simp)) target typed types first second rfl rfl rfl

end Primitive

namespace Code

/-- The types in the code: those of operands and temporaries, and those that operands are joined at.
    -/
def types : Code → List ScalarType
  | results assigned => assigned.map fun entry => entry.2.type
  | apply _ _ operands temporaries rest =>
    operands.map Operand.type ++ temporaries.map Operand.type ++
      ((ScalarType.upcast (operands.map Operand.type)).toList ++ rest.types)
  | call body operands temporaries rest =>
    operands.map Operand.type ++ temporaries.map Operand.type ++ (body.types ++ rest.types)

theorem lacks_of_visible {ins scope : List String} (foreign : Foreign F)
    (clear : ∀ s ∈ ins ++ scope, Clear F s) {o : Operand} (visible : o.Visible ins scope)
    (spares : o.type.Spares F) : o.Lacks F := by
  refine ⟨?_, spares⟩
  obtain inside | inside | ⟨literal, same⟩ := visible
  · exact clear _ (List.mem_append_left _ inside)
  · exact clear _ (List.mem_append_right _ inside)
  · rw [same]
    exact literal.clear_cText foreign _

theorem declares_declaration (foreign : Foreign F) {o : Operand} {declaration : String}
    (usable : Usable F o.text) (spares : o.type.Spares F) (written : o.declaration = .ok declaration) :
    Declares F declaration [o.text] := by
  obtain ⟨type, typed, last⟩ := bind_eq_ok written
  obtain rfl := Except.ok.inj last
  have clear := spares.clear_cName foreign typed
  have stop : CModule.isIdentifierChar ';' = false := by decide
  have reads : LineReads F (type ++ " " ++ o.text ++ ";") (some o.text) :=
    ⟨by simp [foreign.clear, clear, usable.clear], Ended.append (by decide) _,
      by simpa using declaredOn_declaration typed usable.named stop⟩
  exact .line reads

theorem exists_declares_temporaries (foreign : Foreign F) {temporaries : List Operand}
    {declarations : List String} (usable : ∀ o ∈ temporaries, Usable F o.text)
    (spares : ∀ o ∈ temporaries, o.type.Spares F)
    (written : temporaries.mapM Operand.declaration = .ok declarations) :
    ∃ nss, List.Forall₂ (Declares F) declarations nss ∧
      nss.flatten = temporaries.map Operand.text := by
  induction temporaries generalizing declarations with
  | nil =>
    obtain rfl := Except.ok.inj written
    exact ⟨[], .nil, rfl⟩
  | cons o temporaries ih =>
    rw [List.mapM_cons] at written
    obtain ⟨declaration, first, written⟩ := bind_eq_ok written
    obtain ⟨others, rest, last⟩ := bind_eq_ok written
    obtain rfl := Except.ok.inj last
    obtain ⟨nss, declares, names⟩ := ih (fun other member => usable other (by simp [member]))
      (fun other member => spares other (by simp [member])) rest
    refine ⟨[o.text] :: nss, .cons ?_ declares, by simp [names]⟩
    exact declares_declaration foreign (usable o (by simp)) (spares o (by simp)) first

variable {e : Expression Composite} {code : Code} {outs ins scope texts : List String}
  {nodes : List (NodeId × Node Composite)}

theorem clear_wider (clear : ∀ s ∈ ins ++ scope, Clear F s) {temporaries : List Operand}
    (usable : ∀ o ∈ temporaries, Usable F o.text) :
    ∀ s ∈ ins ++ (scope ++ temporaries.map Operand.text), Clear F s := by
  intro s member
  rw [← List.append_assoc, List.mem_append] at member
  obtain inside | temporary := member
  · exact clear s inside
  · obtain ⟨o, inside, rfl⟩ := List.mem_map.mp temporary
    exact (usable o inside).clear

theorem Follows.exists_declares (follows : code.Follows e outs nodes) (foreign : Foreign F)
    (newline : F '\n' = true) (visible : code.Scoped ins scope)
    (clear : ∀ s ∈ ins ++ scope, Clear F s) (targets : ∀ s ∈ outs, ' ' ∉ s.toList ∧ Clear F s)
    (usable : ∀ s ∈ code.declared, Usable F s) (spares : ∀ t ∈ code.types, t.Spares F)
    (statements : code.statements = .ok texts) :
    texts ≠ [] ∧ ∃ nss, List.Forall₂ (Declares F) texts nss ∧ nss.flatten = code.declared := by
  induction follows generalizing ins scope texts with
  | @results e assigned types nonempty =>
    obtain rfl := Except.ok.inj statements
    refine ⟨by simpa using nonempty, assigned.map fun _ => [], ?_, by simp [Code.declared]⟩
    rw [List.forall₂_map_left_iff, List.forall₂_map_right_iff, List.forall₂_same]
    intro entry member
    have lacks := lacks_of_visible foreign clear (visible entry member)
      (spares _ (List.mem_map_of_mem (f := fun entry => entry.2.type) member))
    obtain ⟨word, target⟩ := targets entry.1 (List.mem_map_of_mem member)
    exact .line (.assignment foreign word target lacks.text)
  | @apply e outs n node nodes p id operands temporaries rest op inputs outputs following ih =>
    obtain ⟨declarations, lists, statements⟩ := bind_eq_ok statements
    obtain ⟨statement, written, statements⟩ := bind_eq_ok statements
    obtain ⟨later, next, last⟩ := bind_eq_ok statements
    obtain rfl := Except.ok.inj last
    simp only [Code.declared, List.mem_append, or_imp, forall_and, List.forall_mem_map] at usable
    simp only [Code.types, List.mem_append, or_imp, forall_and, List.forall_mem_map] at spares
    obtain ⟨temporary, helpers, rests⟩ := usable
    obtain ⟨⟨operand, output⟩, -, types⟩ := spares
    have lacks : ∀ o ∈ operands, o.Lacks F := fun o member =>
      lacks_of_visible foreign clear (visible.1 o member) (operand o member)
    obtain ⟨out, type, inside, typed, assigns⟩ := p.assigns_of_statement foreign lacks output written
    have set := assigns.declares foreign typed ((output out inside).clear_cName foreign typed)
      (temporary out inside) helpers
    obtain ⟨nss, first, names⟩ := exists_declares_temporaries foreign temporary output lists
    obtain ⟨-, nss', rest, names'⟩ := ih visible.2 (clear_wider clear temporary) targets rests types next
    refine ⟨by simp, nss ++ _ :: nss', List.rel_append first (.cons set rest), ?_⟩
    rw [List.flatten_append, List.flatten_cons, names, names', Code.declared]
  | @call e outs n node nodes c body operands temporaries rest op inputs outputs nested following ih ih' =>
    obtain ⟨declarations, lists, statements⟩ := bind_eq_ok statements
    obtain ⟨inner, within, statements⟩ := bind_eq_ok statements
    obtain ⟨later, next, last⟩ := bind_eq_ok statements
    obtain rfl := Except.ok.inj last
    simp only [Code.declared, List.mem_append, or_imp, forall_and, List.forall_mem_map] at usable
    simp only [Code.types, List.mem_append, or_imp, forall_and, List.forall_mem_map] at spares
    obtain ⟨temporary, bodies, rests⟩ := usable
    obtain ⟨⟨operand, output⟩, types, types'⟩ := spares
    have arguments : ∀ s ∈ operands.map Operand.text ++ [], Clear F s := by
      rw [List.append_nil, List.forall_mem_map]
      exact fun o member =>
        (lacks_of_visible foreign clear (visible.1 o member) (operand o member)).text
    have results : ∀ s ∈ temporaries.map Operand.text, ' ' ∉ s.toList ∧ Clear F s := by
      rw [List.forall_mem_map]
      exact fun o member => ⟨(temporary o member).named.blank_notMem, (temporary o member).clear⟩
    obtain ⟨nss, first, names⟩ := exists_declares_temporaries foreign temporary output lists
    obtain ⟨nonempty, bss, block, named⟩ := ih visible.2.1 arguments results bodies types within
    obtain ⟨-, nss', rest, names'⟩ :=
      ih' visible.2.2 (clear_wider clear temporary) targets rests types' next
    have set := (Declares.joined block nonempty).block foreign newline
    refine ⟨by simp, nss ++ _ :: nss', List.rel_append first (.cons set rest), ?_⟩
    rw [List.flatten_append, List.flatten_cons, names, named, names', Code.declared]

theorem Follows.declares (follows : code.Follows e outs nodes) (foreign : Foreign F)
    (newline : F '\n' = true) (visible : code.Scoped ins []) (clear : ∀ s ∈ ins, Clear F s)
    (targets : ∀ s ∈ outs, ' ' ∉ s.toList ∧ Clear F s) (usable : ∀ s ∈ code.declared, Usable F s)
    (spares : ∀ t ∈ code.types, t.Spares F) {text : String} (written : code.text = .ok text) :
    Declares F text code.declared := by
  obtain ⟨texts, statements, last⟩ := bind_eq_ok written
  obtain rfl := Except.ok.inj last
  obtain ⟨nonempty, nss, declares, names⟩ := follows.exists_declares foreign newline visible
    (by simpa using clear) targets usable spares statements
  rw [← names]
  exact .joined declares nonempty

end Code

def Text.isSmall (c : Char) : Bool :=
  c.isDigit || c.isLower || c == '_'

theorem Text.isSmall_of_mem_repr {k : Nat} : ∀ c ∈ k.repr.toList, isSmall c = true := by
  intro c member
  rw [Nat.toList_repr] at member
  simp [isSmall, Real.isDigit_of_mem_toDigits c member]

theorem Slot.isSmall_of_mem_text (s : Slot) : ∀ c ∈ s.text.toList, isSmall c = true := by
  cases s with
  | temporary n =>
    have letters : ∀ c ∈ "tmp".toList, isSmall c = true := List.all_eq_true.mp (by decide)
    intro c member
    rw [text, String.toList_append, List.mem_append] at member
    exact member.elim (letters c) (isSmall_of_mem_repr c)
  | helper h => exact List.all_eq_true.mp (by cases h <;> decide)

theorem Place.isSmall_of_mem_pathText (path : List Nat) :
    ∀ c ∈ (pathText path).toList, isSmall c = true := by
  induction path with
  | nil => simp [pathText]
  | cons k path ih =>
    intro c member
    rw [pathText, String.toList_append, String.toList_append, List.mem_append, List.mem_append] at member
    obtain (mark | digit) | later := member
    · obtain rfl : c = '_' := by simpa using mark
      decide
    · exact isSmall_of_mem_repr c digit
    · exact ih c later

theorem Text.Foreign.eq_false_of_isSmall (foreign : Foreign F) {c : Char} (small : isSmall c = true) :
    F c = false := by
  refine foreign c ?_ ?_ <;> rintro rfl <;> exact absurd small (by decide)

theorem Text.Foreign.clear_repr (foreign : Foreign F) (k : Nat) : Clear F k.repr :=
  fun c member => foreign.eq_false_of_isSmall (isSmall_of_mem_repr c member)

theorem Place.usable_name (foreign : Foreign F) {id : String}
    (letters : ∀ c ∈ id.toList, CModule.isIdentifierChar c = true) (clear : Clear F id) (s : Place) :
    Usable F (s.name id) := by
  have whole : (s.name id).toList =
      'V' :: (id.toList ++ ((pathText s.path).toList ++ '_' :: s.slot.text.toList)) := by
    simp [name, Slot.name]
  have small : ∀ c ∈ (pathText s.path).toList ++ '_' :: s.slot.text.toList, isSmall c = true := by
    intro c member
    rw [List.mem_append, List.mem_cons] at member
    obtain path | rfl | slot := member
    · exact isSmall_of_mem_pathText s.path c path
    · decide
    · exact s.slot.isSmall_of_mem_text c slot
  refine ⟨⟨_, whole, ?_⟩, ?_⟩
  · intro c member
    obtain inside | inside := List.mem_append.mp member
    · exact letters c inside
    · have kind := small c inside
      simp only [isSmall, Bool.or_eq_true] at kind
      simp only [CModule.isIdentifierChar, Char.isAlphanum, Char.isAlpha, Bool.or_eq_true]
      tauto
  · intro c member
    rw [whole, List.mem_cons, List.mem_append] at member
    obtain rfl | inside | inside := member
    · exact foreign 'V' (by decide) (by decide)
    · exact clear c inside
    · exact foreign.eq_false_of_isSmall (small c inside)

/-- Names under which the declarations can be read off the text: no newline in them, no blank in what is
    assigned to, and an id of letters, digits and underscores. -/
structure Text.Legible (ins outs : List String) (id : String) : Prop where
  inputs : ∀ s ∈ ins, '\n' ∉ s.toList
  outputs : ∀ s ∈ outs, ' ' ∉ s.toList ∧ '\n' ∉ s.toList
  letters : ∀ c ∈ id.toList, CModule.isIdentifierChar c = true

theorem Code.Shows.declares {code : Code} {c : Composite} {ins outs : List String} {id text : String}
    (shows : code.Shows c ins outs id text) (foreign : Foreign F) (newline : F '\n' = true)
    (letters : ∀ c ∈ id.toList, CModule.isIdentifierChar c = true) (clear : Clear F id)
    (inputs : ∀ s ∈ ins, Clear F s) (outputs : ∀ s ∈ outs, ' ' ∉ s.toList ∧ Clear F s)
    (spares : ∀ t ∈ code.types, t.Spares F) : Declares F text code.declared := by
  have usable : ∀ s ∈ code.declared, Usable F s := by
    rw [shows.declared, List.forall_mem_map]
    exact fun s _ => s.usable_name foreign letters clear
  exact shows.follows.declares foreign newline shows.visible inputs outputs usable spares shows.text

theorem Code.Shows.declared_eq {code : Code} {c : Composite} {ins outs : List String} {id text : String}
    (shows : code.Shows c ins outs id text) (legible : Legible ins outs id) :
    Text.declared text = code.declared := by
  have clear : ∀ {s : String}, '\n' ∉ s.toList → Clear (· == '\n') s := fun whole c member =>
    beq_false_of_ne fun same => whole (same ▸ member)
  have id_clear : Clear (· == '\n') id := clear fun member =>
    absurd (legible.letters '\n' member) (by decide)
  have declares := shows.declares foreign_newline rfl legible.letters id_clear
    (fun s member => clear (legible.inputs s member))
    (fun s member => (legible.outputs s member).imp_right clear) fun _ _ letter => absurd letter (by decide)
  exact declares.declared_eq rfl

/-- Emitted code declares each identifier once, one for each output of a node and each helper of a
    statement, and takes its operands from what the body around them has. -/
theorem emission_declares_once {c : Composite} (obtained : Obtained c) {ins outs : List String}
    {id text : String} (emitted : c.emit ins outs id = .ok text) :
    ∃ code : Code, code.Shows c ins outs id text ∧ code.declared.Nodup ∧
      (Legible ins outs id → Text.declared text = code.declared) := by
  obtain ⟨code, shows⟩ := obtained.wellBuilt.coded emitted
  refine ⟨code, shows, ?_, shows.declared_eq⟩
  rw [shows.declared]
  exact obtained.wellBuilt.nodup_places.map (Place.name_injective id)

def Graph.quotients : Arena :=
  (Action.apply (.prim .mod) [0, 1]).perform ((Action.apply (.prim .intDiv) [0, 1]).perform
    ((Action.newVariable (.signed .w32) (some "y")).perform
      ((Action.newVariable (.signed .w32) (some "x")).perform {})))

def Composite.quotients : Composite :=
  .mk ⟨.quotients, [0, 1], [2, 3], [0, 1]⟩

def Graph.calledQuotients : Arena :=
  (Action.call .quotients [0, 1]).perform
    ((Action.newVariable (.signed .w32) (some "y")).perform
      ((Action.newVariable (.signed .w32) (some "x")).perform {}))

def Composite.calledQuotients : Composite :=
  .mk ⟨.calledQuotients, [0, 1], [2, 3], [0]⟩

theorem quotients_obtained : Obtained .quotients := by
  have reachable : Reachable .quotients := by
    refine .perform (.perform (.perform (.perform (.empty {}) ?_ ?_) ?_ ?_) ?_ ?_) ?_ ?_
    all_goals first | decide | simp [Action.composite?, Op.callee?]
  exact .fuse reachable (by decide : Graph.quotients.Knows ([0, 1] ++ [2, 3])) rfl

theorem calledQuotients_obtained : Obtained .calledQuotients := by
  have reachable : Reachable .calledQuotients := by
    refine .perform (.perform (.perform (.empty {}) ?_ ?_) ?_ ?_) ?_ ?_
    all_goals first | decide | simp [Action.composite?]
    exact quotients_obtained
  exact .fuse reachable (by decide : Graph.calledQuotients.Knows ([0, 1] ++ [2, 3])) rfl

theorem exists_ok_of_isOk {α : Type} {result : Except Error α} (success : result.isOk = true) :
    ∃ value, result = .ok value := by
  cases result with
  | error e => cases success
  | ok value => exact ⟨value, rfl⟩

theorem calledQuotients_emitted :
    ∃ text, Composite.calledQuotients.emit ["x", "y"] ["q", "r"] "0" = .ok text := by
  apply exists_ok_of_isOk
  rw [Composite.emit_eq]
  decide +kernel

theorem quotients_emitted :
    ∃ text, Composite.quotients.emit ["x", "y"] ["q", "r"] "0_0" = .ok text := by
  apply exists_ok_of_isOk
  rw [Composite.emit_eq]
  decide +kernel

theorem quotients_declared_once : Obtained .calledQuotients ∧ ∃ (text : String) (code : Code),
    Composite.calledQuotients.emit ["x", "y"] ["q", "r"] "0" = .ok text ∧
    code.Shows .calledQuotients ["x", "y"] ["q", "r"] "0" text ∧ code.declared.Nodup ∧
    Text.declared text = ["V0_tmp0", "V0_tmp1", "V0_0_tmp0", "V0_0_0_a", "V0_0_0_b", "V0_0_tmp1",
      "V0_0_1_b", "V0_0_1_r"] := by
  obtain ⟨text, emitted⟩ := calledQuotients_emitted
  obtain ⟨code, shows, once, read⟩ := emission_declares_once calledQuotients_obtained emitted
  refine ⟨calledQuotients_obtained, text, code, emitted, shows, once, ?_⟩
  rw [read ⟨by decide, by decide, List.all_eq_true.mp (by decide)⟩, shows.declared,
    Composite.places_eq]
  decide +kernel

/-- Two emitted texts declare an identifier in common exactly if both composites have nodes and one id is
    the other with the positions of calls after it, which lead to a body with nodes. Distinct ids without
    underscores keep them apart. -/
theorem shared_identifiers_iff {a b : Composite} (obtained : Obtained a) (obtained' : Obtained b)
    {ins ins' outs outs' : List String} {p q text text' : String}
    (emitted : a.emit ins outs p = .ok text) (emitted' : b.emit ins' outs' q = .ok text') :
    ∃ code code' : Code, code.Shows a ins outs p text ∧ code'.Shows b ins' outs' q text' ∧
      ((∃ x, x ∈ code.declared ∧ x ∈ code'.declared) ↔
        a.Extends p q ∧ b.body.nodes ≠ [] ∨ b.Extends q p ∧ a.body.nodes ≠ []) ∧
      (p ≠ q → '_' ∉ p.toList → '_' ∉ q.toList → code.declared.Disjoint code'.declared) ∧
      (Legible ins outs p → Legible ins' outs' q →
        Text.declared text = code.declared ∧ Text.declared text' = code'.declared) := by
  obtain ⟨code, shows⟩ := obtained.wellBuilt.coded emitted
  obtain ⟨code', shows'⟩ := obtained'.wellBuilt.coded emitted'
  have shared := obtained.wellBuilt.shares_iff obtained'.wellBuilt (p := p) (q := q)
  rw [← shows.declared, ← shows'.declared] at shared
  refine ⟨code, code', shows, shows', shared, ?_, ?_⟩
  · intro distinct clear clear' x inside inside'
    obtain ⟨extended, -⟩ | ⟨extended, -⟩ := shared.mp ⟨x, inside, inside'⟩
    · exact distinct (extended.eq clear').symm
    · exact distinct (extended.eq clear)
  · exact fun legible legible' => ⟨shows.declared_eq legible, shows'.declared_eq legible'⟩

/-- The body that is called has an id of its own, and the same composite under that id declares the same
    identifiers. -/
theorem quotients_shared : Obtained .calledQuotients ∧ Obtained .quotients ∧ ∃ text text' : String,
    Composite.calledQuotients.emit ["x", "y"] ["q", "r"] "0" = .ok text ∧
    Composite.quotients.emit ["x", "y"] ["q", "r"] "0_0" = .ok text' ∧
    ∃ x, x ∈ Text.declared text ∧ x ∈ Text.declared text' := by
  obtain ⟨text, emitted⟩ := calledQuotients_emitted
  obtain ⟨text', emitted'⟩ := quotients_emitted
  obtain ⟨code, code', -, -, shared, -, read⟩ :=
    shared_identifiers_iff calledQuotients_obtained quotients_obtained emitted emitted'
  obtain ⟨first, second⟩ := read ⟨by decide, by decide, List.all_eq_true.mp (by decide)⟩
    ⟨by decide, by decide, List.all_eq_true.mp (by decide)⟩
  refine ⟨calledQuotients_obtained, quotients_obtained, text, text', emitted, emitted', ?_⟩
  rw [first, second]
  exact shared.mpr (.inl ⟨⟨[0], .quotients, by decide, rfl, by decide⟩, by decide⟩)

end ScalarFusion

import ScalarFusion.Proofs.Declaring
import ScalarFusion.Proofs.Decrementing
import ScalarFusion.Proofs.Naming

/-!
The layout of a module. Moving a block keeps it line by line if no line is blank and the first one is
not indented, and the code of a body is such a block. The header for complex numbers is there if a type
in the code is complex, since each type in the code is that of a value, or joins the types of some.
-/
namespace ScalarFusion

open Text

namespace Text

def Flush (s : String) : Prop :=
  ∃ c rest, s.toList = c :: rest ∧ c ≠ ' ' ∧ c ≠ '\t'

theorem Flush.append {a : String} (flush : Flush a) (b : String) : Flush (a ++ b) := by
  obtain ⟨c, rest, start, other⟩ := flush
  exact ⟨c, rest ++ b.toList, by rw [String.toList_append, start, List.cons_append], other⟩

theorem Flush.leading_eq {s : String} (flush : Flush s) : leading s.toList = 0 := by
  obtain ⟨c, rest, start, blank, tab⟩ := flush
  rw [leading, start, List.takeWhile_cons_of_neg (by simp [blank, tab]), List.length_nil]

theorem Flush.isEmpty_eq {s : String} (flush : Flush s) : s.isEmpty = false := by
  obtain ⟨c, rest, start, -⟩ := flush
  rw [Bool.eq_false_iff]
  intro empty
  simp [String.isEmpty_iff.mp empty] at start

theorem Ended.isBlankLine_eq {l : String} (ended : Ended l) : isBlankLine l.toList = false := by
  obtain ⟨c, last, sign⟩ := ended.exists_last
  rw [isBlankLine, List.all_eq_false]
  refine ⟨c, List.mem_of_getLast? last, ?_⟩
  obtain rfl | rfl | rfl := sign <;> decide

theorem trimBlock_eq {ls : List (List Char)} (full : ∀ l ∈ ls, isBlankLine l = false) :
    trimBlock ls = ls := by
  unfold trimBlock
  cases ls with
  | nil => rfl
  | cons l rest =>
    have first := full l (by simp)
    simp only [first, Bool.false_eq_true, if_false]
    cases mirrored : (l :: rest).reverse with
    | nil => simp at mirrored
    | cons m ms =>
      have last := full m (List.mem_reverse.mp (by simp [mirrored]))
      simp only [last, Bool.false_eq_true, if_false]
      rw [← mirrored, List.reverse_reverse]

theorem commonIndent_eq {ls : List (List Char)} (full : ∀ l ∈ ls, isBlankLine l = false)
    {l : List Char} (member : l ∈ ls) (start : leading l = 0) : commonIndent ls = 0 := by
  have kept : ls.filter (fun l => !isBlankLine l) = ls :=
    List.filter_eq_self.mpr fun l member => by simp [full l member]
  have least : (ls.map leading).min? = some 0 :=
    List.min?_eq_some_iff.mpr ⟨List.mem_map.mpr ⟨l, member, start⟩, fun _ _ => Nat.zero_le _⟩
  rw [commonIndent, kept, least, Option.getD_some]

theorem moveLine_eq {pad l : String} (ended : Ended l) :
    moveLine pad 0 l.toList = pad ++ l ++ "\n" := by
  have kept : (if 0 ≤ l.toList.length then l.toList.drop 0 else l.toList.dropWhile isBlank) = l.toList :=
    if_pos (Nat.zero_le _)
  rw [moveLine, kept, ended.isBlankLine_eq, String.ofList_toList]
  rfl

theorem Lists.flush_head {F : Char → Bool} {text l : String} {ls : List String}
    (lists : Lists F text (l :: ls)) (flush : Flush text) : Flush l := by
  have whole : ∃ rest, text = l ++ rest := by
    cases ls with
    | nil => exact ⟨"", by simp [lists.joined]⟩
    | cons m ls => exact ⟨"\n" ++ String.intercalate "\n" (m :: ls),
        by rw [lists.joined, String.intercalate_cons_cons, String.append_assoc]⟩
  obtain ⟨rest, rfl⟩ := whole
  obtain ⟨c, others, start, other⟩ := flush
  rw [String.toList_append] at start
  cases letters : l.toList with
  | nil => simpa [letters] using (lists.ended l (by simp)).isEmpty_eq
  | cons d tail =>
    rw [letters, List.cons_append] at start
    obtain rfl := (List.cons.inj start).1
    exact ⟨d, tail, letters, other⟩

theorem Lists.moveBlock_eq {F : Char → Bool} {text : String} {ls : List String}
    (lists : Lists F text ls) (newline : F '\n' = true) (flush : Flush text) (pad : String) :
    moveBlock pad text = String.join (ls.map fun l => pad ++ l ++ "\n") := by
  have full : ∀ l ∈ ls.map String.toList, isBlankLine l = false := by
    rw [List.forall_mem_map]
    exact fun l member => (lists.ended l member).isBlankLine_eq
  have moved : ls.map (fun l => moveLine pad 0 l.toList) = ls.map fun l => pad ++ l ++ "\n" :=
    List.map_congr_left fun l member => moveLine_eq (lists.ended l member)
  obtain ⟨l, rest, rfl⟩ := List.exists_cons_of_ne_nil lists.nonempty
  have start : leading l.toList = 0 := (lists.flush_head flush).leading_eq
  have indent := commonIndent_eq full (List.mem_map_of_mem (f := String.toList) List.mem_cons_self) start
  rw [moveBlock, flush.isEmpty_eq, lists.splitLines newline, trimBlock_eq full]
  simp only [indent, Bool.false_eq_true, if_false, List.map_map]
  exact congrArg String.join moved

theorem Lists.notMem {F : Char → Bool} {text : String} {ls : List String} (lists : Lists F text ls)
    {c : Char} (inside : F c = true) (other : c ≠ '\n') : c ∉ text.toList := by
  have clear : Clear (· == c) text := by
    rw [lists.joined]
    refine clear_joined (by simpa [Clear] using other.symm) fun l member d letter => ?_
    refine beq_false_of_ne fun same => ?_
    have absent := lists.clear l member d letter
    rw [same, inside] at absent
    cases absent
  intro member
  simpa using clear c member

end Text

theorem ScalarType.flush_cName {t : ScalarType} {name : String} (named : t.cName = .ok name) :
    Flush name := by
  rcases t with _ | (_ | _ | _ | _) | (_ | _ | _ | _) | (_ | _ | _) | (_ | _) <;> cases named <;>
    exact ⟨_, _, rfl, by decide, by decide⟩

theorem ScalarType.isComplex_upcast {ts : List ScalarType} (real : ∀ t ∈ ts, t.isComplex = false)
    {t : ScalarType} (joined : upcast ts = some t) : t.isComplex = false := by
  cases ts with
  | nil => cases joined
  | cons u us =>
    obtain rfl := Option.some.inj joined
    rw [isComplex_foldl, List.any_eq_false]
    intro s member
    simp [real s member]

theorem CModule.real_types {c : Composite} (real : usesComplex c = false) (vs : List ValueId) :
    ∀ t ∈ vs.map c.graph.typeOf, t.isComplex = false := by
  rw [usesComplex, Composite.mentions_eq, Bool.or_eq_false_iff, Array.any_eq_false'] at real
  rw [List.forall_mem_map]
  intro v _
  unfold Graph.typeOf
  split
  · next found => exact Bool.eq_false_iff.mpr (real.1 _ (Array.mem_of_getElem? found))
  · rfl

theorem CModule.real_callee {c d : Composite} (real : usesComplex c = false)
    (callee : d ∈ c.body.callees) : usesComplex d = false := by
  rw [usesComplex, Composite.mentions_eq, Bool.or_eq_false_iff, List.any_eq_false] at real
  exact Bool.eq_false_iff.mpr (real.2 d callee)

namespace Code.Follows

variable {e : Expression Composite} {code : Code} {outs texts : List String}
  {nodes : List (NodeId × Node Composite)}

theorem outs_ne_nil (follows : code.Follows e outs nodes) : outs ≠ [] := by
  induction follows with
  | results _ nonempty => simpa using nonempty
  | apply _ _ _ _ ih => exact ih
  | call _ _ _ _ _ _ ih => exact ih

theorem flush_declarations {temporaries : List Operand} {declarations : List String}
    (nonempty : temporaries ≠ []) (written : temporaries.mapM Operand.declaration = .ok declarations) :
    ∃ first rest, declarations = first :: rest ∧ Flush first := by
  obtain ⟨o, others, rfl⟩ := List.exists_cons_of_ne_nil nonempty
  rw [List.mapM_cons] at written
  obtain ⟨first, declared, written⟩ := bind_eq_ok written
  obtain ⟨rest, -, last⟩ := bind_eq_ok written
  obtain rfl := Except.ok.inj last
  obtain ⟨type, typed, same⟩ := bind_eq_ok declared
  obtain rfl := Except.ok.inj same
  exact ⟨_, rest, rfl, (((ScalarType.flush_cName typed).append _).append _).append _⟩

theorem flush_statements (follows : code.Follows e outs nodes) (targets : ∀ s ∈ outs, Flush s)
    (statements : code.statements = .ok texts) : ∃ first rest, texts = first :: rest ∧ Flush first := by
  cases follows with
  | @results _ assigned _ nonempty =>
    obtain ⟨entry, others, rfl⟩ := List.exists_cons_of_ne_nil nonempty
    obtain rfl := Except.ok.inj statements
    exact ⟨_, _, rfl, (((targets entry.1 (by simp)).append _).append _).append _⟩
  | @apply _ _ _ node nodes p id operands temporaries rest =>
    obtain ⟨declarations, lists, statements⟩ := bind_eq_ok statements
    obtain ⟨statement, written, statements⟩ := bind_eq_ok statements
    obtain ⟨later, -, last⟩ := bind_eq_ok statements
    obtain rfl := Except.ok.inj last
    have nonempty : temporaries ≠ [] := by
      rintro rfl
      obtain ⟨_, -, written⟩ := bind_eq_ok written
      cases written
    obtain ⟨first, others, rfl, flush⟩ := flush_declarations nonempty lists
    exact ⟨first, _, rfl, flush⟩
  | @call _ _ _ node nodes c body operands temporaries rest op inputs outputs nested =>
    obtain ⟨declarations, lists, statements⟩ := bind_eq_ok statements
    obtain ⟨inner, -, statements⟩ := bind_eq_ok statements
    obtain ⟨later, -, last⟩ := bind_eq_ok statements
    obtain rfl := Except.ok.inj last
    have nonempty : temporaries ≠ [] := by simpa using nested.outs_ne_nil
    obtain ⟨first, others, rfl, flush⟩ := flush_declarations nonempty lists
    exact ⟨first, _, rfl, flush⟩

theorem flush_text (follows : code.Follows e outs nodes) (targets : ∀ s ∈ outs, Flush s)
    {text : String} (written : code.text = .ok text) : Flush text := by
  obtain ⟨texts, statements, last⟩ := bind_eq_ok written
  obtain rfl := Except.ok.inj last
  obtain ⟨first, rest, rfl, flush⟩ := follows.flush_statements targets statements
  cases rest with
  | nil => simpa using flush
  | cons next rest =>
    rw [String.intercalate_cons_cons]
    exact (flush.append _).append _

/-- A type in the code is that of a value, or it joins such types: where no value is complex, it is
    not. -/
theorem isComplex_eq_false (follows : code.Follows e outs nodes)
    (inside : ∀ entry ∈ nodes, entry ∈ e.nodes) (real : CModule.usesComplex (.mk e) = false) :
    ∀ t ∈ code.types, t.isComplex = false := by
  induction follows with
  | @results e assigned types _ =>
    rw [Code.types, types]
    exact CModule.real_types real e.outputs
  | @apply e outs n node nodes p id operands temporaries rest op inputs outputs following ih =>
    have types := CModule.real_types real
    have rests := ih (fun entry later => inside entry (by simp [later])) real
    simp only [Code.types, inputs, outputs, List.mem_append, or_imp, forall_and]
    refine ⟨⟨types node.inputs, types node.outputs⟩, fun t joined => ?_, rests⟩
    exact ScalarType.isComplex_upcast (types node.inputs) (Option.mem_toList.mp joined)
  | @call e outs n node nodes c body operands temporaries rest op inputs outputs _ _ ih ih' =>
    have types := CModule.real_types real
    have callee := CModule.real_callee real
      (Expression.mem_callees.mpr ⟨n, node, inside (n, node) (by simp), op⟩)
    have bodies := ih (fun entry member => member) (by cases c; exact callee)
    have rests := ih' (fun entry later => inside entry (by simp [later])) real
    simp only [Code.types, inputs, outputs, List.mem_append, or_imp, forall_and]
    exact ⟨⟨types node.inputs, types node.outputs⟩, bodies, rests⟩

end Code.Follows

namespace CModule

theorem isIdentifierChar_of_mem_hex (w : UInt64) :
    ∀ c ∈ (Hash.hex w).toList, isIdentifierChar c = true := by
  have digits : ∀ n < 16, isIdentifierChar (Hash.hexDigit n) = true := by decide
  intro c member
  rw [Hash.hex, String.toList_ofList, List.mem_map] at member
  obtain ⟨k, -, rfl⟩ := member
  exact digits _ (Nat.mod_lt _ (by decide))

theorem isIdentifier_iff {name : String} : isIdentifier name = true ↔
    ∃ c cs, name.toList = c :: cs ∧ c.isDigit = false ∧ ∀ d ∈ c :: cs, isIdentifierChar d = true := by
  unfold isIdentifier
  split
  · next empty => simp [empty]
  · next c cs letters => simp [letters]

theorem isIdentifier_identifier (s : String) : isIdentifier (identifier s) = true := by
  have kept : ∀ c, isIdentifierChar (if isIdentifierChar c then c else '_') = true := by
    intro c
    split
    · assumption
    · decide
  unfold identifier
  cases s.toList with
  | nil => decide
  | cons c cs =>
    have letters : ∀ d ∈ (c :: cs).map (fun c => if isIdentifierChar c then c else '_'),
        isIdentifierChar d = true := by
      rw [List.forall_mem_map]
      exact fun d _ => kept d
    rw [isIdentifier_iff]
    cases digit : c.isDigit with
    | true =>
      exact ⟨'_', (c :: cs).map _, by simp [digit], by decide,
        List.forall_mem_cons.mpr ⟨by decide, letters⟩⟩
    | false =>
      refine ⟨if isIdentifierChar c then c else '_', cs.map _, by simp [digit], ?_, letters⟩
      split
      · exact digit
      · decide

theorem isIdentifier_append {s r : String} (identifier : isIdentifier s = true)
    (rest : ∀ c ∈ r.toList, isIdentifierChar c = true) : isIdentifier (s ++ r) = true := by
  obtain ⟨c, cs, letters, digit, inside⟩ := isIdentifier_iff.mp identifier
  refine isIdentifier_iff.mpr ⟨c, cs ++ r.toList, by simp [letters], digit, fun d member => ?_⟩
  rw [← List.cons_append, List.mem_append] at member
  exact member.elim (inside d) (rest d)

theorem isIdentifier_entrypoint (stem : String) (c : Composite) :
    isIdentifier (entrypoint stem c) = true := by
  have marks : ∀ c ∈ "__".toList, isIdentifierChar c = true := List.all_eq_true.mp (by decide)
  exact isIdentifier_append (isIdentifier_append (isIdentifier_identifier stem) marks)
    (isIdentifierChar_of_mem_hex _)

theorem exists_cNames {f : String → Nat → String} {types : List ScalarType} {k : Nat}
    {params : List String} (written : (types.zipIdx k).mapM (fun entry => do
      let type ← entry.1.cName
      .ok (f type entry.2)) = .ok params) :
    ∃ names, types.mapM ScalarType.cName = .ok names ∧
      params = (names.zipIdx k).map fun entry => f entry.1 entry.2 := by
  induction types generalizing k params with
  | nil =>
    obtain rfl := Except.ok.inj written
    exact ⟨[], rfl, rfl⟩
  | cons t types ih =>
    rw [List.zipIdx_cons, List.mapM_cons] at written
    obtain ⟨param, first, written⟩ := bind_eq_ok written
    obtain ⟨others, rest, last⟩ := bind_eq_ok written
    obtain rfl := Except.ok.inj last
    obtain ⟨name, named, same⟩ := bind_eq_ok first
    obtain rfl := Except.ok.inj same
    obtain ⟨names, mapped, rfl⟩ := ih rest
    exact ⟨name :: names, by rw [List.mapM_cons, named, mapped]; rfl, rfl⟩

def inputNames (c : Composite) : List String :=
  (List.range c.inputCount).map fun k => "i" ++ toString k

def outputNames (c : Composite) : List String :=
  (List.range c.outputCount).map fun k => "(*o" ++ toString k ++ ")"

def signature (symbol : String) (inputs outputs : List String) : String :=
  "void " ++ symbol ++ "(" ++ String.intercalate ", "
    ((inputs.zipIdx.map fun entry => entry.1 ++ " i" ++ toString entry.2) ++
      outputs.zipIdx.map fun entry => entry.1 ++ "* o" ++ toString entry.2) ++ ") \x7b"

def layout (complex : Bool) (signature : String) (lines : List String) : List String :=
  ["#include <stdint.h>", "#include <math.h>"] ++ (if complex then ["#include <complex.h>"] else []) ++
    ["", signature] ++ lines.map ("  " ++ ·) ++ ["\x7d"]

theorem exists_of_write {c : Composite} {symbol source : String}
    (written : write c symbol = .ok source) :
    ∃ inputs outputs body, c.inputTypes.mapM ScalarType.cName = .ok inputs ∧
      c.outputTypes.mapM ScalarType.cName = .ok outputs ∧
      c.emit (inputNames c) (outputNames c) "0" = .ok body ∧
      source = "#include <stdint.h>\n#include <math.h>\n" ++
        (if usesComplex c then "#include <complex.h>\n" else "") ++ "\n" ++
        signature symbol inputs outputs ++ "\n" ++ moveBlock "  " body ++ "\x7d\n" := by
  obtain ⟨params, listed, written⟩ := bind_eq_ok written
  obtain ⟨body, emitted, last⟩ := bind_eq_ok written
  obtain ⟨first, inputs, listed⟩ := bind_eq_ok listed
  obtain ⟨second, outputs, same⟩ := bind_eq_ok listed
  obtain rfl := Except.ok.inj same
  obtain ⟨names, named, rfl⟩ := exists_cNames (f := fun type k => type ++ " i" ++ toString k) inputs
  obtain ⟨names', named', rfl⟩ := exists_cNames (f := fun type k => type ++ "* o" ++ toString k) outputs
  refine ⟨names, names', body, named, named', emitted, (Except.ok.inj last).symm.trans ?_⟩
  have brace : ") \x7b\n" = ") \x7b" ++ "\n" := rfl
  rw [brace, signature]
  simp only [String.append_assoc]

theorem join_layout (complex : Bool) (signature : String) (lines : List String) :
    String.join ((layout complex signature lines).map (· ++ "\n")) =
      "#include <stdint.h>\n#include <math.h>\n" ++
        (if complex then "#include <complex.h>\n" else "") ++ "\n" ++ signature ++ "\n" ++
        String.join (lines.map fun l => "  " ++ l ++ "\n") ++ "\x7d\n" := by
  cases complex <;> simp [layout, ← String.append_assoc, Function.comp_def]

theorem emitted_wellBuilt {c d : Composite} (good : c.WellBuilt) (same : emitted c = .ok d) :
    d.WellBuilt := by
  unfold emitted at same
  split at same
  · exact (Composite.narrow_wellBuilt good same).1
  · exact Except.ok.inj same ▸ good

section

variable {F : Char → Bool} (foreign : Foreign F)

include foreign

theorem clear_inputNames (c : Composite) : ∀ s ∈ inputNames c, Clear F s := by
  rw [inputNames, List.forall_mem_map]
  intro k _
  exact clear_append.mpr ⟨foreign.clear (by decide), foreign.clear_repr k⟩

theorem clear_outputNames (c : Composite) : ∀ s ∈ outputNames c, ' ' ∉ s.toList ∧ Clear F s := by
  rw [outputNames, List.forall_mem_map]
  intro k _
  constructor
  · intro blank
    rw [String.toList_append, String.toList_append, List.mem_append, List.mem_append] at blank
    obtain (start | digit) | stop := blank
    · exact absurd start (by decide)
    · exact absurd (isSmall_of_mem_repr ' ' digit) (by decide)
    · exact absurd stop (by decide)
  · rw [clear_append, clear_append]
    exact ⟨⟨foreign.clear (by decide), foreign.clear_repr k⟩, foreign.clear (by decide)⟩

theorem exists_lists (newline : F '\n' = true) {c : Composite} {code : Code} {body : String}
    (shows : code.Shows c (inputNames c) (outputNames c) "0" body)
    (spares : ∀ t ∈ code.types, t.Spares F) : ∃ lines, Lists F body lines := by
  have digit : ∀ c ∈ "0".toList, isIdentifierChar c = true := List.all_eq_true.mp (by decide)
  obtain ⟨lines, lists, -⟩ := shows.declares foreign newline digit (foreign.clear (by decide))
    (clear_inputNames foreign c) (clear_outputNames foreign c) spares
  exact ⟨lines, lists⟩

end

theorem flush_outputNames (c : Composite) : ∀ s ∈ outputNames c, Flush s := by
  rw [outputNames, List.forall_mem_map]
  exact fun k _ => (Flush.append ⟨'(', _, rfl, by decide, by decide⟩ _).append _

theorem usesComplex_of_infix {c : Composite} {code : Code} {body : String}
    (shows : code.Shows c (inputNames c) (outputNames c) "0" body)
    (types : ∀ t ∈ code.types, t.isComplex = true → usesComplex c = true)
    (named : "_Complex".toList <:+: body.toList) : usesComplex c = true := by
  by_contra real
  have foreign : Foreign fun c => c == '\n' || c == 'C' := by
    intro c newline letter
    simp [newline, letter]
  obtain ⟨lines, lists⟩ := exists_lists foreign rfl shows fun t member _ =>
    Bool.eq_false_iff.mpr (mt (types t member) real)
  exact lists.notMem (c := 'C') rfl (by decide) (named.subset (by decide))

end CModule

/-- A module is laid out line by line. Its name is an identifier. After the headers and the first line of
    the function, which has the types of the inputs and the outputs in their order, come the lines of the
    emitted body, each after two blanks. If a type in the code is complex, or the body names one, then
    the test for complex values holds, which decides on the third header. -/
theorem module_laid_out {c : Composite} (obtained : Obtained c) {stem : String} {m : CModule}
    (converted : CModule.ofComposite stem c = .ok m) : CModule.isIdentifier m.symbol = true ∧
    ∃ (d : Composite) (inputs outputs lines : List String) (body : String) (code : Code),
      CModule.emitted c = .ok d ∧ d.inputTypes.mapM ScalarType.cName = .ok inputs ∧
      d.outputTypes.mapM ScalarType.cName = .ok outputs ∧
      d.emit (CModule.inputNames d) (CModule.outputNames d) "0" = .ok body ∧
      lines ≠ [] ∧ body = String.intercalate "\n" lines ∧ (∀ l ∈ lines, '\n' ∉ l.toList) ∧
      m.source = String.join ((CModule.layout (CModule.usesComplex d)
        (CModule.signature m.symbol inputs outputs) lines).map (· ++ "\n")) ∧
      code.Shows d (CModule.inputNames d) (CModule.outputNames d) "0" body ∧
      (∀ t ∈ code.types, t.isComplex = true → CModule.usesComplex d = true) ∧
      ("_Complex".toList <:+: body.toList → CModule.usesComplex d = true) := by
  obtain ⟨d, emitted, symbol, written⟩ := CModule.exists_emitted converted
  have good := CModule.emitted_wellBuilt obtained.wellBuilt emitted
  obtain ⟨inputs, outputs, body, named, named', text, source⟩ := CModule.exists_of_write written
  obtain ⟨code, shows⟩ := good.coded text
  obtain ⟨lines, lists⟩ := CModule.exists_lists foreign_newline rfl shows fun t _ letter =>
    absurd letter (by decide)
  have flush := shows.follows.flush_text (CModule.flush_outputNames d) shows.text
  -- complex types in the code come from values, which the test looks at
  have types : ∀ t ∈ code.types, t.isComplex = true → CModule.usesComplex d = true := by
    intro t member complex
    by_contra real
    have none := shows.follows.isComplex_eq_false (fun entry inside => inside)
      (by cases d; exact Bool.eq_false_iff.mpr real) t member
    rw [complex] at none
    cases none
  refine ⟨symbol ▸ CModule.isIdentifier_entrypoint stem d, d, inputs, outputs, lines, body, code,
    emitted, named, named', text, lists.nonempty, lists.joined, ?_, ?_, shows, types,
    CModule.usesComplex_of_infix shows types⟩
  · exact fun l member inside => absurd (lists.clear l member '\n' inside) (by decide)
  · rw [source, lists.moveBlock_eq rfl flush, CModule.join_layout]

theorem complex_negation_laid_out : Obtained (.negation (.complex .double)) ∧ ∃ m body lines,
    CModule.ofComposite "2π" (.negation (.complex .double)) = .ok m ∧
    CModule.isIdentifier m.symbol = true ∧
    (Composite.negation (.complex .double)).emit ["i0"] ["(*o0)"] "0" = .ok body ∧
    body = String.intercalate "\n" lines ∧
    m.source = String.join ((CModule.layout true
      (CModule.signature m.symbol ["double _Complex"] ["double _Complex"]) lines).map (· ++ "\n")) := by
  have obtained := negation_obtained (t := .complex .double) (by decide)
  have sound : (Composite.negation (.complex .double)).verdict = .ok () := by
    rw [Composite.verdict_eq]
    rfl
  have whole : (Composite.negation (.complex .double)).hasHalf = false := by
    rw [Composite.hasHalf_eq]
    decide +kernel
  have complex : CModule.usesComplex (.negation (.complex .double)) = true := by
    rw [CModule.usesComplex, Composite.mentions_eq]
    decide +kernel
  obtain ⟨m, converted⟩ := CModule.exists_ofComposite obtained.wellBuilt sound "2π"
  obtain ⟨named, d, inputs, outputs, lines, body, code, emitted, first, second, text, -, joined, -,
    source, -⟩ := module_laid_out obtained converted
  rw [CModule.emitted, whole] at emitted
  obtain rfl := Except.ok.inj emitted
  obtain rfl := Except.ok.inj first
  obtain rfl := Except.ok.inj second
  rw [complex] at source
  exact ⟨obtained, m, body, lines, converted, named, text, joined, source⟩

end ScalarFusion

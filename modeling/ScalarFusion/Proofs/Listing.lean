import ScalarFusion.Proofs.Verdicts

/-!
The code of a composite as a tree. Each body is a list of steps, one for each node: the declarations of
its outputs and then a statement, or a block that is the code of another body. What a body takes from
outside are its inputs, so that each operand is an input of the body, a literal, or a temporary that
the same body has declared before. The identifiers that code declares are named by their place: the
positions of the calls around them, and what they are there.
-/
namespace ScalarFusion

inductive Helper where
  | dividend
  | divisor
  | remainder
  | base
  | exponent
  | accumulator
  deriving DecidableEq, Repr

def Helper.text : Helper → String
  | dividend => "a"
  | divisor => "b"
  | remainder => "r"
  | base => "base"
  | exponent => "exp"
  | accumulator => "acc"

def Primitive.helpers (p : Primitive) : List ScalarType → List Helper
  | [] => []
  | t :: _ =>
    match p with
    | intDiv => if t.isSigned then [.dividend, .divisor] else []
    | mod =>
      if t.isFloat then [.remainder] else if t.isSigned then [.divisor, .remainder] else []
    | pow => if t.isDiscrete then [.base, .exponent, .accumulator] else []
    | _ => []

inductive Slot where
  | temporary (n : Nat)
  | helper (h : Helper)
  deriving DecidableEq, Repr

namespace Slot

def text : Slot → String
  | temporary n => "tmp" ++ toString n
  | helper h => h.text

def name (id : String) (s : Slot) : String :=
  "V" ++ id ++ "_" ++ s.text

end Slot

/-- Something that a body declares, with the positions of the calls, and of the node if it is a
    helper, on the way from the outermost body. -/
structure Place where
  path : List Nat
  slot : Slot
  deriving DecidableEq, Repr

namespace Place

def pathText : List Nat → String
  | [] => ""
  | k :: ks => "_" ++ toString k ++ pathText ks

def name (id : String) (p : Place) : String :=
  p.slot.name (id ++ pathText p.path)

def under (k : Nat) (p : Place) : Place :=
  ⟨k :: p.path, p.slot⟩

theorem name_under (id : String) (k : Nat) (p : Place) :
    (p.under k).name id = p.name (id ++ "_" ++ toString k) := by
  simp [name, under, pathText, String.append_assoc]

end Place

theorem Expression.temporary_eq (id : String) (n : Nat) :
    temporary id n = Slot.name id (.temporary n) := by
  simp [temporary, Slot.name, Slot.text, String.append_assoc, ← String.toList_inj]

def Op.places (op : Op (List Place)) (types : List ScalarType) : List Place :=
  match op with
  | prim p => (p.helpers types).map fun h => ⟨[], .helper h⟩
  | call nested => nested

def placesFrom (typeOf : ValueId → ScalarType) : Nat → Nat → List (Node (List Place)) → List Place
  | _, _, [] => []
  | k, n, node :: nodes =>
    (List.range' n node.outputs.length).map (fun m => ⟨[], .temporary m⟩) ++
      ((node.op.places (node.outputs.map typeOf)).map (Place.under k) ++
        placesFrom typeOf (k + 1) (n + node.outputs.length) nodes)

def Expression.places (e : Expression (List Place)) : List Place :=
  placesFrom e.graph.typeOf 0 0 (e.nodes.map Prod.snd)

def Composite.places : Composite → List Place :=
  fold fun e => (e.map Prod.snd).places

theorem Composite.places_eq (c : Composite) : c.places =
    placesFrom c.graph.typeOf 0 0 (c.body.nodes.map fun entry => entry.2.map Composite.places) := by
  rw [places, fold_eq, Expression.map_map, Expression.places, Expression.nodes_map, List.map_map]
  rfl

inductive Code where
  /-- The assignments of the outputs. -/
  | results (assigned : List (String × Operand))
  /-- A node with a primitive operation, and what follows it. -/
  | apply (p : Primitive) (id : String) (operands temporaries : List Operand) (rest : Code)
  /-- A node that calls, with the code of what it calls, and what follows it. -/
  | call (body : Code) (operands temporaries : List Operand) (rest : Code)

def Operand.declaration (x : Operand) : Except Error String := do
  let type ← x.type.cName
  .ok (type ++ " " ++ x.text ++ ";")

/-- The operand is an input name, a temporary in scope or a literal. -/
def Operand.Visible (ins scope : List String) (x : Operand) : Prop :=
  x.text ∈ ins ∨ x.text ∈ scope ∨ ∃ literal : Literal, x.text = literal.cText x.type

namespace Code

def statements : Code → Except Error (List String)
  | results assigned => .ok (assigned.map fun entry => entry.1 ++ " = " ++ entry.2.text ++ ";")
  | apply p id operands temporaries rest => do
    let declarations ← temporaries.mapM Operand.declaration
    let statement ← p.statement operands temporaries id
    let following ← rest.statements
    .ok (declarations ++ statement :: following)
  | call body _ temporaries rest => do
    let declarations ← temporaries.mapM Operand.declaration
    let nested ← body.statements
    let following ← rest.statements
    .ok (declarations ++ block (String.intercalate "\n" nested) :: following)

def text (code : Code) : Except Error String := do
  let statements ← code.statements
  .ok (String.intercalate "\n" statements)

def declared : Code → List String
  | results _ => []
  | apply p id _ temporaries rest =>
    temporaries.map Operand.text ++
      ((p.helpers (temporaries.map Operand.type)).map (fun h => Slot.name id (.helper h)) ++
        rest.declared)
  | call body _ temporaries rest =>
    temporaries.map Operand.text ++ (body.declared ++ rest.declared)

/-- Each operand is visible where it stands. A body sees its own temporaries and its inputs, which are
    the operands of the call. -/
def Scoped : Code → List String → List String → Prop
  | results assigned, ins, scope => ∀ entry ∈ assigned, entry.2.Visible ins scope
  | apply _ _ operands temporaries rest, ins, scope =>
    (∀ x ∈ operands, x.Visible ins scope) ∧ rest.Scoped ins (scope ++ temporaries.map Operand.text)
  | call body operands temporaries rest, ins, scope =>
    (∀ x ∈ operands, x.Visible ins scope) ∧ body.Scoped (operands.map Operand.text) [] ∧
      rest.Scoped ins (scope ++ temporaries.map Operand.text)

/-- The code has a step for each node: it declares a temporary for each output of the node and takes an
    operand for each input, of the types of these. In the end it assigns to each name of an output, and
    there is one. -/
inductive Follows : Code → Expression Composite → List String → List (NodeId × Node Composite) → Prop
    where
  | results {e : Expression Composite} {assigned : List (String × Operand)}
      (types : assigned.map (fun entry => entry.2.type) = e.outputTypes) (nonempty : assigned ≠ []) :
      Follows (.results assigned) e (assigned.map Prod.fst) []
  | apply {e : Expression Composite} {outs : List String} {n : NodeId} {node : Node Composite}
      {nodes : List (NodeId × Node Composite)} {p : Primitive} {id : String}
      {operands temporaries : List Operand} {rest : Code} (op : node.op = .prim p)
      (inputs : operands.map Operand.type = node.inputs.map e.graph.typeOf)
      (outputs : temporaries.map Operand.type = node.outputs.map e.graph.typeOf)
      (following : Follows rest e outs nodes) :
      Follows (.apply p id operands temporaries rest) e outs ((n, node) :: nodes)
  | call {e : Expression Composite} {outs : List String} {n : NodeId} {node : Node Composite}
      {nodes : List (NodeId × Node Composite)} {c : Composite} {body : Code}
      {operands temporaries : List Operand} {rest : Code} (op : node.op = .call c)
      (inputs : operands.map Operand.type = node.inputs.map e.graph.typeOf)
      (outputs : temporaries.map Operand.type = node.outputs.map e.graph.typeOf)
      (nested : Follows body c.body (temporaries.map Operand.text) c.body.nodes)
      (following : Follows rest e outs nodes) :
      Follows (.call body operands temporaries rest) e outs ((n, node) :: nodes)

/-- The code of a composite under given names: its statements are the emitted text, its steps are the
    nodes, its operands are visible, and it declares what the composite does. -/
structure Shows (code : Code) (c : Composite) (ins outs : List String) (id text : String) : Prop where
  text : code.text = .ok text
  follows : code.Follows c.body outs c.body.nodes
  visible : code.Scoped ins []
  declared : code.declared = c.places.map (Place.name id)

end Code

def Composite.Coded (c : Composite) : Prop :=
  ∀ ⦃ins outs : List String⦄ ⦃id text : String⦄, c.emit ins outs id = .ok text →
    ∃ code : Code, code.Shows c ins outs id text

section Emission

variable {e : Expression Composite} {ins scope : List String} {id : String}

def Expression.temporaries (e : Expression Composite) (id : String) : Nat → List ValueId → List Operand
  | _, [] => []
  | n, v :: vs => ⟨temporary id n, e.graph.typeOf v⟩ :: e.temporaries id (n + 1) vs

theorem Expression.types_temporaries (e : Expression Composite) (id : String) (n : Nat)
    (vs : List ValueId) :
    (e.temporaries id n vs).map Operand.type = vs.map e.graph.typeOf := by
  induction vs generalizing n with
  | nil => rfl
  | cons v vs ih => rw [temporaries, List.map_cons, List.map_cons, ih]

theorem Expression.texts_temporaries (e : Expression Composite) (id : String) (n : Nat)
    (vs : List ValueId) :
    (e.temporaries id n vs).map Operand.text =
      (List.range' n vs.length).map fun m => Slot.name id (.temporary m) := by
  induction vs generalizing n with
  | nil => rfl
  | cons v vs ih =>
    rw [temporaries, List.map_cons, ih, List.length_cons, List.range'_succ, List.map_cons,
      temporary_eq]

def Expression.Reaches (e : Expression Composite) (ins scope : List String) (names : Table Operand) :
    Prop :=
  ∀ v x, names.get? v = some x → x.type = e.graph.typeOf v ∧ (x.text ∈ ins ∨ x.text ∈ scope)

theorem Expression.Reaches.operand {names : Table Operand} (reaches : e.Reaches ins scope names)
    {v : ValueId} {x : Operand} (found : e.operand names v = .ok x) :
    x.type = e.graph.typeOf v ∧ x.Visible ins scope := by
  unfold Expression.operand at found
  split at found
  · next entry =>
    obtain rfl := Except.ok.inj found
    obtain ⟨type, reached⟩ := reaches v _ entry
    exact ⟨type, reached.imp_right .inl⟩
  · split at found
    · next literal _ =>
      obtain rfl := Except.ok.inj found
      exact ⟨rfl, .inr (.inr ⟨literal, rfl⟩)⟩
    · cases found

theorem Expression.Reaches.operands {names : Table Operand} (reaches : e.Reaches ins scope names)
    {vs : List ValueId} {xs : List Operand} (found : vs.mapM (e.operand names) = .ok xs) :
    xs.map Operand.type = vs.map e.graph.typeOf ∧ ∀ x ∈ xs, x.Visible ins scope := by
  have related := forall₂_of_mapM found
  constructor
  · rw [← List.forall₂_eq_eq_eq, List.forall₂_map_left_iff, List.forall₂_map_right_iff]
    exact related.flip.imp fun _ _ one => (reaches.operand one).1
  · intro x member
    obtain ⟨v, -, one⟩ := exists_image_of_mem related.flip member
    exact (reaches.operand one).2

theorem Expression.declare_all {vs : List ValueId} (distinct : vs.Nodup) {s s' : Emission}
    (declared : vs.foldlM (e.declare id) s = .ok s') :
    ∃ declarations, (e.temporaries id s.temporaries vs).mapM Operand.declaration = .ok declarations ∧
      s'.lines.toList = s.lines.toList ++ declarations ∧
      s'.temporaries = s.temporaries + vs.length ∧
      List.Forall₂ (fun v x => s'.names.get? v = some x) vs (e.temporaries id s.temporaries vs) ∧
      ∀ u ∉ vs, s'.names.get? u = s.names.get? u := by
  induction vs generalizing s with
  | nil =>
    obtain rfl := Except.ok.inj declared
    exact ⟨[], rfl, by simp, rfl, .nil, fun _ _ => rfl⟩
  | cons v vs ih =>
    rw [List.foldlM_cons] at declared
    obtain ⟨s₁, first, rest⟩ := bind_eq_ok declared
    obtain ⟨type, typed, same⟩ := bind_eq_ok first
    obtain rfl := Except.ok.inj same
    obtain ⟨other, distinct'⟩ := List.nodup_cons.mp distinct
    obtain ⟨declarations, written, lines, count, set, kept⟩ := ih distinct' rest
    refine ⟨(type ++ " " ++ temporary id s.temporaries ++ ";") :: declarations, ?_, ?_, ?_, ?_, ?_⟩
    · rw [temporaries, List.mapM_cons, Operand.declaration, typed, ok_bind, ok_bind, written, ok_bind]
      rfl
    · simpa using lines
    · rw [count, List.length_cons]
      simp only
      omega
    · refine .cons ?_ set
      rw [kept v other, Table.get?_insert, if_pos rfl]
    · intro u outside
      rw [List.mem_cons, not_or] at outside
      rw [kept u outside.2, Table.get?_insert, if_neg (Ne.symm outside.1)]

theorem Place.name_helper (id : String) (h : Helper) :
    Place.name id ⟨[], .helper h⟩ = Slot.name id (.helper h) := by
  simp [name, pathText]

theorem Expression.operands_of_names {names : Table Operand} {vs : List ValueId} {xs : List Operand}
    (named : List.Forall₂ (fun v x => names.get? v = some x) vs xs) :
    vs.mapM (e.operand names) = .ok xs := by
  induction named with
  | nil => rfl
  | @cons v x vs xs here _ ih =>
    have found : e.operand names v = .ok x := by simp [operand, here]
    rw [List.mapM_cons, found, ok_bind, ih]
    rfl

theorem Expression.Reaches.emitNode (ordered : e.graph.Ordered) {n : NodeId} {node : Node Composite}
    (here : e.graph.nodes[n]? = some node) {s s' : Emission} {k : Nat}
    (reaches : e.Reaches ins scope s.names) {temporaries : List Operand}
    (fresh : temporaries = e.temporaries id s.temporaries node.outputs)
    (step : (e.map Composite.emit).emitNode id s k (node.map Composite.emit) = .ok s') :
    s'.temporaries = s.temporaries + node.outputs.length ∧
    e.Reaches ins (scope ++ temporaries.map Operand.text) s'.names ∧
    ∃ operands declarations statement, (operands.map Operand.type = node.inputs.map e.graph.typeOf ∧
        ∀ x ∈ operands, x.Visible ins scope) ∧
      temporaries.mapM Operand.declaration = .ok declarations ∧
      s'.lines.toList = s.lines.toList ++ (declarations ++ [statement]) ∧
      ((∃ p, node.op = .prim p ∧
          p.statement operands temporaries (id ++ "_" ++ toString k) = .ok statement) ∨
        ∃ c text, node.op = .call c ∧ c.emit (operands.map Operand.text)
          (temporaries.map Operand.text) (id ++ "_" ++ toString k) = .ok text ∧
            statement = block text) := by
  obtain ⟨operands, found, step⟩ := bind_eq_ok step
  obtain ⟨s₁, declared, step⟩ := bind_eq_ok step
  obtain ⟨outputs, found', step⟩ := bind_eq_ok step
  obtain ⟨statement, written, same⟩ := bind_eq_ok step
  obtain rfl := Except.ok.inj same
  obtain ⟨declarations, lists, lines, count, set, kept⟩ :=
    declare_all (ordered.nodup_outputs here) declared
  rw [← fresh] at lists set
  obtain rfl := Except.ok.inj (found'.symm.trans (operands_of_names set))
  refine ⟨count, ?_, operands, declarations, statement, reaches.operands found, lists,
    by simp [lines], ?_⟩
  · intro v x entry
    by_cases output : v ∈ node.outputs
    · obtain ⟨k, place⟩ := List.getElem?_of_mem output
      obtain ⟨y, place', entry'⟩ := exists_image_at set place
      obtain rfl := Option.some.inj (entry.symm.trans entry')
      have type := congrArg (·[k]?) (types_temporaries e id s.temporaries node.outputs)
      rw [← fresh] at type
      simp only [List.getElem?_map, place, place', Option.map_some, Option.some.injEq] at type
      exact ⟨type, .inr (List.mem_append_right _ (List.mem_map_of_mem (List.mem_of_getElem? place')))⟩
    · obtain ⟨type, reached⟩ := reaches v x ((kept v output).symm.trans entry)
      exact ⟨type, reached.imp_right (List.mem_append_left _)⟩
  · cases op : node.op with
    | prim p =>
      simp only [Node.map, op, Op.map] at written
      exact .inl ⟨p, rfl, written⟩
    | call c =>
      simp only [Node.map, op, Op.map] at written
      obtain ⟨text, emitted, last⟩ := bind_eq_ok written
      exact .inr ⟨c, text, rfl, emitted, (Except.ok.inj last).symm⟩

def Expression.declarations (e : Expression Composite) (id : String) (k n : Nat)
    (nodes : List (NodeId × Node Composite)) : List String :=
  (placesFrom e.graph.typeOf k n (nodes.map fun entry => entry.2.map Composite.places)).map
    (Place.name id)

theorem Expression.declarations_cons (k n : Nat) (entry : NodeId × Node Composite)
    (nodes : List (NodeId × Node Composite)) : e.declarations id k n (entry :: nodes) =
      (e.temporaries id n entry.2.outputs).map Operand.text ++
        (((entry.2.op.map Composite.places).places (entry.2.outputs.map e.graph.typeOf)).map
          (Place.name (id ++ "_" ++ toString k)) ++
            e.declarations id (k + 1) (n + entry.2.outputs.length) nodes) := by
  have here : (Place.name id ∘ fun m => ⟨[], .temporary m⟩) = fun m => Slot.name id (.temporary m) := by
    funext m
    simp [Place.name, Place.pathText]
  have under : Place.name id ∘ Place.under k = Place.name (id ++ "_" ++ toString k) :=
    funext (Place.name_under id k)
  simp only [declarations, List.map_cons, placesFrom, List.map_append, List.map_map, here, under,
    texts_temporaries]
  rfl

theorem Expression.Reaches.exists_assigned {names : Table Operand} (reaches : e.Reaches ins scope names)
    {vs : List ValueId} {outs last : List String} (count : outs.length = vs.length)
    (written : (vs.zip outs).mapM (fun entry => do
      let x ← e.operand names entry.1
      .ok (entry.2 ++ " = " ++ x.text ++ ";")) = .ok last) :
    ∃ assigned : List (String × Operand), assigned.map Prod.fst = outs ∧
      assigned.map (fun entry => entry.2.type) = vs.map e.graph.typeOf ∧
      (∀ entry ∈ assigned, entry.2.Visible ins scope) ∧
      (Code.results assigned).statements = .ok last := by
  induction vs generalizing outs last with
  | nil =>
    obtain rfl := List.length_eq_zero_iff.mp count
    exact ⟨[], rfl, rfl, by simp, written⟩
  | cons v vs ih =>
    obtain ⟨name, outs, rfl⟩ := List.exists_cons_of_length_eq_add_one count
    rw [List.zip_cons_cons, List.mapM_cons] at written
    obtain ⟨line, first, written⟩ := bind_eq_ok written
    obtain ⟨lines, others, same⟩ := bind_eq_ok written
    obtain rfl := Except.ok.inj same
    obtain ⟨x, found, same⟩ := bind_eq_ok first
    obtain rfl := Except.ok.inj same
    obtain ⟨assigned, rfl, types, visible, statements⟩ := ih (by simpa using count) others
    obtain ⟨type, reached⟩ := reaches.operand found
    refine ⟨(name, x) :: assigned, rfl, by rw [List.map_cons, List.map_cons, types, type], ?_, ?_⟩
    · simpa using ⟨reached, fun name y => visible (name, y)⟩
    · rw [Code.statements] at statements ⊢
      rw [← Except.ok.inj statements]
      rfl

/-- The lines of a run and of the assignments after it are the statements of the code. -/
theorem Expression.Reaches.exists_code (ordered : e.graph.Ordered)
    (nonempty : e.outputs ≠ []) (callees : ∀ c ∈ e.callees, c.Coded) {outs last : List String}
    {nodes : List (NodeId × Node Composite)} (inside : ∀ entry ∈ nodes, entry ∈ e.nodes) {k : Nat}
    {s s' : Emission} (reaches : e.Reaches ins scope s.names)
    (run : (nodes.zipIdx k).foldlM (fun s entry => (e.map Composite.emit).emitNode id s entry.2
      (entry.1.2.map Composite.emit)) s = .ok s') (count : outs.length = e.outputs.length)
    (written : (e.outputs.zip outs).mapM (fun entry => do
      let x ← e.operand s'.names entry.1
      .ok (entry.2 ++ " = " ++ x.text ++ ";")) = .ok last) :
    ∃ (code : Code) (statements : List String), code.statements = .ok statements ∧
      s'.lines.toList ++ last = s.lines.toList ++ statements ∧ code.Follows e outs nodes ∧
      code.Scoped ins scope ∧ code.declared = e.declarations id k s.temporaries nodes := by
  -- the assignments come last, so the induction is from the end of the code to its start
  induction nodes generalizing s scope k with
  | nil =>
    obtain rfl := Except.ok.inj run
    obtain ⟨assigned, rfl, types, visible, statements⟩ := reaches.exists_assigned count written
    have some : assigned ≠ [] := by
      rintro rfl
      exact nonempty (List.map_eq_nil_iff.mp types.symm)
    exact ⟨.results assigned, last, statements, rfl, .results types some, visible, rfl⟩
  | cons entry nodes ih =>
    rw [List.zipIdx_cons, List.foldlM_cons] at run
    obtain ⟨s₁, step, run⟩ := bind_eq_ok run
    have member : entry ∈ e.nodes := inside entry (by simp)
    obtain ⟨number, reaches', operands, declarations, statement, ⟨types, visible⟩, lists, lines, cases⟩ :=
      reaches.emitNode ordered (mem_nodes.mp member).2 rfl step
    obtain ⟨rest, following, statements, joined, follows, scopes, declared⟩ :=
      ih (fun entry later => inside entry (List.mem_cons_of_mem _ later)) reaches' run
    have outputs := types_temporaries e id s.temporaries entry.2.outputs
    rw [joined, lines, List.append_assoc, List.append_assoc, declarations_cons, ← number, ← declared]
    obtain ⟨p, op, set⟩ | ⟨c, text, op, emitted, rfl⟩ := cases
    · refine ⟨.apply p (id ++ "_" ++ toString k) operands _ rest, _, ?_, rfl,
        .apply op types outputs follows, ⟨visible, scopes⟩, ?_⟩
      · rw [Code.statements, lists, ok_bind, set, ok_bind, statements, ok_bind]
        rfl
      · have helpers : Place.name (id ++ "_" ++ toString k) ∘ (fun h => ⟨[], .helper h⟩) =
            fun h => Slot.name (id ++ "_" ++ toString k) (.helper h) :=
          funext (Place.name_helper _)
        rw [Code.declared, outputs, op, Op.map, Op.places, List.map_map, helpers]
    · obtain ⟨body, shows⟩ := callees c (mem_callees.mpr ⟨entry.1, entry.2, member, op⟩) emitted
      obtain ⟨nested, within, same⟩ := bind_eq_ok shows.text
      obtain rfl := Except.ok.inj same
      refine ⟨.call body operands _ rest, _, ?_, rfl, .call op types outputs shows.follows follows,
        ⟨visible, shows.visible, scopes⟩, ?_⟩
      · rw [Code.statements, lists, ok_bind, within, ok_bind, statements, ok_bind]
        rfl
      · rw [Code.declared, shows.declared, op, Op.map, Op.places]

end Emission

theorem Composite.WellBuilt.coded {c : Composite} (good : c.WellBuilt) : c.Coded := by
  induction good with
  | @mk e tidy _ ih =>
    intro ins outs id text emitted
    have callees : ∀ c ∈ e.callees, c.Coded := by
      intro c member
      obtain ⟨n, node, inside, called⟩ := Expression.mem_callees.mp member
      exact ih (Expression.mem_nodes.mp inside).2 called
    rw [emit_eq] at emitted
    obtain ⟨inputCount, outputCount⟩ := Expression.counts_of_emit emitted
    rw [Expression.emit_map inputCount outputCount] at emitted
    obtain ⟨s, run, emitted⟩ := bind_eq_ok emitted
    obtain ⟨last, written, same⟩ := bind_eq_ok emitted
    obtain rfl := Except.ok.inj same
    have reaches : e.Reaches ins [] (e.inputNames ins) := by
      intro v x found
      obtain ⟨k, name, -, given, rfl⟩ :=
        Expression.inputNames_cases tidy.sourced.closed.distinct inputCount found
      exact ⟨rfl, .inl (List.mem_of_getElem? given)⟩
    obtain ⟨code, statements, list, joined, follows, visible, declared⟩ :=
      reaches.exists_code tidy.sourced.closed.ordered tidy.nonempty callees (fun _ member => member) run
        outputCount written
    refine ⟨code, ?_, follows, visible, ?_⟩
    · rw [Code.text, list, ok_bind, joined]
      rfl
    · rw [declared, places_eq]
      rfl

end ScalarFusion

import ScalarFusion.Proofs.Requirements
import ScalarFusion.Proofs.Valuing

/-!
What the values of an arena denote, with given values as a boundary. Evaluation fills a table in
the order of the nodes; whatever is read from it is what the value denotes, as long as no input is
read after a node that has it as an output has run.
-/
namespace ScalarFusion

/-- What a value denotes: an input its argument, a constant its literal, and an output of a node
    what the operation computes from what the operands denote. -/
inductive Graph.Denotes [Numerics] (g : Arena) (inputs : List ValueId) (args : List Literal) :
    ValueId → Literal → Prop where
  | input {v : ValueId} {a : Literal} (member : v ∈ inputs)
      (given : args[inputs.idxOf v]? = some a) : Denotes g inputs args v (a.cast (g.typeOf v))
  | constant {v : ValueId} {type : ScalarType} {literal : Literal} {name : Option String}
      (beyond : v ∉ inputs) (found : g.values[v]? = some ⟨type, .constant literal name⟩) :
      Denotes g inputs args v literal
  | output {v : ValueId} {type : ScalarType} {n : NodeId} {k : Nat} {node : Node Composite}
      {V : ValueId → Literal} {results : List Literal} {result : Literal} (beyond : v ∉ inputs)
      (found : g.values[v]? = some ⟨type, .output n k⟩) (here : g.nodes[n]? = some node)
      (operands : ∀ u ∈ node.inputs, Denotes g inputs args u (V u))
      (computed : node.op.results (node.inputs.map V) (node.inputs.map g.typeOf)
        (node.outputs.map g.typeOf) = .ok results)
      (listed : results[k]? = some result) : Denotes g inputs args v (result.cast type)

def Expression.KeepsInputs {κ : Type} (e : Expression κ) : Prop :=
  ∀ first n rest, e.order = first ++ n :: rest → ∀ node, e.graph.nodes[n]? = some node →
    ∀ v ∈ node.outputs, v ∈ e.inputs → ¬ e.graph.Reached e.outputs rest v

namespace Graph

variable {g : Arena} {inputs outputs : List ValueId} {args : List Literal}

theorem Denotes.of_output [Numerics] {v : ValueId} {a : Literal}
    (denotes : g.Denotes inputs args v a)
    (beyond : v ∉ inputs) {type : ScalarType} {n : NodeId} {k : Nat}
    (found : g.values[v]? = some ⟨type, .output n k⟩) {node : Node Composite}
    (here : g.nodes[n]? = some node) :
    ∃ V results result, (∀ u ∈ node.inputs, g.Denotes inputs args u (V u)) ∧
      node.op.results (node.inputs.map V) (node.inputs.map g.typeOf) (node.outputs.map g.typeOf) =
        .ok results ∧ results[k]? = some result ∧ a = result.cast type := by
  cases denotes with
  | input member _ => exact absurd member beyond
  | constant _ found' => simp [found] at found'
  | @output _ _ _ _ _ V results result _ found' here' operands computed listed =>
    simp only [found, Option.some.injEq, Value.mk.injEq, Source.output.injEq] at found'
    obtain ⟨rfl, rfl, rfl⟩ := found'
    obtain rfl := Option.some.inj (here.symm.trans here')
    exact ⟨V, results, result, operands, computed, listed, rfl⟩

theorem Denotes.unique [Numerics] {v : ValueId} {a b : Literal} (left : g.Denotes inputs args v a)
    (right : g.Denotes inputs args v b) : a = b := by
  induction left generalizing b with
  | input member given =>
    cases right with
    | input _ given' =>
      rw [given] at given'
      rw [Option.some.inj given']
    | constant beyond _ => exact absurd member beyond
    | output beyond _ _ _ _ _ => exact absurd member beyond
  | constant beyond found =>
    cases right with
    | input member _ => exact absurd member beyond
    | constant _ found' =>
      rw [found] at found'
      simp only [Option.some.injEq, Value.mk.injEq, Source.constant.injEq] at found'
      exact found'.2.1
    | output _ found' _ _ _ _ => simp [found] at found'
  | @output v type n k node V results result beyond found here _ computed listed ih =>
    obtain ⟨V', results', result', operands, computed', listed', rfl⟩ :=
      right.of_output beyond found here
    have same : node.inputs.map V = node.inputs.map V' :=
      List.map_congr_left fun u member => ih u member (operands u member)
    rw [same, computed'] at computed
    rw [← Except.ok.inj computed, listed'] at listed
    rw [Option.some.inj listed]

theorem forall₂_denotes_unique [Numerics] {vs : List ValueId} {as bs : List Literal}
    (left : List.Forall₂ (g.Denotes inputs args) vs as)
    (right : List.Forall₂ (g.Denotes inputs args) vs bs) : as = bs := by
  induction left generalizing bs with
  | nil =>
    cases right
    rfl
  | cons first _ ih =>
    cases right with
    | cons first' rest => rw [first.unique first', ih rest]

theorem Requires.denotes [Numerics] {v : ValueId} (required : g.Requires inputs outputs v)
    (ends : ∀ o ∈ outputs, ∃ a, g.Denotes inputs args o a) : ∃ a, g.Denotes inputs args v a := by
  induction required with
  | output member => exact ends _ member
  | operand _ beyond found here member ih =>
    obtain ⟨a, denotes⟩ := ih
    obtain ⟨V, -, -, operands, -⟩ := denotes.of_output beyond found here
    exact ⟨V _, operands _ member⟩

theorem exists_expression_of_denotes [Numerics] (ordered : g.Ordered) (known : g.Knows outputs)
    (ends : ∀ o ∈ outputs, ∃ a, g.Denotes inputs args o a) :
    ∃ e, g.expression inputs outputs = .ok e := by
  cases result : g.expression inputs outputs with
  | ok e => exact ⟨e, rfl⟩
  | error error =>
    obtain ⟨v, type, name, required, beyond, found⟩ :=
      (expression_fails_iff ordered known).mp ⟨error, result⟩
    obtain ⟨a, denotes⟩ := required.denotes ends
    cases denotes with
    | input member _ => exact absurd member beyond
    | constant _ found' => simp [found] at found'
    | output _ found' _ _ _ _ => simp [found] at found'

end Graph

theorem Expression.get?_bindArguments {κ : Type} (e : Expression κ) {args : List Literal}
    (arity : args.length = e.inputs.length) (v : ValueId) :
    (e.bindArguments args).get? v =
      (args[e.inputs.idxOf v]?).map fun a => a.cast (e.graph.typeOf v) := by
  have lengths : (List.zipWith Literal.cast args e.inputTypes).length = e.inputs.length := by
    simp [inputTypes, arity]
  rw [bindArguments_eq, Table.get?_insertNew_zip lengths, Table.get?_empty, Option.none_or,
    List.getElem?_zipWith]
  by_cases input : v ∈ e.inputs
  · have inside := List.idxOf_lt_length_iff.mpr input
    have type : e.inputTypes[e.inputs.idxOf v]? = some (e.graph.typeOf v) := by
      rw [inputTypes, List.getElem?_map, List.getElem?_eq_getElem inside, List.getElem_idxOf]
      rfl
    rw [type, List.getElem?_eq_getElem (arity ▸ inside)]
    rfl
  · have beyond : args[e.inputs.idxOf v]? = none := by
      rw [List.idxOf_eq_length input, ← arity, List.getElem?_length]
    rw [beyond]
    rfl

namespace Expression

variable {e : Expression Composite} {args : List Literal} {first rest : List NodeId}
  {env : Table Literal}

/-- The table between the nodes of `first` and those of `rest`: what will be read from it is what
    the values denote. -/
structure Denoted [Numerics] (e : Expression Composite) (args : List Literal)
    (first rest : List NodeId) (env : Table Literal) : Prop where
  covers : env.Covers e first
  agrees : ∀ {v : ValueId} {a : Literal}, e.graph.Reached e.outputs rest v →
    env.get? v = some a → e.graph.Denotes e.inputs args v a

theorem Denoted.lookup_eq [Numerics] (denoted : e.Denoted args first rest env)
    (ordered : e.graph.Ordered) {v : ValueId} (reached : e.graph.Reached e.outputs rest v)
    (supplied : e.graph.Supplied e.inputs first v) :
    ∃ a, e.lookup env v = .ok a ∧ e.graph.Denotes e.inputs args v a := by
  unfold lookup
  cases found : env.get? v with
  | some a => exact ⟨a, rfl, denoted.agrees reached found⟩
  | none =>
    have beyond : v ∉ e.inputs := fun member => by
      obtain ⟨a, entry⟩ := denoted.covers.inputs v member
      simp [found] at entry
    rcases denoted.covers.entry_or_constant ordered supplied with
      ⟨a, entry⟩ | ⟨type, literal, name, source⟩
    · simp [found] at entry
    · exact ⟨literal, by simp [source, Value.literal?], .constant beyond source⟩

theorem Denoted.mapM_lookup [Numerics] (denoted : e.Denoted args first rest env)
    (ordered : e.graph.Ordered)
    {vs : List ValueId} (reached : ∀ v ∈ vs, e.graph.Reached e.outputs rest v)
    (supplied : ∀ v ∈ vs, e.graph.Supplied e.inputs first v) :
    ∃ V : ValueId → Literal, vs.mapM (e.lookup env) = .ok (vs.map V) ∧
      ∀ v ∈ vs, e.graph.Denotes e.inputs args v (V v) := by
  have each : ∀ v, ∃ a, v ∈ vs → e.lookup env v = .ok a ∧ e.graph.Denotes e.inputs args v a := by
    intro v
    by_cases member : v ∈ vs
    · obtain ⟨a, found⟩ := denoted.lookup_eq ordered (reached v member) (supplied v member)
      exact ⟨a, fun _ => found⟩
    · exact ⟨.bool false, fun member' => absurd member' member⟩
  obtain ⟨V, found⟩ := Classical.axiomOfChoice each
  exact ⟨V, mapM_ok fun v member => (found v member).1, fun v member => (found v member).2⟩

theorem Denoted.step [Numerics] {n : NodeId} {node : Node Composite}
    (denoted : e.Denoted args first (n :: rest) env) (ordered : e.graph.Ordered)
    (typed : e.graph.Typed) (here : e.graph.nodes[n]? = some node)
    (operands : ∀ v ∈ node.inputs, e.graph.Supplied e.inputs first v)
    (kept : ∀ v ∈ node.outputs, v ∈ e.inputs → ¬ e.graph.Reached e.outputs rest v) :
    ∃ V : ValueId → Literal, (∀ u ∈ node.inputs, e.graph.Denotes e.inputs args u (V u)) ∧
      (∀ results, node.op.results (node.inputs.map V) (node.inputs.map e.graph.typeOf)
          (node.outputs.map e.graph.typeOf) = .ok results →
        ∃ env', e.setResults env node = .ok env') ∧
      ∀ env', e.setResults env node = .ok env' → e.Denoted args (first ++ [n]) rest env' := by
  obtain ⟨V, found, denotes⟩ := denoted.mapM_lookup ordered
    (fun v member => .inr ⟨n, List.mem_cons_self, node, here, member⟩) operands
  have opened : e.setResults env node = (node.op.results (node.inputs.map V)
      (node.inputs.map e.graph.typeOf) (node.outputs.map e.graph.typeOf) >>= fun results =>
        .ok ((node.outputs.zip (List.zipWith Literal.cast results
          (node.outputs.map e.graph.typeOf))).foldl
            (fun env entry => env.insert entry.1 entry.2) env)) := by
    rw [setResults, found]
    rfl
  refine ⟨V, denotes, fun results computed => ⟨_, by rw [opened, computed]; rfl⟩, ?_⟩
  intro env' success
  rw [opened] at success
  obtain ⟨results, computed, last⟩ := bind_eq_ok success
  obtain rfl := Except.ok.inj last
  have lengths : node.outputs.length =
      (List.zipWith Literal.cast results (node.outputs.map e.graph.typeOf)).length := by
    rw [List.length_zipWith, Op.length_results (typed.types here) computed, List.length_map,
      Nat.min_self]
  refine ⟨denoted.covers.set ordered here lengths, ?_⟩
  intro v a reached entry
  rcases Table.insert_zip_cases (ordered.nodup_outputs here) lengths entry with
    ⟨k, at_k, set⟩ | ⟨-, old⟩
  · obtain ⟨type, source⟩ := ordered.produced.mpr ⟨node, here, at_k⟩
    rw [List.getElem?_zipWith, List.getElem?_map, at_k] at set
    cases listed : results[k]? with
    | none => simp [listed] at set
    | some result =>
      simp only [listed, Option.map_some, Option.some.injEq] at set
      -- an output that is an input as well is not read any more, or it would hide the argument
      have beyond : v ∉ e.inputs := fun member =>
        kept v (List.mem_of_getElem? at_k) member reached
      rw [← set, show e.graph.typeOf v = type by simp [Graph.typeOf, source]]
      exact .output beyond source here denotes computed listed
  · refine denoted.agrees ?_ old
    rcases reached with end' | ⟨m, member, user⟩
    · exact .inl end'
    · exact .inr ⟨m, List.mem_cons_of_mem n member, user⟩

def Defined [Numerics] (e : Expression Composite) (args : List Literal) (n : NodeId) : Prop :=
  ∀ node, e.graph.nodes[n]? = some node → ∃ V results,
    (∀ u ∈ node.inputs, e.graph.Denotes e.inputs args u (V u)) ∧
    node.op.results (node.inputs.map V) (node.inputs.map e.graph.typeOf)
      (node.outputs.map e.graph.typeOf) = .ok results

/-- Running the nodes of `rest` leaves what the outputs denote, and it fails only at a node that
    computes nothing. -/
theorem Denoted.run [Numerics] (denoted : e.Denoted args first rest env) (ordered : e.graph.Ordered)
    (typed : e.graph.Typed) (scheduled : e.graph.Scheduled e.inputs e.order)
    (kept : e.KeepsInputs) (split : e.order = first ++ rest) :
    ((∀ n ∈ rest, e.Defined args n) → ∃ env',
      (rest.filterMap fun n => (e.graph.nodes[n]?).map fun node => (n, node)).foldlM
        (fun env entry => e.setResults env entry.2) env = .ok env') ∧
    ∀ env', (rest.filterMap fun n => (e.graph.nodes[n]?).map fun node => (n, node)).foldlM
      (fun env entry => e.setResults env entry.2) env = .ok env' →
        e.Denoted args e.order [] env' := by
  induction rest generalizing first env with
  | nil =>
    refine ⟨fun _ => ⟨env, rfl⟩, ?_⟩
    intro env' same
    obtain rfl := Except.ok.inj same
    rw [split, List.append_nil]
    exact denoted
  | cons n rest ih =>
    obtain ⟨node, here⟩ := scheduled.exists_node (n := n) (by simp [split])
    obtain ⟨V, operands, able, next⟩ := denoted.step ordered typed here
      (scheduled.before split here) (kept first n rest split node here)
    have split' : e.order = first ++ [n] ++ rest := by simp [split]
    simp only [List.filterMap_cons, here, Option.map_some, List.foldlM_cons]
    constructor
    · intro defined
      obtain ⟨V', results, operands', computed⟩ := defined n List.mem_cons_self node here
      -- what a node computes is determined, so the operands that
      -- make it defined are those that were looked up
      have same : node.inputs.map V' = node.inputs.map V :=
        List.map_congr_left fun u member => (operands' u member).unique (operands u member)
      obtain ⟨middle, one⟩ := able results (same ▸ computed)
      rw [one]
      exact (ih (next middle one) split').1 fun m member =>
        defined m (List.mem_cons_of_mem n member)
    · intro env' success
      obtain ⟨middle, one, more⟩ := bind_eq_ok success
      exact (ih (next middle one) split').2 env' more

theorem denoted_bindArguments [Numerics] (arity : args.length = e.inputs.length)
    (rest : List NodeId) : e.Denoted args [] rest (e.bindArguments args) := by
  refine ⟨⟨?_, by simp⟩, ?_⟩
  · intro v member
    have inside : e.inputs.idxOf v < args.length := arity ▸ List.idxOf_lt_length_iff.mpr member
    rw [get?_bindArguments e arity, List.getElem?_eq_getElem inside]
    exact ⟨_, rfl⟩
  · intro v a _ entry
    rw [get?_bindArguments e arity, Option.map_eq_some_iff] at entry
    obtain ⟨arg, given, rfl⟩ := entry
    have inside := (List.getElem?_eq_some_iff.mp given).1
    exact .input (List.idxOf_lt_length_iff.mp (arity ▸ inside)) given

end Expression

namespace Graph

variable {g : Arena} {inputs outputs : List ValueId} {args : List Literal}
  {e : Expression Composite}

theorem defined_of_denotes [Numerics] (ordered : g.Ordered)
    (walk : g.Walks inputs outputs [] e.order) (graph : e.graph = g) (given : e.inputs = inputs)
    (ends : ∀ o ∈ outputs, ∃ a, g.Denotes inputs args o a) : ∀ n ∈ e.order, e.Defined args n := by
  intro n member node here
  obtain ⟨v, type, k, required, beyond, found⟩ := walk.mem_iff.mp member
  obtain ⟨a, denotes⟩ := required.denotes ends
  subst graph given
  obtain ⟨V, results, -, operands, computed, -⟩ := denotes.of_output beyond found here
  exact ⟨V, results, operands, computed⟩

/-- An expression evaluates to what its outputs denote, and to nothing else. -/
theorem evaluate_expression_iff [Numerics] (ordered : g.Ordered) (typed : g.Typed)
    (known : g.Knows outputs) (success : g.expression inputs outputs = .ok e) (kept : e.KeepsInputs)
    (arity : args.length = inputs.length) (results : List Literal) :
    (e.map Composite.evaluate).evaluate args = .ok results ↔
      List.Forall₂ (g.Denotes inputs args) outputs results := by
  have walk := walks_of_expression ordered known success
  obtain ⟨rfl, rfl, rfl⟩ := expression_eq success
  obtain ⟨able, final⟩ := (Expression.denoted_bindArguments arity e.order).run ordered typed
    (walk.scheduled .nil) kept (List.nil_append e.order).symm
  have forward : ∀ results, (e.map Composite.evaluate).evaluate args = .ok results →
      List.Forall₂ (e.graph.Denotes e.inputs args) e.outputs results := by
    intro results success
    rw [Expression.evaluate_map, if_pos arity] at success
    obtain ⟨env, run, outputs⟩ := bind_eq_ok success
    obtain ⟨V, found, denotes⟩ := (final env run).mapM_lookup ordered (fun v => .inl) walk.supplied
    rw [found] at outputs
    rw [← Except.ok.inj outputs, List.forall₂_map_right_iff]
    exact List.forall₂_same.mpr denotes
  refine ⟨forward results, fun denotes => ?_⟩
  obtain ⟨env, run⟩ := able (defined_of_denotes ordered walk rfl rfl fun o member => by
    obtain ⟨a, -, denoted⟩ := exists_image_of_mem denotes member
    exact ⟨a, denoted⟩)
  obtain ⟨V, found, -⟩ := (final env run).mapM_lookup ordered (fun v => .inl) walk.supplied
  have evaluated : (e.map Composite.evaluate).evaluate args = .ok (e.outputs.map V) := by
    rw [Expression.evaluate_map, if_pos arity]
    exact (congrArg (· >>= _) run).trans found
  rw [evaluated, forall₂_denotes_unique (forward _ evaluated) denotes]

end Graph

/-- Inputs are a boundary for evaluation. If no input is read after a node that has it as an output,
    an expression evaluates exactly to what its outputs denote: an input the argument of its first
    occurrence, converted to its type, whatever computes it. -/
theorem evaluate_iff_denotes [Numerics] {g : Arena} (reachable : Reachable g)
    {inputs outputs : List ValueId} (known : g.Knows outputs) {e : Expression Composite}
    (success : g.expression inputs outputs = .ok e) (kept : e.KeepsInputs) {args : List Literal}
    (arity : args.length = inputs.length) (results : List Literal) :
    (e.map Composite.evaluate).evaluate args = .ok results ↔
      List.Forall₂ (g.Denotes inputs args) outputs results :=
  Graph.evaluate_expression_iff reachable.built.ordered reachable.built.typed known success kept
    arity results

def Graph.both : Arena :=
  (Action.apply (.prim .mul) [0, 0]).perform (.negation (.signed .w8))

def Composite.both : Composite :=
  .mk ⟨.both, [0], [1, 2], [0, 1]⟩

theorem both_obtained : Obtained .both := by
  have reachable : Reachable .both := by
    refine .perform (negation_reachable _) ?_ ?_
    · decide
    · simp [Action.composite?, Op.callee?]
  exact .fuse reachable (by decide : Graph.both.Knows ([0] ++ [1, 2])) rfl

theorem both_evaluate : Composite.both.evaluate [.signed 3] = .ok [.signed (-3), .signed 9] := by
  rw [Composite.evaluate_eq, Expression.evaluate_map]
  rfl

def Graph.paired : Arena :=
  (Action.call .both [0]).perform ((Action.newVariable (.signed .w8) (some "y")).perform {})

theorem paired_reachable : Reachable .paired := by
  refine .perform (.perform (.empty {}) ?_ ?_) ?_ ?_
  case refine_4 =>
    intro c same
    obtain rfl := Option.some.inj same
    exact both_obtained
  all_goals first | decide | simp [Action.composite?]

def Expression.paired (inputs outputs : List ValueId) : Expression Composite :=
  ⟨.paired, inputs, outputs, [0]⟩

theorem paired_evaluated : Reachable .paired ∧
    Graph.paired.expression [0, 1, 0] [2, 0] = .ok (.paired [0, 1, 0] [2, 0]) ∧
    (Expression.paired [0, 1, 0] [2, 0]).KeepsInputs ∧
    ((Expression.paired [0, 1, 0] [2, 0]).map Composite.evaluate).evaluate
      [.signed 3, .signed 100, .signed 7] = .ok [.signed 9, .signed 3] := by
  have success : Graph.paired.expression [0, 1, 0] [2, 0] = .ok (.paired [0, 1, 0] [2, 0]) := rfl
  have kept : (Expression.paired [0, 1, 0] [2, 0]).KeepsInputs := by
    intro first n rest split node here v output input reached
    obtain ⟨rfl, rfl, rfl⟩ : first = [] ∧ n = 0 ∧ rest = [] := by
      simpa [Expression.paired, List.cons_eq_append_iff] using split
    obtain rfl := Option.some.inj here
    have output : v ∈ [1, 2] := output
    have input : v ∈ [0, 1, 0] := input
    rcases reached with read | ⟨m, none, -⟩
    · have read : v ∈ [2, 0] := read
      simp only [List.mem_cons, List.not_mem_nil, or_false] at output input read
      rcases output with rfl | rfl <;> simp at input read
    · cases none
  have denotes : Graph.paired.Denotes [0, 1, 0] [.signed 3, .signed 100, .signed 7] 0 (.signed 3) :=
    .input (a := .signed 3) (by decide) rfl
  refine ⟨paired_reachable, success, kept,
    (evaluate_iff_denotes paired_reachable (by decide) success kept rfl _).mpr ?_⟩
  refine .cons ?_ (.cons denotes .nil)
  have here : Graph.paired.nodes[0]? = some ⟨.call .both, [0], [1, 2]⟩ := rfl
  have operands : ∀ u ∈ [0], Graph.paired.Denotes [0, 1, 0] [.signed 3, .signed 100, .signed 7] u
      (.signed 3) := by
    intro u member
    obtain rfl := List.mem_singleton.mp member
    exact denotes
  show Graph.paired.Denotes _ _ 2 (Literal.cast (.signed 9) (.signed .w8))
  exact .output (k := 1) (V := fun _ => .signed 3) (by decide) rfl here operands both_evaluate rfl

/-- An input that is read after a node that has it as an output does not keep its argument. -/
theorem paired_overwritten :
    Graph.paired.expression [0, 1] [1, 2] = .ok (.paired [0, 1] [1, 2]) ∧
    ((Expression.paired [0, 1] [1, 2]).map Composite.evaluate).evaluate
      [.signed 3, .signed 100] = .ok [.signed (-3), .signed 9] ∧
    Graph.paired.Denotes [0, 1] [.signed 3, .signed 100] 1 (.signed 100) := by
  refine ⟨rfl, ?_, .input (a := .signed 100) (by decide) rfl⟩
  have called : ∀ env, env.get? 0 = some (.signed 3) →
      (Expression.paired [0, 1] [1, 2]).setResults env ⟨.call .both, [0], [1, 2]⟩ =
        .ok ((env.insert 1 (.signed (-3))).insert 2 (.signed 9)) := by
    intro env bound
    have found : (Expression.paired [0, 1] [1, 2]).lookup env 0 = .ok (.signed 3) := by
      rw [Expression.lookup, bound]
    show ([0].mapM ((Expression.paired [0, 1] [1, 2]).lookup env) >>= _) = _
    rw [List.mapM_cons, found]
    show (Composite.both.evaluate [.signed 3] >>= _) = _
    rw [both_evaluate]
    rfl
  rw [Expression.evaluate_map]
  show ((Expression.paired [0, 1] [1, 2]).setResults _
    ⟨.call .both, [0], [1, 2]⟩ >>= pure) >>= _ = _
  rw [called _ rfl]
  rfl

end ScalarFusion

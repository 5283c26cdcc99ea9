import ScalarFusion.Proofs.Bodies
import ScalarFusion.Proofs.Tables

/-!
Valuations of arenas: values for all ids at once, such that every node computes the values of its
outputs from those of its operands. Whatever expression of the arena is evaluated, it finds the
values that the valuation gives.
-/
namespace ScalarFusion

theorem Expression.map_map {κ ι μ : Type} (f : κ → ι) (g : ι → μ) (e : Expression κ) :
    (e.map f).map g = e.map fun c => g (f c) := by
  simp only [Expression.map, Graph.map, Array.map_map, Expression.mk.injEq, Graph.mk.injEq, true_and,
    and_true]
  congr 1
  funext node
  obtain ⟨op, inputs, outputs⟩ := node
  cases op <;> rfl

theorem Composite.evaluate_eq [Numerics] (c : Composite) :
    c.evaluate = (c.body.map Composite.evaluate).evaluate := by
  rw [evaluate, fold_eq, Expression.map_map]

def Op.results [Numerics] (op : Op Composite) (args : List Literal)
    (inputs outputs : List ScalarType) : Except Error (List Literal) :=
  (op.map Composite.evaluate).evaluate args inputs outputs

namespace Expression

variable (e : Expression Composite)

def setResults [Numerics] (env : Table Literal) (node : Node Composite) :
    Except Error (Table Literal) := do
  let args ← node.inputs.mapM (e.lookup env)
  let types := node.outputs.map e.graph.typeOf
  let results ← node.op.results args (node.inputs.map e.graph.typeOf) types
  .ok ((node.outputs.zip (List.zipWith Literal.cast results types)).foldl
    (fun env (v, a) => env.insert v a) env)

theorem foldl_insert_cast (vs : List ValueId) (results : List Literal) (types : List ScalarType)
    (env : Table Literal) :
    (vs.zip (results.zip types)).foldl (fun env (v, result, t) => env.insert v (result.cast t)) env =
      (vs.zip (List.zipWith Literal.cast results types)).foldl (fun env (v, a) => env.insert v a)
        env := by
  induction vs generalizing results types env with
  | nil => rfl
  | cons v vs ih =>
    cases results with
    | nil => rfl
    | cons result results =>
      cases types with
      | nil => rfl
      | cons t types => exact ih results types _

theorem evaluateNode_map [Numerics] (env : Table Literal) (node : Node Composite) :
    (e.map Composite.evaluate).evaluateNode env (node.map Composite.evaluate) =
      e.setResults env node := by
  unfold evaluateNode setResults
  simp only [← foldl_insert_cast]
  rfl

theorem evaluate_map [Numerics] (args : List Literal) : (e.map Composite.evaluate).evaluate args =
    if args.length = e.inputs.length then do
      let env ← e.nodes.foldlM (fun env entry => e.setResults env entry.2) (e.bindArguments args)
      e.outputs.mapM (e.lookup env)
    else .error (.arity "expression graph" (.exactly e.inputs.length) args.length) := by
  have nodes : ∀ env, (e.map Composite.evaluate).nodes.foldlM
      (fun env entry => (e.map Composite.evaluate).evaluateNode env entry.2) env =
        e.nodes.foldlM (fun env entry => e.setResults env entry.2) env := by
    intro env
    rw [nodes_map, List.foldlM_map]
    simp only [evaluateNode_map]
  unfold evaluate
  by_cases arity : args.length = e.inputs.length
  · have met : ¬ args.length ≠ (e.map Composite.evaluate).inputs.length := not_not.mpr arity
    simp only [if_neg met, if_pos arity]
    show ((e.map Composite.evaluate).nodes.foldlM
      (fun env entry => (e.map Composite.evaluate).evaluateNode env entry.2) (e.bindArguments args) >>=
        fun env => e.outputs.mapM (e.lookup env)) = _
    rw [nodes]
  · have unmet : args.length ≠ (e.map Composite.evaluate).inputs.length := arity
    simp only [if_pos unmet, if_neg arity]
    rfl

theorem bindArguments_eq {κ : Type} (e : Expression κ) (args : List Literal) :
    e.bindArguments args = (e.inputs.zip (List.zipWith Literal.cast args e.inputTypes)).foldl
      (fun env (v, a) => env.insertNew v a) .empty :=
  Table.insertNew_zipWith Literal.cast e.graph.typeOf e.inputs args .empty

theorem lists_bindArguments (distinct : e.inputs.Nodup) {args : List Literal}
    (arity : args.length = e.inputs.length) :
    (e.bindArguments args).Lists e.inputs (List.zipWith Literal.cast args e.inputTypes) ∧
      ∀ v, v ∉ e.inputs → (e.bindArguments args).get? v = none := by
  rw [bindArguments_eq]
  refine Table.lists_insertNew_zip distinct _ ?_
  simp [inputTypes, arity]

end Expression

theorem mapM_ok {α β : Type} {f : α → Except Error β} {g : α → β} {xs : List α}
    (each : ∀ x ∈ xs, f x = .ok (g x)) : xs.mapM f = .ok (xs.map g) := by
  induction xs with
  | nil => rfl
  | cons x xs ih =>
    rw [List.mapM_cons, each x (by simp), ok_bind, ih fun y member => each y (by simp [member]),
      ok_bind]
    rfl

theorem exists_mapM {α β : Type} {f : α → Except Error β} {xs : List α}
    (each : ∀ x ∈ xs, ∃ y, f x = .ok y) : ∃ ys, xs.mapM f = .ok ys := by
  induction xs with
  | nil => exact ⟨[], rfl⟩
  | cons x xs ih =>
    obtain ⟨y, first⟩ := each x (by simp)
    obtain ⟨ys, rest⟩ := ih fun x' member => each x' (by simp [member])
    exact ⟨y :: ys, by rw [List.mapM_cons, first, ok_bind, rest]; rfl⟩

theorem Table.Covers.exists_lookup {e : Expression Composite} {env : Table Literal}
    {done : List NodeId} (covers : env.Covers e done) (ordered : e.graph.Ordered) {v : ValueId}
    (supplied : e.graph.Supplied e.inputs done v) : ∃ a, e.lookup env v = .ok a := by
  unfold Expression.lookup
  cases found : env.get? v with
  | some a => exact ⟨a, rfl⟩
  | none =>
    rcases covers.entry_or_constant ordered supplied with ⟨a, entry⟩ | ⟨type, literal, name, source⟩
    · rw [found] at entry
      cases entry
    · exact ⟨literal, by simp [source, Value.literal?]⟩

/-- Values of the types of their ids, the literals of constants among them, and for every node
    those of its outputs are what it computes from those of its operands. -/
structure Graph.Valued [Numerics] (g : Arena) (V : ValueId → Literal) : Prop where
  converted : ∀ v : Nat, v < g.values.size → (V v).cast (g.typeOf v) = V v
  constants : ∀ {v : ValueId} {type : ScalarType} {literal : Literal} {name : Option String},
    g.values[v]? = some ⟨type, .constant literal name⟩ → V v = literal
  nodes : ∀ {n : NodeId} {node : Node Composite}, g.nodes[n]? = some node → ∃ results,
    node.op.results (node.inputs.map V) (node.inputs.map g.typeOf) (node.outputs.map g.typeOf) =
      .ok results ∧
    node.outputs.map V = List.zipWith Literal.cast results (node.outputs.map g.typeOf)

namespace Expression

/-- The table has the values of the inputs and of the outputs of the nodes of `done`. -/
structure Finds (e : Expression Composite) (V : ValueId → Literal) (done : List NodeId)
    (env : Table Literal) : Prop where
  agrees : ∀ {v : ValueId} {a : Literal}, env.get? v = some a → a = V v
  inputs : ∀ v ∈ e.inputs, env.get? v = some (V v)
  produced : ∀ n ∈ done, ∀ node, e.graph.nodes[n]? = some node → ∀ o ∈ node.outputs,
    env.get? o = some (V o)

variable {e : Expression Composite} {V : ValueId → Literal} {done : List NodeId}
  {env : Table Literal}

theorem Finds.covers (finds : e.Finds V done env) : env.Covers e done where
  inputs v member := ⟨_, finds.inputs v member⟩
  produced n member node here o output := ⟨_, finds.produced n member node here o output⟩

theorem Finds.of_covers (covers : env.Covers e done)
    (agrees : ∀ {v : ValueId} {a : Literal}, env.get? v = some a → a = V v) : e.Finds V done env := by
  refine ⟨agrees, ?_, ?_⟩
  · intro v member
    obtain ⟨a, found⟩ := covers.inputs v member
    rw [found, agrees found]
  · intro n member node here o output
    obtain ⟨a, found⟩ := covers.produced n member node here o output
    rw [found, agrees found]

theorem Finds.lookup_eq [Numerics] (finds : e.Finds V done env) (valued : e.graph.Valued V)
    (ordered : e.graph.Ordered) {v : ValueId} (supplied : e.graph.Supplied e.inputs done v) :
    e.lookup env v = .ok (V v) := by
  unfold lookup
  cases found : env.get? v with
  | some a => rw [finds.agrees found]
  | none =>
    rcases finds.covers.entry_or_constant ordered supplied with
      ⟨a, bound⟩ | ⟨type, literal, name, source⟩
    · simp [found] at bound
    · simp [source, Value.literal?, valued.constants source]

theorem Finds.step [Numerics] (finds : e.Finds V done env) (valued : e.graph.Valued V)
    (ordered : e.graph.Ordered) {n : NodeId} {node : Node Composite}
    (here : e.graph.nodes[n]? = some node)
    (operands : ∀ v ∈ node.inputs, e.graph.Supplied e.inputs done v) :
    ∃ env', e.setResults env node = .ok env' ∧ e.Finds V (done ++ [n]) env' := by
  obtain ⟨results, computed, outputs⟩ := valued.nodes here
  have found := mapM_ok fun v member => finds.lookup_eq valued ordered (operands v member)
  refine ⟨(node.outputs.zip (node.outputs.map V)).foldl (fun env (v, a) => env.insert v a) env,
    ?_, .of_covers (finds.covers.set ordered here (by simp)) ?_⟩
  · rw [setResults, found, ok_bind]
    simp only [computed, ok_bind, outputs]
  · intro v a entry
    rcases Table.insert_zip_cases (ordered.nodup_outputs here) (by simp) entry with
      ⟨k, at_k, new⟩ | ⟨-, old⟩
    · simpa [at_k] using new.symm
    · exact finds.agrees old

theorem Finds.run [Numerics] (start : e.Finds V [] env) (valued : e.graph.Valued V)
    (ordered : e.graph.Ordered)
    {order : List NodeId} (scheduled : e.graph.Scheduled e.inputs order) :
    ∃ env', (order.filterMap fun n => (e.graph.nodes[n]?).map fun node => (n, node)).foldlM
      (fun env entry => e.setResults env entry.2) env = .ok env' ∧ e.Finds V order env' := by
  induction scheduled with
  | nil => exact ⟨env, rfl, start⟩
  | @snoc done n node _ _ here operands ih =>
    obtain ⟨env', run, finds⟩ := ih
    obtain ⟨env'', last, finds'⟩ := finds.step valued ordered here operands
    refine ⟨env'', ?_, finds'⟩
    rw [List.filterMap_append, List.foldlM_append, run, ok_bind]
    simp only [List.filterMap_cons, here, Option.map_some, List.filterMap_nil, List.foldlM_cons,
      List.foldlM_nil, last]
    rfl

/-- In a valued arena an expression evaluates to the values of its outputs. -/
theorem evaluate_of_valued [Numerics] (sourced : e.Sourced) (valued : e.graph.Valued V)
    {args : List Literal} (arity : args.length = e.inputs.length)
    (inputs : e.inputs.map V = List.zipWith Literal.cast args e.inputTypes) :
    (e.map Composite.evaluate).evaluate args = .ok (e.outputs.map V) := by
  have ordered := sourced.closed.ordered
  obtain ⟨lists, others⟩ := e.lists_bindArguments sourced.closed.distinct arity
  have set : ∀ v ∈ e.inputs, (e.bindArguments args).get? v = some (V v) := by
    unfold Table.Lists at lists
    rw [← inputs, List.map_map, List.map_inj_left] at lists
    exact lists
  have start : e.Finds V [] (e.bindArguments args) := by
    refine .of_covers ⟨fun v member => ⟨_, set v member⟩, by simp⟩ ?_
    intro v a found
    by_cases input : v ∈ e.inputs
    · rw [set v input] at found
      exact (Option.some.inj found).symm
    · rw [others v input] at found
      cases found
  obtain ⟨env, run, finds⟩ := start.run valued ordered sourced.scheduled
  rw [evaluate_map, if_pos arity]
  unfold nodes
  rw [run, ok_bind]
  exact mapM_ok fun v member => finds.lookup_eq valued ordered (sourced.walks.supplied v member)

end Expression

def extendFrom (V : ValueId → Literal) (size : Nat) (news : List Literal) : ValueId → Literal :=
  fun v => if v < size then V v else (news[v - size]?).getD (V v)

theorem map_extendFrom_range (V : ValueId → Literal) (size : Nat) (news : List Literal) :
    (List.range' size news.length).map (extendFrom V size news) = news := by
  apply List.ext_getElem?
  intro k
  rw [List.getElem?_map]
  by_cases inside : k < news.length
  · rw [List.getElem?_range' inside, Nat.one_mul, Option.map_some, extendFrom,
      if_neg (Nat.not_lt.mpr (Nat.le_add_right _ _)), Nat.add_sub_cancel_left,
      List.getElem?_eq_getElem inside, Option.getD_some]
  · rw [List.getElem?_eq_none (by simpa using inside), List.getElem?_eq_none (by omega)]
    rfl

namespace Graph

variable {g h : Arena} {V V' : ValueId → Literal}

theorem Knows.map_eq {vs : List ValueId} (known : g.Knows vs)
    (same : ∀ v : Nat, v < g.values.size → V' v = V v) : vs.map V' = vs.map V :=
  List.map_congr_left fun v member => same v (known v member)

theorem Valued.old_nodes [Numerics] (valued : g.Valued V) (ordered : g.Ordered)
    (grown : g.Extends h)
    (same : ∀ v : Nat, v < g.values.size → V' v = V v) {n : NodeId} {node : Node Composite}
    (old : g.nodes[n]? = some node) : ∃ results,
    node.op.results (node.inputs.map V') (node.inputs.map h.typeOf) (node.outputs.map h.typeOf) =
      .ok results ∧
    node.outputs.map V' = List.zipWith Literal.cast results (node.outputs.map h.typeOf) := by
  have inputs := ordered.known old
  have outputs := ordered.knows_outputs old
  rw [grown.map_typeOf inputs, grown.map_typeOf outputs, inputs.map_eq same, outputs.map_eq same]
  exact valued.nodes old

theorem Valued.pushConstant [Numerics] (valued : g.Valued V) (ordered : g.Ordered)
    {type : ScalarType}
    {literal : Literal} (converted : literal.cast type = literal) (name : Option String) :
    (g.pushValue ⟨type, .constant literal name⟩).Valued
      (extendFrom V g.values.size [literal]) := by
  have grown := g.extends_pushValue ⟨type, .constant literal name⟩
  have same : ∀ v : Nat, v < g.values.size → extendFrom V g.values.size [literal] v = V v :=
    fun v inside => if_pos inside
  have new : extendFrom V g.values.size [literal] g.values.size = literal := by
    simp [extendFrom]
  refine ⟨?_, ?_, fun old => valued.old_nodes ordered grown same old⟩
  · intro v inside
    rw [pushValue_values, Array.size_push] at inside
    rcases Nat.lt_succ_iff_lt_or_eq.mp inside with old | rfl
    · rw [same v old, grown.typeOf old]
      exact valued.converted v old
    · rw [new]
      simpa [typeOf] using converted
  · intro v type' literal' name' found
    rw [pushValue_values, Array.getElem?_push] at found
    split at found
    · next here =>
      obtain ⟨-, rfl, -⟩ : type = type' ∧ literal = literal' ∧ name = name' := by simpa using found
      rw [here, new]
    · have inside := (Array.getElem?_eq_some_iff.mp found).1
      rw [same v inside]
      exact valued.constants found

theorem Valued.pushNode [Numerics] (valued : g.Valued V) (ordered : g.Ordered) {op : Op Composite}
    {inputs : List ValueId} {types : List ScalarType} {results : List Literal}
    (known : g.Knows inputs)
    (computed : op.results (inputs.map V) (inputs.map g.typeOf) types = .ok results)
    (lengths : results.length = types.length) :
    (g.pushNode op inputs types).Valued
      (extendFrom V g.values.size (List.zipWith Literal.cast results types)) := by
  have grown := g.extends_pushNode op inputs types
  have same : ∀ v : Nat, v < g.values.size →
      extendFrom V g.values.size (List.zipWith Literal.cast results types) v = V v :=
    fun v inside => if_pos inside
  have outputs := map_extendFrom_range V g.values.size (List.zipWith Literal.cast results types)
  rw [List.length_zipWith, lengths, Nat.min_self] at outputs
  have typesOf := g.pushNode_types op inputs types
  refine ⟨?_, ?_, ?_⟩
  · intro v inside
    by_cases old : v < g.values.size
    · rw [same v old, grown.typeOf old]
      exact valued.converted v old
    · rw [pushNode_size] at inside
      have at_k : v - g.values.size < types.length := by omega
      have value := congrArg (fun l : List Literal => l[v - g.values.size]?) outputs
      have type := congrArg (fun l : List ScalarType => l[v - g.values.size]?) typesOf
      simp only [List.getElem?_map, List.getElem?_range' at_k, Nat.one_mul, Option.map_some,
        Nat.add_sub_of_le (Nat.le_of_not_lt old)] at value type
      obtain ⟨t, at_k_type⟩ : ∃ t, types[v - g.values.size]? = some t :=
        ⟨_, List.getElem?_eq_getElem at_k⟩
      obtain ⟨r, at_k_result⟩ : ∃ r, results[v - g.values.size]? = some r :=
        ⟨_, List.getElem?_eq_getElem (lengths ▸ at_k)⟩
      simp only [List.getElem?_zipWith, at_k_type, at_k_result, Option.some.injEq] at value type
      rw [value, type, Literal.cast_cast]
  · intro v type literal name found
    rw [pushNode_value_at] at found
    split at found
    · next inside =>
      rw [same v inside]
      exact valued.constants found
    · obtain ⟨t, -, new⟩ := Option.map_eq_some_iff.mp found
      simp at new
  · intro n node found
    rw [pushNode_nodes, Array.getElem?_push] at found
    split at found
    · obtain rfl := Option.some.inj found
      refine ⟨results, ?_, ?_⟩
      · rw [grown.map_typeOf known, known.map_eq same, typesOf]
        exact computed
      · rw [outputs, typesOf]
    · exact valued.old_nodes ordered grown same found

end Graph

theorem forall₂_of_mapM {α β : Type} {f : α → Except Error β} {xs : List α} {ys : List β}
    (success : xs.mapM f = .ok ys) : List.Forall₂ (fun x y => f x = .ok y) xs ys := by
  induction xs generalizing ys with
  | nil =>
    obtain rfl := Except.ok.inj success
    exact .nil
  | cons x xs ih =>
    rw [List.mapM_cons] at success
    obtain ⟨y, first, success⟩ := bind_eq_ok success
    obtain ⟨rest, tail, last⟩ := bind_eq_ok success
    obtain rfl := Except.ok.inj last
    exact .cons first (ih tail)

theorem zipWith_cast_alike {as bs : List Literal} (alike : as.map Literal.cast = bs.map Literal.cast)
    (types : List ScalarType) :
    List.zipWith Literal.cast as types = List.zipWith Literal.cast bs types := by
  induction as generalizing bs types with
  | nil =>
    obtain rfl : bs = [] := by simpa using alike.symm
    rfl
  | cons a as ih =>
    cases bs with
    | nil => simp at alike
    | cons b bs =>
      obtain ⟨first, rest⟩ := List.cons.inj alike
      cases types with
      | nil => rfl
      | cons t types => rw [List.zipWith_cons_cons, List.zipWith_cons_cons, first, ih rest]

namespace Op

theorem results_alike [Numerics] (op : Op Composite) {as bs : List Literal}
    (alike : as.map Literal.cast = bs.map Literal.cast) (inputs outputs : List ScalarType) :
    op.results as inputs outputs = op.results bs inputs outputs := by
  cases op with
  | prim p => exact p.evaluate_alike alike inputs outputs
  | call c =>
    show c.evaluate as = c.evaluate bs
    have length : as.length = bs.length := by simpa using congrArg List.length alike
    rw [Composite.evaluate_eq, Expression.evaluate_map, Expression.evaluate_map,
      Expression.bindArguments_eq, Expression.bindArguments_eq, zipWith_cast_alike alike, length]

theorem length_results [Numerics] {op : Op Composite} {inputs types : List ScalarType}
    {config : Config}
    (typed : op.outputTypes inputs config = .ok types) {args results : List Literal}
    (computed : op.results args inputs types = .ok results) : results.length = types.length := by
  cases op with
  | prim p =>
    obtain ⟨t, -, single⟩ := bind_eq_ok typed
    obtain rfl := Except.ok.inj single
    obtain ⟨_, -, evaluated⟩ := bind_eq_ok computed
    obtain ⟨v, -, last⟩ := bind_eq_ok evaluated
    obtain rfl := Except.ok.inj last
    rfl
  | call c =>
    obtain ⟨_, -, same⟩ := bind_eq_ok typed
    obtain rfl := Except.ok.inj same
    have evaluated : c.evaluate args = .ok results := computed
    rw [Composite.evaluate_eq, Expression.evaluate_map] at evaluated
    split at evaluated
    · obtain ⟨env, -, outputs⟩ := bind_eq_ok evaluated
      rw [Composite.outputTypes, Expression.outputTypes, List.length_map]
      exact (forall₂_of_mapM outputs).length_eq.symm
    · cases evaluated

end Op

end ScalarFusion

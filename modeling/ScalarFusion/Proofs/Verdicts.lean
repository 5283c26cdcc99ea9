import ScalarFusion.CModule
import ScalarFusion.Proofs.Narrowing
import ScalarFusion.Proofs.Valuing

/-!
Evaluation and emission fail together. Whether a composite can be computed is decided by its types
alone: its verdict is the failure of the first node, in order and through nested bodies, that has no
meaning for complex numbers. Evaluation and emission both follow the verdict.
-/
namespace ScalarFusion

def outcome {α : Type} (x : Except Error α) : Except Error Unit :=
  x.map fun _ => ()

@[simp]
theorem outcome_ok {α : Type} (a : α) : outcome (.ok a : Except Error α) = .ok () := rfl

@[simp]
theorem outcome_error {α : Type} (err : Error) :
    outcome (.error err : Except Error α) = .error err := rfl

theorem outcome_bind {α β : Type} {x : Except Error α} {f : α → Except Error β}
    {rest : Except Error Unit} (next : ∀ a, x = .ok a → outcome (f a) = rest) :
    outcome (x >>= f) = (outcome x >>= fun _ => rest) := by
  cases x with
  | error err => rfl
  | ok a => exact next a rfl

theorem outcome_bind_ok {α β : Type} {x : Except Error α} {f : α → Except Error β}
    (next : ∀ a, x = .ok a → outcome (f a) = .ok ()) : outcome (x >>= f) = outcome x := by
  rw [outcome_bind next]
  cases x <;> rfl

theorem error_iff_of_outcome {α β : Type} {x : Except Error α} {y : Except Error β}
    (same : outcome x = outcome y) (err : Error) : x = .error err ↔ y = .error err := by
  cases x <;> cases y <;> simp_all

/-- A run over scheduled nodes has the outcome that the checks of the nodes have, one after another,
    if each step has that of its node as long as the invariant holds. -/
theorem Graph.Scheduled.outcome_run {κ σ : Type} {g : Graph κ} {inputs : List ValueId}
    {order : List NodeId} (scheduled : g.Scheduled inputs order)
    (step : σ → Node κ → Nat → Except Error σ) (check : Node κ → Except Error Unit)
    (Inv : List NodeId → σ → Prop) {s : σ} (start : Inv [] s)
    (one : ∀ done n node s k, n ∈ order → g.nodes[n]? = some node →
      (∀ v ∈ node.inputs, g.Supplied inputs done v) → Inv done s →
        outcome (step s node k) = check node ∧ ∀ s', step s node k = .ok s' → Inv (done ++ [n]) s')
    {entries : List (NodeId × Node κ)}
    (listed : entries = order.filterMap fun n => (g.nodes[n]?).map fun node => (n, node)) :
    outcome (entries.zipIdx.foldlM (fun s entry => step s entry.1.2 entry.2) s) =
        entries.foldlM (fun _ entry => check entry.2) () ∧
      ∀ s', entries.zipIdx.foldlM (fun s entry => step s entry.1.2 entry.2) s = .ok s' →
        Inv order s' := by
  induction scheduled generalizing entries with
  | nil =>
    obtain rfl : entries = [] := listed
    refine ⟨rfl, ?_⟩
    intro s' same
    obtain rfl := Except.ok.inj same
    exact start
  | @snoc done n node _ _ here operands ih =>
    obtain ⟨outcome_done, inv⟩ := ih
      (fun done m node s k member => one done m node s k (by simp [member])) rfl
    simp only [List.filterMap_append, List.filterMap_cons, here, Option.map_some,
      List.filterMap_nil] at listed
    subst listed
    rw [List.zipIdx_append, List.foldlM_append, List.foldlM_append, ← outcome_done]
    simp only [List.zipIdx_cons, List.zipIdx_nil, List.foldlM_cons, List.foldlM_nil, bind_pure]
    constructor
    · apply outcome_bind
      intro s' run
      exact (one done n node s' _ (by simp) here operands (inv s' run)).1
    · intro s' success
      obtain ⟨middle, run, last⟩ := bind_eq_ok success
      exact (one done n node middle _ (by simp) here operands (inv middle run)).2 s' last

namespace Primitive

/-- The operations without a meaning for complex numbers that their typing admits nevertheless. -/
def excludesComplex : Primitive → Bool
  | intDiv => true
  | mod => true
  | bitwise _ => true
  | _ => false

def verdict (p : Primitive) (t : ScalarType) : Except Error Unit :=
  if p.excludesComplex && t.isComplex then .error (.complexOperands p.name) else .ok ()

end Primitive

def Op.verdict : Op (Except Error Unit) → List ScalarType → Except Error Unit
  | prim p, t :: _ => p.verdict t
  | prim _, [] => .ok ()
  | call known, _ => known

/-- Whether a composite can be computed, or the failure of the first node that cannot. -/
def Composite.verdict : Composite → Except Error Unit :=
  fold fun e => e.nodes.foldlM
    (fun _ entry => (entry.2.op.map Prod.snd).verdict (entry.2.outputs.map e.graph.typeOf)) ()

def Node.verdict (g : Arena) (node : Node Composite) : Except Error Unit :=
  (node.op.map Composite.verdict).verdict (node.outputs.map g.typeOf)

theorem Composite.verdict_eq (c : Composite) :
    c.verdict = c.body.nodes.foldlM (fun _ entry => entry.2.verdict c.graph) () := by
  rw [verdict, fold_eq, Expression.nodes_map, List.foldlM_map]
  congr 1
  funext _ ⟨n, op, inputs, outputs⟩
  cases op <;> rfl

section Evaluation

theorem Primitive.outcome_compute [Numerics] {p : Primitive} {values : List Literal}
    (admitted : p.arity.admits values.length = true) (inputs : List ScalarType) (t : ScalarType) :
    outcome (p.compute values inputs t) = p.verdict t := by
  cases p with
  | add | mul | sub | mean => rfl
  | bitwise b => cases t <;> rfl
  | neg | reciprocal | elementary _ =>
    obtain ⟨a, rfl⟩ := Arity.exists_one admitted
    cases t <;> rfl
  | identity | cast _ =>
    obtain ⟨a, rfl⟩ := Arity.exists_one admitted
    rfl
  | trueDiv | intDiv | mod | pow =>
    obtain ⟨a, b, rfl⟩ := Arity.exists_two admitted
    cases t <;> rfl
  | arctan2 | compare _ =>
    obtain ⟨a, b, rfl⟩ := Arity.exists_two admitted
    rfl
  | switch | inRange _ _ =>
    obtain ⟨a, b, c, rfl⟩ := Arity.exists_three admitted
    rfl

theorem Op.outcome_results [Numerics] {op : Op Composite} {inputs types : List ScalarType}
    {config : Config} (typed : op.outputTypes inputs config = .ok types)
    (callee : ∀ c, op = .call c → ∀ args : List Literal, args.length = c.inputCount →
      outcome (c.evaluate args) = c.verdict)
    {args : List Literal} (counted : args.length = inputs.length) :
    outcome (op.results args inputs types) = (op.map Composite.verdict).verdict types := by
  cases op with
  | prim p =>
    obtain ⟨t, output, single⟩ := bind_eq_ok typed
    obtain rfl := Except.ok.inj single
    have admitted := Primitive.admits_of_outputType output
    rw [← counted] at admitted
    show outcome (p.evaluate args inputs [t]) = p.verdict t
    rw [Primitive.evaluate, Primitive.checkArity, if_pos admitted, ok_bind,
      ← Primitive.outcome_compute admitted inputs t]
    exact outcome_bind_ok fun _ _ => rfl
  | call c =>
    obtain ⟨_, admitted, -⟩ := bind_eq_ok typed
    rw [Composite.checkArity_eq] at admitted
    split at admitted
    · next arity => exact callee c rfl args (counted.trans arity)
    · cases admitted

variable {e : Expression Composite} {env : Table Literal} {done : List NodeId}

theorem Expression.outcome_setResults [Numerics] (ordered : e.graph.Ordered) (typed : e.graph.Typed)
    (callees : e.graph.Calls fun c => ∀ args : List Literal, args.length = c.inputCount →
      outcome (c.evaluate args) = c.verdict)
    {n : NodeId} {node : Node Composite} (here : e.graph.nodes[n]? = some node)
    (operands : ∀ v ∈ node.inputs, e.graph.Supplied e.inputs done v) (covers : env.Covers e done) :
    outcome (e.setResults env node) = node.verdict e.graph ∧
      ∀ env', e.setResults env node = .ok env' → env'.Covers e (done ++ [n]) := by
  have types := typed.types here
  obtain ⟨args, found⟩ := exists_mapM fun v member =>
    covers.exists_lookup ordered (operands v member)
  have counted : args.length = (node.inputs.map e.graph.typeOf).length := by
    rw [List.length_map]
    exact (forall₂_of_mapM found).length_eq.symm
  have opened : e.setResults env node = (node.op.results args (node.inputs.map e.graph.typeOf)
      (node.outputs.map e.graph.typeOf) >>= fun results => .ok ((node.outputs.zip
        (List.zipWith Literal.cast results (node.outputs.map e.graph.typeOf))).foldl
          (fun env entry => env.insert entry.1 entry.2) env)) := by
    rw [setResults, found]
    rfl
  rw [opened]
  constructor
  · rw [outcome_bind_ok fun _ _ => rfl]
    exact Op.outcome_results types (fun c called => callees here called) counted
  · intro env' success
    obtain ⟨results, computed, last⟩ := bind_eq_ok success
    obtain rfl := Except.ok.inj last
    have lengths : node.outputs.length =
        (List.zipWith Literal.cast results (node.outputs.map e.graph.typeOf)).length := by
      rw [List.length_zipWith, Op.length_results types computed, List.length_map, Nat.min_self]
    exact covers.set ordered here lengths

theorem Expression.outcome_evaluate [Numerics] (ordered : e.graph.Ordered) (typed : e.graph.Typed)
    (callees : e.graph.Calls fun c => ∀ args : List Literal, args.length = c.inputCount →
      outcome (c.evaluate args) = c.verdict)
    (walks : e.graph.Walks e.inputs e.outputs [] e.order) {args : List Literal}
    (arity : args.length = e.inputs.length) (start : (e.bindArguments args).Covers e []) :
    outcome ((e.map Composite.evaluate).evaluate args) =
      e.nodes.foldlM (fun _ entry => entry.2.verdict e.graph) () := by
  have listed : e.nodes = e.order.filterMap fun n =>
    (e.graph.nodes[n]?).map fun node => (n, node) := rfl
  obtain ⟨followed, covered⟩ := (walks.scheduled .nil).outcome_run
    (fun env node _ => e.setResults env node) (Node.verdict e.graph)
    (fun done env => env.Covers e done) start
    (fun done n node env _ _ here operands covers =>
      outcome_setResults ordered typed callees here operands covers) listed
  have unindexed : ∀ env : Table Literal,
      e.nodes.zipIdx.foldlM (fun env entry => e.setResults env entry.1.2) env =
        e.nodes.foldlM (fun env entry => e.setResults env entry.2) env := by
    intro env
    conv_rhs => rw [← List.zipIdx_map_fst 0 e.nodes, List.foldlM_map]
  rw [unindexed] at followed covered
  rw [evaluate_map, if_pos arity]
  refine Eq.trans (outcome_bind_ok ?_) followed
  intro env run
  obtain ⟨results, found⟩ := exists_mapM fun v member =>
    (covered env run).exists_lookup ordered (walks.supplied v member)
  exact congrArg outcome found

theorem Composite.WellBuilt.outcome_evaluate [Numerics] {c : Composite} (good : c.WellBuilt)
    {args : List Literal} (arity : args.length = c.inputCount) :
    outcome (c.evaluate args) = c.verdict := by
  induction good generalizing args with
  | @mk e tidy _ ih =>
    have sourced := tidy.sourced
    have callees : e.graph.Calls fun c => ∀ args : List Literal, args.length = c.inputCount →
        outcome (c.evaluate args) = c.verdict := fun n node c here called args => ih here called
    have start : (e.bindArguments args).Covers e [] := by
      obtain ⟨lists, -⟩ := e.lists_bindArguments sourced.closed.distinct arity
      exact ⟨fun v member => (lists.mem member).imp fun _ => And.right, by simp⟩
    rw [evaluate_eq, verdict_eq]
    exact Expression.outcome_evaluate sourced.closed.ordered sourced.closed.typed callees
      sourced.walks arity start

end Evaluation

section Emission

theorem ScalarType.exists_cName {t : ScalarType} (other : t ≠ .float .half) :
    ∃ name, t.cName = .ok name := by
  rcases t with _ | (_ | _ | _ | _) | (_ | _ | _ | _) | (_ | _ | _) | (_ | _) <;>
    first | exact ⟨_, rfl⟩ | exact absurd rfl other

theorem Operand.exists_convert (x : Operand) {t : ScalarType} (other : t ≠ .float .half) :
    ∃ text, x.convert t = .ok text := by
  obtain ⟨name, named⟩ := ScalarType.exists_cName other
  unfold convert
  rw [named]
  split
  · exact ⟨_, rfl⟩
  · rw [ok_bind]
    split
    · exact ⟨_, rfl⟩
    · split <;> exact ⟨_, rfl⟩

theorem exists_cFunction (base : String) {t : ScalarType} (other : t ≠ .float .half)
    (continuous : t.isDiscrete = false) : ∃ name, cFunction base t = .ok name := by
  rcases t with _ | _ | _ | (_ | _ | _) | (_ | _)
  · cases continuous
  · cases continuous
  · cases continuous
  · exact absurd rfl other
  all_goals exact ⟨_, rfl⟩

theorem Elementary.exists_cExpression (f : Elementary) {t : ScalarType} (other : t ≠ .float .half)
    (continuous : t.isDiscrete = false) (x : String) : ∃ text, f.cExpression t x = .ok text := by
  have call : ∀ base y, ∃ text, cCall base t y = .ok text := by
    intro base y
    obtain ⟨name, named⟩ := exists_cFunction base other continuous
    exact ⟨_, by rw [cCall, named]; rfl⟩
  have scaled : ∀ base y (g : String → String), ∃ text,
      (cCall base t y >>= fun c => .ok (g c)) = .ok text := by
    intro base y g
    obtain ⟨text, written⟩ := call base y
    exact ⟨g text, by rw [written]; rfl⟩
  cases f with
  | deg2rad | rad2deg => exact ⟨_, rfl⟩
  | log2 | log10 | expm1 =>
    simp only [cExpression]
    split
    · exact scaled _ _ _
    · exact call _ _
  | log1p | exp2 =>
    simp only [cExpression]
    split <;> exact call _ _
  | _ => exact call _ _

theorem ScalarType.upcast_ne_half {types : List ScalarType} (others : ∀ t ∈ types, t ≠ .float .half)
    {s : ScalarType} (joined : upcast types = some s) : s ≠ .float .half := by
  have same : types.map widen = types := by
    conv_rhs => rw [← List.map_id types]
    exact List.map_congr_left fun t member => widen_of_ne_half (others t member)
  have widened := upcast_widen types
  rw [same, joined, Option.map_some] at widened
  rw [Option.some.inj widened]
  exact widen_ne_half s

theorem Primitive.isDiscrete_of_arctan2 {inputs : List ScalarType} {config : Config}
    {t : ScalarType} (typed : arctan2.outputType inputs config = .ok t) : t.isDiscrete = false := by
  obtain ⟨_, -, typed⟩ := bind_eq_ok typed
  obtain ⟨_, -, typed⟩ := bind_eq_ok typed
  obtain ⟨s, -, same⟩ := bind_eq_ok typed
  obtain rfl := Except.ok.inj same
  exact s.isDiscrete_upgrade

theorem Primitive.outcome_assignment {p : Primitive} {inputs : List Operand} {out : Operand}
    {config : Config} (typed : p.outputType (inputs.map Operand.type) config = .ok out.type)
    (others : ∀ x ∈ inputs, x.type ≠ .float .half) (other : out.type ≠ .float .half) (id : String) :
    outcome (p.assignment inputs out id) = p.verdict out.type := by
  have admitted := admits_of_outputType typed
  rw [List.length_map] at admitted
  have converted := fun x : Operand => x.exists_convert other
  obtain ⟨name, named⟩ := ScalarType.exists_cName other
  obtain ⟨args, convertedAll⟩ : ∃ args, inputs.mapM (·.convert out.type) = .ok args :=
    exists_mapM fun x _ => converted x
  have domain : (ScalarType.upcast (inputs.map Operand.type)).getD out.type ≠ .float .half := by
    cases joined : ScalarType.upcast (inputs.map Operand.type) with
    | none => exact other
    | some s =>
      refine ScalarType.upcast_ne_half ?_ joined
      intro t member
      obtain ⟨x, inside, rfl⟩ := List.mem_map.mp member
      exact others x inside
  -- all conversions succeed, so that what is left of a case is its refusal of complex types, if any
  simp only [assignment, named, ok_bind]
  cases p with
  | add | mul | sub | trueDiv =>
    simp only [convertedAll, ok_bind]
    rfl
  | neg | identity | cast _ | reciprocal =>
    obtain ⟨a, rfl⟩ := Arity.exists_one admitted
    obtain ⟨x, done⟩ := converted a
    simp only [done, ok_bind]
    rfl
  | elementary f =>
    obtain ⟨a, rfl⟩ := Arity.exists_one admitted
    obtain ⟨x, done⟩ := converted a
    obtain ⟨text, written⟩ := f.exists_cExpression other (isDiscrete_of_elementary typed) x
    simp only [done, ok_bind, written]
    rfl
  | intDiv | mod =>
    obtain ⟨a, b, rfl⟩ := Arity.exists_two admitted
    obtain ⟨x, left⟩ := converted a
    obtain ⟨y, right⟩ := converted b
    simp only [left, right, ok_bind, verdict, excludesComplex, Bool.true_and]
    split
    · rfl
    · split
      · next continuous =>
        obtain ⟨f, found⟩ := exists_cFunction _ other (by simpa using continuous)
        rw [found]
        rfl
      · split <;> rfl
  | pow =>
    obtain ⟨a, b, rfl⟩ := Arity.exists_two admitted
    obtain ⟨x, left⟩ := converted a
    obtain ⟨y, right⟩ := converted b
    simp only [left, right, ok_bind]
    split
    · rfl
    · next continuous =>
      obtain ⟨f, found⟩ := exists_cFunction "pow" other (by simpa using continuous)
      rw [found]
      rfl
  | arctan2 =>
    obtain ⟨a, b, rfl⟩ := Arity.exists_two admitted
    obtain ⟨x, left⟩ := converted a
    obtain ⟨y, right⟩ := converted b
    obtain ⟨f, found⟩ := exists_cFunction "atan2" other (isDiscrete_of_arctan2 typed)
    simp only [left, right, ok_bind, found]
    rfl
  | compare c =>
    obtain ⟨a, b, rfl⟩ := Arity.exists_two admitted
    obtain ⟨x, left⟩ := a.exists_convert domain
    obtain ⟨y, right⟩ := b.exists_convert domain
    simp only [left, right, ok_bind]
    rfl
  | bitwise b =>
    cases b with
    | invert =>
      obtain ⟨a, rfl⟩ := Arity.exists_one admitted
      obtain ⟨x, done⟩ := converted a
      simp only [done, ok_bind, verdict, excludesComplex, Bool.true_and]
      split <;> rfl
    | _ =>
      simp only [convertedAll, ok_bind, verdict, excludesComplex, Bool.true_and]
      split <;> rfl
  | switch =>
    obtain ⟨c, a, b, rfl⟩ := Arity.exists_three admitted
    obtain ⟨x, left⟩ := converted a
    obtain ⟨y, right⟩ := converted b
    simp only [left, right, ok_bind]
    rfl
  | mean =>
    cases inputs with
    | nil => rfl
    | cons a rest =>
      simp only [convertedAll, ok_bind]
      rfl
  | inRange lower upper =>
    obtain ⟨a, low, high, rfl⟩ := Arity.exists_three admitted
    obtain ⟨x, first⟩ := a.exists_convert domain
    obtain ⟨y, second⟩ := low.exists_convert domain
    obtain ⟨z, third⟩ := high.exists_convert domain
    simp only [first, second, third, ok_bind]
    rfl

theorem Op.outcome_statement {op : Op Composite} {inputs outputs : List Operand} {config : Config}
    (typed : op.outputTypes (inputs.map Operand.type) config = .ok (outputs.map Operand.type))
    (callee : ∀ c, op = .call c → ∀ (ins outs : List String) (id : String),
      ins.length = c.inputCount → outs.length = c.outputCount →
        outcome (c.emit ins outs id) = c.verdict)
    (others : ∀ x ∈ inputs ++ outputs, x.type ≠ .float .half) (id : String) :
    outcome ((op.map Composite.emit).statement inputs outputs id) =
      (op.map Composite.verdict).verdict (outputs.map Operand.type) := by
  cases op with
  | prim p =>
    obtain ⟨t, output, single⟩ := bind_eq_ok typed
    obtain ⟨out, rfl, rfl⟩ := List.map_eq_singleton_iff.mp (Except.ok.inj single).symm
    have admitted := Primitive.admits_of_outputType output
    rw [List.length_map] at admitted
    show outcome (p.statement inputs [out] id) = p.verdict out.type
    rw [Primitive.statement, Primitive.checkArity, if_pos admitted, ok_bind]
    exact Primitive.outcome_assignment output (fun x member => others x (by simp [member]))
      (others out (by simp)) id
  | call c =>
    obtain ⟨_, admitted, same⟩ := bind_eq_ok typed
    have outputCount := congrArg List.length (Except.ok.inj same)
    rw [Composite.checkArity_eq] at admitted
    split at admitted
    · next arity =>
      have follows := callee c rfl (inputs.map Operand.text) (outputs.map Operand.text) id
        (by simpa using arity) (by simpa [Composite.outputTypes, Expression.outputTypes,
          Composite.outputCount, Composite.outputs] using outputCount.symm)
      exact Eq.trans (outcome_bind_ok fun _ _ => rfl) follows
    · cases admitted

variable {e : Expression Composite} {names : Table Operand} {done : List NodeId}

structure Expression.Names (e : Expression Composite) (done : List NodeId) (names : Table Operand) :
    Prop where
  covers : names.Covers e done
  types : ∀ v x, names.get? v = some x → x.type = e.graph.typeOf v

theorem Expression.Names.exists_operand (named : e.Names done names) (ordered : e.graph.Ordered)
    {v : ValueId} (supplied : e.graph.Supplied e.inputs done v) :
    ∃ x, e.operand names v = .ok x ∧ x.type = e.graph.typeOf v := by
  unfold operand
  cases found : names.get? v with
  | some x => exact ⟨x, rfl, named.types v x found⟩
  | none =>
    rcases named.covers.entry_or_constant ordered supplied with
      ⟨x, entry⟩ | ⟨type, literal, name, source⟩
    · rw [found] at entry
      cases entry
    · exact ⟨⟨literal.cText (e.graph.typeOf v), e.graph.typeOf v⟩,
        by simp [source, Value.literal?], rfl⟩

theorem exists_mapM_types {vs : List ValueId} {f : ValueId → Except Error Operand}
    {types : ValueId → ScalarType} (each : ∀ v ∈ vs, ∃ x, f v = .ok x ∧ x.type = types v) :
    ∃ xs, vs.mapM f = .ok xs ∧ xs.map Operand.type = vs.map types := by
  induction vs with
  | nil => exact ⟨[], rfl, rfl⟩
  | cons v vs ih =>
    obtain ⟨x, first, type⟩ := each v (by simp)
    obtain ⟨xs, rest, same⟩ := ih fun u member => each u (by simp [member])
    refine ⟨x :: xs, ?_, by rw [List.map_cons, List.map_cons, type, same]⟩
    rw [List.mapM_cons, first, ok_bind, rest]
    rfl

theorem Expression.exists_declare {vs : List ValueId}
    (others : ∀ v ∈ vs, e.graph.typeOf v ≠ .float .half) (id : String) {s : Emission}
    (types : ∀ v x, s.names.get? v = some x → x.type = e.graph.typeOf v) :
    ∃ s', vs.foldlM (e.declare id) s = .ok s' ∧
      (∀ v x, s'.names.get? v = some x → x.type = e.graph.typeOf v) ∧
      (∀ v x, s.names.get? v = some x → ∃ y, s'.names.get? v = some y) ∧
      ∀ v ∈ vs, ∃ y, s'.names.get? v = some y := by
  induction vs generalizing s with
  | nil => exact ⟨s, rfl, types, fun v x found => ⟨x, found⟩, by simp⟩
  | cons v vs ih =>
    obtain ⟨type, named⟩ := ScalarType.exists_cName (others v (by simp))
    obtain ⟨s₁, first, names⟩ : ∃ s₁, e.declare id s v = .ok s₁ ∧
        s₁.names = s.names.insert v ⟨temporary id s.temporaries, e.graph.typeOf v⟩ := by
      simp only [declare, named, ok_bind]
      exact ⟨_, rfl, rfl⟩
    have entry : ∀ u, s₁.names.get? u = if v = u then
        some ⟨temporary id s.temporaries, e.graph.typeOf v⟩ else s.names.get? u := by
      intro u
      rw [names, Table.get?_insert]
    have types₁ : ∀ u x, s₁.names.get? u = some x → x.type = e.graph.typeOf u := by
      intro u x found
      rw [names] at found
      rcases Table.insert_cases found with ⟨rfl, rfl⟩ | old
      · rfl
      · exact types u x old
    obtain ⟨s', rest, types', kept, set⟩ := ih (fun u member => others u (by simp [member])) types₁
    refine ⟨s', by rw [List.foldlM_cons, first, ok_bind, rest], types', ?_, ?_⟩
    · intro u x found
      have here := entry u
      split at here
      · exact kept u _ here
      · exact kept u x (here.trans found)
    · rintro u (_ | ⟨_, member⟩)
      · exact kept v _ ((entry v).trans (if_pos rfl))
      · exact set u member

theorem Expression.outcome_emitNode (sourced : e.Sourced)
    (free : ∀ v, e.graph.typeOf v ≠ .float .half)
    {n : NodeId} {node : Node Composite} (here : e.graph.nodes[n]? = some node)
    (callee : ∀ c, node.op = .call c → ∀ (ins outs : List String) (id : String),
      ins.length = c.inputCount → outs.length = c.outputCount →
        outcome (c.emit ins outs id) = c.verdict)
    (operands : ∀ v ∈ node.inputs, e.graph.Supplied e.inputs done v) {s : Emission}
    (named : e.Names done s.names) (id : String) (k : Nat) :
    outcome ((e.map Composite.emit).emitNode id s k (node.map Composite.emit)) =
        node.verdict e.graph ∧
      ∀ s', (e.map Composite.emit).emitNode id s k (node.map Composite.emit) = .ok s' →
        e.Names (done ++ [n]) s'.names := by
  have ordered := sourced.closed.ordered
  have typed := sourced.closed.typed.types here
  obtain ⟨inputs, found, inputTypes⟩ := exists_mapM_types fun v member =>
    named.exists_operand ordered (operands v member)
  obtain ⟨s₁, declared, types, kept, set⟩ := exists_declare (fun v (_ : v ∈ node.outputs) => free v)
    id named.types
  have named₁ : e.Names (done ++ [n]) s₁.names := ⟨named.covers.snoc here kept set, types⟩
  obtain ⟨outputs, found', outputTypes⟩ : ∃ xs, node.outputs.mapM (e.operand s₁.names) = .ok xs ∧
      xs.map Operand.type = node.outputs.map e.graph.typeOf := by
    refine exists_mapM_types fun v member => ?_
    obtain ⟨j, output⟩ := List.getElem?_of_mem member
    obtain ⟨t, source⟩ := ordered.produced.mpr ⟨node, here, output⟩
    exact named₁.exists_operand ordered (.output source (by simp))
  have opened : (e.map Composite.emit).emitNode id s k (node.map Composite.emit) =
      ((node.op.map Composite.emit).statement inputs outputs (id ++ "_" ++ toString k) >>= fun code =>
        .ok { s₁ with lines := s₁.lines.push code }) := by
    show (node.inputs.mapM (e.operand s.names) >>= fun inputs => do
      let s ← node.outputs.foldlM (e.declare id) s
      let outputs ← node.outputs.mapM (e.operand s.names)
      let code ← (node.op.map Composite.emit).statement inputs outputs (id ++ "_" ++ toString k)
      .ok { s with lines := s.lines.push code }) = _
    rw [found, ok_bind, declared, ok_bind, found', ok_bind]
  rw [opened]
  constructor
  · rw [outcome_bind_ok fun _ _ => rfl, Node.verdict, ← outputTypes]
    rw [← inputTypes, ← outputTypes] at typed
    refine Op.outcome_statement typed callee ?_ _
    intro x member
    have type : x.type ∈ node.inputs.map e.graph.typeOf ++ node.outputs.map e.graph.typeOf := by
      rw [← inputTypes, ← outputTypes, ← List.map_append]
      exact List.mem_map_of_mem member
    rw [← List.map_append] at type
    obtain ⟨v, -, same⟩ := List.mem_map.mp type
    rw [← same]
    exact free v
  · intro s' success
    obtain ⟨code, -, last⟩ := bind_eq_ok success
    obtain rfl := Except.ok.inj last
    exact named₁

def Expression.inputNames (e : Expression Composite) (ins : List String) : Table Operand :=
  (e.inputs.zip ins).foldl (fun t (v, name) => t.insertNew v ⟨name, e.graph.typeOf v⟩) .empty

theorem Expression.inputNames_eq (e : Expression Composite) (ins : List String) :
    e.inputNames ins = (e.inputs.zip (List.zipWith Operand.mk ins (e.inputs.map e.graph.typeOf))).foldl
      (fun t (v, x) => t.insertNew v x) .empty :=
  Table.insertNew_zipWith Operand.mk e.graph.typeOf e.inputs ins .empty

theorem Expression.inputNames_cases (distinct : e.inputs.Nodup) {ins : List String}
    (count : ins.length = e.inputs.length) {v : ValueId} {x : Operand}
    (found : (e.inputNames ins).get? v = some x) :
    ∃ (k : Nat) (name : String), e.inputs[k]? = some v ∧ ins[k]? = some name ∧
      x = ⟨name, e.graph.typeOf v⟩ := by
  rw [inputNames_eq] at found
  obtain ⟨k, input, operand⟩ := Table.insertNew_zip_cases distinct (by simp [count]) found
  obtain ⟨name, t, given, type, rfl⟩ := List.getElem?_zipWith_eq_some.mp operand
  simp only [List.getElem?_map, input, Option.map_some, Option.some.injEq] at type
  exact ⟨k, name, input, given, by rw [type]⟩

theorem Expression.names_inputs (distinct : e.inputs.Nodup) {ins : List String}
    (count : ins.length = e.inputs.length) : e.Names [] (e.inputNames ins) := by
  refine ⟨⟨fun v member => ?_, by simp⟩, ?_⟩
  · rw [inputNames_eq]
    exact ((Table.lists_insertNew_zip distinct _ (by simp [count])).1.mem member).imp
      fun _ => And.right
  · intro v x found
    obtain ⟨k, name, -, -, rfl⟩ := inputNames_cases distinct count found
    rfl

theorem Composite.emit_eq (c : Composite) : c.emit = (c.body.map Composite.emit).emit := by
  rw [emit, fold_eq, Expression.map_map]

theorem Expression.emit_map {ins outs : List String} (inputCount : ins.length = e.inputs.length)
    (outputCount : outs.length = e.outputs.length) (id : String) :
    (e.map Composite.emit).emit ins outs id = (do
      let s ← e.nodes.zipIdx.foldlM (fun s entry =>
        (e.map Composite.emit).emitNode id s entry.2 (entry.1.2.map Composite.emit))
        { names := e.inputNames ins }
      let last ← (e.outputs.zip outs).mapM fun (v, name) => do
        let x ← e.operand s.names v
        .ok (name ++ " = " ++ x.text ++ ";")
      .ok (String.intercalate "\n" (s.lines.toList ++ last))) := by
  have inputsMet : ¬ ins.length ≠ (e.map Composite.emit).inputs.length := not_not.mpr inputCount
  have outputsMet : ¬ outs.length ≠ (e.map Composite.emit).outputs.length := not_not.mpr outputCount
  unfold emit
  rw [if_neg inputsMet, if_neg outputsMet, nodes_map, List.zipIdx_map]
  simp only [List.foldlM_map]
  rfl

theorem Expression.emit_of_inputs {ins outs : List String} {id : String}
    (unmet : ins.length ≠ e.inputs.length) : (e.map Composite.emit).emit ins outs id =
      .error (.arity "composite inputs" (.exactly e.inputs.length) ins.length) := by
  unfold emit
  rw [if_pos (show ins.length ≠ (e.map Composite.emit).inputs.length from unmet)]
  rfl

theorem Expression.emit_of_outputs {ins outs : List String} {id : String}
    (met : ins.length = e.inputs.length) (unmet : outs.length ≠ e.outputs.length) :
    (e.map Composite.emit).emit ins outs id =
      .error (.arity "composite outputs" (.exactly e.outputs.length) outs.length) := by
  unfold emit
  rw [if_neg (show ¬ ins.length ≠ (e.map Composite.emit).inputs.length from not_not.mpr met),
    if_pos (show outs.length ≠ (e.map Composite.emit).outputs.length from unmet)]
  rfl

theorem Expression.counts_of_emit {ins outs : List String} {id text : String}
    (emitted : (e.map Composite.emit).emit ins outs id = .ok text) :
    ins.length = e.inputs.length ∧ outs.length = e.outputs.length := by
  by_cases inputs : ins.length = e.inputs.length
  · by_cases outputs : outs.length = e.outputs.length
    · exact ⟨inputs, outputs⟩
    · rw [emit_of_outputs inputs outputs] at emitted
      cases emitted
  · rw [emit_of_inputs inputs] at emitted
    cases emitted

theorem Composite.typeOf_ne_half {c : Composite} (free : c.hasHalf = false) (v : ValueId) :
    c.graph.typeOf v ≠ .float .half := by
  rw [← widen_typeOf free]
  exact ScalarType.widen_ne_half _

theorem Composite.WellBuilt.outcome_emit {c : Composite} (good : c.WellBuilt)
    (free : c.hasHalf = false) {ins outs : List String} (inputCount : ins.length = c.inputCount)
    (outputCount : outs.length = c.outputCount) (id : String) :
    outcome (c.emit ins outs id) = c.verdict := by
  induction good generalizing ins outs id with
  | @mk e tidy _ ih =>
    have sourced := tidy.sourced
    have callee : ∀ n node, n ∈ e.order → e.graph.nodes[n]? = some node → ∀ c, node.op = .call c →
        ∀ (ins outs : List String) (id : String), ins.length = c.inputCount →
          outs.length = c.outputCount → outcome (c.emit ins outs id) = c.verdict := by
      intro n node member here c called ins outs id inputCount outputCount
      have nested : c ∈ e.callees :=
        Expression.mem_callees.mpr ⟨n, node, Expression.mem_nodes.mpr ⟨member, here⟩, called⟩
      exact ih here called ((hasHalf_eq_false.mp free).2 c nested) inputCount outputCount id
    have start : e.Names [] (Emission.mk (e.inputNames ins) 0 #[]).names :=
      Expression.names_inputs sourced.closed.distinct inputCount
    -- the nodes fail as the verdict says; if they do not, all
    -- outputs have names and the assignments follow
    obtain ⟨followed, covered⟩ := sourced.scheduled.outcome_run
      (fun s node k => (e.map Composite.emit).emitNode id s k (node.map Composite.emit))
      (Node.verdict e.graph) (fun done (s : Emission) => e.Names done s.names)
      start (fun done n node s k member here operands named =>
        Expression.outcome_emitNode sourced (typeOf_ne_half free) here (callee n node member here)
          operands named id k)
      (show e.nodes = _ from rfl)
    rw [emit_eq, verdict_eq, Expression.emit_map (e := (mk e).body) inputCount outputCount]
    refine Eq.trans (outcome_bind_ok ?_) followed
    intro s run
    have named : e.Names e.order s.names := covered s run
    obtain ⟨last, written⟩ : ∃ last, ((e.outputs.zip outs).mapM fun (v, name) => do
        let x ← e.operand s.names v
        .ok (name ++ " = " ++ x.text ++ ";")) = .ok last := by
      apply exists_mapM
      rintro ⟨v, name⟩ member
      obtain ⟨x, found, -⟩ := named.exists_operand sourced.closed.ordered
        (sourced.walks.supplied v (List.of_mem_zip member).1)
      simp only [found, ok_bind]
      exact ⟨_, rfl⟩
    exact congrArg outcome (congrArg (· >>= _) written)

end Emission

theorem Primitive.verdict_widen (p : Primitive) (t : ScalarType) :
    p.widen.verdict t.widen = p.verdict t := by
  cases p <;> simp [verdict, widen, excludesComplex, name]

theorem Op.verdict_widened {op op' : Op Composite} (narrows : op.Narrows op')
    (callee : ∀ c d, op = .call c → c.narrow = .ok d → d.verdict = c.verdict)
    (types : List ScalarType) :
    (op'.map Composite.verdict).verdict (types.map ScalarType.widen) =
      (op.map Composite.verdict).verdict types := by
  cases op with
  | prim p =>
    obtain rfl := narrows
    cases types with
    | nil => rfl
    | cons t types => exact p.verdict_widen t
  | call c =>
    rcases narrows with ⟨-, rfl⟩ | ⟨-, d, narrowed, rfl⟩
    · rfl
    · exact callee c d rfl narrowed

theorem foldlM_congr_forall₂ {α β : Type} {R : α → β → Prop} {f : α → Except Error Unit}
    {g : β → Except Error Unit} {as : List α} {bs : List β} (related : List.Forall₂ R as bs)
    (same : ∀ a ∈ as, ∀ b, R a b → g b = f a) :
    bs.foldlM (fun _ b => g b) () = as.foldlM (fun _ a => f a) () := by
  induction related with
  | nil => rfl
  | cons here _ ih =>
    rw [List.foldlM_cons, List.foldlM_cons, same _ (by simp) _ here]
    congr 1
    funext _
    exact ih fun a member => same a (by simp [member])

theorem Composite.WellBuilt.verdict_narrow {c : Composite} (good : c.WellBuilt) {d : Composite}
    (narrowed : c.narrow = .ok d) : d.verdict = c.verdict := by
  induction good generalizing d with
  | @mk e tidy wellBuilt ih =>
    obtain ⟨d', ρ, narrowed', -, narrows, -⟩ := exists_narrow (.mk tidy wellBuilt)
    obtain rfl := Except.ok.inj (narrowed.symm.trans narrowed')
    rw [verdict_eq, verdict_eq]
    refine foldlM_congr_forall₂ narrows.nodes ?_
    rintro ⟨n, node⟩ member ⟨m, node'⟩ ⟨op, -, outputs⟩
    have here : e.graph.nodes[n]? = some node := (Expression.mem_nodes.mp member).2
    have types : node'.outputs.map d.graph.typeOf =
        (node.outputs.map e.graph.typeOf).map ScalarType.widen := by
      simp only at outputs
      rw [outputs, List.map_map, List.map_map]
      refine List.map_congr_left fun o output => ?_
      obtain ⟨x, y, source, image, type, -⟩ := narrows.values o
        (Expression.mem_values.mpr (.inr (.inl ⟨(n, node), member, .inr output⟩)))
      have source' : e.graph.values[o]? = some x := source
      simp [Graph.typeOf, source', image, type]
    rw [Node.verdict, types]
    exact Op.verdict_widened op (fun c d called => ih here called) _

namespace CModule

theorem exists_parameters {c : Composite} (free : c.hasHalf = false) :
    ∃ params, parameters c = .ok params := by
  have named : ∀ types : List ScalarType, (∀ t ∈ types, t ≠ .float .half) → ∀ suffix : String,
      ∃ texts, (types.zipIdx.mapM fun entry => do
        let type ← entry.1.cName
        .ok (type ++ suffix ++ toString entry.2)) = .ok texts := by
    intro types others suffix
    apply exists_mapM
    intro entry member
    obtain ⟨name, found⟩ :=
      ScalarType.exists_cName (others entry.1 (List.fst_mem_of_mem_zipIdx member))
    simp only [found, ok_bind]
    exact ⟨_, rfl⟩
  have others : ∀ vs : List ValueId, ∀ t ∈ vs.map c.graph.typeOf, t ≠ .float .half := by
    intro vs t member
    obtain ⟨v, -, rfl⟩ := List.mem_map.mp member
    exact Composite.typeOf_ne_half free v
  obtain ⟨inputs, first⟩ := named c.inputTypes (others c.inputs) " i"
  obtain ⟨outputs, second⟩ := named c.outputTypes (others c.outputs) "* o"
  have opened : parameters c = (do
      let inputs ← c.inputTypes.zipIdx.mapM fun entry => do
        let type ← entry.1.cName
        .ok (type ++ " i" ++ toString entry.2)
      let outputs ← c.outputTypes.zipIdx.mapM fun entry => do
        let type ← entry.1.cName
        .ok (type ++ "* o" ++ toString entry.2)
      .ok (inputs ++ outputs)) := rfl
  exact ⟨inputs ++ outputs, by rw [opened, first, ok_bind, second, ok_bind]⟩

theorem outcome_write {c : Composite} (good : c.WellBuilt) (free : c.hasHalf = false)
    (symbol : String) : outcome (write c symbol) = c.verdict := by
  obtain ⟨params, found⟩ := exists_parameters free
  rw [write, found, ok_bind, outcome_bind_ok fun _ _ => rfl]
  exact good.outcome_emit free (by simp) (by simp) _

theorem outcome_ofComposite {c : Composite} (good : c.WellBuilt) (stem : String) :
    outcome (ofComposite stem c) = c.verdict := by
  have written : ∀ d : Composite, d.WellBuilt → d.hasHalf = false →
      outcome (write d (entrypoint stem d) >>= fun source =>
        .ok (CModule.mk (entrypoint stem d) source)) = d.verdict := by
    intro d good free
    rw [outcome_bind_ok fun _ _ => rfl, outcome_write good free]
  unfold ofComposite
  split
  · obtain ⟨d, -, narrowed, widens, -⟩ := Composite.exists_narrow good
    rw [narrowed, ok_bind, ← good.verdict_narrow narrowed]
    exact written d (Composite.narrow_wellBuilt good narrowed).1 widens.free
  · next whole => exact written c good (by simpa using whole)

theorem convert_eq_error_iff {stem : String} {c : Composite} {failure : CodegenError} :
    convert stem c = .error failure ↔
      ∃ err, ofComposite stem c = .error err ∧ failure.message = err.message := by
  unfold convert
  cases ofComposite stem c with
  | ok m => simp [Except.mapError]
  | error err =>
    obtain ⟨message⟩ := failure
    simp [Except.mapError, CodegenError.ofError, eq_comm]

end CModule

/-- A composite cannot be evaluated, whatever the arguments, exactly if there is no C module of it.
    The cause is the same, and what is reported of it is its wording. -/
theorem evaluate_fails_iff_ofComposite_fails [Numerics] {c : Composite} (obtained : Obtained c)
    (stem : String) {args : List Literal} (arity : args.length = c.inputCount) :
    (∀ err, c.evaluate args = .error err ↔ CModule.ofComposite stem c = .error err) ∧
    (∀ failure, CModule.convert stem c = .error failure ↔
      ∃ err, c.evaluate args = .error err ∧ failure.message = err.message) ∧
    ∀ args' : List Literal, args'.length = c.inputCount →
      ∀ err, c.evaluate args' = .error err ↔ c.evaluate args = .error err := by
  have good := obtained.wellBuilt
  have causes : ∀ err, c.evaluate args = .error err ↔ CModule.ofComposite stem c = .error err := by
    intro err
    apply error_iff_of_outcome
    rw [good.outcome_evaluate arity, CModule.outcome_ofComposite good]
  refine ⟨causes, fun failure => ?_, ?_⟩
  · rw [CModule.convert_eq_error_iff]
    simp only [causes]
  · intro args' arity' err
    apply error_iff_of_outcome
    rw [good.outcome_evaluate arity, good.outcome_evaluate arity']

def Graph.remainder : Arena :=
  (Action.apply (.prim .mod) [0, 0]).perform ((Action.apply (.prim .neg) [1]).perform
    ((Action.newVariable (.float .half) (some "h")).perform
      ((Action.newVariable (.complex .single) (some "z")).perform {})))

theorem remainder_reachable : Reachable .remainder := by
  refine .perform (.perform (.perform (.perform (.empty {}) ?_ ?_) ?_ ?_) ?_ ?_) ?_ ?_
  all_goals first | decide | simp [Action.composite?, Op.callee?]

def Composite.remainder : Composite :=
  .mk ⟨.remainder, [0, 1], [2, 3], [0, 1]⟩

theorem remainder_fails : Graph.remainder.fuse [0, 1] [2, 3] = .ok .remainder ∧
    Obtained .remainder ∧ Composite.remainder.hasHalf = true ∧
    Composite.remainder.evaluate [.bool true, .bool true] = .error (.complexOperands "mod") ∧
    CModule.ofComposite "remainder" .remainder = .error (.complexOperands "mod") ∧
    CModule.convert "remainder" .remainder =
      .error ⟨"complex error: mod is not defined for complex operands"⟩ := by
  have fused : Graph.remainder.fuse [0, 1] [2, 3] = .ok .remainder := rfl
  have obtained : Obtained .remainder := .fuse remainder_reachable (by decide) fused
  have half : Composite.remainder.hasHalf = true := by
    rw [Composite.hasHalf_eq, ← Array.any_toList]
    rfl
  have fails : Composite.remainder.evaluate [.bool true, .bool true] =
      .error (.complexOperands "mod") := by
    rw [Composite.evaluate_eq, Expression.evaluate_map]
    rfl
  have arity : [Literal.bool true, .bool true].length = Composite.remainder.inputCount := rfl
  obtain ⟨causes, worded, -⟩ := evaluate_fails_iff_ofComposite_fails obtained "remainder" arity
  exact ⟨fused, obtained, half, fails, (causes _).mp fails, (worded _).mpr ⟨_, fails, rfl⟩⟩

end ScalarFusion

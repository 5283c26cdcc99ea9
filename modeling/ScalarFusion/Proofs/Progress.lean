import ScalarFusion.Proofs.Denoting
import ScalarFusion.Proofs.Verdicts

/-!
Evaluation goes wrong on complex operands only. Every value is bound when it is read and every
operation gets as many operands as it takes, so what can fail is an operation without a meaning for
complex numbers, and the first one that is declared complex does.
-/
namespace ScalarFusion

/-- The primitives that an operation applies, given those that callees apply, with the types that
    their outputs are declared with. -/
def Op.applied : Op (List (Primitive × ScalarType)) → List ScalarType → List (Primitive × ScalarType)
  | prim p, types => types.map fun t => (p, t)
  | call inner, _ => inner

def Composite.applied : Composite → List (Primitive × ScalarType) :=
  fold fun e => e.nodes.flatMap fun entry =>
    (entry.2.op.map Prod.snd).applied (entry.2.outputs.map e.graph.typeOf)

def Node.applied (g : Arena) (node : Node Composite) : List (Primitive × ScalarType) :=
  (node.op.map Composite.applied).applied (node.outputs.map g.typeOf)

def Expression.applied (e : Expression Composite) : List (Primitive × ScalarType) :=
  e.nodes.flatMap fun entry => entry.2.applied e.graph

theorem Composite.applied_eq (c : Composite) : c.applied = c.body.applied := by
  rw [applied, fold_eq, Expression.nodes_map, List.flatMap_map]
  unfold Expression.applied
  congr 1
  funext ⟨n, op, inputs, outputs⟩
  cases op <;> rfl

/-- A primitive is applied, its output declared with a type, by a node in the order or within the
    body of a callee. -/
inductive Expression.Applies : Expression Composite → Primitive → ScalarType → Prop where
  | node {e : Expression Composite} {n : NodeId} {node : Node Composite} {p : Primitive}
      {o : ValueId} (member : n ∈ e.order) (here : e.graph.nodes[n]? = some node)
      (applied : node.op = .prim p) (output : o ∈ node.outputs) : Applies e p (e.graph.typeOf o)
  | callee {e : Expression Composite} {n : NodeId} {node : Node Composite} {c : Composite}
      {p : Primitive} {t : ScalarType} (member : n ∈ e.order)
      (here : e.graph.nodes[n]? = some node) (called : node.op = .call c)
      (inside : Applies c.body p t) : Applies e p t

theorem Expression.applies_of_mem {e : Expression Composite} {p : Primitive} {t : ScalarType}
    (callees : e.graph.Calls fun c => (p, t) ∈ c.applied → c.body.Applies p t) :
    (p, t) ∈ e.applied → e.Applies p t := by
  intro member
  obtain ⟨⟨n, node⟩, listed, inside⟩ := List.mem_flatMap.mp member
  obtain ⟨inOrder, here⟩ := mem_nodes.mp listed
  rw [Node.applied] at inside
  cases op : node.op with
  | prim q =>
    simp only [op, Op.map, Op.applied, List.mem_map, Prod.mk.injEq] at inside
    obtain ⟨_, ⟨o, output, rfl⟩, rfl, rfl⟩ := inside
    exact .node inOrder here op output
  | call c =>
    rw [op] at inside
    exact .callee inOrder here op (callees here op inside)

theorem Composite.WellBuilt.applies {c : Composite} (good : c.WellBuilt) {p : Primitive}
    {t : ScalarType} (member : (p, t) ∈ c.applied) : c.body.Applies p t := by
  induction good with
  | @mk e _ _ ih =>
    rw [applied_eq] at member
    exact Expression.applies_of_mem (fun _ _ _ here called => ih here called) member

theorem Expression.Applies.mem {e : Expression Composite} {p : Primitive} {t : ScalarType}
    (applies : e.Applies p t) : (p, t) ∈ e.applied := by
  induction applies with
  | @node e n node p o member here applied output =>
    refine List.mem_flatMap.mpr ⟨(n, node), mem_nodes.mpr ⟨member, here⟩, ?_⟩
    simp only [Node.applied, applied, Op.map, Op.applied, List.map_map]
    exact List.mem_map.mpr ⟨o, output, rfl⟩
  | @callee e n node c p t member here called _ ih =>
    refine List.mem_flatMap.mpr ⟨(n, node), mem_nodes.mpr ⟨member, here⟩, ?_⟩
    rw [Node.applied, called]
    show (p, t) ∈ c.applied
    rwa [c.applied_eq]

def Primitive.refuses (p : Primitive) (t : ScalarType) : Bool :=
  p.excludesComplex && t.isComplex

def firstRefusal (applied : List (Primitive × ScalarType)) : Except Error Unit :=
  match applied.find? fun a => a.1.refuses a.2 with
  | some a => .error (.complexOperands a.1.name)
  | none => .ok ()

theorem firstRefusal_append (first rest : List (Primitive × ScalarType)) :
    firstRefusal (first ++ rest) = firstRefusal first >>= fun _ => firstRefusal rest := by
  unfold firstRefusal
  rw [List.find?_append]
  cases first.find? fun a => a.1.refuses a.2 <;> rfl

theorem firstRefusal_singleton (p : Primitive) (t : ScalarType) :
    firstRefusal [(p, t)] = p.verdict t := by
  by_cases refused : p.refuses t = true
  · have excluded : (p.excludesComplex && t.isComplex) = true := refused
    simp [firstRefusal, Primitive.verdict, refused, excluded]
  · have admitted : ¬ (p.excludesComplex && t.isComplex) = true := refused
    rw [Primitive.verdict, if_neg admitted]
    simp [firstRefusal, refused]

theorem foldlM_firstRefusal {α : Type} (as : List α) (applied : α → List (Primitive × ScalarType)) :
    as.foldlM (fun _ a => firstRefusal (applied a)) () = firstRefusal (as.flatMap applied) := by
  induction as with
  | nil => rfl
  | cons a as ih =>
    rw [List.foldlM_cons, List.flatMap_cons, firstRefusal_append]
    congr 1
    funext _
    exact ih

theorem Node.verdict_eq {g : Arena} (typed : g.Typed)
    (callees : g.Calls fun c => c.verdict = firstRefusal c.applied) {n : NodeId}
    {node : Node Composite} (here : g.nodes[n]? = some node) :
    node.verdict g = firstRefusal (node.applied g) := by
  have types := typed.types here
  rw [Node.verdict, Node.applied]
  cases op : node.op with
  | prim p =>
    rw [op] at types
    obtain ⟨t, -, single⟩ := bind_eq_ok types
    rw [← Except.ok.inj single]
    exact (firstRefusal_singleton p t).symm
  | call c => exact callees here op

theorem Expression.foldlM_verdict {e : Expression Composite} (typed : e.graph.Typed)
    (callees : e.graph.Calls fun c => c.verdict = firstRefusal c.applied) :
    e.nodes.foldlM (fun _ entry => entry.2.verdict e.graph) () = firstRefusal e.applied := by
  rw [applied, ← foldlM_firstRefusal]
  apply foldlM_congr_mem
  intro entry member _
  exact Node.verdict_eq typed callees (mem_nodes.mp member).2

theorem Composite.WellBuilt.verdict_applied {c : Composite} (good : c.WellBuilt) :
    c.verdict = firstRefusal c.applied := by
  induction good with
  | @mk e tidy _ ih =>
    rw [verdict_eq, applied_eq]
    exact Expression.foldlM_verdict tidy.closed.typed fun _ _ _ here called => ih here called

theorem Graph.Built.evaluate_cases [Numerics] {g : Arena} (built : g.Built)
    {inputs outputs : List ValueId} (known : g.Knows outputs) {e : Expression Composite}
    (success : g.expression inputs outputs = .ok e) {args : List Literal}
    (arity : args.length = inputs.length) :
    (∃ results, (e.map Composite.evaluate).evaluate args = .ok results ∧
        results.length = outputs.length ∧ e.applied.find? (fun a => a.1.refuses a.2) = none) ∨
      ∃ p t, (e.map Composite.evaluate).evaluate args = .error (.complexOperands p.name) ∧
        e.applied.find? (fun a => a.1.refuses a.2) = some (p, t) := by
  have walks := walks_of_expression built.ordered known success
  obtain ⟨rfl, rfl, rfl⟩ := expression_eq success
  have followed := Expression.outcome_evaluate built.ordered built.typed
    (fun _ _ _ here called _ counted => (built.calls here called).outcome_evaluate counted) walks arity
    (Expression.denoted_bindArguments arity []).covers
  rw [Expression.foldlM_verdict built.typed fun _ _ _ here called =>
    (built.calls here called).verdict_applied, firstRefusal] at followed
  cases evaluated : (e.map Composite.evaluate).evaluate args with
  | ok results =>
    rw [evaluated] at followed
    refine .inl ⟨results, rfl, ?_, ?_⟩
    · rw [Expression.evaluate_map, if_pos arity] at evaluated
      obtain ⟨env, -, found⟩ := bind_eq_ok evaluated
      exact (forall₂_of_mapM found).length_eq.symm
    · split at followed
      · cases followed
      · assumption
  | error err =>
    rw [evaluated] at followed
    split at followed
    · next a found =>
      obtain rfl := Except.error.inj followed
      exact .inr ⟨a.1, a.2, rfl, found⟩
    · cases followed

/-- Evaluation with as many arguments as inputs gives one result for each output, unless an operation
    without a meaning for complex numbers is declared complex, at the top or within a callee: then it
    fails with the name of the first one. -/
theorem evaluate_fails_only_on_complex [Numerics] {g : Arena} (reachable : Reachable g)
    {inputs outputs : List ValueId} (known : g.Knows outputs) {e : Expression Composite}
    (success : g.expression inputs outputs = .ok e) {args : List Literal}
    (arity : args.length = inputs.length) :
    ((∃ results, (e.map Composite.evaluate).evaluate args = .ok results ∧
        results.length = outputs.length) ∨
      ∃ op, (e.map Composite.evaluate).evaluate args = .error (.complexOperands op)) ∧
    ((∃ op, (e.map Composite.evaluate).evaluate args = .error (.complexOperands op)) ↔
      ∃ p t, e.Applies p t ∧ p.excludesComplex = true ∧ t.isComplex = true) ∧
    ∀ op, (e.map Composite.evaluate).evaluate args = .error (.complexOperands op) ↔
      ∃ p t, e.applied.find? (fun a => a.1.refuses a.2) = some (p, t) ∧ op = p.name := by
  have built := reachable.built
  have applies : ∀ {p t}, (p, t) ∈ e.applied → e.Applies p t := by
    obtain ⟨rfl, -, -⟩ := Graph.expression_eq success
    intro p t member
    exact Expression.applies_of_mem (fun _ _ _ here called => (built.calls here called).applies) member
  -- evaluation follows the list of what is applied, so the
  -- three parts are read off its first refusal
  rcases built.evaluate_cases known success arity with
    ⟨results, evaluated, counted, none_refused⟩ | ⟨p, t, evaluated, found⟩
  · refine ⟨.inl ⟨results, evaluated, counted⟩, ?_, ?_⟩
    · constructor
      · rintro ⟨op, failed⟩
        rw [evaluated] at failed
        cases failed
      · rintro ⟨p, t, applied, excluded, complex⟩
        have admitted := List.find?_eq_none.mp none_refused _ applied.mem
        simp [Primitive.refuses, excluded, complex] at admitted
    · intro op
      rw [evaluated, none_refused]
      simp
  · refine ⟨.inr ⟨p.name, evaluated⟩, ?_, ?_⟩
    · refine ⟨fun _ => ⟨p, t, applies (List.mem_of_find?_eq_some found), ?_⟩, fun _ => ⟨_, evaluated⟩⟩
      simpa [Primitive.refuses] using List.find?_some found
    · intro op
      rw [evaluated, found]
      constructor
      · intro same
        exact ⟨p, t, rfl, (Error.complexOperands.inj (Except.error.inj same)).symm⟩
      · rintro ⟨q, s, same, rfl⟩
        obtain ⟨rfl, rfl⟩ := Prod.mk.inj (Option.some.inj same)
        rfl

def Graph.divided : Arena :=
  (Action.apply (.prim .intDiv) [0, 0]).perform ((Action.call .remainder [0, 1]).perform
    ((Action.newVariable (.float .half) (some "h")).perform
      ((Action.newVariable (.complex .single) (some "z")).perform {})))

theorem divided_reachable : Reachable .divided := by
  refine .perform (.perform (.perform (.perform (.empty {}) ?_ ?_) ?_ ?_) ?_ ?_) ?_ ?_
  case refine_6 =>
    intro c same
    obtain rfl := Option.some.inj same
    exact .fuse remainder_reachable (by decide : Graph.remainder.Knows ([0, 1] ++ [2, 3])) rfl
  all_goals first | decide | simp [Action.composite?, Op.callee?]

def Expression.divided : Expression Composite :=
  ⟨.divided, [0, 1], [2, 4], [0, 1]⟩

theorem divided_fails : Graph.divided.expression [0, 1] [2, 4] = .ok .divided ∧
    (Expression.divided.map Composite.evaluate).evaluate [.bool true, .bool true] =
      .error (.complexOperands "mod") := by
  have success : Graph.divided.expression [0, 1] [2, 4] = .ok .divided := rfl
  have inner : Composite.remainder.applied = [(.neg, .float .half), (.mod, .complex .single)] := by
    rw [Composite.applied_eq]
    rfl
  have outer : Expression.divided.applied =
    Composite.remainder.applied ++ [(.intDiv, .complex .single)] := rfl
  refine ⟨success, ?_⟩
  refine ((evaluate_fails_only_on_complex divided_reachable (by decide) success rfl).2.2 _).mpr
    ⟨.mod, .complex .single, ?_, rfl⟩
  rw [outer, inner]
  rfl

end ScalarFusion

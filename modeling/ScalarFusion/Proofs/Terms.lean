import ScalarFusion.Proofs.Memoizing
import ScalarFusion.Proofs.Specialising
import ScalarFusion.Proofs.Valuing

/-!
Bodies unfolded into trees. A term has every use of a value written out, those inside callees too.
The signature of a composite is the text of its terms and it evaluates as they do, so what it
computes depends on its terms and input types only.
-/
namespace ScalarFusion

/-- A value with all that it is computed from. A call is unfolded into the outputs of the callee. -/
inductive Term where
  | input (index : Nat) (type : ScalarType)
  | constant (literal : Literal) (type : ScalarType)
  | apply (p : Primitive) (args : List Term) (type : ScalarType)
  | call (body args : List Term) (index : Nat) (type : ScalarType)

namespace Term

def type : Term → ScalarType
  | input _ type => type
  | constant _ type => type
  | apply _ _ type => type
  | call _ _ _ type => type

def composed (texts : List String) : String :=
  "Composite\x7b" ++ String.intercalate ", " texts ++ "\x7d"

mutual

def text : Term → String
  | input index _ => "i" ++ toString index
  | constant literal _ => literal.text
  | apply p args _ => p.write (texts args)
  | call body args index _ =>
    composed (texts body) ++ Primitive.listed (texts args) ++
      Expression.outputMark body.length index

def texts : List Term → List String
  | [] => []
  | t :: ts => t.text :: texts ts

end

mutual

def types : Term → List ScalarType
  | input _ type => [type]
  | constant _ type => [type]
  | apply _ args type => type :: typesAll args
  | call body args _ type => type :: (typesAll body ++ typesAll args)

def typesAll : List Term → List ScalarType
  | [] => []
  | t :: ts => t.types ++ typesAll ts

end

mutual

def eval [Numerics] : Term → List Literal → Except Error Literal
  | input index _, env => .ok ((env[index]?).getD (.bool false))
  | constant literal _, _ => .ok literal
  | apply p args type, env => do
    let values ← evalAll args env
    let results ← p.evaluate values (args.map Term.type) [type]
    .ok ((results.headD (.bool false)).cast type)
  | call body args index type, env => do
    let values ← evalAll args env
    let results ← evalAll body (List.zipWith Literal.cast values (args.map Term.type))
    .ok (((results[index]?).getD (.bool false)).cast type)

def evalAll [Numerics] : List Term → List Literal → Except Error (List Literal)
  | [], _ => .ok []
  | t :: ts, env => do
    let value ← t.eval env
    let values ← evalAll ts env
    .ok (value :: values)

end

mutual

/-- Constants are of their types, applications are typed, and calls name an output of the callee. -/
def Good : Term → Prop
  | input _ _ => True
  | constant literal type => literal.cast type = literal
  | apply p args type =>
    (∃ config, p.outputType (args.map Term.type) config = .ok type) ∧ GoodAll args
  | call body args index _ => index < body.length ∧ GoodAll body ∧ GoodAll args

def GoodAll : List Term → Prop
  | [] => True
  | t :: ts => t.Good ∧ GoodAll ts

end

theorem texts_eq (ts : List Term) : texts ts = ts.map text := by
  induction ts with
  | nil => rfl
  | cons t ts ih => rw [texts, ih, List.map_cons]

theorem evalAll_eq [Numerics] (ts : List Term) (env : List Literal) :
    evalAll ts env = ts.mapM fun t => t.eval env := by
  induction ts with
  | nil => rfl
  | cons t ts ih =>
    rw [evalAll, ih, List.mapM_cons]
    rfl

theorem goodAll_iff {ts : List Term} : GoodAll ts ↔ ∀ t ∈ ts, t.Good := by
  induction ts with
  | nil => simp [GoodAll]
  | cons t ts ih => rw [GoodAll, ih, List.forall_mem_cons]

end Term

def Op.term {κ : Type} (unfolded : κ → List Term) : Op κ → List Term → Nat → ScalarType → Term
  | prim p, args, _, type => .apply p args type
  | call c, args, index, type => .call (unfolded c) args index type

namespace Expression

variable {κ ι : Type}

/-- The term of a value. Operands have smaller ids than outputs, so `v + 1` is enough fuel. -/
def termWithin (unfolded : κ → List Term) (e : Expression κ) : Nat → ValueId → Term
  | 0, v => .constant (.bool false) (e.graph.typeOf v)
  | fuel + 1, v =>
    if e.inputs.contains v then .input (e.inputs.idxOf v) (e.graph.typeOf v) else
      match e.graph.values[v]? with
      | some ⟨type, .constant literal _⟩ => .constant literal type
      | some ⟨type, .output n index⟩ =>
        match e.graph.nodes[n]? with
        | some node =>
          node.op.term unfolded (node.inputs.map (termWithin unfolded e fuel)) index type
        | none => .constant (.bool false) type
      | _ => .constant (.bool false) (e.graph.typeOf v)

def term (unfolded : κ → List Term) (e : Expression κ) (v : ValueId) : Term :=
  e.termWithin unfolded (v + 1) v

theorem termWithin_map (f : κ → ι) (unfolded : ι → List Term) (e : Expression κ) (fuel : Nat)
    (v : ValueId) :
    (e.map f).termWithin unfolded fuel v = e.termWithin (fun c => unfolded (f c)) fuel v := by
  induction fuel generalizing v with
  | zero => rfl
  | succ fuel ih =>
    have node_at : ∀ n, (e.map f).graph.nodes[n]? = (e.graph.nodes[n]?).map (Node.map f) :=
      fun n => e.graph.map_node_at f n
    have values : (e.map f).graph.values = e.graph.values := rfl
    have inputs : (e.map f).inputs = e.inputs := rfl
    simp only [termWithin, node_at, values, inputs, funext ih]
    split
    · rfl
    · split
      · rfl
      · next n index _ =>
        cases e.graph.nodes[n]? with
        | none => rfl
        | some node =>
          obtain ⟨op, inputs, outputs⟩ := node
          cases op <;> rfl
      · rfl

section

variable {unfolded : κ → List Term} {e : Expression κ} (ordered : e.graph.Ordered)

include ordered

theorem termWithin_stable {fuel fuel' : Nat} {v : Nat} (enough : v < fuel) (enough' : v < fuel') :
    e.termWithin unfolded fuel v = e.termWithin unfolded fuel' v := by
  induction fuel generalizing v fuel' with
  | zero => exact absurd enough (Nat.not_lt_zero v)
  | succ fuel ih =>
    obtain ⟨fuel', rfl⟩ : ∃ k, fuel' = k + 1 := ⟨fuel' - 1, by omega⟩
    unfold termWithin
    split
    · rfl
    · split
      · rfl
      · next type n index found =>
        split
        · next node here =>
          congr 1
          apply List.map_congr_left
          intro u member
          obtain ⟨node', here', output⟩ := ordered.produced.mp ⟨type, found⟩
          obtain rfl := Option.some.inj (here.symm.trans here')
          have older := ordered.before here u v member (List.mem_of_getElem? output)
          exact ih (Nat.lt_of_lt_of_le older (by omega)) (Nat.lt_of_lt_of_le older (by omega))
        · rfl
      · rfl

theorem term_output {v : ValueId} (beyond : v ∉ e.inputs) {type : ScalarType} {n : NodeId}
    {k : Nat} (found : e.graph.values[v]? = some ⟨type, .output n k⟩) {node : Node κ}
    (here : e.graph.nodes[n]? = some node) :
    e.term unfolded v = node.op.term unfolded (node.inputs.map (e.term unfolded)) k type := by
  obtain ⟨node', here', output⟩ := ordered.produced.mp ⟨type, found⟩
  obtain rfl := Option.some.inj (here.symm.trans here')
  have operands : node.inputs.map (e.termWithin unfolded v) = node.inputs.map (e.term unfolded) := by
    apply List.map_congr_left
    intro u member
    have older := ordered.before here u v member (List.mem_of_getElem? output)
    exact termWithin_stable ordered older (Nat.lt_succ_self u)
  rw [← operands, term, termWithin, if_neg (by simpa using beyond)]
  simp only [found, here]

end

theorem term_input {unfolded : κ → List Term} {e : Expression κ} {v : ValueId}
    (member : v ∈ e.inputs) : e.term unfolded v = .input (e.inputs.idxOf v) (e.graph.typeOf v) := by
  rw [term, termWithin, if_pos (by simpa using member)]

theorem term_constant {unfolded : κ → List Term} {e : Expression κ} {v : ValueId}
    (beyond : v ∉ e.inputs) {type : ScalarType} {literal : Literal} {name : Option String}
    (found : e.graph.values[v]? = some ⟨type, .constant literal name⟩) :
    e.term unfolded v = .constant literal type := by
  rw [term, termWithin, if_neg (by simpa using beyond)]
  simp only [found]

end Expression

def Composite.terms : Composite → List Term :=
  fold fun e => e.outputs.map (e.term Prod.snd)

theorem Composite.terms_eq (c : Composite) : c.terms = c.outputs.map (c.body.term terms) := by
  rw [terms, fold_eq]
  exact List.map_congr_left fun v _ => c.body.termWithin_map _ Prod.snd (v + 1) v

theorem Composite.signature_eq (c : Composite) :
    c.signature = (c.body.map Composite.signature).signature := by
  rw [signature, fold_eq, Expression.map_map]

theorem Composite.length_terms (c : Composite) : c.terms.length = c.outputTypes.length := by
  rw [terms_eq, List.length_map, outputTypes, Expression.outputTypes, List.length_map]
  rfl

def Composite.Spelled (c : Composite) : Prop :=
  c.signature = Term.composed (Term.texts c.terms)

theorem Op.text_term {op : Op Composite} (spelled : ∀ c, op = .call c → c.Spelled)
    {inputs outputs : List ScalarType} {config : Config}
    (typed : op.outputTypes inputs config = .ok outputs) (args : List Term) (k : Nat)
    (type : ScalarType) : (op.term Composite.terms args k type).text =
      (op.map Composite.signature).write (args.map Term.text) ++
        Expression.outputMark outputs.length k := by
  cases op with
  | prim p =>
    obtain ⟨t, -, single⟩ := bind_eq_ok typed
    obtain rfl := Except.ok.inj single
    simp [Op.term, Op.map, Op.write, Term.text, Term.texts_eq, Expression.outputMark]
  | call c =>
    obtain ⟨_, -, same⟩ := bind_eq_ok typed
    obtain rfl := Except.ok.inj same
    rw [Op.term, Op.map, Op.write, Term.text, spelled c rfl, Composite.length_terms,
      Term.texts_eq args]

namespace Expression

variable {e : Expression Composite}

theorem writtenOut_terms (closed : e.graph.Closed e.inputs)
    (spelled : e.graph.Calls Composite.Spelled) :
    (e.graph.map Composite.signature).WrittenOut e.inputs
      fun v => (e.term Composite.terms v).text where
  input v member := by
    rw [term_input member]
    rfl
  free v beyond type name found := absurd (closed.inputs_of_free v type name found) beyond
  constant v beyond type literal name found := by
    rw [term_constant beyond found]
    rfl
  output v beyond type n k node found here := by
    rw [Graph.map_node_at] at here
    obtain ⟨node, inside, rfl⟩ := Option.map_eq_some_iff.mp here
    have written := Op.text_term (fun c called => spelled inside called) (closed.typed.types inside)
      (node.inputs.map (e.term Composite.terms)) k type
    rw [term_output closed.ordered beyond found inside, written, List.map_map, List.length_map]
    rfl

theorem Sourced.known (sourced : e.Sourced) : e.graph.Knows e.outputs := by
  intro v member
  cases sourced.walks.supplied v member with
  | input declared =>
    obtain ⟨type, name, found⟩ := (sourced.closed.free v).mpr declared
    exact (Array.getElem?_eq_some_iff.mp found).1
  | constant found => exact (Array.getElem?_eq_some_iff.mp found).1
  | output found _ => exact (Array.getElem?_eq_some_iff.mp found).1

theorem signature_map (sourced : e.Sourced) (spelled : e.graph.Calls Composite.Spelled) :
    (e.map Composite.signature).signature =
      Term.composed (e.outputs.map fun v => (e.term Composite.terms v).text) := by
  exact Graph.signature_eq_of_writtenOut (sourced.closed.ordered.map _)
    (writtenOut_terms sourced.closed spelled) sourced.known

end Expression

theorem Composite.WellBuilt.spelled {c : Composite} (good : c.WellBuilt) : c.Spelled := by
  induction good with
  | @mk e tidy _ ih =>
    rw [Spelled, signature_eq, Term.texts_eq, terms_eq, List.map_map]
    exact Expression.signature_map tidy.sourced fun _ _ _ found called => ih found called

def Composite.Computed [Numerics] (c : Composite) : Prop :=
  ∀ args : List Literal, args.length = c.inputs.length →
    c.evaluate args = Term.evalAll c.terms (List.zipWith Literal.cast args c.inputTypes)

theorem Op.eval_term [Numerics] {op : Op Composite} (computed : ∀ c, op = .call c → c.Computed)
    {inputs outputs : List ScalarType} {config : Config}
    (bound : ∀ c, op = .call c → inputs = c.inputTypes)
    (typed : op.outputTypes inputs config = .ok outputs) {args : List Term}
    (types : args.map Term.type = inputs) {env values : List Literal}
    (evaluated : Term.evalAll args env = .ok values) {k : Nat} {type : ScalarType}
    (at_k : outputs[k]? = some type) : (op.term Composite.terms args k type).eval env =
      (do
        let results ← op.results values inputs outputs
        .ok (((results[k]?).getD (.bool false)).cast type)) := by
  cases op with
  | prim p =>
    obtain ⟨t, -, single⟩ := bind_eq_ok typed
    obtain rfl := Except.ok.inj single
    obtain ⟨rfl, rfl⟩ : k = 0 ∧ t = type := by
      cases k <;> simp_all
    rw [Op.term, Term.eval, evaluated, ok_bind, types]
    simp only [List.headD_eq_head?_getD, List.head?_eq_getElem?]
    rfl
  | call c =>
    have length : values.length = c.inputs.length := by
      rw [Term.evalAll_eq] at evaluated
      have same := (forall₂_of_mapM evaluated).length_eq
      have arity := congrArg List.length (types.trans (bound c rfl))
      simp only [List.length_map, Composite.inputTypes, Expression.inputTypes] at arity
      exact same.symm.trans arity
    have results : Op.results (.call c) values inputs outputs = c.evaluate values := rfl
    rw [Op.term, Term.eval, evaluated, ok_bind, types, results, computed c rfl values length,
      bound c rfl]

namespace Expression

variable {e : Expression Composite} {args : List Literal} {done : List NodeId}
  {env : Table Literal}

theorem value_cases (closed : e.graph.Closed e.inputs) {v : Nat} (known : v < e.graph.values.size) :
    v ∈ e.inputs ∨ v ∉ e.inputs ∧
      ((∃ type literal name, e.graph.values[v]? = some ⟨type, .constant literal name⟩) ∨
        ∃ type n k node, e.graph.values[v]? = some ⟨type, .output n k⟩ ∧
          e.graph.nodes[n]? = some node ∧ node.outputs[k]? = some v) := by
  by_cases input : v ∈ e.inputs
  · exact .inl input
  · refine .inr ⟨input, ?_⟩
    have found := Array.getElem?_eq_getElem known
    generalize e.graph.values[v] = x at found
    obtain ⟨type, name | ⟨literal, name⟩ | ⟨n, k⟩⟩ := x
    · exact absurd (closed.inputs_of_free v type name found) input
    · exact .inl ⟨type, literal, name, found⟩
    · obtain ⟨node, here, output⟩ := closed.ordered.produced.mp ⟨type, found⟩
      exact .inr ⟨type, n, k, node, found, here, output⟩

theorem type_term (closed : e.graph.Closed e.inputs) {v : Nat} (known : v < e.graph.values.size) :
    (e.term Composite.terms v).type = e.graph.typeOf v := by
  rcases value_cases closed known with
    input | ⟨beyond, ⟨type, literal, name, found⟩ | ⟨type, n, k, node, found, here, -⟩⟩
  · rw [term_input input]
    rfl
  · rw [term_constant beyond found]
    simp [Term.type, Graph.typeOf, found]
  · rw [term_output closed.ordered beyond found here]
    cases node.op <;> simp [Op.term, Term.type, Graph.typeOf, found]

theorem map_type_term (closed : e.graph.Closed e.inputs) {vs : List ValueId}
    (known : e.graph.Knows vs) :
    (vs.map (e.term Composite.terms)).map Term.type = vs.map e.graph.typeOf := by
  rw [List.map_map]
  exact List.map_congr_left fun v member => type_term closed (known v member)

theorem good_term (closed : e.graph.Closed e.inputs)
    (callees : e.graph.Calls fun c => Term.GoodAll c.terms) {v : Nat}
    (known : v < e.graph.values.size) : (e.term Composite.terms v).Good := by
  induction v using Nat.strongRecOn with
  | ind v ih =>
    rcases value_cases closed known with
      input | ⟨beyond, ⟨type, literal, name, found⟩ | ⟨type, n, k, node, found, here, output⟩⟩
    · rw [term_input input]
      trivial
    · rw [term_constant beyond found]
      exact closed.constants found
    · have operands : Term.GoodAll (node.inputs.map (e.term Composite.terms)) := by
        rw [Term.goodAll_iff]
        intro t member
        obtain ⟨u, input, rfl⟩ := List.mem_map.mp member
        exact ih u (closed.ordered.before here u v input (List.mem_of_getElem? output))
          (closed.ordered.known here u input)
      have typed := closed.typed.types here
      rw [term_output closed.ordered beyond found here]
      cases op : node.op with
      | prim p =>
        rw [op] at typed
        obtain ⟨t, typed, single⟩ := bind_eq_ok typed
        have at_k : (node.outputs.map e.graph.typeOf)[k]? = some type := by
          simp [output, Graph.typeOf, found]
        rw [← Except.ok.inj single] at at_k
        obtain rfl : t = type := by
          cases k with
          | zero => exact Option.some.inj at_k
          | succ k => cases at_k
        rw [Op.term, Term.Good, map_type_term closed (closed.ordered.known here)]
        exact ⟨⟨_, typed⟩, operands⟩
      | call c =>
        rw [op] at typed
        obtain ⟨_, -, same⟩ := bind_eq_ok typed
        have length := congrArg List.length (Except.ok.inj same)
        have inside := (List.getElem?_eq_some_iff.mp output).1
        rw [List.length_map, ← c.length_terms] at length
        exact ⟨by omega, callees here op, operands⟩

def valueOf [Numerics] (e : Expression Composite) (args : List Literal) (v : ValueId) :
    Except Error Literal :=
  (e.term Composite.terms v).eval (List.zipWith Literal.cast args e.inputTypes)

/-- The table has the values of the inputs and of the outputs of the nodes of `done`. -/
structure Evaluated [Numerics] (e : Expression Composite) (args : List Literal) (done : List NodeId)
    (env : Table Literal) : Prop where
  agrees : ∀ {v : ValueId} {a : Literal}, env.get? v = some a → e.valueOf args v = .ok a
  inputs : ∀ v ∈ e.inputs, ∃ a, env.get? v = some a
  produced : ∀ n ∈ done, ∀ node, e.graph.nodes[n]? = some node → ∀ o ∈ node.outputs,
    ∃ a, env.get? o = some a

namespace Evaluated

theorem covers [Numerics] (evaluated : e.Evaluated args done env) : env.Covers e done :=
  ⟨evaluated.inputs, evaluated.produced⟩

theorem lookup_eq [Numerics] (evaluated : e.Evaluated args done env)
    (closed : e.graph.Closed e.inputs) {v : ValueId} (supplied : e.graph.Supplied e.inputs done v) :
    ∃ a, e.lookup env v = .ok a ∧ e.valueOf args v = .ok a := by
  cases found : env.get? v with
  | some a => exact ⟨a, by simp [lookup, found], evaluated.agrees found⟩
  | none =>
    rcases evaluated.covers.entry_or_constant closed.ordered supplied with
      ⟨a, bound⟩ | ⟨type, literal, name, source⟩
    · simp [found] at bound
    · have beyond : v ∉ e.inputs := by
        intro member
        obtain ⟨a, bound⟩ := evaluated.inputs v member
        simp [found] at bound
      refine ⟨literal, by simp [lookup, found, source, Value.literal?], ?_⟩
      rw [valueOf, term_constant beyond source, Term.eval]

theorem operands [Numerics] (evaluated : e.Evaluated args done env)
    (closed : e.graph.Closed e.inputs)
    {vs : List ValueId} (supplied : ∀ v ∈ vs, e.graph.Supplied e.inputs done v) :
    ∃ values, vs.mapM (e.lookup env) = .ok values ∧
      Term.evalAll (vs.map (e.term Composite.terms))
        (List.zipWith Literal.cast args e.inputTypes) = .ok values := by
  induction vs with
  | nil => exact ⟨[], rfl, rfl⟩
  | cons v vs ih =>
    obtain ⟨a, looked, value⟩ := evaluated.lookup_eq closed (supplied v (by simp))
    obtain ⟨values, rest, tail⟩ := ih fun u member => supplied u (by simp [member])
    refine ⟨a :: values, ?_, ?_⟩
    · rw [List.mapM_cons, looked, ok_bind, rest, ok_bind]
      rfl
    · rw [valueOf] at value
      rw [List.map_cons, Term.evalAll, value, ok_bind, tail, ok_bind]

end Evaluated

end Expression

namespace Expression

variable {e : Expression Composite} {args : List Literal} {done : List NodeId}
  {env : Table Literal}

theorem valueOf_output [Numerics] (closed : e.graph.Closed e.inputs)
    (computed : e.graph.Calls Composite.Computed) {n : NodeId} {node : Node Composite}
    (here : e.graph.nodes[n]? = some node) {values : List Literal}
    (operands : Term.evalAll (node.inputs.map (e.term Composite.terms))
      (List.zipWith Literal.cast args e.inputTypes) = .ok values)
    {k : Nat} {o : ValueId} (output : node.outputs[k]? = some o) : e.valueOf args o =
      (do
        let results ← node.op.results values (node.inputs.map e.graph.typeOf)
          (node.outputs.map e.graph.typeOf)
        .ok (((results[k]?).getD (.bool false)).cast (e.graph.typeOf o))) := by
  obtain ⟨type, found⟩ := closed.ordered.produced.mpr ⟨node, here, output⟩
  have beyond : o ∉ e.inputs := by
    intro member
    obtain ⟨t, name, free⟩ := (closed.free o).mpr member
    simp [found] at free
  have types := map_type_term closed (closed.ordered.known here)
  have declared : e.graph.typeOf o = type := by simp [Graph.typeOf, found]
  rw [valueOf, term_output closed.ordered beyond found here, declared]
  refine Op.eval_term (fun c called => computed here called) (fun c called => closed.bound here called)
    (closed.typed.types here) types operands ?_
  simp [output, declared]

namespace Evaluated

theorem step_error [Numerics] (evaluated : e.Evaluated args done env)
    (closed : e.graph.Closed e.inputs)
    (computed : e.graph.Calls Composite.Computed) {n : NodeId} {node : Node Composite}
    (here : e.graph.nodes[n]? = some node)
    (supplied : ∀ v ∈ node.inputs, e.graph.Supplied e.inputs done v) {err : Error}
    (failure : e.setResults env node = .error err) {o : ValueId} (output : o ∈ node.outputs) :
    e.valueOf args o = .error err := by
  obtain ⟨values, found, operands⟩ := evaluated.operands closed supplied
  obtain ⟨k, output⟩ := List.getElem?_of_mem output
  rw [valueOf_output closed computed here operands output]
  rw [setResults, found, ok_bind] at failure
  cases outcome : node.op.results values (node.inputs.map e.graph.typeOf)
      (node.outputs.map e.graph.typeOf) with
  | error err' =>
    simp only [outcome, error_bind] at failure
    rw [error_bind]
    exact congrArg _ (Except.error.inj failure)
  | ok results => simp [outcome] at failure

theorem step_ok [Numerics] (evaluated : e.Evaluated args done env)
    (closed : e.graph.Closed e.inputs)
    (computed : e.graph.Calls Composite.Computed) {n : NodeId} {node : Node Composite}
    (here : e.graph.nodes[n]? = some node)
    (supplied : ∀ v ∈ node.inputs, e.graph.Supplied e.inputs done v) {env' : Table Literal}
    (success : e.setResults env node = .ok env') : e.Evaluated args (done ++ [n]) env' := by
  obtain ⟨values, found, operands⟩ := evaluated.operands closed supplied
  rw [setResults, found, ok_bind] at success
  obtain ⟨results, outcome, set⟩ := bind_eq_ok success
  obtain rfl := Except.ok.inj set
  have lengths : results.length = node.outputs.length := by
    rw [Op.length_results (closed.typed.types here) outcome, List.length_map]
  have lengths' : node.outputs.length =
      (List.zipWith Literal.cast results (node.outputs.map e.graph.typeOf)).length := by
    simp [lengths]
  have covers := evaluated.covers.set closed.ordered here lengths'
  refine ⟨?_, covers.inputs, covers.produced⟩
  intro v a entry
  rcases Table.insert_zip_cases (closed.ordered.nodup_outputs here) lengths' entry with
    ⟨k, output, set⟩ | ⟨-, old⟩
  · obtain ⟨result, at_result⟩ : ∃ result, results[k]? = some result := by
      have inside := (List.getElem?_eq_some_iff.mp output).1
      exact ⟨_, List.getElem?_eq_getElem (lengths ▸ inside)⟩
    simp only [List.getElem?_zipWith, at_result, List.getElem?_map, output, Option.map_some,
      Option.some.injEq] at set
    rw [valueOf_output closed computed here operands output, outcome, ok_bind, at_result,
      Option.getD_some, set]
  · exact evaluated.agrees old

end Evaluated

end Expression

namespace Expression

variable {e : Expression Composite} {args : List Literal}

def run [Numerics] (e : Expression Composite) (env : Table Literal) (ns : List NodeId) :
    Except Error (Table Literal) :=
  (ns.filterMap fun n => (e.graph.nodes[n]?).map fun node => (n, node)).foldlM
    (fun env entry => e.setResults env entry.2) env

theorem run_append [Numerics] (env : Table Literal) (ns ms : List NodeId) :
    e.run env (ns ++ ms) = e.run env ns >>= fun env' => e.run env' ms := by
  rw [run, List.filterMap_append, List.foldlM_append]
  rfl

theorem run_cons [Numerics] {n : NodeId} {node : Node Composite}
    (here : e.graph.nodes[n]? = some node) (env : Table Literal) (ns : List NodeId) :
    e.run env (n :: ns) = e.setResults env node >>= fun env' => e.run env' ns := by
  simp only [run, List.filterMap_cons, here, Option.map_some, List.foldlM_cons]

theorem valueOf_error [Numerics] (closed : e.graph.Closed e.inputs) {v : ValueId}
    (beyond : v ∉ e.inputs) {type : ScalarType} {n : NodeId} {k : Nat}
    (found : e.graph.values[v]? = some ⟨type, .output n k⟩) {node : Node Composite}
    (here : e.graph.nodes[n]? = some node) {err : Error}
    (failed : node.inputs.mapM (e.valueOf args) = .error err) : e.valueOf args v = .error err := by
  have operands : Term.evalAll (node.inputs.map (e.term Composite.terms))
      (List.zipWith Literal.cast args e.inputTypes) = .error err := by
    rw [Term.evalAll_eq, List.mapM_map]
    exact failed
  rw [valueOf, term_output closed.ordered beyond found here]
  cases node.op <;> rw [Op.term, Term.eval, operands, error_bind]

/-- What happens while values are visited: their nodes set what the terms say, and the first node
    that fails does so as the first of the terms that fails. -/
theorem run_walk [Numerics] (closed : e.graph.Closed e.inputs)
    (computed : e.graph.Calls Composite.Computed)
    {vs : List ValueId} {done done' : List NodeId} (walk : e.graph.Walks e.inputs vs done done')
    {env : Table Literal} (evaluated : e.Evaluated args done env) {new : List NodeId}
    (grown : done' = done ++ new) :
    (∀ env', e.run env new = .ok env' → e.Evaluated args done' env') ∧
      ∀ err, e.run env new = .error err → vs.mapM (e.valueOf args) = .error err := by
  -- the walk is the order in which terms are evaluated too, operands
  -- first, so that the first failure is the same one
  induction walk generalizing env new with
  | nil =>
    obtain rfl : new = [] := by simpa using grown
    refine ⟨?_, fun err failure => nomatch failure⟩
    intro env' success
    obtain rfl := Except.ok.inj success
    exact evaluated
  | skip supplied rest ih =>
    obtain ⟨success, failure⟩ := ih evaluated grown
    refine ⟨success, fun err failed => ?_⟩
    obtain ⟨a, -, value⟩ := evaluated.lookup_eq closed supplied
    rw [List.mapM_cons, value, ok_bind, failure err failed, error_bind]
  | @enter v vs done inner done' type n k node beyond found fresh here operands unmet rest
      ihOperands ihRest =>
    obtain ⟨first, rfl⟩ := operands.grows
    obtain ⟨second, rfl⟩ := rest.grows
    obtain rfl : new = first ++ n :: second := by simpa using grown.symm
    obtain ⟨entered, failed⟩ := ihOperands evaluated rfl
    rw [run_append]
    cases outcome : e.run env first with
    | error err' =>
      refine ⟨fun env' success => (nomatch success), fun err failure => ?_⟩
      obtain rfl := Except.error.inj failure
      rw [List.mapM_cons, valueOf_error closed beyond found here (failed err' outcome), error_bind]
    | ok env₁ =>
      have evaluated₁ := entered env₁ outcome
      rw [ok_bind, run_cons here]
      cases outcome₁ : e.setResults env₁ node with
      | error err' =>
        refine ⟨fun env' success => (nomatch success), fun err failure => ?_⟩
        obtain rfl := Except.error.inj failure
        obtain ⟨node', here', output⟩ := closed.ordered.produced.mp ⟨type, found⟩
        obtain rfl := Option.some.inj (here.symm.trans here')
        rw [List.mapM_cons, evaluated₁.step_error closed computed here operands.supplied outcome₁
          (List.mem_of_getElem? output), error_bind]
      | ok env₂ =>
        have evaluated₂ := evaluated₁.step_ok closed computed here operands.supplied outcome₁
        obtain ⟨success, failure⟩ := ihRest evaluated₂ rfl
        rw [ok_bind]
        refine ⟨success, fun err failed => ?_⟩
        obtain ⟨a, -, value⟩ := evaluated₂.lookup_eq closed (.output found (by simp))
        rw [List.mapM_cons, value, ok_bind, failure err failed, error_bind]

theorem evaluated_bindArguments [Numerics] (closed : e.graph.Closed e.inputs)
    (arity : args.length = e.inputs.length) : e.Evaluated args [] (e.bindArguments args) := by
  obtain ⟨lists, others⟩ := e.lists_bindArguments closed.distinct arity
  refine ⟨?_, ?_, by simp⟩
  · intro v a entry
    by_cases input : v ∈ e.inputs
    · obtain ⟨a', at_v, entry'⟩ := lists.at (List.getElem?_idxOf input)
      obtain rfl := Option.some.inj (entry.symm.trans entry')
      rw [valueOf, term_input input, Term.eval, at_v]
      rfl
    · simp [others v input] at entry
  · intro v member
    obtain ⟨a, -, entry⟩ := lists.mem member
    exact ⟨a, entry⟩

theorem evaluate_terms [Numerics] (sourced : e.Sourced)
    (computed : e.graph.Calls Composite.Computed) (arity : args.length = e.inputs.length) :
    (e.map Composite.evaluate).evaluate args = e.outputs.mapM (e.valueOf args) := by
  have closed := sourced.closed
  obtain ⟨success, failure⟩ := run_walk closed computed sourced.walks
    (evaluated_bindArguments closed arity) rfl
  rw [evaluate_map, if_pos arity]
  show (e.run (e.bindArguments args) e.order >>= fun env => e.outputs.mapM (e.lookup env)) = _
  cases outcome : e.run (e.bindArguments args) e.order with
  | error err => rw [error_bind, failure err outcome]
  | ok env =>
    obtain ⟨values, looked, terms⟩ := (success env outcome).operands closed sourced.walks.supplied
    rw [Term.evalAll_eq, List.mapM_map] at terms
    rw [ok_bind, looked]
    exact terms.symm

end Expression

theorem Composite.WellBuilt.computed [Numerics] {c : Composite} (good : c.WellBuilt) :
    c.Computed := by
  induction good with
  | @mk e tidy _ ih =>
    intro args arity
    rw [evaluate_eq, Term.evalAll_eq, terms_eq, List.mapM_map]
    exact Expression.evaluate_terms tidy.sourced (fun _ _ _ found called => ih found called) arity

theorem Composite.WellBuilt.goodAll_terms {c : Composite} (good : c.WellBuilt) :
    Term.GoodAll c.terms := by
  induction good with
  | @mk e tidy _ ih =>
    rw [terms_eq, Term.goodAll_iff]
    intro t member
    obtain ⟨v, output, rfl⟩ := List.mem_map.mp member
    exact Expression.good_term tidy.closed (fun _ _ _ found called => ih found called)
      (tidy.known v output)

end ScalarFusion

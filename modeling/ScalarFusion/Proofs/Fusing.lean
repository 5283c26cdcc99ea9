import ScalarFusion.Proofs.Simulating

/-!
Fusion keeps the meaning of an expression. Every pass copies what the pass before has made, and a
copy answers as its source does; so does the body in the end.
-/
namespace ScalarFusion

namespace Expression.Placeable

variable {e : Expression Composite} {P : Composite → Prop} {config : Config}

theorem places_dissolved [Numerics] (placeable : e.Placeable P config) (σ : Specialiser)
    {marked : Table Unit} (opens : ∀ (n : NodeId) node c, (n, node) ∈ e.nodes → node.op = .call c →
      marked.contains n = true → c.body.Placeable P config) :
    e.Places P config fun n op args =>
      match op with
      | .call c =>
        if marked.contains n then Build.inlineWith σ c args else Build.placeWith σ op args
      | _ => Build.placeWith σ op args := by
  intro n node member here h ws ordered known configured types
  have placed := placeable.places σ member here h ws ordered known configured types
  have typed := placeable.typed member here
  have called : ∀ c, node.op = .call c → node.inputs.map e.graph.typeOf = c.inputTypes :=
    fun c => placeable.bound member here
  have opened : ∀ c, node.op = .call c → marked.contains n = true → c.body.Placeable P config :=
    fun c => opens n node c (mem_nodes.mpr ⟨member, here⟩)
  cases op : node.op with
  | prim p =>
    rw [op] at placed
    exact placed
  | call c =>
    rw [op] at placed typed
    show Build.Computes _ (if marked.contains n then _ else _) _ _ _
    by_cases mark : marked.contains n = true
    · obtain ⟨_, -, outputs⟩ := bind_eq_ok typed
      rw [if_pos mark, ← Except.ok.inj outputs]
      exact Build.computes_inlineWith (opened c op mark) σ ordered configured known
        (types.trans (called c op))
    · rw [if_neg mark]
      exact placed

end Expression.Placeable

/-- The copy can be valued so that its inputs have the arguments and its outputs the results. -/
def Copy.Answers [Numerics] (copy : Copy) (args results : List Literal) : Prop :=
  ∃ V, copy.graph.Valued V ∧ args.length = copy.inputs.length ∧
    copy.inputs.map V = List.zipWith Literal.cast args (copy.inputs.map copy.graph.typeOf) ∧
    copy.outputs.map V = results

theorem Fresh.valued [Numerics] {config : Config} {h : Arena} {news : List ValueId}
    {types : List ScalarType}
    (fresh : Fresh { config } h news types) {args : List Literal} (arity : args.length = types.length) :
    ∃ V, h.Valued V ∧ news.map V = List.zipWith Literal.cast args types := by
  have closed : h.Closed news := fresh.closed [] (Graph.closed_empty config)
  have range : news = List.range' 0 types.length := fresh.range
  have size : h.values.size = types.length := by simpa using fresh.size
  have values := map_extendFrom_range (fun _ => .bool false) 0 (List.zipWith Literal.cast args types)
  rw [List.length_zipWith, arity, Nat.min_self, ← range] at values
  generalize extendFrom (fun _ => .bool false) 0 (List.zipWith Literal.cast args types) = V at values
  refine ⟨V, ⟨?_, ?_, ?_⟩, values⟩
  · intro v inside
    rw [size] at inside
    have at_v : news[v]? = some v := by rw [range, List.getElem?_range' inside]; simp
    have value := congrArg (fun l : List Literal => l[v]?) values
    simp only [List.getElem?_map, at_v, Option.map_some] at value
    have listed : (List.zipWith Literal.cast args (news.map h.typeOf))[v]? = some (V v) := by
      rw [fresh.types]
      exact value.symm
    exact cast_of_listed listed at_v
  · intro v type literal name found
    have inside := (Array.getElem?_eq_some_iff.mp found).1
    have member : v ∈ news := by
      rw [range, List.mem_range'_1]
      omega
    obtain ⟨type', name', free⟩ := (closed.free v).mpr member
    rw [found] at free
    simp at free
  · intro n node found
    rw [fresh.nodes] at found
    simp at found

namespace Expression.Placeable

variable {e : Expression Composite} {P : Composite → Prop} {config : Config}

theorem exists_dissolve [Numerics] (placeable : e.Placeable P config)
    (setting : e.graph.config = config) (σ : Specialiser) {calls : List NodeId}
    (opens : ∀ n node c, n ∈ calls → (n, node) ∈ e.nodes → node.op = .call c →
      c.body.Placeable P config) : ∃ copy, e.dissolve σ calls = .ok copy ∧
      copy.Sound P config e.inputTypes e.outputs.length ∧
      copy.outputs.map copy.graph.typeOf = e.outputTypes ∧
      ∀ args results, (e.map Composite.evaluate).evaluate args = .ok results →
        copy.Answers args (List.zipWith Literal.cast results e.outputTypes) := by
  obtain ⟨h, news, fresh_run, -, fresh⟩ := Build.exec_freshInputs e.graph
    (by simp [inputTypes] : e.inputTypes.length = e.inputs.length) { config }
  have closed : h.Closed news := fresh.closed [] (Graph.closed_empty config)
  have places := placeable.places_dissolved σ fun n node c member called mark =>
    opens n node c ((mem_marked calls n).mp mark) member called
  obtain ⟨outs, h', run, grown, known, types, values⟩ := placeable.computes_replay places
    closed.ordered fresh.grown.config fresh.known fresh.types
  have inputTypes : news.map h'.typeOf = e.inputTypes := by
    rw [grown.toExtends.map_typeOf fresh.known, fresh.types]
  refine ⟨⟨h', news, outs⟩, ?_, ⟨closed.grown grown, ?_, known, ?_, inputTypes, ?_⟩, types, ?_⟩
  · exact Expression.rebuild_eq_ok (by rwa [setting, List.map_id]) run
  · exact Graph.Calls.grown (fun n node c found => by simp [fresh.nodes] at found) closed.ordered grown
  · rw [grown.toExtends.config, fresh.grown.config]
  · simpa [outputTypes] using congrArg List.length types
  · intro args results evaluated
    have arity : args.length = e.inputs.length := by
      rw [evaluate_map] at evaluated
      split at evaluated
      · assumption
      · cases evaluated
    obtain ⟨V, valued, inputs⟩ := fresh.valued
      (show args.length = e.inputTypes.length by simp [arity, Expression.inputTypes])
    obtain ⟨V', valued', same, outputs⟩ := values V results valued ⟨args, arity, inputs, evaluated⟩
    refine ⟨V', valued', ?_, ?_, outputs⟩
    · rw [arity]
      simpa [Expression.inputTypes] using (congrArg List.length inputTypes).symm
    · rw [inputTypes, fresh.known.map_eq same, inputs]

end Expression.Placeable

theorem Expression.Replayable.exists_dissolve [Numerics] {e : Expression Composite}
    {config : Config}
    (replayable : e.Replayable (Composite.BuiltUnder config) config) (σ : Specialiser)
    (calls : List NodeId) : ∃ copy, e.dissolve σ calls = .ok copy ∧
      copy.Sound (Composite.BuiltUnder config) config e.inputTypes e.outputs.length ∧
      copy.outputs.map copy.graph.typeOf = e.outputTypes ∧
      ∀ args results, (e.map Composite.evaluate).evaluate args = .ok results →
        copy.Answers args (List.zipWith Literal.cast results e.outputTypes) :=
  replayable.placeable.exists_dissolve replayable.setting σ fun _ _ _ _ member called =>
    (replayable.calls (mem_nodes.mp member).2 called).placeable

namespace Copy.Sound

variable {copy : Copy} {P : Composite → Prop} {config : Config} {types : List ScalarType}
  {count : Nat}

theorem exists_expression [Numerics] (sound : copy.Sound P config types count) :
    ∃ e, copy.graph.expression copy.inputs copy.outputs = .ok e ∧ e.Placeable P config ∧
      ∀ args results, copy.Answers args results →
        (e.map Composite.evaluate).evaluate args = .ok results := by
  obtain ⟨e, success⟩ := Graph.exists_expression sound.closed.inputs_of_free copy.outputs
  refine ⟨e, success, sound.closed.placeable sound.known success
    (fun _ _ _ _ here called => sound.calls here called) ?_, ?_⟩
  · intro n node _ here
    rw [← sound.config]
    exact sound.closed.typed.types here
  have sourced : e.Sourced := .of_expression sound.closed sound.known success
  obtain ⟨graph, inputs, outputs⟩ := Graph.expression_eq success
  rintro args results ⟨V, valued, arity, values, rfl⟩
  rw [← graph] at valued values
  rw [← inputs] at arity values
  rw [← outputs]
  exact Expression.evaluate_of_valued sourced valued arity values

/-- Dissolving calls until none can be keeps what a copy answers. -/
theorem flattens [Numerics] (sound : copy.Sound P config types count)
    (opens : ∀ c, P c → c.outputCount = 1 → c.body.Placeable P config)
    (σ : Specialiser) (fuel : Nat) : ∃ flat, copy.flatten σ fuel = .ok flat ∧
      flat.Sound P config types count ∧
      flat.outputs.map flat.graph.typeOf = copy.outputs.map copy.graph.typeOf ∧
      ∀ args results, copy.Answers args results → flat.Answers args results := by
  induction fuel generalizing copy with
  | zero => exact ⟨copy, rfl, sound, rfl, fun _ _ answers => answers⟩
  | succ fuel ih =>
    obtain ⟨e, success, placeable, evaluates⟩ := sound.exists_expression
    obtain ⟨graph, inputs, outputs⟩ := Graph.expression_eq success
    -- a pass reads the copy back as an expression, so its step is that of the first pass
    by_cases settled : e.dissolvable.isEmpty = true
    · refine ⟨copy, ?_, sound, rfl, fun _ _ answers => answers⟩
      simp only [Copy.flatten, success, ok_bind, if_pos settled]
    · obtain ⟨next, dissolved, sound', types', answers'⟩ :=
        placeable.exists_dissolve (graph ▸ sound.config) σ fun n node c member inside called =>
          opens c (placeable.calls (Expression.mem_nodes.mp inside).1 (Expression.mem_nodes.mp inside).2
            called) (Expression.outputCount_of_dissolvable member inside called)
      have inputTypes : e.inputTypes = types := by
        rw [Expression.inputTypes, inputs, graph, sound.inputTypes]
      rw [inputTypes, outputs, sound.outputs] at sound'
      obtain ⟨flat, flattened, sound'', types'', answers''⟩ := ih sound'
      have outputTypes : e.outputTypes = copy.outputs.map copy.graph.typeOf := by
        rw [Expression.outputTypes, outputs, graph]
      refine ⟨flat, ?_, sound'', ?_, ?_⟩
      · simp only [Copy.flatten, success, ok_bind, if_neg settled, dissolved]
        exact flattened
      · rw [types'', types', outputTypes]
      · intro args results answers
        refine answers'' args results ?_
        have answered := answers' args results (evaluates args results answers)
        obtain ⟨V, valued, -, -, rfl⟩ := answers
        rwa [outputTypes, valued.zipWith_cast sound.known] at answered

theorem exists_flatten [Numerics]
    (sound : copy.Sound (Composite.BuiltUnder config) config types count)
    (σ : Specialiser) (fuel : Nat) : ∃ flat, copy.flatten σ fuel = .ok flat ∧
      flat.Sound (Composite.BuiltUnder config) config types count ∧
      flat.outputs.map flat.graph.typeOf = copy.outputs.map copy.graph.typeOf ∧
      ∀ args results, copy.Answers args results → flat.Answers args results :=
  sound.flattens (fun _ good _ => good.placeable) σ fuel

end Copy.Sound

theorem Composite.Everywhere.and {P Q : Expression Composite → Prop} {c : Composite}
    (first : c.Everywhere P) (second : c.Everywhere Q) : c.Everywhere fun e => P e ∧ Q e := by
  induction first with
  | mk here callees ih =>
    exact .mk ⟨here, second.body⟩ fun n node d found called =>
      ih found called (second.callees found called)

/-- Fusion succeeds where there is an expression, and the composite computes what the expression
    does, in the types of the outputs. -/
theorem fuse_preserves_meaning [Numerics] {g : Arena} (reachable : Reachable g)
    {inputs outputs : List ValueId} (known : g.Knows outputs) (nonempty : outputs ≠ [])
    (bound : ∀ (n : NodeId) node c, g.nodes[n]? = some node → node.op = .call c →
      node.inputs.map g.typeOf = c.inputTypes)
    (setting : g.Calls fun c => c.Everywhere fun b => b.graph.config = g.config)
    {e : Expression Composite} (success : g.expression inputs.eraseDups outputs = .ok e) :
    ∃ c, g.fuse inputs outputs = .ok c ∧ c.outputTypes = outputs.map g.typeOf ∧
      ∀ args vs, (e.map Composite.evaluate).evaluate args = .ok vs →
        c.evaluate args = .ok (List.zipWith Literal.cast vs c.outputTypes) := by
  have built := reachable.built
  have walks := Graph.walks_of_expression built.ordered known success
  obtain ⟨rfl, distinct, rfl⟩ := Graph.expression_eq success
  have replayable : e.Replayable (Composite.BuiltUnder e.graph.config) e.graph.config := by
    refine ⟨built.ordered, built.typed, rfl, bound _ _ _, built.constants, ?_, ?_, ?_⟩
    · exact fun n node c found called => (built.calls found called).and (setting found called)
    · rw [distinct]
      exact nodup_eraseDups inputs
    · rwa [distinct]
  -- Fusion is one pass, passes until nothing can be dissolved,
  -- and collecting. Each keeps what is answered.
  obtain ⟨copy, dissolved, sound, types, answers⟩ :=
    replayable.exists_dissolve Composite.specialise e.dissolvable
  obtain ⟨flat, flattened, sound', types', answers'⟩ :=
    sound.exists_flatten Composite.specialise copy.graph.callCount
  obtain ⟨body, walked, -, evaluates⟩ := sound'.exists_expression
  obtain ⟨graph, -, outputs⟩ := Graph.expression_eq walked
  have outputTypes : (Composite.mk body).outputTypes = e.outputTypes := by
    show body.outputs.map body.graph.typeOf = _
    rw [graph, outputs, types', types]
  refine ⟨.mk body, ?_, outputTypes, ?_⟩
  · rw [Graph.fuse, Graph.fuseWith, success]
    simp [nonempty, dissolved, flattened, walked]
  · intro args vs evaluated
    rw [Composite.evaluate_eq, outputTypes]
    exact evaluates _ _ (answers' _ _ (answers args vs evaluated))

theorem negation_least [Numerics] :
    (Composite.negation (.signed .w8)).evaluate [.signed (-128)] = .ok [.signed (-128)] := by
  rw [Composite.evaluate_eq, Expression.evaluate_map]
  rfl

theorem call_of_nested {n : Nat} {node : Node Composite} {c : Composite}
    (found : (Graph.nested (.signed .w8)).nodes[n]? = some node) (called : node.op = .call c) :
    c = .negation (.signed .w8) ∧ node.inputs = [0] := by
  have inside : n < 2 := (Array.getElem?_eq_some_iff.mp found).1
  obtain rfl | rfl : n = 0 ∨ n = 1 := by omega
  · obtain rfl := Option.some.inj found
    exact ⟨(Op.call.inj called).symm, rfl⟩
  · obtain rfl := Option.some.inj found
    cases called

theorem negation_setting : (Composite.negation (.signed .w8)).Everywhere fun b =>
    b.graph.config = (Graph.nested (.signed .w8)).config := by
  refine .mk rfl fun n node c found called => ?_
  have inside : n < 1 := (Array.getElem?_eq_some_iff.mp found).1
  obtain rfl := Nat.lt_one_iff.mp inside
  obtain rfl := Option.some.inj found
  cases called

def Expression.nested : Expression Composite :=
  ⟨.nested (.signed .w8), [0], [2], [0, 1]⟩

theorem nested_least [Numerics] :
    (Expression.nested.map Composite.evaluate).evaluate [.signed (-128)] = .ok [.signed (-128)] := by
  have called : Expression.nested.setResults (Expression.nested.bindArguments [.signed (-128)])
      ⟨.call (.negation (.signed .w8)), [0], [1]⟩ =
        .ok ((Expression.nested.bindArguments [.signed (-128)]).insert 1 (.signed (-128))) := by
    show ((Composite.negation (.signed .w8)).evaluate [.signed (-128)] >>= _) = _
    rw [negation_least]
    rfl
  rw [Expression.evaluate_map]
  show (Expression.nested.setResults (Expression.nested.bindArguments [.signed (-128)])
    ⟨.call (.negation (.signed .w8)), [0], [1]⟩ >>= _) >>= _ = _
  rw [called]
  rfl

theorem nested_fused : ∃ c, (Graph.nested (.signed .w8)).expression [0] [2] = .ok .nested ∧
    (Graph.nested (.signed .w8)).fuse [0, 0] [2] = .ok c ∧ c.outputTypes = [.signed .w8] ∧
    c.evaluate [.signed (-128)] = .ok [.signed (-128)] := by
  have success : (Graph.nested (.signed .w8)).expression [0] [2] = .ok .nested := rfl
  have bound : ∀ (n : NodeId) node c, (Graph.nested (.signed .w8)).nodes[n]? = some node →
      node.op = .call c → node.inputs.map (Graph.nested (.signed .w8)).typeOf = c.inputTypes := by
    intro n node c found called
    obtain ⟨rfl, inputs⟩ := call_of_nested found called
    rw [inputs]
    rfl
  have setting : (Graph.nested (.signed .w8)).Calls fun c =>
      c.Everywhere fun b => b.graph.config = (Graph.nested (.signed .w8)).config := by
    intro n node c found called
    rw [(call_of_nested found called).1]
    exact negation_setting
  obtain ⟨c, fused, types, same⟩ := @fuse_preserves_meaning _ (.nested (.signed .w8))
    (nested_reachable (by decide)) [0, 0] [2] (by decide) (by decide) bound setting .nested success
  have types' : c.outputTypes = [.signed .w8] := types
  refine ⟨c, success, fused, types', ?_⟩
  rw [same _ _ nested_least, types']
  rfl

end ScalarFusion

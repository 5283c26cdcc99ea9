import ScalarFusion.Proofs.Reaching
import ScalarFusion.Proofs.Valuing

/-!
Replaying keeps values. The source is evaluated node by node, the copy grows node by node, and a
valuation of the copy is extended at each step so that it reads what the source has computed so
far. Dissolving a call replays a body within a replay, so both are one induction.
-/
namespace ScalarFusion

/-- The build succeeds with values of the given types, and valuations extend to what it appends:
    where `f` gives results, they are the values of what the build gives. -/
def Build.Computes [Numerics] (P : Composite → Prop) (b : Build (List ValueId)) (h : Arena)
    (types : List ScalarType) (f : (ValueId → Literal) → List Literal → Prop) : Prop :=
  ∃ outs h', b.exec h = (.ok outs, h') ∧ Growth (.body P) h h' ∧ h'.Knows outs ∧
    outs.map h'.typeOf = types ∧
    ∀ V results, h.Valued V → f V results → ∃ V', h'.Valued V' ∧
      (∀ v : Nat, v < h.values.size → V' v = V v) ∧
      outs.map V' = List.zipWith Literal.cast results types

theorem Build.computes_placeWith [Numerics] {P : Composite → Prop} {σ : Specialiser}
    {op : Op Composite}
    {args : List ValueId} {h : Arena} {types : List ScalarType} (ordered : h.Ordered)
    (known : h.Knows args) (nonempty : args = [] → op = .prim .mean)
    (bound : ∀ c, op = .call c → args.map h.typeOf = c.inputTypes)
    (good : ∀ c, op = .call c → P c)
    (typed : op.outputTypes (args.map h.typeOf) h.config = .ok types) :
    (placeWith σ op args).Computes P h types fun V results =>
      op.results (args.map V) (args.map h.typeOf) types = .ok results := by
  refine ⟨_, _, exec_placeWith nonempty bound typed, ?_, ?_, h.pushNode_types op args types, ?_⟩
  · exact .node .refl known nonempty typed fun c called => ⟨good c called, bound c called⟩
  · intro v member
    have inside := (List.mem_range'_1.mp member).2
    rwa [Graph.pushNode_size]
  · intro V results valued computed
    have lengths := Op.length_results typed computed
    refine ⟨_, valued.pushNode ordered known computed lengths, fun v inside => if_pos inside, ?_⟩
    have outputs := map_extendFrom_range V h.values.size (List.zipWith Literal.cast results types)
    rwa [List.length_zipWith, lengths, Nat.min_self] at outputs

/-- An expression whose nodes can be placed again as they are, in an arena of the same setting. -/
structure Expression.Replayable (e : Expression Composite) (P : Composite → Prop) (config : Config) :
    Prop where
  ordered : e.graph.Ordered
  typed : e.graph.Typed
  setting : e.graph.config = config
  bound : ∀ {n : NodeId} {node : Node Composite} {c : Composite}, e.graph.nodes[n]? = some node →
    node.op = .call c → node.inputs.map e.graph.typeOf = c.inputTypes
  constants : ∀ {v : ValueId} {type : ScalarType} {literal : Literal} {name : Option String},
    e.graph.values[v]? = some ⟨type, .constant literal name⟩ → (literal.cast type).Alike literal
  calls : e.graph.Calls P
  distinct : e.inputs.Nodup
  walks : e.graph.Walks e.inputs e.outputs [] e.order

structure Expression.Placeable (e : Expression Composite) (P : Composite → Prop) (config : Config) :
    Prop where
  ordered : e.graph.Ordered
  typed : ∀ {n : NodeId} {node : Node Composite}, n ∈ e.order → e.graph.nodes[n]? = some node →
    node.op.outputTypes (node.inputs.map e.graph.typeOf) config = .ok (node.outputs.map e.graph.typeOf)
  nonempty : ∀ {n : NodeId} {node : Node Composite}, e.graph.nodes[n]? = some node →
    node.inputs = [] → node.op = .prim .mean
  bound : ∀ {n : NodeId} {node : Node Composite} {c : Composite}, n ∈ e.order →
    e.graph.nodes[n]? = some node → node.op = .call c →
      node.inputs.map e.graph.typeOf = c.inputTypes
  constants : ∀ {v : ValueId} {type : ScalarType} {literal : Literal} {name : Option String},
    e.graph.values[v]? = some ⟨type, .constant literal name⟩ → (literal.cast type).Alike literal
  calls : ∀ {n : NodeId} {node : Node Composite} {c : Composite}, n ∈ e.order →
    e.graph.nodes[n]? = some node → node.op = .call c → P c
  distinct : e.inputs.Nodup
  walks : e.graph.Walks e.inputs e.outputs [] e.order

theorem Expression.Replayable.placeable {e : Expression Composite} {P : Composite → Prop}
    {config : Config} (replayable : e.Replayable P config) : e.Placeable P config where
  ordered := replayable.ordered
  typed _ here := replayable.setting ▸ replayable.typed.types here
  nonempty := replayable.typed.nonempty
  bound _ := replayable.bound
  constants := replayable.constants
  calls _ here called := replayable.calls here called
  distinct := replayable.distinct
  walks := replayable.walks

/-- The copies of values have the types of the values. -/
structure Copies (e : Expression Composite) (done : List NodeId) (t : Table ValueId) (h : Arena) :
    Prop where
  covers : t.Covers e done
  known : ∀ {v w : Nat}, t.get? v = some w → w < h.values.size
  types : ∀ {v w : Nat}, t.get? v = some w → h.typeOf w = e.graph.typeOf v

/-- The values of copies are the values in `env`, converted. -/
structure Reads (e : Expression Composite) (env : Table Literal) (t : Table ValueId)
    (V : ValueId → Literal) : Prop where
  value : ∀ {v w : Nat}, t.get? v = some w →
    ∃ a, e.lookup env v = .ok a ∧ V w = a.cast (e.graph.typeOf v) ∧ (V w).Alike a
  bound : ∀ {v : Nat} {a : Literal}, env.get? v = some a → ∃ w, t.get? v = some w

/-- Valuations that read `env` extend to valuations that read `env'`. -/
def Carries [Numerics] (e : Expression Composite) (env env' : Table Literal) (t t' : Table ValueId)
    (h h' : Arena) : Prop :=
  ∀ V, h.Valued V → Reads e env t V → ∃ V', h'.Valued V' ∧
    (∀ v : Nat, v < h.values.size → V' v = V v) ∧ Reads e env' t' V'

theorem cast_of_listed {f : ValueId → ScalarType} {as : List Literal} {vs : List ValueId} {k : Nat}
    {a : Literal} {v : ValueId} (listed : (List.zipWith Literal.cast as (vs.map f))[k]? = some a)
    (at_k : vs[k]? = some v) : a.cast (f v) = a := by
  simp only [List.getElem?_zipWith, List.getElem?_map, at_k, Option.map_some] at listed
  split at listed
  · next r t _ same =>
    obtain rfl := Option.some.inj same
    rw [← Option.some.inj listed, Literal.cast_cast]
  · cases listed

section

variable {e : Expression Composite} {P : Composite → Prop} {config : Config}
  {done : List NodeId} {t : Table ValueId} {h : Arena} {env : Table Literal}

theorem Carries.refl [Numerics] : Carries e env env t t h h :=
  fun V valued reads => ⟨V, valued, fun _ _ => rfl, reads⟩

theorem Carries.trans [Numerics] {env' env'' : Table Literal} {t' t'' : Table ValueId}
    {h' h'' : Arena}
    (first : Carries e env env' t t' h h') (second : Carries e env' env'' t' t'' h' h'')
    (grown : h.Extends h') : Carries e env env'' t t'' h h'' := by
  intro V valued reads
  obtain ⟨V', valued', same, reads'⟩ := first V valued reads
  obtain ⟨V'', valued'', same', reads''⟩ := second V' valued' reads'
  refine ⟨V'', valued'', fun v inside => ?_, reads''⟩
  rw [same' v (Nat.lt_of_lt_of_le inside grown.size_le), same v inside]

theorem Copies.grown (copies : Copies e done t h) {h' : Arena} (grown : h.Extends h') :
    Copies e done t h' where
  covers := copies.covers
  known image := Nat.lt_of_lt_of_le (copies.known image) grown.size_le
  types image := (grown.typeOf (copies.known image)).trans (copies.types image)

theorem Copies.pushConstant [Numerics] (copies : Copies e done t h) (ordered : h.Ordered)
    (constants : ∀ {v : ValueId} {type : ScalarType} {literal : Literal} {name : Option String},
      e.graph.values[v]? = some ⟨type, .constant literal name⟩ → (literal.cast type).Alike literal)
    {v : Nat} {type : ScalarType} {literal : Literal} {name : Option String}
    (unset : t.get? v = none)
    (source : e.graph.values[v]? = some ⟨type, .constant literal name⟩) :
    Copies e done (t.insert v h.values.size)
        (h.pushValue ⟨type, .constant (literal.cast type) name⟩) ∧
      ∀ env, Carries e env env t (t.insert v h.values.size) h
        (h.pushValue ⟨type, .constant (literal.cast type) name⟩) := by
  have grown := h.extends_pushValue ⟨type, .constant (literal.cast type) name⟩
  have within := Table.within_insert unset h.values.size
  have typeOf_source : e.graph.typeOf v = type := by simp [Graph.typeOf, source]
  constructor
  · refine ⟨copies.covers.mono within, ?_, ?_⟩
    · intro u w found
      rcases Table.insert_cases found with ⟨-, rfl⟩ | old
      · simp
      · exact (copies.grown grown).known old
    · intro u w found
      rcases Table.insert_cases found with ⟨rfl, rfl⟩ | old
      · simp [Graph.typeOf, source]
      · exact (copies.grown grown).types old
  · intro env V valued reads
    have pushed := valued.pushConstant ordered (Literal.cast_cast literal type) name
    refine ⟨_, pushed, fun u inside => if_pos inside, ?_, ?_⟩
    · intro u w found
      rcases Table.insert_cases found with ⟨rfl, rfl⟩ | old
      · have unbound : env.get? u = none := by
          cases entry : env.get? u with
          | none => rfl
          | some a =>
            obtain ⟨w, image⟩ := reads.bound entry
            rw [unset] at image
            cases image
        refine ⟨literal, ?_, ?_, ?_⟩
        · simp [Expression.lookup, unbound, source, Value.literal?]
        · simp [extendFrom, typeOf_source]
        · simpa [extendFrom] using constants source
      · obtain ⟨a, read, value, alike⟩ := reads.value old
        have same : extendFrom V h.values.size [literal.cast type] w = V w :=
          if_pos (copies.known old)
        exact ⟨a, read, same.trans value, by rwa [same]⟩
    · intro u a entry
      obtain ⟨w, found⟩ := reads.bound entry
      exact ⟨w, within u w found⟩

theorem Copies.exec_resolve [Numerics] (copies : Copies e done t h)
    (placeable : e.Placeable P config)
    (ordered : h.Ordered) {v : Nat} (supplied : e.graph.Supplied e.inputs done v) :
    ∃ w t' h', (Build.resolve e.graph id t v).exec h = (.ok (w, t'), h') ∧
      Growth (.body P) h h' ∧ Copies e done t' h' ∧ t'.get? v = some w ∧ t.Within t' ∧
      ∀ env, Carries e env env t t' h h' := by
  rcases Build.exec_resolve_cases placeable.ordered copies.covers supplied id h with
    ⟨w, found, run⟩ | ⟨type, literal, name, unset, source, run⟩
  · exact ⟨w, t, h, run, .refl, copies, found, .refl t, fun _ => .refl⟩
  · obtain ⟨copies', carries⟩ := copies.pushConstant ordered placeable.constants unset source
    exact ⟨_, _, _, run, .leaf .refl rfl ⟨type, literal, name, rfl⟩, copies', by simp,
      Table.within_insert unset _, carries⟩

theorem Copies.exec_resolveAll [Numerics] (copies : Copies e done t h)
    (placeable : e.Placeable P config) (ordered : h.Ordered) {vs : List ValueId}
    (supplied : ∀ v ∈ vs, e.graph.Supplied e.inputs done v) :
    ∃ ws t' h', (Build.resolveAll e.graph id vs t).exec h = (.ok (ws, t'), h') ∧
      Growth (.body P) h h' ∧ Copies e done t' h' ∧ t'.Lists vs ws ∧ t.Within t' ∧
      ∀ env, Carries e env env t t' h h' := by
  induction vs generalizing t h with
  | nil => exact ⟨[], t, h, rfl, .refl, copies, rfl, .refl t, fun _ => .refl⟩
  | cons v vs ih =>
    obtain ⟨w, t', h', first, grown, copies', image, within, carries⟩ :=
      copies.exec_resolve placeable ordered (supplied v (by simp))
    obtain ⟨ws, t'', h'', rest, grown', copies'', images, within', carries'⟩ :=
      ih copies' (grown.ordered ordered) fun u member => supplied u (by simp [member])
    refine ⟨w :: ws, t'', h'', ?_, grown.trans grown', copies'', ?_, within.trans within',
      fun env => (carries env).trans (carries' env) grown.toExtends⟩
    · rw [Build.resolveAll, Build.exec_bind_of_ok first, Build.exec_bind_of_ok rest]
      rfl
    · unfold Table.Lists at images ⊢
      rw [List.map_cons, List.map_cons, images, within' v w image]

theorem Copies.knows (copies : Copies e done t h) {vs ws : List ValueId} (images : t.Lists vs ws) :
    h.Knows ws := by
  intro w member
  obtain ⟨v, -, image⟩ := images.mem_right member
  exact copies.known image

theorem Reads.values {V : ValueId → Literal} (reads : Reads e env t V) {vs ws : List ValueId}
    (images : t.Lists vs ws) {as : List Literal} (found : vs.mapM (e.lookup env) = .ok as) :
    ws.map V = List.zipWith Literal.cast as (vs.map e.graph.typeOf) ∧
      (ws.map V).map Literal.cast = as.map Literal.cast := by
  have looked := forall₂_of_mapM found
  clear found
  induction looked generalizing ws with
  | nil =>
    obtain rfl := List.length_eq_zero_iff.mp images.length.symm
    exact ⟨rfl, rfl⟩
  | @cons v a vs as here _ ih =>
    cases ws with
    | nil => cases images.length
    | cons w ws =>
      obtain ⟨image, images⟩ := List.cons.inj images
      obtain ⟨a', read, value, alike⟩ := reads.value image
      obtain rfl := Except.ok.inj (here.symm.trans read)
      obtain ⟨values, alikes⟩ := ih images
      constructor
      · rw [List.map_cons, List.map_cons, List.zipWith_cons_cons, ← value, values]
      · rw [List.map_cons, List.map_cons, List.map_cons, alikes]
        exact congrArg (· :: _) alike

/-- Every node of the expression is placed so that it computes what the node does. -/
def Expression.Places [Numerics] (e : Expression Composite) (P : Composite → Prop) (config : Config)
    (place : NodeId → Op Composite → List ValueId → Build (List ValueId)) : Prop :=
  ∀ ⦃n : NodeId⦄ ⦃node : Node Composite⦄, n ∈ e.order → e.graph.nodes[n]? = some node →
    ∀ (h : Arena) (ws : List ValueId), h.Ordered → h.Knows ws → h.config = config →
      ws.map h.typeOf = node.inputs.map e.graph.typeOf →
      (place n node.op ws).Computes P h (node.outputs.map e.graph.typeOf) fun V results =>
        node.op.results (ws.map V) (node.inputs.map e.graph.typeOf)
          (node.outputs.map e.graph.typeOf) = .ok results

variable {place : NodeId → Op Composite → List ValueId → Build (List ValueId)}

theorem Copies.setOutputs (copies : Copies e done t h) (placeable : e.Placeable P config)
    {n : NodeId} {node : Node Composite} (here : e.graph.nodes[n]? = some node)
    {outs : List ValueId} (known : h.Knows outs)
    (types : outs.map h.typeOf = node.outputs.map e.graph.typeOf) :
    Copies e (done ++ [n]) ((node.outputs.zip outs).foldl (fun t (old, new) => t.insert old new) t)
      h := by
  have lengths : node.outputs.length = outs.length := by
    simpa using (congrArg List.length types).symm
  have nodup := placeable.ordered.nodup_outputs here
  refine ⟨copies.covers.set placeable.ordered here lengths, ?_, ?_⟩
  · intro u w entry
    rcases Table.insert_zip_cases nodup lengths entry with ⟨k, -, new⟩ | ⟨-, old⟩
    · exact known w (List.mem_of_getElem? new)
    · exact copies.known old
  · intro u w entry
    rcases Table.insert_zip_cases nodup lengths entry with ⟨k, at_k, new⟩ | ⟨-, old⟩
    · have same := congrArg (fun l : List ScalarType => l[k]?) types
      simpa [at_k, new] using same
    · exact copies.types old

theorem Reads.setOutputs {V : ValueId → Literal} (reads : Reads e env t V)
    (ordered : e.graph.Ordered) {n : NodeId} {node : Node Composite}
    (here : e.graph.nodes[n]? = some node) {outs : List ValueId} {results : List Literal}
    (lengths : node.outputs.length = outs.length)
    (values : outs.map V = List.zipWith Literal.cast results (node.outputs.map e.graph.typeOf)) :
    Reads e ((node.outputs.zip (List.zipWith Literal.cast results
        (node.outputs.map e.graph.typeOf))).foldl (fun env (v, a) => env.insert v a) env)
      ((node.outputs.zip outs).foldl (fun t (old, new) => t.insert old new) t) V := by
  have nodup := ordered.nodup_outputs here
  have lengths' : node.outputs.length =
      (List.zipWith Literal.cast results (node.outputs.map e.graph.typeOf)).length := by
    rw [← values, List.length_map, lengths]
  obtain ⟨envLists, envOthers⟩ := Table.lists_insert_zip nodup _ lengths' env
  obtain ⟨lists, others⟩ := Table.lists_insert_zip nodup outs lengths t
  constructor
  · intro u w entry
    rcases Table.insert_zip_cases nodup lengths entry with ⟨k, at_k, new⟩ | ⟨outside, old⟩
    · obtain ⟨a, listed, entry'⟩ := envLists.at at_k
      have value : V w = a := by
        have same := congrArg (fun l : List Literal => l[k]?) values
        simpa [new, listed] using same
      refine ⟨a, by simp [Expression.lookup, entry'], ?_, ?_⟩
      · rw [value, cast_of_listed listed at_k]
      · rw [value]
        exact .refl a
    · obtain ⟨a, read, value, alike⟩ := reads.value old
      refine ⟨a, ?_, value, alike⟩
      rw [← read]
      unfold Expression.lookup
      rw [envOthers u outside]
  · intro u a entry
    rcases Table.insert_zip_cases nodup lengths' entry with ⟨k, at_k, -⟩ | ⟨outside, old⟩
    · exact (lists.mem (List.mem_of_getElem? at_k)).imp fun _ => And.right
    · obtain ⟨w, image⟩ := reads.bound old
      exact ⟨w, by rw [others u outside, image]⟩

theorem Copies.exec_replayNode [Numerics] (copies : Copies e done t h)
    (placeable : e.Placeable P config)
    (places : e.Places P config place) (ordered : h.Ordered) (configured : h.config = config)
    {n : NodeId} {node : Node Composite} (member : n ∈ e.order)
    (here : e.graph.nodes[n]? = some node)
    (operands : ∀ v ∈ node.inputs, e.graph.Supplied e.inputs done v) :
    ∃ t' h', (Build.replayNode e id place t (n, node)).exec h = (.ok t', h') ∧
      Growth (.body P) h h' ∧ Copies e (done ++ [n]) t' h' ∧
      ∀ env env', e.setResults env node = .ok env' → Carries e env env' t t' h h' := by
  obtain ⟨ws, t₁, h₁, resolved, grown₁, copies₁, images, -, carries⟩ :=
    copies.exec_resolveAll placeable ordered operands
  have types₁ : ws.map h₁.typeOf = node.inputs.map e.graph.typeOf := images.map_eq copies₁.types
  obtain ⟨outs, h₂, placed, grown₂, known₂, types₂, values⟩ := places member here h₁ ws
    (grown₁.ordered ordered) (copies₁.knows images) (grown₁.toExtends.config.trans configured) types₁
  have copies₂ := (copies₁.grown grown₂.toExtends).setOutputs placeable here known₂ types₂
  refine ⟨_, h₂, ?_, grown₁.trans grown₂, copies₂, ?_⟩
  · rw [Build.replayNode, Build.exec_bind_of_ok resolved, Build.exec_bind_of_ok placed]
    rfl
  · intro env env' success V valued reads
    obtain ⟨as, looked, success⟩ := bind_eq_ok success
    obtain ⟨results, computed, success⟩ := bind_eq_ok success
    obtain rfl := Except.ok.inj success
    obtain ⟨V₁, valued₁, same₁, reads₁⟩ := carries env V valued reads
    -- the copies hold converted values, from which operations compute the same
    rw [← node.op.results_alike (reads₁.values images looked).2] at computed
    obtain ⟨V₂, valued₂, same₂, values₂⟩ := values V₁ results valued₁ computed
    have reads₂ : Reads e env t₁ V₂ := by
      refine ⟨fun image => ?_, reads₁.bound⟩
      obtain ⟨a, read, value, alike⟩ := reads₁.value image
      rw [same₂ _ (copies₁.known image)]
      exact ⟨a, read, value, alike⟩
    have lengths : node.outputs.length = outs.length := by
      simpa using (congrArg List.length types₂).symm
    refine ⟨V₂, valued₂, ?_, reads₂.setOutputs placeable.ordered here lengths values₂⟩
    intro v inside
    rw [same₂ v (Nat.lt_of_lt_of_le inside grown₁.toExtends.size_le), same₁ v inside]

theorem Copies.exec_replayNodes [Numerics] (start : Copies e [] t h)
    (placeable : e.Placeable P config)
    (places : e.Places P config place) (ordered : h.Ordered) (configured : h.config = config)
    {order : List NodeId} (scheduled : e.graph.Scheduled e.inputs order)
    (within : ∀ n ∈ order, n ∈ e.order) :
    ∃ t' h', ((order.filterMap fun n => (e.graph.nodes[n]?).map fun node => (n, node)).foldlM
      (Build.replayNode e id place) t).exec h = (.ok t', h') ∧ Growth (.body P) h h' ∧
      Copies e order t' h' ∧
      ∀ env env', (order.filterMap fun n => (e.graph.nodes[n]?).map fun node => (n, node)).foldlM
        (fun env entry => e.setResults env entry.2) env = .ok env' → Carries e env env' t t' h h' := by
  induction scheduled with
  | nil =>
    refine ⟨t, h, rfl, .refl, start, fun env env' success => ?_⟩
    obtain rfl := Except.ok.inj success
    exact .refl
  | @snoc done n node _ _ here operands ih =>
    obtain ⟨t', h', run, grown, copies, carries⟩ := ih fun m member => within m (by simp [member])
    obtain ⟨t'', h'', last, grown', copies', carries'⟩ := copies.exec_replayNode placeable places
      (grown.ordered ordered) (grown.toExtends.config.trans configured) (within n (by simp)) here
      operands
    have one : ([n].filterMap fun n => (e.graph.nodes[n]?).map fun node => (n, node)) =
        [(n, node)] := by
      simp [here]
    refine ⟨t'', h'', ?_, grown.trans grown', copies', ?_⟩
    · rw [List.filterMap_append, List.foldlM_append, Build.exec_bind_of_ok run, one,
        List.foldlM_cons, Build.exec_bind_of_ok last]
      rfl
    · intro env env'' success
      rw [List.filterMap_append, List.foldlM_append, one] at success
      obtain ⟨env', first, second⟩ := bind_eq_ok success
      obtain ⟨env₂, step, final⟩ := bind_eq_ok second
      obtain rfl := Except.ok.inj final
      exact (carries env env' first).trans (carries' env' _ step) grown.toExtends

theorem Reads.bindArguments {V : ValueId → Literal} (distinct : e.inputs.Nodup) {ws : List ValueId}
    (lengths : e.inputs.length = ws.length) {args : List Literal}
    (arity : args.length = e.inputs.length)
    (inputs : ws.map V = List.zipWith Literal.cast args e.inputTypes) :
    Reads e (e.bindArguments args) (Build.bindInputs e.inputs ws) V := by
  have lists := (Build.lists_bindInputs distinct lengths).1
  obtain ⟨envLists, envOthers⟩ := e.lists_bindArguments distinct arity
  constructor
  · intro v w entry
    obtain ⟨k, at_k, at_k'⟩ := Table.insertNew_zip_cases distinct lengths entry
    obtain ⟨a, listed, entry'⟩ := envLists.at at_k
    have value : V w = a := by
      have same := congrArg (fun l : List Literal => l[k]?) inputs
      simpa [at_k', listed] using same
    refine ⟨a, by simp [Expression.lookup, entry'], ?_, ?_⟩
    · rw [value, cast_of_listed listed at_k]
    · rw [value]
      exact .refl a
  · intro v a entry
    by_cases member : v ∈ e.inputs
    · exact (lists.mem member).imp fun _ => And.right
    · rw [envOthers v member] at entry
      cases entry

/-- Replaying an expression over copies of its inputs computes what it evaluates to. -/
theorem Expression.Placeable.computes_replay [Numerics] (placeable : e.Placeable P config)
    (places : e.Places P config place) (ordered : h.Ordered) (configured : h.config = config)
    {ws : List ValueId} (known : h.Knows ws) (types : ws.map h.typeOf = e.inputTypes) :
    (Build.replay e id place (Build.bindInputs e.inputs ws)).Computes P h e.outputTypes
      fun V results => ∃ args, args.length = e.inputs.length ∧
        ws.map V = List.zipWith Literal.cast args e.inputTypes ∧
        (e.map Composite.evaluate).evaluate args = .ok results := by
  have lengths : e.inputs.length = ws.length := by
    have := congrArg List.length types
    simpa [Expression.inputTypes] using this.symm
  have lists := (Build.lists_bindInputs placeable.distinct lengths).1
  have start : Copies e [] (Build.bindInputs e.inputs ws) h := by
    refine ⟨⟨fun v member => (lists.mem member).imp fun _ => And.right, by simp⟩, ?_, ?_⟩
    · intro v w entry
      obtain ⟨k, -, at_k⟩ := Table.insertNew_zip_cases placeable.distinct lengths entry
      exact known w (List.mem_of_getElem? at_k)
    · intro v w entry
      obtain ⟨k, at_k, at_k'⟩ := Table.insertNew_zip_cases placeable.distinct lengths entry
      have same := congrArg (fun l : List ScalarType => l[k]?) types
      simpa [Expression.inputTypes, at_k, at_k'] using same
  obtain ⟨t, h₁, run, grown₁, copies, carries⟩ := start.exec_replayNodes placeable places ordered
    configured (placeable.walks.scheduled .nil) fun _ => id
  obtain ⟨outs, t', h₂, resolved, grown₂, copies', images, -, carries'⟩ :=
    copies.exec_resolveAll placeable (grown₁.ordered ordered) placeable.walks.supplied
  -- The run and the table come from the replay alone. The values follow from
  -- any evaluation of the expression, which the copies carry along.
  refine ⟨outs, h₂, ?_, grown₁.trans grown₂, copies'.knows images, images.map_eq copies'.types, ?_⟩
  · have nodes : (e.nodes.foldlM (Build.replayNode e id place)
      (Build.bindInputs e.inputs ws)).exec h = (.ok t, h₁) := run
    rw [Build.replay_eq, Build.exec_bind_of_ok nodes, Build.exec_bind_of_ok resolved]
    rfl
  · rintro V results valued ⟨args, arity, inputs, evaluated⟩
    rw [Expression.evaluate_map, if_pos arity] at evaluated
    obtain ⟨env, evaluated, looked⟩ := bind_eq_ok evaluated
    have reads := Reads.bindArguments placeable.distinct lengths arity inputs
    obtain ⟨V', valued', same, reads'⟩ := ((carries _ env evaluated).trans (carries' env)
      grown₁.toExtends) V valued reads
    exact ⟨V', valued', same, (reads'.values images looked).1⟩

theorem Expression.Placeable.places [Numerics] (placeable : e.Placeable P config)
    (σ : Specialiser) : e.Places P config fun _ op => Build.placeWith σ op := by
  intro n node member here h ws ordered known configured types
  rw [← types]
  apply Build.computes_placeWith ordered known
  · rintro rfl
    exact placeable.nonempty here (List.map_eq_nil_iff.mp types.symm)
  · intro c called
    rw [types, placeable.bound member here called]
  · exact fun c called => placeable.calls member here called
  · rw [types, configured]
    exact placeable.typed member here

end

theorem Build.Computes.imp [Numerics] {P : Composite → Prop} {b : Build (List ValueId)} {h : Arena}
    {types : List ScalarType} {f f' : (ValueId → Literal) → List Literal → Prop}
    (computes : b.Computes P h types f)
    (implies : ∀ V results, h.Valued V → f' V results → f V results) :
    b.Computes P h types f' := by
  obtain ⟨outs, h', run, grown, known, typesOf, values⟩ := computes
  exact ⟨outs, h', run, grown, known, typesOf, fun V results valued given =>
    values V results valued (implies V results valued given)⟩

theorem Graph.Valued.zipWith_cast [Numerics] {g : Arena} {V : ValueId → Literal}
    (valued : g.Valued V) {vs : List ValueId} (known : g.Knows vs) :
    List.zipWith Literal.cast (vs.map V) (vs.map g.typeOf) = vs.map V := by
  induction vs with
  | nil => rfl
  | cons v vs ih =>
    obtain ⟨inside, known⟩ := (g.knows_cons v vs).mp known
    rw [List.map_cons, List.map_cons, List.zipWith_cons_cons, valued.converted v inside, ih known]

def Composite.BuiltUnder (config : Config) (c : Composite) : Prop :=
  c.Everywhere fun e => e.Tidy ∧ e.graph.config = config

theorem Graph.Closed.placeable {g : Arena} {inputs outputs : List ValueId} {P : Composite → Prop}
    {config : Config} {e : Expression Composite} (closed : g.Closed inputs)
    (known : g.Knows outputs) (success : g.expression inputs outputs = .ok e)
    (calls : ∀ (n : NodeId) node c, n ∈ e.order → g.nodes[n]? = some node → node.op = .call c → P c)
    (typed : ∀ (n : NodeId) node, n ∈ e.order → g.nodes[n]? = some node →
      node.op.outputTypes (node.inputs.map g.typeOf) config = .ok (node.outputs.map g.typeOf)) :
    e.Placeable P config := by
  have walks := Graph.walks_of_expression closed.ordered known success
  obtain ⟨rfl, rfl, rfl⟩ := Graph.expression_eq success
  refine ⟨closed.ordered, typed _ _, closed.typed.nonempty, fun _ => closed.bound, ?_,
    calls _ _ _, closed.distinct, walks⟩
  intro v type literal name found
  rw [closed.constants found]
  exact .refl literal

theorem Composite.BuiltUnder.placeable {config : Config} {c : Composite}
    (good : c.BuiltUnder config) : c.body.Placeable (BuiltUnder config) config := by
  obtain ⟨tidy, setting⟩ := good.body
  refine tidy.closed.placeable tidy.known tidy.order
    (fun _ _ _ _ here called => good.callees here called) fun n node _ here => ?_
  rw [← setting]
  exact tidy.closed.typed.types here

theorem Build.computes_inlineWith [Numerics] {P : Composite → Prop} {config : Config}
    {c : Composite}
    (placeable : c.body.Placeable P config) (σ : Specialiser) {h : Arena} (ordered : h.Ordered)
    (configured : h.config = config) {ws : List ValueId} (known : h.Knows ws)
    (types : ws.map h.typeOf = c.inputTypes) :
    (inlineWith σ c ws).Computes P h c.outputTypes fun V results =>
      c.evaluate (ws.map V) = .ok results := by
  have arity : ws.length = c.inputCount := by
    rw [← Composite.length_inputTypes, ← types, List.length_map]
  have same : inlineWith σ c ws =
      replay c.body id (fun _ op => placeWith σ op) (bindInputs c.body.inputs ws) := by
    rw [inlineWith, Composite.checkArity_eq, if_pos arity]
    rfl
  rw [same]
  refine (placeable.computes_replay (placeable.places σ) ordered configured known types).imp ?_
  intro V results valued evaluated
  refine ⟨ws.map V, ?_, ?_, ?_⟩
  · rw [List.length_map, arity]
    rfl
  · have converted := valued.zipWith_cast known
    rw [types] at converted
    exact converted.symm
  · rw [← Composite.evaluate_eq, evaluated]

end ScalarFusion

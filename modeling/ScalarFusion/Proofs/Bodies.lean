import ScalarFusion.Proofs.Conversion
import ScalarFusion.Proofs.Replaying
import ScalarFusion.Proofs.Walking

/-!
Copies of expressions. A copy starts from one fresh variable for each input and grows by converted
constants, applications and bound calls only, so it is closed over its inputs. A pass that dissolves
calls has fewer of them left, so passes end where no call can be dissolved.
-/
namespace ScalarFusion

namespace Graph

/-- The arena has the inputs for its variables, its constants are of their types, and its calls
    are bound to the types of their arguments. -/
structure Closed (g : Graph Composite) (inputs : List ValueId) : Prop where
  ordered : g.Ordered
  typed : g.Typed
  distinct : inputs.Nodup
  free : ∀ v : ValueId, (∃ type name, g.values[v]? = some ⟨type, .free name⟩) ↔ v ∈ inputs
  constants : ∀ {v : ValueId} {type : ScalarType} {literal : Literal} {name : Option String},
    g.values[v]? = some ⟨type, .constant literal name⟩ → literal.cast type = literal
  bound : ∀ {n : NodeId} {node : Node Composite} {c : Composite}, g.nodes[n]? = some node →
    node.op = .call c → node.inputs.map g.typeOf = c.inputTypes

theorem closed_empty (config : Config) : ({ config } : Arena).Closed [] where
  ordered := ordered_empty config
  typed := ⟨by simp, by simp⟩
  distinct := List.nodup_nil
  free := by simp
  constants := by simp
  bound := by simp

theorem Closed.knows_inputs {g : Arena} {inputs : List ValueId} (closed : g.Closed inputs) :
    g.Knows inputs := by
  intro v member
  obtain ⟨type, name, found⟩ := (closed.free v).mpr member
  exact (Array.getElem?_eq_some_iff.mp found).1

theorem Closed.inputs_of_free {g : Arena} {inputs : List ValueId} (closed : g.Closed inputs)
    (v : ValueId) (type : ScalarType) (name : Option String)
    (found : g.values[v]? = some ⟨type, .free name⟩) : v ∈ inputs :=
  (closed.free v).mp ⟨type, name, found⟩

theorem Closed.pushFree {g : Arena} {inputs : List ValueId} (closed : g.Closed inputs)
    (type : ScalarType) (name : Option String) :
    (g.pushValue ⟨type, .free name⟩).Closed (inputs ++ [g.values.size]) := by
  have grown := g.extends_pushValue ⟨type, .free name⟩
  have cases_of : ∀ {v : ValueId} {x : Value},
      (g.pushValue ⟨type, .free name⟩).values[v]? = some x →
      g.values[v]? = some x ∨ v = g.values.size ∧ x = ⟨type, .free name⟩ := by
    intro v x found
    rw [pushValue_values, Array.getElem?_push] at found
    split at found
    · next here => exact .inr ⟨here, (Option.some.inj found).symm⟩
    · exact .inl found
  refine ⟨ordered_pushValue closed.ordered rfl, ⟨?_, fun found => closed.typed.nonempty found⟩,
    ?_, ?_, ?_, ?_⟩
  · intro n node found
    rw [grown.map_typeOf (closed.ordered.known found),
      grown.map_typeOf (closed.ordered.knows_outputs found)]
    exact closed.typed.types found
  · rw [List.nodup_append]
    refine ⟨closed.distinct, by simp, ?_⟩
    intro v member w last same
    have inside := closed.knows_inputs v member
    obtain rfl := List.mem_singleton.mp last
    exact absurd same (Nat.ne_of_lt inside)
  · intro v
    rw [List.mem_append, ← closed.free v, List.mem_singleton]
    constructor
    · rintro ⟨t, s, found⟩
      exact (cases_of found).imp (fun old => ⟨t, s, old⟩) And.left
    · rintro (⟨t, s, found⟩ | rfl)
      · exact ⟨t, s, grown.value found⟩
      · exact ⟨type, name, by simp⟩
  · intro v t literal s found
    rcases cases_of found with old | ⟨-, new⟩
    · exact closed.constants old
    · simp at new
  · intro n node c found called
    rw [grown.map_typeOf (closed.ordered.known found)]
    exact closed.bound found called

variable {P : Composite → Prop} {g h : Arena}

theorem Closed.grown {inputs : List ValueId} (closed : g.Closed inputs)
    (growth : Growth (.body P) g h) : h.Closed inputs := by
  have grown := growth.toExtends
  refine ⟨growth.ordered closed.ordered, growth.typed closed.ordered closed.typed, closed.distinct,
    ?_, ?_, ?_⟩
  · intro v
    rw [← closed.free v]
    constructor
    · rintro ⟨type, name, found⟩
      rcases growth.leaf_cases found rfl with old | ⟨_, _, _, new⟩
      · exact ⟨type, name, old⟩
      · simp at new
    · rintro ⟨type, name, found⟩
      exact ⟨type, name, grown.value found⟩
  · intro v type literal name found
    rcases growth.leaf_cases found rfl with old | ⟨_, original, _, new⟩
    · exact closed.constants old
    · simp only [Value.mk.injEq, Source.constant.injEq] at new
      obtain ⟨rfl, rfl, rfl⟩ := new
      exact Literal.cast_cast original type
  · intro n node c found called
    rcases growth.node_cases found closed.ordered with old | ⟨-, -, allowed⟩
    · rw [grown.map_typeOf (closed.ordered.known old)]
      exact closed.bound old called
    · exact (allowed c called).2

theorem Calls.grown (calls : g.Calls P) (ordered : g.Ordered) (growth : Growth (.body P) g h) :
    h.Calls P := by
  intro n node c found called
  rcases growth.node_cases found ordered with old | ⟨-, -, allowed⟩
  · exact calls old called
  · exact (allowed c called).1

end Graph

theorem Build.runNew_eq_ok {α : Type} {b : Build α} {config : Config} {a : α} {g : Arena} :
    b.runNew config = .ok (a, g) ↔ b.exec { config } = (.ok a, g) := by
  rcases executed : b.exec { config } with ⟨outcome, h⟩
  have ran : (b.run).run { config } = (outcome, h) := executed
  rw [runNew, ran]
  cases outcome <;> simp

theorem Expression.rebuild_eq_ok {κ : Type} {e : Expression κ} {config : Config}
    {τ : ScalarType → ScalarType}
    {place : NodeId → Op κ → List ValueId → Build (List ValueId)} {news outs : List ValueId}
    {h h' : Arena}
    (first : (Build.freshInputs e.graph e.inputs (e.inputTypes.map τ)).exec { config } = (.ok news, h))
    (second : (Build.replay e τ place (Build.bindInputs e.inputs news)).exec h = (.ok outs, h')) :
    e.rebuild config τ place = .ok ⟨h', news, outs⟩ := by
  have built : (do
      let inputs ← Build.freshInputs e.graph e.inputs (e.inputTypes.map τ)
      let outputs ← Build.replay e τ place (Build.bindInputs e.inputs inputs)
      pure (inputs, outputs) : Build (List ValueId × List ValueId)).runNew config =
        .ok ((news, outs), h') := by
    rw [Build.runNew_eq_ok, Build.exec_bind_of_ok first, Build.exec_bind_of_ok second]
    rfl
  rw [rebuild, built]
  rfl

/-- `news` are fresh variables of the given types, the last inputs of `h`. -/
structure Fresh (g h : Arena) (news : List ValueId) (types : List ScalarType) : Prop where
  grown : g.Extends h
  nodes : h.nodes = g.nodes
  size : h.values.size = g.values.size + types.length
  range : news = List.range' g.values.size types.length
  known : h.Knows news
  types : news.map h.typeOf = types
  closed : ∀ inputs, g.Closed inputs → h.Closed (inputs ++ news)

theorem Fresh.callCount {g h : Arena} {news : List ValueId} {types : List ScalarType}
    (fresh : Fresh g h news types) : h.callCount = g.callCount := by
  rw [Graph.callCount_eq, Graph.callCount_eq, fresh.nodes]

namespace Build

theorem exec_newVariables {α : Type} (type : α → ScalarType) (name : α → Option String) (as : List α)
    (g : Arena) : ∃ h news, (as.mapM fun a => newVariable (type a) (name a) :
      Build (List ValueId)).exec g = (.ok news, h) ∧ Fresh g h news (as.map type) := by
  induction as generalizing g with
  | nil =>
    exact ⟨g, [], rfl, .refl g, rfl, rfl, rfl, by simp, rfl, fun inputs closed => by
      simpa using closed⟩
  | cons a as ih =>
    let x : Value := ⟨type a, .free (name a)⟩
    obtain ⟨h, news, run, fresh⟩ := ih (g.pushValue x)
    have first : (newVariable (type a) (name a)).exec g = (.ok g.values.size, g.pushValue x) := rfl
    have here : g.values.size < (g.pushValue x).values.size := by simp
    refine ⟨h, g.values.size :: news, ?_, (g.extends_pushValue x).trans fresh.grown, fresh.nodes,
      ?_, ?_, ?_, ?_, ?_⟩
    · rw [List.mapM_cons, exec_bind_of_ok first, exec_bind_of_ok run]
      rfl
    · rw [fresh.size, Graph.pushValue_values, Array.size_push, List.map_cons, List.length_cons]
      omega
    · rw [List.map_cons, List.length_cons, List.range'_succ, fresh.range, Graph.pushValue_values,
        Array.size_push]
    · rw [Graph.knows_cons]
      exact ⟨Nat.lt_of_lt_of_le here fresh.grown.size_le, fresh.known⟩
    · rw [List.map_cons, fresh.types, fresh.grown.typeOf here]
      simp [Graph.typeOf, x]
    · intro inputs closed
      simpa using fresh.closed _ (closed.pushFree _ _)

theorem exec_freshInputs {κ : Type} (source : Graph κ) {inputs : List ValueId}
    {types : List ScalarType} (lengths : types.length = inputs.length) (g : Arena) :
    ∃ h news, (freshInputs source inputs types).exec g = (.ok news, h) ∧
      news.length = inputs.length ∧ Fresh g h news types := by
  obtain ⟨h, news, run, fresh⟩ := exec_newVariables Prod.snd
    (fun pair => (source.values[pair.1]?).bind Value.name?) (inputs.zip types) g
  have types_eq : (inputs.zip types).map Prod.snd = types := List.map_snd_zip (by omega)
  rw [types_eq] at fresh
  refine ⟨h, news, run, ?_, fresh⟩
  rw [← lengths, ← fresh.types, List.length_map]

end Build

structure Copy.Sound (copy : Copy) (P : Composite → Prop) (config : Config)
    (types : List ScalarType) (outputs : Nat) : Prop where
  closed : copy.graph.Closed copy.inputs
  calls : copy.graph.Calls P
  known : copy.graph.Knows copy.outputs
  config : copy.graph.config = config
  inputTypes : copy.inputs.map copy.graph.typeOf = types
  outputs : copy.outputs.length = outputs

theorem Policy.body_keepsConstants (P : Composite → Prop) : (Policy.body P).KeepsConstants :=
  fun type literal name => ⟨type, literal, name, rfl⟩

theorem Policy.body_callsGood (P : Composite → Prop) : (Policy.body P).CallsGood P :=
  fun _ good => ⟨good, rfl⟩

theorem Fresh.sound {P : Composite → Prop} {config : Config} {g graph : Arena} {news : List ValueId}
    {types : List ScalarType} (fresh : Fresh { config } g news types)
    (growth : Growth (.body P) g graph) {outs : List ValueId} (known : graph.Knows outs) :
    Copy.Sound ⟨graph, news, outs⟩ P config types outs.length := by
  have closed : g.Closed news := fresh.closed [] (Graph.closed_empty config)
  have noNodes : g.nodes = #[] := fresh.nodes
  refine ⟨closed.grown growth, Graph.Calls.grown ?_ closed.ordered growth, known, ?_, ?_, rfl⟩
  · intro n node c found
    simp [noNodes] at found
  · rw [growth.toExtends.config, fresh.grown.config]
  · rw [growth.toExtends.map_typeOf fresh.known, fresh.types]

theorem Build.exists_fresh {κ : Type} (source : Graph κ) {inputs : List ValueId}
    {types : List ScalarType} (lengths : types.length = inputs.length)
    {b : List ValueId → Build (List ValueId)} {config : Config} {news outs : List ValueId}
    {graph : Arena}
    (run : (do
      let news ← freshInputs source inputs types
      let outs ← b news
      pure (news, outs) : Build (List ValueId × List ValueId)).runNew config =
        .ok ((news, outs), graph)) :
    ∃ g, Fresh { config } g news types ∧ news.length = inputs.length ∧
      (b news).exec g = (.ok outs, graph) := by
  rw [Build.runNew_eq_ok] at run
  obtain ⟨g, news', first, length, fresh⟩ := exec_freshInputs source lengths ({ config } : Arena)
  rw [exec_bind_of_ok first] at run
  obtain ⟨outs', h, second, last⟩ := exec_bind_ok run
  obtain ⟨⟨rfl, rfl⟩, rfl⟩ : (news' = news ∧ outs' = outs) ∧ h = graph := by simpa using last
  exact ⟨g, fresh, length, second⟩

theorem Build.copy_sound {κ : Type} {P : Composite → Prop} (source : Graph κ)
    {inputs : List ValueId} {types : List ScalarType} (lengths : types.length = inputs.length)
    {b : List ValueId → Build (List ValueId)} {config : Config} {count total : Nat}
    (grows : ∀ g news, g.Knows news → (b news).Grows (.body P) g fun outs h => h.Knows outs ∧
      outs.length = count ∧ h.callCount ≤ g.callCount + total)
    {news outs : List ValueId} {graph : Arena}
    (run : (do
      let news ← freshInputs source inputs types
      let outs ← b news
      pure (news, outs) : Build (List ValueId × List ValueId)).runNew config =
        .ok ((news, outs), graph)) :
    Copy.Sound ⟨graph, news, outs⟩ P config types count ∧ graph.callCount ≤ total := by
  obtain ⟨g, fresh, -, rest⟩ := exists_fresh source lengths run
  obtain ⟨growth, known, count_eq, calls⟩ := (grows g news fresh.known).of_ok rest
  refine ⟨count_eq ▸ fresh.sound growth known, ?_⟩
  have start : g.callCount = 0 := fresh.callCount.trans (by simp [Graph.callCount_eq])
  omega

namespace Expression

variable {P : Composite → Prop} {σ : Specialiser}

theorem rebuild_sound {κ : Type} {e : Expression κ} {config : Config}
    {retype : ScalarType → ScalarType}
    {place : NodeId → Op κ → List ValueId → Build (List ValueId)} (cost : NodeId → Op κ → Nat)
    (placed : ∀ g n node, (n, node) ∈ e.nodes → Build.Placed (.body P) g place cost n node.op)
    {copy : Copy} (success : e.rebuild config retype place = .ok copy) :
    copy.Sound P config (e.inputTypes.map retype) e.outputs.length ∧
      copy.graph.callCount ≤ (e.nodes.map fun entry => cost entry.1 entry.2.op).sum := by
  obtain ⟨⟨⟨news, outs⟩, graph⟩, run, final⟩ := bind_eq_ok success
  obtain rfl := Except.ok.inj final
  refine Build.copy_sound e.graph (by simp [inputTypes]) ?_ run
  intro g news known
  exact Build.grows_replay (Policy.body_keepsConstants P) e retype place cost (placed g)
    (Build.copied_bindInputs known)

theorem mem_marked (calls : List NodeId) (n : NodeId) :
    (calls.foldl (fun t n => t.insert n ()) (.empty : Table Unit)).contains n = true ↔
      n ∈ calls := by
  rw [Table.contains_insertAll, Table.contains_empty]
  simp

def dissolvedWeight (calls : List NodeId) (n : NodeId) (op : Op Composite) : Nat :=
  if n ∈ calls then op.weight - 1 else op.weight

theorem dissolve_sound (sound : σ.Sound P) (hereditary : ∀ c, P c → c.graph.Calls P)
    {e : Expression Composite} (good : e.graph.Calls P) {calls : List NodeId} {copy : Copy}
    (success : e.dissolve σ calls = .ok copy) :
    copy.Sound P e.graph.config e.inputTypes e.outputs.length ∧ copy.graph.callCount ≤
      (e.nodes.map fun entry => dissolvedWeight calls entry.1 entry.2.op).sum := by
  have types : e.inputTypes.map id = e.inputTypes := List.map_id _
  rw [← types]
  refine rebuild_sound (dissolvedWeight calls) ?_ success
  intro g n node member h args _ known
  have constants := Policy.body_keepsConstants P
  have allowed := Policy.body_callsGood P
  have here := (mem_nodes.mp member).2
  cases called : node.op with
  | prim q =>
    have same : dissolvedWeight calls n (.prim q) = (Op.prim q : Op Composite).weight := by
      simp [dissolvedWeight, Op.weight]
    rw [same]
    exact Build.grows_placeWith sound allowed (by simp) known
  | call c =>
    have fine : P c := good here called
    -- a dissolved call is replaced by its body, which has one call less than it counts for
    by_cases marked : n ∈ calls
    · simp only [if_pos ((mem_marked calls n).mpr marked)]
      refine (Build.grows_inlineWith constants sound allowed (hereditary c fine) known).weaken ?_
      rintro outs k - ⟨known, -, light⟩
      refine ⟨known, ?_⟩
      simpa [dissolvedWeight, marked, Op.weight] using light
    · simp only [if_neg (fun entry => marked ((mem_marked calls n).mp entry))]
      have same : dissolvedWeight calls n (.call c) = (Op.call c : Op Composite).weight := by
        simp [dissolvedWeight, marked]
      rw [same]
      refine Build.grows_placeWith sound allowed ?_ known
      rintro d ⟨rfl⟩
      exact fine

theorem call_of_dissolvable {e : Expression Composite} {n : NodeId} (member : n ∈ e.dissolvable) :
    ∃ node c, (n, node) ∈ e.nodes ∧ node.op = .call c ∧ c.outputCount = 1 := by
  obtain ⟨⟨m, node⟩, inside, kept⟩ := List.mem_filterMap.mp member
  simp only at kept
  split at kept
  · next c out called _ =>
    split at kept
    · next single =>
      obtain rfl := Option.some.inj kept
      exact ⟨node, c, inside, called, single.1⟩
    · cases kept
  · cases kept

theorem outputCount_of_dissolvable {e : Expression Composite} {n : NodeId} {node : Node Composite}
    {c : Composite} (member : n ∈ e.dissolvable) (inside : (n, node) ∈ e.nodes)
    (called : node.op = .call c) : c.outputCount = 1 := by
  obtain ⟨node', c', inside', called', single⟩ := call_of_dissolvable member
  obtain rfl := Option.some.inj ((mem_nodes.mp inside').2.symm.trans (mem_nodes.mp inside).2)
  rw [called] at called'
  exact Op.call.inj called' ▸ single

theorem dissolvedWeight_le (calls : List NodeId) (n : NodeId) (op : Op Composite) :
    dissolvedWeight calls n op ≤ op.weight := by
  unfold dissolvedWeight
  split <;> omega

theorem sum_dissolvedWeight_lt {e : Expression Composite} (some : e.dissolvable ≠ []) :
    (e.nodes.map fun entry => dissolvedWeight e.dissolvable entry.1 entry.2.op).sum <
      (e.nodes.map fun entry => entry.2.op.weight).sum := by
  obtain ⟨n, member⟩ := List.exists_mem_of_ne_nil _ some
  obtain ⟨node, c, inside, called, -⟩ := call_of_dissolvable member
  refine List.sum_lt_sum _ _ (fun entry _ => dissolvedWeight_le _ _ _) ⟨(n, node), inside, ?_⟩
  simp [dissolvedWeight, member, called, Op.weight]

def weightAt (e : Expression Composite) (n : NodeId) : Nat :=
  ((e.graph.nodes[n]?).map fun node => node.op.weight).getD 0

theorem sum_weight_nodes (e : Expression Composite) :
    (e.nodes.map fun entry => entry.2.op.weight).sum = (e.order.map e.weightAt).sum := by
  unfold nodes
  induction e.order with
  | nil => rfl
  | cons n order ih =>
    rw [List.filterMap_cons, List.map_cons, List.sum_cons, ← ih]
    cases found : e.graph.nodes[n]? <;> simp [weightAt, found]

theorem sum_weight_graph (e : Expression Composite) :
    ((List.range e.graph.nodes.size).map e.weightAt).sum = e.graph.callCount := by
  rw [Graph.callCount_eq]
  congr 1
  apply List.ext_getElem
  · simp
  · intro n inside _
    have inside : n < e.graph.nodes.size := by simpa using inside
    simp [weightAt, inside]

theorem sum_weight_le {e : Expression Composite} (nodup : e.order.Nodup) :
    (e.nodes.map fun entry => entry.2.op.weight).sum ≤ e.graph.callCount := by
  rw [sum_weight_nodes, ← sum_weight_graph, ← List.sum_toFinset e.weightAt nodup,
    ← List.sum_toFinset e.weightAt (List.nodup_range)]
  apply Finset.sum_le_sum_of_ne_zero
  intro n _ heavy
  rw [List.mem_toFinset, List.mem_range]
  by_contra outside
  exact heavy (by simp [weightAt, outside])

end Expression

namespace Copy

variable {P : Composite → Prop} {σ : Specialiser} {config : Config} {types : List ScalarType}
  {count : Nat}

theorem Sound.nodup {copy : Copy} (sound : copy.Sound P config types count)
    {e : Expression Composite} (success : copy.graph.expression copy.inputs copy.outputs = .ok e) :
    e.order.Nodup :=
  ((Graph.walks_of_expression sound.closed.ordered sound.known success).scheduled .nil).nodup

theorem Sound.pass {copy next : Copy} (sound : copy.Sound P config types count)
    (adapts : σ.Sound P) (hereditary : ∀ c, P c → c.graph.Calls P) {e : Expression Composite}
    (success : copy.graph.expression copy.inputs copy.outputs = .ok e) (some : e.dissolvable ≠ [])
    (dissolved : e.dissolve σ e.dissolvable = .ok next) :
    next.Sound P config types count ∧ next.graph.callCount < copy.graph.callCount := by
  obtain ⟨graph, inputs, outputs⟩ := Graph.expression_eq success
  have good : e.graph.Calls P := graph ▸ sound.calls
  obtain ⟨sound', light⟩ := Expression.dissolve_sound adapts hereditary good dissolved
  rw [graph, sound.config, Expression.inputTypes, graph, inputs, sound.inputTypes, outputs,
    sound.outputs] at sound'
  refine ⟨sound', ?_⟩
  calc next.graph.callCount ≤ _ := light
    _ < _ := Expression.sum_dissolvedWeight_lt some
    _ ≤ e.graph.callCount := Expression.sum_weight_le (sound.nodup success)
    _ = copy.graph.callCount := by rw [graph]

/-- With as much fuel as there are calls, passes end where no call can be dissolved. -/
theorem flatten_sound (adapts : σ.Sound P) (hereditary : ∀ c, P c → c.graph.Calls P) (fuel : Nat)
    {copy flat : Copy} (sound : copy.Sound P config types count)
    (enough : copy.graph.callCount ≤ fuel) (success : copy.flatten σ fuel = .ok flat) :
    flat.Sound P config types count ∧ flat.graph.callCount ≤ copy.graph.callCount ∧
      ∀ e, flat.graph.expression flat.inputs flat.outputs = .ok e → e.dissolvable = [] := by
  induction fuel generalizing copy with
  | zero =>
    obtain rfl := Except.ok.inj success
    refine ⟨sound, Nat.le_refl _, ?_⟩
    intro e expression
    by_contra some
    have fewer := Expression.sum_dissolvedWeight_lt some
    have most := Expression.sum_weight_le (sound.nodup expression)
    rw [(Graph.expression_eq expression).1] at most
    omega
  | succ fuel ih =>
    rw [flatten] at success
    obtain ⟨e, expression, rest⟩ := bind_eq_ok success
    simp only at rest
    split at rest
    · next none =>
      obtain rfl := Except.ok.inj rest
      refine ⟨sound, Nat.le_refl _, ?_⟩
      intro e' expression'
      obtain rfl := Except.ok.inj (expression.symm.trans expression')
      simpa using none
    · next some =>
      obtain ⟨next, dissolved, again⟩ := bind_eq_ok rest
      obtain ⟨sound', fewer⟩ := sound.pass adapts hereditary expression (by simpa using some) dissolved
      obtain ⟨flat_sound, less, settled⟩ := ih sound' (by omega) again
      exact ⟨flat_sound, by omega, settled⟩

end Copy

structure Expression.Sourced (e : Expression Composite) : Prop where
  closed : e.graph.Closed e.inputs
  walks : e.graph.Walks e.inputs e.outputs [] e.order

namespace Expression.Sourced

variable {e : Expression Composite}

theorem scheduled (sourced : e.Sourced) : e.graph.Scheduled e.inputs e.order :=
  sourced.walks.scheduled .nil

theorem of_expression {g : Arena} {inputs outputs : List ValueId} (closed : g.Closed inputs)
    (known : g.Knows outputs) (success : g.expression inputs outputs = .ok e) : e.Sourced := by
  obtain ⟨rfl, rfl, rfl⟩ := Graph.expression_eq success
  exact ⟨closed, Graph.walks_of_expression closed.ordered known success⟩

end Expression.Sourced

/-- The body of a composite: closed over its inputs, in the order that its outputs need, with no
    call left that can be dissolved. -/
structure Expression.Tidy (e : Expression Composite) : Prop where
  closed : e.graph.Closed e.inputs
  known : e.graph.Knows e.outputs
  nonempty : e.outputs ≠ []
  order : e.graph.expression e.inputs e.outputs = .ok e
  settled : e.dissolvable = []

theorem Expression.Tidy.sourced {e : Expression Composite} (tidy : e.Tidy) : e.Sourced :=
  .of_expression tidy.closed tidy.known tidy.order

theorem Graph.fuseWith_sound {P : Composite → Prop} {σ : Specialiser} (adapts : σ.Sound P)
    (hereditary : ∀ c, P c → c.graph.Calls P) {g : Arena} (good : g.Calls P)
    {inputs outputs : List ValueId} {c : Composite} (success : g.fuseWith σ inputs outputs = .ok c) :
    c.body.Tidy ∧ c.graph.Calls P ∧ c.config = g.config ∧
      c.inputTypes = inputs.eraseDups.map g.typeOf ∧ c.outputCount = outputs.length ∧
      (g.Ordered → g.Knows outputs → c.callCount ≤ g.callCount) := by
  unfold fuseWith at success
  split at success
  · cases success
  · next nonempty =>
    obtain ⟨e, expression, success⟩ := bind_eq_ok success
    obtain ⟨copy, dissolved, success⟩ := bind_eq_ok success
    obtain ⟨flat, flattened, success⟩ := bind_eq_ok success
    obtain ⟨body, final, success⟩ := bind_eq_ok success
    obtain rfl := Except.ok.inj success
    obtain ⟨rfl, inputs_eq, outputs_eq⟩ := expression_eq expression
    obtain ⟨sound, light⟩ := Expression.dissolve_sound adapts hereditary good dissolved
    obtain ⟨sound', fewer, settled⟩ := Copy.flatten_sound adapts hereditary _ sound (Nat.le_refl _)
      flattened
    obtain ⟨graph, bodyInputs, bodyOutputs⟩ := expression_eq final
    have nodup := sound'.nodup final
    have count : flat.outputs.length = outputs.length := by rw [sound'.outputs, outputs_eq]
    refine ⟨⟨?_, ?_, ?_, ?_, settled body final⟩, ?_, ?_, ?_, ?_, ?_⟩
    · rw [Composite.body, graph, bodyInputs]
      exact sound'.closed
    · rw [Composite.body, graph, bodyOutputs]
      exact sound'.known
    · rw [Composite.body, bodyOutputs]
      intro none
      rw [none, List.length_nil] at count
      exact nonempty (by simpa using count.symm)
    · rw [Composite.body, graph, bodyInputs, bodyOutputs]
      exact final
    · show body.graph.Calls P
      exact graph ▸ sound'.calls
    · exact (congrArg Graph.config graph).trans sound'.config
    · show body.inputs.map body.graph.typeOf = _
      rw [graph, bodyInputs, sound'.inputTypes, Expression.inputTypes, inputs_eq]
    · show body.outputs.length = _
      rw [bodyOutputs, count]
    · intro ordered known
      have order := ((walks_of_expression ordered known expression).scheduled .nil).nodup
      calc (Composite.mk body).callCount = _ := Composite.callCount_eq _
        _ ≤ body.graph.callCount := Expression.sum_weight_le nodup
        _ = flat.graph.callCount := by rw [graph]
        _ ≤ copy.graph.callCount := fewer
        _ ≤ _ := light
        _ ≤ _ := List.sum_le_sum fun entry _ => Expression.dissolvedWeight_le _ _ _
        _ ≤ e.graph.callCount := Expression.sum_weight_le order

end ScalarFusion

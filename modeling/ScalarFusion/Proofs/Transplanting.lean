import ScalarFusion.Proofs.Adjoints
import ScalarFusion.Proofs.Ancestry

/-!
Bodies of doubles put in the place of calls. Each value of the body has one copy, apart from the
arguments everything copied is new, and so what the copies are worth is what the body computes.
-/
namespace ScalarFusion

def Graph.Doubles {κ : Type} (g : Graph κ) : Prop :=
  ∀ (v : ValueId) (x : Value), g.values[v]? = some x → x.type = .float .double

theorem Graph.Doubles.typeOf {κ : Type} {g : Graph κ} (doubles : g.Doubles) {v : Nat}
    (known : v < g.values.size) : g.typeOf v = .float .double := by
  have found : g.values[v]? = some g.values[v] := Array.getElem?_eq_getElem known
  rw [Graph.typeOf, found]
  exact doubles v _ found

theorem Graph.Doubles.map_typeOf {κ : Type} {g : Graph κ} (doubles : g.Doubles) {vs : List ValueId}
    (known : g.Knows vs) : vs.map g.typeOf = List.replicate vs.length (.float .double) := by
  apply List.eq_replicate_iff.mpr
  constructor
  · simp
  · intro type member
    obtain ⟨v, inside, rfl⟩ := List.mem_map.mp member
    exact doubles.typeOf (known v inside)

/-- A node that does arithmetic on doubles, or a call that gets no value twice. -/
def Node.Smooth (config : Config) (node : Node Composite) : Prop :=
  match node.op with
  | .prim p => p.isArithmetic = true ∧ (node.inputs = [] → config.floatX = .double)
  | .call _ => node.inputs.Nodup

theorem Graph.Doubles.outputTypes {g : Arena} (doubles : g.Doubles) (ordered : g.Ordered)
    (typed : g.Typed) {n : NodeId} {node : Node Composite} (here : g.nodes[n]? = some node)
    {config : Config} (smooth : node.Smooth config) :
    node.op.outputTypes (List.replicate node.inputs.length (.float .double)) config =
      .ok (List.replicate node.outputs.length (.float .double)) := by
  cases applied : node.op with
  | call c =>
    have types := typed.types here
    rw [applied, doubles.map_typeOf (ordered.known here),
      doubles.map_typeOf (ordered.knows_outputs here)] at types
    exact types
  | prim p =>
    obtain ⟨o, only, typed'⟩ := typed.primitive here applied
    simp only [Node.Smooth, applied] at smooth
    have one : p.outputType (List.replicate node.inputs.length (.float .double)) config =
        .ok (.float .double) := by
      by_cases some_input : node.inputs = []
      · obtain rfl : p = .mean := Op.prim.inj (applied.symm.trans (typed.nonempty here some_input))
        rw [some_input]
        exact congrArg (fun p => Except.ok (ScalarType.float p)) (smooth.2 some_input)
      · have admitted := Primitive.admits_of_outputType typed'
        have length : node.inputs.length ≠ 0 := by simpa using some_input
        have floats : ∀ t ∈ List.replicate node.inputs.length (ScalarType.float .double),
            ∃ p, t = .float p := fun t member => ⟨.double, List.eq_of_mem_replicate member⟩
        obtain ⟨q, type, double⟩ := Primitive.outputType_floats smooth.1 (by simpa using some_input)
          (by simpa using admitted) floats config
        rw [type, double.mpr (List.mem_replicate.mpr ⟨length, rfl⟩)]
    rw [Op.outputTypes, one, only]
    rfl

structure Expression.Smooth (config : Config) (e : Expression Composite) : Prop where
  doubles : e.graph.Doubles
  nodes : ∀ {n : NodeId} {node : Node Composite}, e.graph.nodes[n]? = some node → node.Smooth config

/-- Where a copy comes from. -/
inductive CopyOf (e : Expression Composite) (args : List ValueId) (start : Arena)
    (done : List NodeId) (t : Table ValueId) (h : Arena) : Nat → Nat → Prop where
  | input {k v w : Nat} (input : e.inputs[k]? = some v) (arg : args[k]? = some w) :
      CopyOf e args start done t h v w
  | constant {v w : Nat} {type : ScalarType} {literal : Literal} {name : Option String}
      (fresh : start.values.size ≤ w)
      (source : e.graph.values[v]? = some ⟨type, .constant literal name⟩)
      (there : h.values[w]? = some ⟨type, .constant (literal.cast type) name⟩) :
      CopyOf e args start done t h v w
  | output {v w k : Nat} {n m : NodeId} {node copy : Node Composite} (fresh : start.values.size ≤ w)
      (member : n ∈ done) (here : e.graph.nodes[n]? = some node) (output : node.outputs[k]? = some v)
      (there : h.nodes[m]? = some copy) (output' : copy.outputs[k]? = some w)
      (op : copy.op = node.op) (inputs : t.Lists node.inputs copy.inputs) :
      CopyOf e args start done t h v w

/-- The nodes of `done` are copied, over the arguments and with what they need. -/
structure Transplanted (e : Expression Composite) (args : List ValueId) (start : Arena)
    (done : List NodeId) (t : Table ValueId) (h : Arena) : Prop where
  covers : t.Covers e done
  injective : ∀ {v v' w : Nat}, t.get? v = some w → t.get? v' = some w → v = v'
  double : ∀ {v w : Nat}, t.get? v = some w → w < h.values.size ∧ h.typeOf w = .float .double
  covered : ∀ w : Nat, start.values.size ≤ w → w < h.values.size → ∃ v, t.get? v = some w
  copy : ∀ {v w : Nat}, t.get? v = some w → CopyOf e args start done t h v w
  nodes : ∀ {m : NodeId} {copy : Node Composite}, h.nodes[m]? = some copy →
    start.nodes[m]? = some copy ∨ ∃ (n : NodeId) (node : Node Composite),
      e.graph.nodes[n]? = some node ∧ copy.op = node.op ∧
      t.Lists node.inputs copy.inputs ∧ ∀ o : Nat, o ∈ copy.outputs → start.values.size ≤ o

theorem CopyOf.mono {e : Expression Composite} {args : List ValueId} {start h h' : Arena}
    {done done' : List NodeId} {t t' : Table ValueId} {v w : Nat}
    (copy : CopyOf e args start done t h v w) (more : ∀ n ∈ done, n ∈ done') (within : t.Within t')
    (grown : h.Extends h') : CopyOf e args start done' t' h' v w := by
  cases copy with
  | input input arg => exact .input input arg
  | constant fresh source there => exact .constant fresh source (grown.value there)
  | output fresh member here output there output' op inputs =>
    exact .output fresh (more _ member) here output (grown.node there) output' op (inputs.mono within)

namespace Transplanted

open Build

variable {e : Expression Composite} {args : List ValueId} {start h : Arena} {done : List NodeId}
  {t : Table ValueId}

theorem of_args (closed : e.graph.Closed e.inputs) (lengths : e.inputs.length = args.length)
    (distinct : args.Nodup)
    (doubles : ∀ a : Nat, a ∈ args → a < start.values.size ∧ start.typeOf a = .float .double) :
    Transplanted e args start [] (bindInputs e.inputs args) start := by
  have lists := (lists_bindInputs closed.distinct lengths).1
  have entry : ∀ {v w : Nat}, (bindInputs e.inputs args).get? v = some w →
      ∃ k : Nat, e.inputs[k]? = some v ∧ args[k]? = some w :=
    Table.insertNew_zip_cases closed.distinct lengths
  constructor
  · exact ⟨fun v member => (lists.mem member).imp fun _ => And.right, by simp⟩
  · exact Build.injective_bindInputs closed.distinct distinct lengths
  · intro v w image
    obtain ⟨k, -, arg⟩ := entry image
    exact doubles w (List.mem_of_getElem? arg)
  · intro w fresh inside
    exact absurd inside (Nat.not_lt.mpr fresh)
  · intro v w image
    obtain ⟨k, at_k, arg⟩ := entry image
    exact .input at_k arg
  · intro m copy there
    exact .inl there

theorem pushConstant (planted : Transplanted e args start done t h) (grown : start.Extends h)
    (doubles : e.graph.Doubles) {v : Nat} {type : ScalarType} {literal : Literal}
    {name : Option String} (unset : t.get? v = none)
    (source : e.graph.values[v]? = some ⟨type, .constant literal name⟩) :
    Transplanted e args start done (t.insert v h.values.size)
      (h.pushValue ⟨type, .constant (literal.cast type) name⟩) := by
  have within := Table.within_insert unset h.values.size
  have grown' := h.extends_pushValue ⟨type, .constant (literal.cast type) name⟩
  constructor
  · exact planted.covers.mono within
  · intro u u' w first second
    rcases Table.insert_cases first with ⟨rfl, rfl⟩ | old <;>
      rcases Table.insert_cases second with ⟨rfl, same⟩ | old'
    · rfl
    · exact absurd (planted.double old').1 (Nat.lt_irrefl _)
    · exact absurd (same ▸ (planted.double old).1) (Nat.lt_irrefl _)
    · exact planted.injective old old'
  · intro u w found
    rcases Table.insert_cases found with ⟨-, rfl⟩ | old
    · have type_eq : type = .float .double := doubles v _ source
      simp [Graph.typeOf, type_eq]
    · obtain ⟨known, double⟩ := planted.double old
      exact ⟨Nat.lt_of_lt_of_le known grown'.size_le, (grown'.typeOf known).trans double⟩
  · intro w fresh inside
    rw [Graph.pushValue_values, Array.size_push] at inside
    rcases Nat.lt_succ_iff_lt_or_eq.mp inside with old | rfl
    · obtain ⟨u, found⟩ := planted.covered w fresh old
      exact ⟨u, within u w found⟩
    · exact ⟨v, by simp⟩
  · intro u w found
    rcases Table.insert_cases found with ⟨rfl, rfl⟩ | old
    · exact .constant grown.size_le source (by simp)
    · exact (planted.copy old).mono (fun _ member => member) within grown'
  · intro m copy there
    rcases planted.nodes there with old | ⟨n, node, here, op, inputs, fresh⟩
    · exact .inl old
    · exact .inr ⟨n, node, here, op, inputs.mono within, fresh⟩

theorem yields_resolve (planted : Transplanted e args start done t h) (grown : start.Extends h)
    (doubles : e.graph.Doubles) (ordered : e.graph.Ordered) {v : Nat}
    (supplied : e.graph.Supplied e.inputs done v) :
    Yields .client h (resolve e.graph id t v) fun r k => Transplanted e args start done r.2 k ∧
      r.2.get? v = some r.1 ∧ t.Within r.2 := by
  rcases exec_resolve_cases ordered planted.covers supplied id h with
    ⟨w, found, run⟩ | ⟨type, literal, name, unset, source, run⟩
  · exact ⟨_, _, run, .refl, planted, found, .refl t⟩
  · refine ⟨_, _, run, .leaf .refl rfl ?_, planted.pushConstant grown doubles unset source, by simp,
      Table.within_insert unset _⟩
    exact Policy.client_keepsConstants _ _ _

theorem yields_resolveAll (planted : Transplanted e args start done t h) (grown : start.Extends h)
    (doubles : e.graph.Doubles) (ordered : e.graph.Ordered) {vs : List ValueId}
    (supplied : ∀ v ∈ vs, e.graph.Supplied e.inputs done v) :
    Yields .client h (resolveAll e.graph id vs t) fun r k => Transplanted e args start done r.2 k ∧
      r.2.Lists vs r.1 ∧ t.Within r.2 := by
  induction vs generalizing t h with
  | nil => exact yields_pure ⟨planted, rfl, .refl t⟩
  | cons v vs ih =>
    refine yields_bind _ (planted.yields_resolve grown doubles ordered (supplied v (by simp))) ?_
    rintro ⟨w, t'⟩ h' growth ⟨planted', image, within⟩
    refine yields_bind _ (ih planted' (grown.trans growth.toExtends)
      fun u member => supplied u (by simp [member])) ?_
    rintro ⟨ws, t''⟩ h'' growth' ⟨planted'', images, within'⟩
    apply yields_pure
    refine ⟨planted'', ?_, within.trans within'⟩
    show (v :: vs).map t''.get? = (w :: ws).map some
    rw [List.map_cons, List.map_cons, within' v w image, images]

theorem output_unset (planted : Transplanted e args start done t h) (closed : e.graph.Closed e.inputs)
    {n : NodeId} {node : Node Composite} (fresh : n ∉ done) (here : e.graph.nodes[n]? = some node)
    {o : Nat} (output : o ∈ node.outputs) : t.get? o = none := by
  obtain ⟨k, at_k⟩ := List.getElem?_of_mem output
  obtain ⟨type, source⟩ := closed.ordered.produced.mpr ⟨node, here, at_k⟩
  cases image : t.get? o with
  | none => rfl
  | some w =>
    cases planted.copy image with
    | input input arg =>
      obtain ⟨type', name, found⟩ := (closed.free o).mpr (List.mem_of_getElem? input)
      simp [source] at found
    | constant _ source' _ => simp [source] at source'
    | output _ member here' output' _ _ _ _ =>
      have same := closed.ordered.producer_unique here here' output (List.mem_of_getElem? output')
      exact absurd (same ▸ member) fresh

theorem pushNode (planted : Transplanted e args start done t h) (grown : start.Extends h)
    (closed : e.graph.Closed e.inputs) {n : NodeId} {node : Node Composite} (fresh : n ∉ done)
    (here : e.graph.nodes[n]? = some node) {ws : List ValueId} (images : t.Lists node.inputs ws)
    {types : List ScalarType} (length : types.length = node.outputs.length)
    (doubles : ∀ type ∈ types, type = .float .double) :
    Transplanted e args start (done ++ [n])
      ((node.outputs.zip (List.range' h.values.size types.length)).foldl
        (fun t (old, new) => t.insert old new) t) (h.pushNode node.op ws types) := by
  have nodup := closed.ordered.nodup_outputs here
  have lengths : node.outputs.length = (List.range' h.values.size types.length).length := by
    simp [length]
  obtain ⟨lists, others⟩ := Table.lists_insert_zip nodup _ lengths t
  have grown' := h.extends_pushNode node.op ws types
  have there : (h.pushNode node.op ws types).nodes[h.nodes.size]? =
      some ⟨node.op, ws, List.range' h.values.size types.length⟩ := by simp
  have within : t.Within ((node.outputs.zip (List.range' h.values.size types.length)).foldl
      (fun t (old, new) => t.insert old new) t) := by
    intro u w image
    rw [others u, image]
    intro output
    rw [planted.output_unset closed fresh here output] at image
    cases image
  have entry : ∀ {u w : Nat}, ((node.outputs.zip (List.range' h.values.size types.length)).foldl
      (fun t (old, new) => t.insert old new) t).get? u = some w →
      (∃ k, node.outputs[k]? = some u ∧ k < types.length ∧ w = h.values.size + k ∧
        (List.range' h.values.size types.length)[k]? = some w) ∨ t.get? u = some w := by
    intro u w found
    rcases Table.insert_zip_cases nodup lengths found with ⟨k, at_k, new⟩ | ⟨-, old⟩
    · have inside : k < types.length := by
        have := (List.getElem?_eq_some_iff.mp at_k).1
        omega
      refine .inl ⟨k, at_k, inside, ?_, new⟩
      rw [List.getElem?_range' inside] at new
      simpa using (Option.some.inj new).symm
    · exact .inr old
  constructor
  · exact planted.covers.set closed.ordered here lengths
  · exact Table.injective_insert_zip nodup List.nodup_range' lengths planted.injective
      fun old => by simp [Nat.not_le.mpr (planted.double old).1]
  · intro u w image
    rcases entry image with ⟨k, -, inside, rfl, -⟩ | old
    · refine ⟨by rw [Graph.pushNode_size]; omega, ?_⟩
      rw [Graph.typeOf, Graph.pushNode_value_at, if_neg (by omega), Nat.add_sub_cancel_left,
        List.getElem?_eq_getElem inside]
      exact doubles _ (List.getElem_mem inside)
    · obtain ⟨known, double⟩ := planted.double old
      exact ⟨Nat.lt_of_lt_of_le known grown'.size_le, (grown'.typeOf known).trans double⟩
  · intro w fresh_w inside
    rw [Graph.pushNode_size] at inside
    by_cases old : w < h.values.size
    · obtain ⟨u, image⟩ := planted.covered w fresh_w old
      exact ⟨u, within u w image⟩
    · have new : w ∈ List.range' h.values.size types.length :=
        List.mem_range'_1.mpr ⟨by omega, by omega⟩
      obtain ⟨u, -, image⟩ := lists.mem_right new
      exact ⟨u, image⟩
  · intro u w image
    rcases entry image with ⟨k, at_k, inside, rfl, new⟩ | old
    · refine .output ?_ (by simp) here at_k there new rfl (images.mono within)
      have := grown.size_le
      omega
    · exact (planted.copy old).mono (fun m member => by simp [member]) within grown'
  · intro m copy found
    rw [Graph.pushNode_nodes, Array.getElem?_push] at found
    split at found
    · obtain rfl := Option.some.inj found
      refine .inr ⟨n, node, here, rfl, images.mono within, ?_⟩
      intro o output
      exact Nat.le_trans grown.size_le (List.mem_range'_1.mp output).1
    · rcases planted.nodes found with old | ⟨n', node', here', op, inputs, fresh'⟩
      · exact .inl old
      · exact .inr ⟨n', node', here', op, inputs.mono within, fresh'⟩

theorem yields_replayNode (planted : Transplanted e args start done t h) (grown : start.Extends h)
    (closed : e.graph.Closed e.inputs) (smooth : e.Smooth h.config)
    (good : e.graph.Calls Composite.WellBuilt) {n : NodeId} {node : Node Composite} (fresh : n ∉ done)
    (here : e.graph.nodes[n]? = some node)
    (operands : ∀ v ∈ node.inputs, e.graph.Supplied e.inputs done v) :
    Yields .client h (replayNode e id (fun _ op => placeWith Composite.specialise op) t (n, node))
      fun t' k => Transplanted e args start (done ++ [n]) t' k := by
  refine yields_bind _ (planted.yields_resolveAll grown smooth.doubles closed.ordered operands) ?_
  rintro ⟨ws, t₁⟩ h₁ growth₁ ⟨planted₁, images, -⟩
  have known : h₁.Knows ws := by
    intro w member
    obtain ⟨v, -, image⟩ := images.mem_right member
    exact (planted₁.double image).1
  have types : ws.map h₁.typeOf = List.replicate node.inputs.length (.float .double) := by
    apply List.eq_replicate_iff.mpr
    constructor
    · rw [List.length_map, images.length]
    · intro type member
      obtain ⟨w, inside, rfl⟩ := List.mem_map.mp member
      obtain ⟨v, -, image⟩ := images.mem_right inside
      exact (planted₁.double image).2
  have typed : node.op.outputTypes (ws.map h₁.typeOf) h₁.config =
      .ok (List.replicate node.outputs.length (.float .double)) := by
    rw [types, growth₁.toExtends.config]
    exact smooth.doubles.outputTypes closed.ordered closed.typed here (smooth.nodes here)
  have nonempty : ws = [] → node.op = .prim .mean := by
    intro none
    rw [none] at images
    exact closed.typed.nonempty here (List.length_eq_zero_iff.mp images.length)
  have bound : ∀ c, node.op = .call c → ws.map h₁.typeOf = c.inputTypes := by
    intro c called
    rw [types, ← smooth.doubles.map_typeOf (closed.ordered.known here), closed.bound here called]
  refine yields_bind (fun outs k => outs = List.range' h₁.values.size
      (List.replicate node.outputs.length (ScalarType.float .double)).length ∧
      k = h₁.pushNode node.op ws (List.replicate node.outputs.length (.float .double)))
    ⟨_, _, exec_placeWith nonempty bound typed, ?_, rfl, rfl⟩ ?_
  · exact .node .refl known nonempty typed fun c called => good here called
  · rintro outs k growth₂ ⟨rfl, rfl⟩
    apply yields_pure
    exact planted₁.pushNode (grown.trans growth₁.toExtends) closed fresh here images (by simp)
      fun type member => List.eq_of_mem_replicate member

theorem yields_replayNodes (planted : Transplanted e args start [] t h) (grown : start.Extends h)
    (closed : e.graph.Closed e.inputs) (smooth : e.Smooth h.config)
    (good : e.graph.Calls Composite.WellBuilt) {order : List NodeId}
    (scheduled : e.graph.Scheduled e.inputs order) :
    Yields .client h ((order.filterMap fun n => (e.graph.nodes[n]?).map fun node => (n, node)).foldlM
      (replayNode e id fun _ op => placeWith Composite.specialise op) t)
      fun t' k => Transplanted e args start order t' k := by
  induction scheduled with
  | nil => exact yields_pure planted
  | @snoc done n node _ fresh here operands ih =>
    have one : ([n].filterMap fun n => (e.graph.nodes[n]?).map fun node => (n, node)) =
        [(n, node)] := by
      simp [here]
    rw [List.filterMap_append, List.foldlM_append, one]
    refine yields_bind _ ih ?_
    intro t' k growth planted'
    refine yields_bind _ (planted'.yields_replayNode (grown.trans growth.toExtends) closed
      (growth.toExtends.config ▸ smooth) good fresh here operands) ?_
    intro t'' k' _ planted''
    exact yields_pure planted''

theorem value_eq {A : Type} [CommRing A] [Inv A] [Algebra ℚ A]
    (planted : Transplanted e args start done t h) (closed : e.graph.Closed e.inputs)
    {V : ValueId → A} (models : h.Models V) {v w : Nat} (image : t.get? v = some w) :
    V w = e.graph.meaning (fun u => ((args.map V)[e.inputs.idxOf u]?).getD 0) v := by
  have body := Graph.models_meaning closed.ordered
    fun u => ((args.map V)[e.inputs.idxOf u]?).getD 0
  induction v using Nat.strongRecOn generalizing w with
  | ind v ih =>
    cases planted.copy image with
    | @input k _ _ input arg =>
      obtain ⟨type, name, found⟩ := (closed.free v).mpr (List.mem_of_getElem? input)
      obtain ⟨inside, rfl⟩ := List.getElem?_eq_some_iff.mp input
      rw [Graph.meaning_free _ found, closed.distinct.idxOf_getElem k inside]
      simp [arg]
    | constant _ source there =>
      rw [models.constants there, body.constants source, closed.constants source]
    | output _ _ here output there output' op inputs =>
      rw [models.nodes there output', body.nodes here output, op]
      congr 1
      apply inputs.map_eq_of_mem
      intro u member x entry
      exact ih u (closed.ordered.before here u v member (List.mem_of_getElem? output)) entry

end Transplanted

namespace Build

variable {g : Arena}

/-- Putting a body in the place of a call: it succeeds, and the copies of the outputs are worth what
    the call would be. -/
theorem yields_inline {c : Composite} (good : c.WellBuilt) (smooth : c.body.Smooth g.config)
    {args : List ValueId} (doubles : ∀ a : Nat, a ∈ args → a < g.values.size ∧ g.typeOf a = .float .double)
    (distinct : args.Nodup) (arity : args.length = c.inputCount) :
    Yields .client g (inline c args) fun outs k => ∃ t, Transplanted c.body args g c.body.order t k ∧
      t.Lists c.body.outputs outs := by
  have sourced := good.body.sourced
  have lengths : c.body.inputs.length = args.length := arity.symm
  have start : Transplanted c.body args g [] (bindInputs c.body.inputs args) g :=
    .of_args sourced.closed lengths distinct doubles
  have same : inline c args = replay c.body id
      (fun _ op => placeWith Composite.specialise op) (bindInputs c.body.inputs args) := by
    rw [inline, inlineWith, Composite.checkArity_eq, if_pos arity]
    rfl
  rw [same, replay_eq]
  refine yields_bind _ (start.yields_replayNodes (.refl g) sourced.closed smooth good.callees
    sourced.scheduled) ?_
  intro t k growth planted
  refine yields_bind _ (planted.yields_resolveAll growth.toExtends smooth.doubles
    sourced.closed.ordered sourced.walks.supplied) ?_
  rintro ⟨outs, t'⟩ k' _ ⟨planted', images, -⟩
  exact yields_pure ⟨t', planted', images⟩

end Build

theorem Transplanted.outputs_eq {A : Type} [CommRing A] [Inv A] [Algebra ℚ A] {c : Composite}
    (good : c.WellBuilt) {args outs : List ValueId} {start h : Arena} {done : List NodeId}
    {t : Table ValueId} (planted : Transplanted c.body args start done t h)
    (images : t.Lists c.body.outputs outs) {V : ValueId → A} (models : h.Models V) :
    outs.map V = c.interpret (args.map V) := by
  rw [Composite.interpret_eq]
  exact images.map_eq fun image => planted.value_eq good.body.sourced.closed models image

end ScalarFusion

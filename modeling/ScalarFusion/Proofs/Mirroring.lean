import ScalarFusion.Proofs.Consuming
import ScalarFusion.Proofs.Specialising
import ScalarFusion.Proofs.Tables

/-!
Replaying node by node. Where every node is placed as one node, the copy mirrors the expression:
values and nodes correspond one to one, types and operations as a rule says, and the nodes of the
copy are walked in the order in which they were made.
-/
namespace ScalarFusion

inductive MirrorsValue (done : List NodeId) : Value → Value → Prop where
  | free {type type' : ScalarType} {name name' : Option String} :
      MirrorsValue done ⟨type, .free name⟩ ⟨type', .free name'⟩
  | constant {type type' : ScalarType} {literal : Literal} {name : Option String} :
      MirrorsValue done ⟨type, .constant literal name⟩
        ⟨type', .constant (literal.cast type') name⟩
  | output {type type' : ScalarType} {n : NodeId} {j k : Nat} (place : done[j]? = some n) :
      MirrorsValue done ⟨type, .output n k⟩ ⟨type', .output j k⟩

theorem MirrorsValue.literal_eq {done : List NodeId} {x y : Value}
    (mirrors : MirrorsValue done x y) :
    y.literal? = x.literal?.map fun literal => literal.cast y.type := by
  cases mirrors <;> rfl

theorem MirrorsValue.later {done : List NodeId} {x y : Value} (mirrors : MirrorsValue done x y)
    (more : List NodeId) : MirrorsValue (done ++ more) x y := by
  cases mirrors with
  | free => exact .free
  | constant => exact .constant
  | output place =>
    have inside := (List.getElem?_eq_some_iff.mp place).1
    exact .output (by rw [List.getElem?_append_left inside, place])

/-- The arena mirrors the nodes of `done` and what they need: `t` gives the images of values, of
    types that `T` allows, and the image of the `j`-th node is node `j`, which applies what `O`
    allows. -/
structure Mirrored (e : Expression Composite) (T : ValueId → ScalarType → Prop)
    (O : NodeId → Op Composite → Prop) (done : List NodeId) (t : Table ValueId) (h : Arena) :
    Prop where
  injective : ∀ {v v' w : Nat}, t.get? v = some w → t.get? v' = some w → v = v'
  covered : ∀ w : Nat, w < h.values.size → ∃ v, t.get? v = some w
  value : ∀ {v w : Nat}, t.get? v = some w → ∃ x y, e.graph.values[v]? = some x ∧
    h.values[w]? = some y ∧ MirrorsValue done x y ∧ T v y.type
  covers : t.Covers e done
  size : h.nodes.size = done.length
  node : ∀ {j n : Nat}, done[j]? = some n → ∃ node op args outs, e.graph.nodes[n]? = some node ∧
    h.nodes[j]? = some ⟨op, args, outs⟩ ∧ O n op ∧ t.Lists node.inputs args ∧
    t.Lists node.outputs outs

def Expression.Converts {κ : Type} (e : Expression κ) (τ : ScalarType → ScalarType)
    (T : ValueId → ScalarType → Prop) : Prop :=
  ∀ ⦃v : ValueId⦄ ⦃type : ScalarType⦄ ⦃literal : Literal⦄ ⦃name : Option String⦄, v ∈ e.values →
    e.graph.values[v]? = some ⟨type, .constant literal name⟩ → T v (τ type)

namespace Mirrored

variable {e : Expression Composite} {T : ValueId → ScalarType → Prop}
  {O : NodeId → Op Composite → Prop} {done : List NodeId} {t : Table ValueId} {h : Arena}
  {τ : ScalarType → ScalarType}

theorem known (mirrored : Mirrored e T O done t h) {v w : Nat} (image : t.get? v = some w) :
    w < h.values.size := by
  obtain ⟨x, y, -, found, -⟩ := mirrored.value image
  exact (Array.getElem?_eq_some_iff.mp found).1

theorem typeOf_image (mirrored : Mirrored e T O done t h) {v w : Nat} (image : t.get? v = some w) :
    T v (h.typeOf w) := by
  obtain ⟨x, y, -, found, -, typed⟩ := mirrored.value image
  simpa only [Graph.typeOf, found] using typed

theorem types_images (mirrored : Mirrored e T O done t h) {vs ws : List Nat}
    (images : t.Lists vs ws) : List.Forall₂ T vs (ws.map h.typeOf) := by
  rw [List.forall₂_map_right_iff]
  exact images.forall₂.imp fun _ _ => mirrored.typeOf_image

theorem pushConstant (mirrored : Mirrored e T O done t h) {v : Nat} {type type' : ScalarType}
    {literal : Literal} {name : Option String} (unset : t.get? v = none)
    (source : e.graph.values[v]? = some ⟨type, .constant literal name⟩) (typed : T v type') :
    Mirrored e T O done (t.insert v h.values.size)
      (h.pushValue ⟨type', .constant (literal.cast type') name⟩) := by
  have within := Table.within_insert unset h.values.size
  have grown := h.extends_pushValue ⟨type', .constant (literal.cast type') name⟩
  refine ⟨?_, ?_, ?_, mirrored.covers.mono within, mirrored.size, ?_⟩
  · intro u u' w first second
    rcases Table.insert_cases first with ⟨rfl, rfl⟩ | old <;>
      rcases Table.insert_cases second with ⟨rfl, same⟩ | old'
    · rfl
    · exact absurd (mirrored.known old') (Nat.lt_irrefl _)
    · exact absurd (same ▸ mirrored.known old) (Nat.lt_irrefl _)
    · exact mirrored.injective old old'
  · intro w inside
    rw [Graph.pushValue_values, Array.size_push] at inside
    rcases Nat.lt_succ_iff_lt_or_eq.mp inside with old | rfl
    · obtain ⟨u, found⟩ := mirrored.covered w old
      exact ⟨u, within u w found⟩
    · exact ⟨v, by simp⟩
  · intro u w found
    rcases Table.insert_cases found with ⟨rfl, rfl⟩ | old
    · exact ⟨_, _, source, by simp, .constant, typed⟩
    · obtain ⟨x, y, here, there, mirrors⟩ := mirrored.value old
      exact ⟨x, y, here, grown.value there, mirrors⟩
  · intro j n place
    obtain ⟨node, op, args, outs, here, there, applied, inputs, outputs⟩ := mirrored.node place
    exact ⟨node, op, args, outs, here, there, applied, inputs.mono within, outputs.mono within⟩

theorem exec_resolve (mirrored : Mirrored e T O done t h) (ordered : e.graph.Ordered)
    (constants : e.Converts τ T) {v : Nat} (inside : v ∈ e.values)
    (supplied : e.graph.Supplied e.inputs done v) :
    ∃ w t' h', (Build.resolve e.graph τ t v).exec h = (.ok (w, t'), h') ∧ Mirrored e T O done t' h' ∧
      t'.get? v = some w ∧ t.Within t' ∧ h'.config = h.config := by
  rcases Build.exec_resolve_cases ordered mirrored.covers supplied τ h with
    ⟨w, found, run⟩ | ⟨type, literal, name, unset, source, run⟩
  · exact ⟨w, t, h, run, mirrored, found, .refl t, rfl⟩
  · exact ⟨_, _, _, run, mirrored.pushConstant unset source (constants inside source), by simp,
      Table.within_insert unset _, rfl⟩

theorem exec_resolveAll (mirrored : Mirrored e T O done t h) (ordered : e.graph.Ordered)
    (constants : e.Converts τ T) {vs : List ValueId} (inside : ∀ v ∈ vs, v ∈ e.values)
    (supplied : ∀ v ∈ vs, e.graph.Supplied e.inputs done v) :
    ∃ ws t' h', (Build.resolveAll e.graph τ vs t).exec h = (.ok (ws, t'), h') ∧
      Mirrored e T O done t' h' ∧ t'.Lists vs ws ∧ t.Within t' ∧ h'.config = h.config := by
  induction vs generalizing t h with
  | nil => exact ⟨[], t, h, rfl, mirrored, rfl, .refl t, rfl⟩
  | cons v vs ih =>
    obtain ⟨w, t', h', first, mirrored', image, within, config⟩ :=
      mirrored.exec_resolve ordered constants (inside v (by simp)) (supplied v (by simp))
    obtain ⟨ws, t'', h'', rest, mirrored'', images, within', config'⟩ :=
      ih mirrored' (fun u member => inside u (by simp [member]))
        fun u member => supplied u (by simp [member])
    refine ⟨w :: ws, t'', h'', ?_, mirrored'', ?_, within.trans within', config'.trans config⟩
    · rw [Build.resolveAll, Build.exec_bind_of_ok first, Build.exec_bind_of_ok rest]
      rfl
    · unfold Table.Lists at images ⊢
      rw [List.map_cons, List.map_cons, images, within' v w image]

theorem source_output (ordered : e.graph.Ordered) {n : NodeId} {node : Node Composite}
    (here : e.graph.nodes[n]? = some node) {k o : Nat} (output : node.outputs[k]? = some o) :
    e.graph.values[o]? = some ⟨e.graph.typeOf o, .output n k⟩ := by
  obtain ⟨type, found⟩ := ordered.produced.mpr ⟨node, here, output⟩
  rw [found]
  simp [Graph.typeOf, found]

theorem output_unset (mirrored : Mirrored e T O done t h) (ordered : e.graph.Ordered) {n : NodeId}
    {node : Node Composite} (fresh : n ∉ done) (here : e.graph.nodes[n]? = some node) {o : Nat}
    (output : o ∈ node.outputs) : t.get? o = none := by
  obtain ⟨k, at_k⟩ := List.getElem?_of_mem output
  cases image : t.get? o with
  | none => rfl
  | some w =>
    obtain ⟨x, y, found, -, mirrors, -⟩ := mirrored.value image
    rw [source_output ordered here at_k] at found
    obtain rfl := Option.some.inj found
    cases mirrors with
    | output place => exact absurd (List.mem_of_getElem? place) fresh

def setOutputs (t : Table ValueId) (outputs : List ValueId) (first : Nat) : Table ValueId :=
  (outputs.zip (List.range' first outputs.length)).foldl (fun t (old, new) => t.insert old new) t

theorem within_setOutputs (mirrored : Mirrored e T O done t h) (ordered : e.graph.Ordered)
    {n : NodeId} {node : Node Composite} (fresh : n ∉ done)
    (here : e.graph.nodes[n]? = some node) (first : Nat) :
    t.Within (setOutputs t node.outputs first) := by
  intro u w image
  obtain ⟨-, others⟩ := Table.lists_insert_zip (ordered.nodup_outputs here)
    (List.range' first node.outputs.length) (by simp) t
  rw [setOutputs, others u, image]
  intro output
  rw [mirrored.output_unset ordered fresh here output] at image
  cases image

theorem setOutputs_cases (ordered : e.graph.Ordered) {n : NodeId} {node : Node Composite}
    (here : e.graph.nodes[n]? = some node) {first u w : Nat}
    (image : (setOutputs t node.outputs first).get? u = some w) :
    (∃ k, node.outputs[k]? = some u ∧ w = first + k) ∨ t.get? u = some w := by
  rcases Table.insert_zip_cases (ordered.nodup_outputs here) (by simp) image with
    ⟨k, at_k, new⟩ | ⟨-, old⟩
  · have inside := (List.getElem?_eq_some_iff.mp at_k).1
    rw [List.getElem?_range' inside] at new
    exact .inl ⟨k, at_k, by simpa using (Option.some.inj new).symm⟩
  · exact .inr old

theorem pushNode (mirrored : Mirrored e T O done t h) (ordered : e.graph.Ordered) {n : NodeId}
    {node : Node Composite} (fresh : n ∉ done) (here : e.graph.nodes[n]? = some node)
    {op : Op Composite} (applied : O n op) {args : List ValueId} (images : t.Lists node.inputs args)
    {types : List ScalarType} (typed : List.Forall₂ T node.outputs types) :
    Mirrored e T O (done ++ [n]) (setOutputs t node.outputs h.values.size)
      (h.pushNode op args types) := by
  have length : types.length = node.outputs.length := typed.length_eq.symm
  have lists : (setOutputs t node.outputs h.values.size).Lists node.outputs
      (List.range' h.values.size node.outputs.length) :=
    (Table.lists_insert_zip (ordered.nodup_outputs here) _ (by simp) t).1
  have grown := h.extends_pushNode op args types
  have within := mirrored.within_setOutputs ordered fresh here h.values.size
  -- new entries and old ones go to values apart, at or beyond the end of the arena and before it
  have entry : ∀ {u w : Nat}, (setOutputs t node.outputs h.values.size).get? u = some w → _ :=
    setOutputs_cases ordered here
  refine ⟨?_, ?_, ?_, mirrored.covers.set ordered here (by simp), ?_, ?_⟩
  · exact Table.injective_insert_zip (ordered.nodup_outputs here) List.nodup_range' (by simp)
      mirrored.injective fun old => by simp [Nat.not_le.mpr (mirrored.known old)]
  · intro w inside
    rw [Graph.pushNode_size, length] at inside
    by_cases old : w < h.values.size
    · obtain ⟨u, image⟩ := mirrored.covered w old
      exact ⟨u, within u w image⟩
    · have new : w - h.values.size < node.outputs.length := by omega
      have at_k := List.getElem?_eq_getElem new
      obtain ⟨w', here', image⟩ := lists.at at_k
      rw [List.getElem?_range' new] at here'
      refine ⟨_, image.trans ?_⟩
      rw [← here', Nat.one_mul, Nat.add_sub_of_le (Nat.le_of_not_lt old)]
  · intro u w image
    rcases entry image with ⟨k, at_k, rfl⟩ | old
    · obtain ⟨type, at_k', allowed⟩ := exists_image_at typed at_k
      refine ⟨_, ⟨type, .output done.length k⟩, source_output ordered here at_k, ?_,
        .output (j := done.length) (by simp), allowed⟩
      rw [Graph.pushNode_value_at, if_neg (by omega), Nat.add_sub_cancel_left]
      simp [at_k', mirrored.size]
    · obtain ⟨x, y, found, there, mirrors, allowed⟩ := mirrored.value old
      exact ⟨x, y, found, grown.value there, mirrors.later [n], allowed⟩
  · simp [mirrored.size]
  · intro j m place
    by_cases last : j < done.length
    · rw [List.getElem?_append_left last] at place
      obtain ⟨node', op', args', outs, here', there, applied', inputs, outputs⟩ := mirrored.node place
      exact ⟨node', op', args', outs, here', grown.node there, applied', inputs.mono within,
        outputs.mono within⟩
    · have inside := (List.getElem?_eq_some_iff.mp place).1
      rw [List.length_append, List.length_singleton] at inside
      obtain rfl : j = done.length := by omega
      obtain rfl : n = m := by simpa using place
      refine ⟨node, op, args, _, here, ?_, applied, images.mono within, lists⟩
      rw [Graph.pushNode_nodes, Array.getElem?_push, if_pos mirrored.size.symm, length]

end Mirrored

/-- Every node is placed as one node, of an operation and with outputs of types that are allowed;
    or `fails` holds, and placing it fails. -/
def PlacesAs (e : Expression Composite) (T : ValueId → ScalarType → Prop)
    (O : NodeId → Op Composite → Prop) (config : Config) (fails : Prop)
    (place : NodeId → Op Composite → List ValueId → Build (List ValueId)) : Prop :=
  ∀ ⦃n : NodeId⦄ ⦃node : Node Composite⦄, n ∈ e.order → e.graph.nodes[n]? = some node →
    ∀ (h : Arena) (args : List ValueId), h.config = config →
      List.Forall₂ T node.inputs (args.map h.typeOf) →
      (fails ∧ ∃ error h', (place n node.op args).exec h = (.error error, h')) ∨
      ∃ op types, O n op ∧ List.Forall₂ T node.outputs types ∧ (place n node.op args).exec h =
        (.ok (List.range' h.values.size node.outputs.length), h.pushNode op args types)

namespace Mirrored

variable {e : Expression Composite} {T : ValueId → ScalarType → Prop}
  {O : NodeId → Op Composite → Prop} {done : List NodeId} {t : Table ValueId} {h : Arena}
  {τ : ScalarType → ScalarType} {config : Config} {fails : Prop}
  {place : NodeId → Op Composite → List ValueId → Build (List ValueId)}

theorem exec_replayNode (mirrored : Mirrored e T O done t h) (ordered : e.graph.Ordered)
    (constants : e.Converts τ T) (places : PlacesAs e T O config fails place)
    (configured : h.config = config) {n : NodeId} {node : Node Composite} (member : n ∈ e.order)
    (fresh : n ∉ done) (here : e.graph.nodes[n]? = some node)
    (operands : ∀ v ∈ node.inputs, e.graph.Supplied e.inputs done v) :
    (fails ∧ ∃ error h', (Build.replayNode e τ place t (n, node)).exec h = (.error error, h')) ∨
    ∃ t' h', (Build.replayNode e τ place t (n, node)).exec h = (.ok t', h') ∧
      Mirrored e T O (done ++ [n]) t' h' ∧ t.Within t' ∧ h'.config = config := by
  obtain ⟨args, t', h', resolved, mirrored', images, within, same⟩ :=
    mirrored.exec_resolveAll ordered constants (fun v operand => Expression.mem_values.mpr
      (.inr (.inl ⟨(n, node), Expression.mem_nodes.mpr ⟨member, here⟩, .inl operand⟩))) operands
  have configured' : h'.config = config := same.trans configured
  rcases places member here h' args configured' (mirrored'.types_images images) with
    ⟨may, error, h'', failed⟩ | ⟨op, types, applied, typed, placed⟩
  · refine .inl ⟨may, error, h'', ?_⟩
    rw [Build.replayNode, Build.exec_bind_of_ok resolved, Build.exec_bind, failed]
  · refine .inr ⟨_, _, ?_, mirrored'.pushNode ordered fresh here applied images typed,
      within.trans (mirrored'.within_setOutputs ordered fresh here _), configured'⟩
    rw [Build.replayNode, Build.exec_bind_of_ok resolved, Build.exec_bind_of_ok placed]
    rfl

theorem exec_replayNodes (start : Mirrored e T O [] t h) (ordered : e.graph.Ordered)
    (constants : e.Converts τ T) (places : PlacesAs e T O config fails place)
    (configured : h.config = config) {order : List NodeId}
    (scheduled : e.graph.Scheduled e.inputs order) (within : ∀ n ∈ order, n ∈ e.order) :
    (fails ∧ ∃ error h', ((order.filterMap fun n => (e.graph.nodes[n]?).map fun node =>
      (n, node)).foldlM (Build.replayNode e τ place) t).exec h = (.error error, h')) ∨
    ∃ t' h', ((order.filterMap fun n => (e.graph.nodes[n]?).map fun node => (n, node)).foldlM
      (Build.replayNode e τ place) t).exec h = (.ok t', h') ∧ Mirrored e T O order t' h' ∧
      t.Within t' ∧ h'.config = config := by
  induction scheduled with
  | nil => exact .inr ⟨t, h, rfl, start, .refl t, configured⟩
  | @snoc done n node _ fresh here operands ih =>
    rw [List.filterMap_append, List.foldlM_append]
    simp only [List.filterMap_cons, here, Option.map_some, List.filterMap_nil, List.foldlM_cons,
      List.foldlM_nil, bind_pure]
    rcases ih fun m member => within m (by simp [member]) with
      ⟨may, error, h', failed⟩ | ⟨t', h', run, mirrored, kept, configured'⟩
    · exact .inl ⟨may, error, h', by rw [Build.exec_bind, failed]⟩
    · rw [Build.exec_bind_of_ok run]
      refine (mirrored.exec_replayNode ordered constants places configured' (within n (by simp))
        fresh here operands).imp_right ?_
      rintro ⟨t'', h'', last, mirrored', kept', configured''⟩
      exact ⟨t'', h'', last, mirrored', kept.trans kept', configured''⟩

theorem ofFresh {news : List ValueId} {types : List ScalarType} (sourced : e.Sourced)
    (typed : List.Forall₂ T e.inputs types) (fresh : Fresh { config } h news types) :
    Mirrored e T O [] (Build.bindInputs e.inputs news) h ∧
      (Build.bindInputs e.inputs news).Lists e.inputs news := by
  have length : e.inputs.length = news.length := by
    rw [typed.length_eq, ← fresh.types, List.length_map]
  have lists := (Build.lists_bindInputs sourced.closed.distinct length).1
  have entry : ∀ {v w : Nat}, (Build.bindInputs e.inputs news).get? v = some w →
      ∃ k : Nat, e.inputs[k]? = some v ∧ news[k]? = some w :=
    Table.insertNew_zip_cases sourced.closed.distinct length
  have range : news = List.range' 0 news.length := by
    conv => lhs; rw [fresh.range]
    congr 1
    have := congrArg List.length fresh.types
    simpa using this.symm
  have size : h.values.size = news.length := by
    have := congrArg List.length fresh.types
    rw [fresh.size]
    simpa using this.symm
  refine ⟨⟨?_, ?_, ?_, ⟨?_, by simp⟩, ?_, by simp⟩, lists⟩
  · exact Build.injective_bindInputs sourced.closed.distinct (range ▸ List.nodup_range') length
  · intro w inside
    have inside' : w < e.inputs.length := by omega
    obtain ⟨w', new, image⟩ := lists.at (List.getElem?_eq_getElem inside')
    refine ⟨_, image.trans ?_⟩
    rw [range, List.getElem?_range' (by omega)] at new
    rw [← Option.some.inj new]
    simp
  · intro v w image
    obtain ⟨k, at_k, new⟩ := entry image
    obtain ⟨type, name, source⟩ := (sourced.closed.free v).mpr (List.mem_of_getElem? at_k)
    have closed : h.Closed news := fresh.closed [] (Graph.closed_empty config)
    obtain ⟨type', name', found⟩ := (closed.free w).mpr (List.mem_of_getElem? new)
    obtain ⟨type'', at_k', allowed⟩ := exists_image_at typed at_k
    have types := congrArg (·[k]?) fresh.types
    simp only [List.getElem?_map, new, at_k', Option.map_some, Graph.typeOf, found,
      Option.some.injEq] at types
    subst types
    exact ⟨_, _, source, found, .free, allowed⟩
  · intro v member
    obtain ⟨w, -, image⟩ := lists.mem member
    exact ⟨w, image⟩
  · rw [fresh.nodes]
    rfl

/-- Replaying an expression over fresh inputs mirrors it. -/
theorem exec_replay (sourced : e.Sourced) (constants : e.Converts τ T)
    (places : PlacesAs e T O config fails place) {news : List ValueId} {types : List ScalarType}
    (typed : List.Forall₂ T e.inputs types) (fresh : Fresh { config } h news types) :
    (fails ∧ ∃ error h', (Build.replay e τ place (Build.bindInputs e.inputs news)).exec h =
      (.error error, h')) ∨
    ∃ outs t h', (Build.replay e τ place (Build.bindInputs e.inputs news)).exec h = (.ok outs, h') ∧
      Mirrored e T O e.order t h' ∧ t.Lists e.inputs news ∧ t.Lists e.outputs outs ∧
      h'.config = config := by
  obtain ⟨start, inputs⟩ := ofFresh (O := O) sourced typed fresh
  have nodes := start.exec_replayNodes sourced.closed.ordered constants places
    fresh.grown.config sourced.scheduled fun _ member => member
  rw [Build.replay_eq, Build.exec_bind, Expression.nodes]
  rcases nodes with ⟨may, error, h', failed⟩ | ⟨t, h', run, mirrored, kept, configured⟩
  · exact .inl ⟨may, error, h', by rw [failed]⟩
  · obtain ⟨outs, t', h'', resolved, mirrored', outputs, kept', same⟩ :=
      mirrored.exec_resolveAll sourced.closed.ordered constants
        (fun v output => Expression.mem_values.mpr (.inr (.inr output))) sourced.walks.supplied
    refine .inr ⟨outs, t', h'', ?_, mirrored', inputs.mono (kept.trans kept'), outputs,
      same.trans configured⟩
    rw [run]
    show Build.exec (_ >>= _) h' = _
    rw [Build.exec_bind_of_ok resolved]
    rfl

end Mirrored

def Expression.Retypes {κ : Type} (e : Expression κ) (τ : ScalarType → ScalarType) (v : ValueId)
    (type : ScalarType) : Prop :=
  type = τ (e.graph.typeOf v)

namespace Expression

theorem retypes_iff {κ : Type} {e : Expression κ} {τ : ScalarType → ScalarType} {vs : List ValueId}
    {types : List ScalarType} :
    List.Forall₂ (e.Retypes τ) vs types ↔ types = vs.map fun v => τ (e.graph.typeOf v) := by
  rw [← List.forall₂_eq_eq_eq, List.forall₂_map_right_iff]
  exact ⟨.flip, .flip⟩

theorem converts_retypes {κ : Type} (e : Expression κ) (τ : ScalarType → ScalarType) :
    e.Converts τ (e.Retypes τ) := by
  intro v type literal name _ source
  simp [Retypes, Graph.typeOf, source]

variable {e : Expression Composite} {T : ValueId → ScalarType → Prop}
  {O : NodeId → Op Composite → Prop} {τ : ScalarType → ScalarType} {config : Config}
  {place : NodeId → Op Composite → List ValueId → Build (List ValueId)}

theorem exists_mirrored_rebuild (sourced : e.Sourced) (constants : e.Converts τ T)
    (typed : List.Forall₂ T e.inputs (e.inputTypes.map τ))
    (places : PlacesAs e T O config False place) :
    ∃ copy t, e.rebuild config τ place = .ok copy ∧ Mirrored e T O e.order t copy.graph ∧
      t.Lists e.inputs copy.inputs ∧ t.Lists e.outputs copy.outputs := by
  have lengths : (e.inputTypes.map τ).length = e.inputs.length := by simp [inputTypes]
  obtain ⟨h, news, fresh_run, -, fresh⟩ := Build.exec_freshInputs e.graph lengths { config }
  obtain ⟨⟨⟩, -⟩ | ⟨outs, t, h', run, mirrored, inputs, outputs, -⟩ :=
    Mirrored.exec_replay sourced constants places typed fresh
  exact ⟨⟨h', news, outs⟩, t, rebuild_eq_ok fresh_run run, mirrored, inputs, outputs⟩

theorem exists_rebuild (sourced : e.Sourced) (places : PlacesAs e (e.Retypes τ) O config False place) :
    ∃ copy t, e.rebuild config τ place = .ok copy ∧
      Mirrored e (e.Retypes τ) O e.order t copy.graph ∧
      t.Lists e.inputs copy.inputs ∧ t.Lists e.outputs copy.outputs := by
  refine exists_mirrored_rebuild sourced (e.converts_retypes τ) ?_ places
  exact retypes_iff.mpr (by rw [inputTypes, List.map_map]; rfl)

end Expression

namespace Mirrored

variable {e : Expression Composite} {T : ValueId → ScalarType → Prop}
  {O : NodeId → Op Composite → Prop} {order done done' : List NodeId} {t : Table ValueId}
  {h : Arena} {ins : List ValueId}

theorem imp (mirrored : Mirrored e T O order t h) {O' : NodeId → Op Composite → Prop}
    (implies : ∀ n op, O n op → O' n op) : Mirrored e T O' order t h :=
  { mirrored with
    node := by
      intro j n place
      obtain ⟨node, op, args, outs, here, there, applied, lists⟩ := mirrored.node place
      exact ⟨node, op, args, outs, here, there, implies n op applied, lists⟩ }

theorem mem_images (mirrored : Mirrored e T O order t h) {vs ws : List ValueId}
    (lists : t.Lists vs ws) {v w : Nat} (image : t.get? v = some w) : w ∈ ws ↔ v ∈ vs := by
  constructor
  · intro member
    obtain ⟨v', inside, image'⟩ := lists.mem_right member
    exact mirrored.injective image image' ▸ inside
  · intro member
    obtain ⟨w', inside, image'⟩ := lists.mem member
    obtain rfl := Option.some.inj (image.symm.trans image')
    exact inside

theorem output_image (mirrored : Mirrored e T O order t h) {v w : Nat} (image : t.get? v = some w)
    {type : ScalarType} {n : NodeId} {k : Nat}
    (source : e.graph.values[v]? = some ⟨type, .output n k⟩) :
    ∃ (j : Nat) (type' : ScalarType), order[j]? = some n ∧
      h.values[w]? = some ⟨type', .output j k⟩ := by
  obtain ⟨x, y, found, there, mirrors, -⟩ := mirrored.value image
  obtain rfl := Option.some.inj (source.symm.trans found)
  cases mirrors with
  | output place => exact ⟨_, _, place, there⟩

theorem supplied_image (mirrored : Mirrored e T O order t h) (nodup : order.Nodup)
    (inputs : t.Lists e.inputs ins) (before : done <+: order) {v w : Nat}
    (image : t.get? v = some w) (supplied : e.graph.Supplied e.inputs done v) :
    h.Supplied ins (List.range done.length) w := by
  cases supplied with
  | input member =>
    obtain ⟨w', inside, image'⟩ := inputs.mem member
    obtain rfl := Option.some.inj (image.symm.trans image')
    exact .input inside
  | constant source =>
    obtain ⟨x, y, found, there, mirrors, -⟩ := mirrored.value image
    obtain rfl := Option.some.inj (source.symm.trans found)
    cases mirrors with
    | constant => exact .constant there
  | output source member =>
    obtain ⟨j, type', place, there⟩ := mirrored.output_image image source
    obtain ⟨i, place'⟩ := List.getElem?_of_mem member
    have inside := (List.getElem?_eq_some_iff.mp place').1
    obtain ⟨later, rfl⟩ := before
    rw [← List.getElem?_append_left inside] at place'
    obtain rfl := (List.getElem?_inj (List.getElem?_eq_some_iff.mp place').1 nodup).mp
      (place'.trans place.symm)
    exact .output there (List.mem_range.mpr inside)

/-- The copy is walked as the expression is, and leaves its nodes in the order of their ids. -/
theorem walks (mirrored : Mirrored e T O order t h) (nodup : order.Nodup)
    (inputs : t.Lists e.inputs ins) {vs ws : List ValueId}
    (walk : e.graph.Walks e.inputs vs done done') (before : done' <+: order)
    (images : t.Lists vs ws) :
    h.Walks ins ws (List.range done.length) (List.range done'.length) := by
  induction walk generalizing ws with
  | nil =>
    obtain rfl := List.length_eq_zero_iff.mp images.length.symm
    exact .nil
  | @skip v vs done done' supplied rest ih =>
    cases ws with
    | nil => cases images.length
    | cons w ws =>
      obtain ⟨image, images⟩ := List.cons.inj images
      obtain ⟨new, rfl⟩ := rest.grows
      exact .skip (mirrored.supplied_image nodup inputs ((List.prefix_append _ _).trans before) image
        supplied) (ih before images)
  | @enter v vs done inner done' type n k node beyond source fresh here operands unmet rest
      ihOperands ihRest =>
    cases ws with
    | nil => cases images.length
    | cons w ws =>
      obtain ⟨image, images⟩ := List.cons.inj images
      obtain ⟨later, rfl⟩ := rest.grows
      obtain ⟨first, rfl⟩ := operands.grows
      have prior : done ++ first <+: order := by
        refine List.IsPrefix.trans ?_ before
        rw [List.append_assoc]
        exact List.prefix_append _ _
      obtain ⟨j, type', place, there⟩ := mirrored.output_image image source
      -- the walk enters `n` when all before it in the order have
      -- been left, so its image is the next node
      have place' : order[(done ++ first).length]? = some n := by
        obtain ⟨after, rfl⟩ := before
        rw [List.append_assoc, List.append_assoc (done ++ first),
          List.getElem?_append_right (Nat.le_refl _)]
        simp
      obtain rfl := (List.getElem?_inj (List.getElem?_eq_some_iff.mp place').1 nodup).mp
        (place'.trans place.symm)
      obtain ⟨node', op, args, outs, here', there', -, argsImages, -⟩ := mirrored.node place'
      obtain rfl := Option.some.inj (here.symm.trans here')
      refine .enter ?_ there ?_ there' (ihOperands prior argsImages) (by simp) ?_
      · exact fun member => beyond ((mirrored.mem_images inputs image).mp member)
      · simp
      · have later' := ihRest before images
        rwa [List.length_append, List.length_singleton, List.range_succ] at later'

end Mirrored

/-- An expression and its mirror image. -/
structure Expression.Mirrors (e e' : Expression Composite) (T : ValueId → ScalarType → Prop)
    (O : NodeId → Op Composite → Prop) (t : Table ValueId) : Prop where
  mirrored : Mirrored e T O e.order t e'.graph
  inputs : t.Lists e.inputs e'.inputs
  outputs : t.Lists e.outputs e'.outputs
  order : e'.order = List.range e.order.length

namespace Expression.Mirrors

variable {e e' : Expression Composite} {T : ValueId → ScalarType → Prop}
  {O : NodeId → Op Composite → Prop} {t : Table ValueId} {τ : ScalarType → ScalarType}

theorem nodes_before (mirrors : e.Mirrors e' T O t) (part : List NodeId) (before : part <+: e.order) :
    List.Forall₂ (fun entry entry' => O entry.1 entry'.2.op ∧
      t.Lists entry.2.inputs entry'.2.inputs ∧ t.Lists entry.2.outputs entry'.2.outputs)
      (part.filterMap fun n => (e.graph.nodes[n]?).map fun node => (n, node))
      ((List.range part.length).filterMap fun n =>
        (e'.graph.nodes[n]?).map fun node => (n, node)) := by
  induction part using List.reverseRecOn with
  | nil => exact .nil
  | append_singleton part n ih =>
    obtain ⟨later, whole⟩ := before
    have place : e.order[part.length]? = some n := by
      rw [← whole, List.append_assoc, List.getElem?_append_right (Nat.le_refl _)]
      simp
    obtain ⟨node, op, args, outs, here, there, applied, inputs, outputs⟩ :=
      mirrors.mirrored.node place
    rw [List.length_append, List.length_singleton, List.range_succ, List.filterMap_append,
      List.filterMap_append]
    refine List.rel_append (ih ⟨[n] ++ later, by rw [← whole, List.append_assoc]⟩) ?_
    simp only [List.filterMap_cons, here, there, Option.map_some, List.filterMap_nil]
    exact .cons ⟨applied, inputs, outputs⟩ .nil

theorem nodes (mirrors : e.Mirrors e' T O t) :
    List.Forall₂ (fun entry entry' => O entry.1 entry'.2.op ∧
      t.Lists entry.2.inputs entry'.2.inputs ∧ t.Lists entry.2.outputs entry'.2.outputs)
      e.nodes e'.nodes := by
  unfold Expression.nodes
  rw [mirrors.order]
  exact mirrors.nodes_before e.order (List.prefix_refl _)

theorem imp (mirrors : e.Mirrors e' T O t) {O' : NodeId → Op Composite → Prop}
    (implies : ∀ n op, O n op → O' n op) : e.Mirrors e' T O' t where
  mirrored := mirrors.mirrored.imp implies
  inputs := mirrors.inputs
  outputs := mirrors.outputs
  order := mirrors.order

theorem inputTypes (mirrors : e.Mirrors e' (e.Retypes τ) O t) :
    e'.inputTypes = e.inputTypes.map τ := by
  rw [Expression.inputTypes, retypes_iff.mp (mirrors.mirrored.types_images mirrors.inputs),
    Expression.inputTypes, List.map_map]
  rfl

theorem outputTypes (mirrors : e.Mirrors e' (e.Retypes τ) O t) :
    e'.outputTypes = e.outputTypes.map τ := by
  rw [Expression.outputTypes, retypes_iff.mp (mirrors.mirrored.types_images mirrors.outputs),
    Expression.outputTypes, List.map_map]
  rfl

theorem value_type (mirrors : e.Mirrors e' (e.Retypes τ) O t) {y : Value}
    (member : y ∈ e'.graph.values) : ∃ x ∈ e.graph.values, y.type = τ x.type := by
  obtain ⟨w, inside, rfl⟩ := Array.mem_iff_getElem.mp member
  obtain ⟨v, image⟩ := mirrors.mirrored.covered w inside
  obtain ⟨x, y, source, found, -, typed⟩ := mirrors.mirrored.value image
  rw [Array.getElem?_eq_getElem inside] at found
  refine ⟨x, Array.mem_of_getElem? source, ?_⟩
  rw [Option.some.inj found, typed, Graph.typeOf, source]

theorem length_users (mirrors : e.Mirrors e' T O t) {v w : Nat} (image : t.get? v = some w) :
    (e'.users w).length = (e.users v).length := by
  rw [users_eq, users_eq, List.length_map, List.length_map]
  have related := mirrors.nodes
  generalize e.nodes = entries at related
  generalize e'.nodes = entries' at related
  induction related with
  | nil => rfl
  | @cons entry entry' _ _ here _ ih =>
    have same : entry'.2.inputs.contains w = entry.2.inputs.contains v := by
      rw [Bool.eq_iff_iff, List.contains_iff_mem, List.contains_iff_mem]
      exact mirrors.mirrored.mem_images here.2.1 image
    rw [List.filter_cons, List.filter_cons, same]
    split
    · rw [List.length_cons, List.length_cons, ih]
    · exact ih

theorem exists_image (mirrors : e.Mirrors e' T O t) {v : ValueId} (member : v ∈ e.values) :
    ∃ w ∈ e'.values, t.get? v = some w := by
  rcases mem_values.mp member with input | ⟨entry, inside, used⟩ | output
  · obtain ⟨w, inside, image⟩ := mirrors.inputs.mem input
    exact ⟨w, mem_values.mpr (.inl inside), image⟩
  · obtain ⟨entry', inside', -, inputs, outputs⟩ := exists_image_of_mem mirrors.nodes inside
    rcases used with operand | output
    · obtain ⟨w, used', image⟩ := inputs.mem operand
      exact ⟨w, mem_values.mpr (.inr (.inl ⟨entry', inside', .inl used'⟩)), image⟩
    · obtain ⟨w, used', image⟩ := outputs.mem output
      exact ⟨w, mem_values.mpr (.inr (.inl ⟨entry', inside', .inr used'⟩)), image⟩
  · obtain ⟨w, inside, image⟩ := mirrors.outputs.mem output
    exact ⟨w, mem_values.mpr (.inr (.inr inside)), image⟩

theorem settled (mirrors : e.Mirrors e' T O t) (nodup : e.order.Nodup)
    (counts : ∀ entry ∈ e.nodes, ∀ d, O entry.1 (.call d) →
      ∃ c, entry.2.op = .call c ∧ d.outputCount = c.outputCount)
    (settled : e.dissolvable = []) : e'.dissolvable = [] := by
  rw [List.eq_nil_iff_forall_not_mem] at settled ⊢
  intro j member
  have nodup' : e'.order.Nodup := by
    rw [mirrors.order]
    exact List.nodup_range
  obtain ⟨node', d, out', inside', called', output', single', use'⟩ :=
    (mem_dissolvable nodup').mp member
  obtain ⟨⟨n, node⟩, inside, op, -, outputs⟩ := exists_image_of_mem mirrors.nodes.flip inside'
  obtain ⟨c, called, count⟩ := counts _ inside d (called' ▸ op)
  simp only [output'] at outputs
  obtain ⟨out, only⟩ := List.length_eq_one_iff.mp outputs.length
  rw [only] at outputs
  have image : t.get? out = some out' := (List.cons.inj outputs).1
  refine settled n ((mem_dissolvable nodup).mpr ⟨node, c, out, inside, called, only, ?_, ?_⟩)
  · rw [← count, single']
  · unfold SingleUse at use' ⊢
    rwa [mirrors.length_users image, mirrors.mirrored.mem_images mirrors.outputs image,
      ← mirrors.outputs.length] at use'

end Expression.Mirrors

theorem Expression.exists_mirrors {e : Expression Composite} (sourced : e.Sourced)
    {T : ValueId → ScalarType → Prop} {O : NodeId → Op Composite → Prop} {t : Table ValueId}
    {copy : Copy} (mirrored : Mirrored e T O e.order t copy.graph) (inputs : t.Lists e.inputs copy.inputs)
    (outputs : t.Lists e.outputs copy.outputs) (closed : copy.graph.Closed copy.inputs)
    (known : copy.graph.Knows copy.outputs) :
    ∃ e', copy.graph.expression copy.inputs copy.outputs = .ok e' ∧ e.Mirrors e' T O t := by
  obtain ⟨e', success⟩ := Graph.exists_expression
    (fun v type name found => (closed.free v).mp ⟨type, name, found⟩) copy.outputs
  refine ⟨e', success, ?_⟩
  have walked := Graph.walks_of_expression closed.ordered known success
  have order := mirrored.walks sourced.scheduled.nodup inputs sourced.walks (List.prefix_refl _)
    outputs
  obtain ⟨graph, inputs', outputs'⟩ := Graph.expression_eq success
  refine ⟨?_, ?_, ?_, walked.unique order⟩
  · rwa [graph]
  · rwa [inputs']
  · rwa [outputs']

namespace Expression

def opAt (e : Expression Composite) (n : NodeId) : Op Composite :=
  ((e.graph.nodes[n]?).map Node.op).getD (.prim .identity)

theorem opAt_eq {e : Expression Composite} {n : NodeId} {node : Node Composite}
    (here : e.graph.nodes[n]? = some node) : e.opAt n = node.op := by
  simp [opAt, here]

variable {e : Expression Composite} {σ : Specialiser}

theorem placesAs_placeWith (sourced : e.Sourced) :
    PlacesAs e (e.Retypes id) (fun n op => op = e.opAt n) e.graph.config False
      fun _ op => Build.placeWith σ op := by
  intro n node member here h args configured types
  have types : args.map h.typeOf = node.inputs.map e.graph.typeOf := retypes_iff.mp types
  refine .inr ⟨node.op, node.outputs.map e.graph.typeOf, (opAt_eq here).symm,
    retypes_iff.mpr rfl, ?_⟩
  rw [← List.length_map e.graph.typeOf]
  apply Build.exec_placeWith
  · rintro rfl
    exact sourced.closed.typed.nonempty here (List.map_eq_nil_iff.mp types.symm)
  · intro c called
    rw [types]
    exact sourced.closed.bound here called
  · rw [types, configured]
    exact sourced.closed.typed.types here

theorem exists_undissolved (sourced : e.Sourced) :
    ∃ copy t, e.dissolve σ [] = .ok copy ∧
      Mirrored e (e.Retypes id) (fun n op => op = e.opAt n) e.order t copy.graph ∧
      t.Lists e.inputs copy.inputs ∧ t.Lists e.outputs copy.outputs := by
  refine exists_rebuild sourced ?_
  intro n node member here h args
  have placed := placesAs_placeWith (σ := σ) sourced member here h args
  cases op : node.op with
  | prim p => rwa [op] at placed
  | call c =>
    rw [op] at placed
    simpa using placed

end Expression

theorem Graph.exists_fuse_flat {g : Arena} {inputs outputs : List ValueId} {e : Expression Composite}
    (closed : g.Closed inputs) (calls : g.Calls Composite.WellBuilt) (known : g.Knows outputs)
    (nonempty : outputs ≠ []) (success : g.expression inputs outputs = .ok e)
    (settled : e.dissolvable = []) :
    ∃ copy e' t, e.dissolve Composite.specialise [] = .ok copy ∧
      copy.graph.expression copy.inputs copy.outputs = .ok e' ∧
      g.fuse inputs outputs = .ok (.mk e') ∧
      e.Mirrors e' (e.Retypes id) (fun n op => op = e.opAt n) t := by
  have sourced : e.Sourced := .of_expression closed known success
  obtain ⟨rfl, rfl, rfl⟩ := expression_eq success
  obtain ⟨copy, t, dissolved, mirrored, inputs, outputs⟩ :=
    Expression.exists_undissolved (σ := Composite.specialise) sourced
  obtain ⟨sound, -⟩ := Expression.dissolve_sound Composite.specialise_sound
    Composite.wellBuilt_hereditary calls dissolved
  obtain ⟨e', walked, mirrors⟩ := Expression.exists_mirrors sourced mirrored inputs outputs
    sound.closed sound.known
  refine ⟨copy, e', t, dissolved, walked, ?_, mirrors⟩
  have settled' : e'.dissolvable = [] := by
    refine mirrors.settled sourced.scheduled.nodup (fun entry member d called => ⟨d, ?_, rfl⟩) settled
    rw [called, Expression.opAt_eq (Expression.mem_nodes.mp member).2]
  have flat : ∀ fuel, copy.flatten Composite.specialise fuel = .ok copy := by
    intro fuel
    cases fuel with
    | zero => rfl
    | succ fuel => simp [Copy.flatten, walked, settled']
  rw [fuse, fuseWith, eraseDups_of_nodup closed.distinct, success]
  simp [nonempty, settled, dissolved, flat, walked]

theorem Composite.WellBuilt.exists_fuse_mirrored {c : Composite} (good : c.WellBuilt)
    {T : ValueId → ScalarType → Prop} {O : NodeId → Op Composite → Prop} {t : Table ValueId}
    {copy : Copy} {config : Config} {types : List ScalarType} {count : Nat}
    (sound : copy.Sound WellBuilt config types count)
    (mirrored : Mirrored c.body T O c.body.order t copy.graph)
    (inputs : t.Lists c.body.inputs copy.inputs) (outputs : t.Lists c.body.outputs copy.outputs)
    (counts : ∀ entry ∈ c.body.nodes, ∀ d, O entry.1 (.call d) →
      ∃ c', entry.2.op = .call c' ∧ d.outputCount = c'.outputCount) :
    ∃ e e' t', copy.graph.expression copy.inputs copy.outputs = .ok e ∧ c.body.Mirrors e T O t ∧
      copy.graph.fuse copy.inputs copy.outputs = .ok (.mk e') ∧
      e.Mirrors e' (e.Retypes id) (fun n op => op = e.opAt n) t' := by
  have sourced := good.body.sourced
  obtain ⟨e, walked, first⟩ := Expression.exists_mirrors sourced mirrored inputs outputs sound.closed
    sound.known
  have nonempty : copy.outputs ≠ [] := by
    have some := good.body.nonempty
    rw [ne_eq, ← List.length_eq_zero_iff] at some ⊢
    rwa [← outputs.length]
  obtain ⟨_, e', t', -, -, fused, second⟩ := Graph.exists_fuse_flat sound.closed sound.calls sound.known
    nonempty walked (first.settled sourced.scheduled.nodup counts good.body.settled)
  exact ⟨e, e', t', walked, first, fused, second⟩

end ScalarFusion

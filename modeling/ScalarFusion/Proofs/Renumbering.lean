import ScalarFusion.Proofs.Reaching
import ScalarFusion.Proofs.Retyping
import ScalarFusion.Proofs.Terms
import ScalarFusion.Proofs.Verdicts

/-!
What is written of an expression does not depend on ids. An expression and its mirror image at the
same types have the same terms, the same values in the order in which they are seen and the same C
statements. So a composite that is inlined and fused again is written as it was.
-/
namespace ScalarFusion

def Composite.writing (c : Composite) : List Term × String × Emitter :=
  (c.terms, c.key, c.emit)

def Op.WrittenAs (op' op : Op Composite) : Prop :=
  op'.map Composite.writing = op.map Composite.writing

namespace Op.WrittenAs

variable {op op' : Op Composite}

theorem map_eq {α : Type} (alike : op'.WrittenAs op) (f : List Term × String × Emitter → α) :
    op'.map (fun c => f c.writing) = op.map fun c => f c.writing := by
  have opened : ∀ op : Op Composite, op.map (fun c => f c.writing) =
      (op.map Composite.writing).map f := by
    intro op
    cases op <;> rfl
  rw [opened, opened]
  exact congrArg (Op.map f) alike

theorem term_eq (alike : op'.WrittenAs op) (args : List Term) (index : Nat) (type : ScalarType) :
    op'.term Composite.terms args index type = op.term Composite.terms args index type := by
  have opened : ∀ op : Op Composite, op.term Composite.terms args index type =
      (op.map Composite.terms).term id args index type := by
    intro op
    cases op <;> rfl
  rw [opened, opened]
  exact congrArg (Op.term id · args index type) (alike.map_eq Prod.fst)

theorem key_eq (alike : op'.WrittenAs op) :
    op'.callee?.map Composite.key = op.callee?.map Composite.key := by
  have opened : ∀ op : Op Composite, op.callee?.map Composite.key =
      (op.map Composite.key).callee? := by
    intro op
    cases op <;> rfl
  rw [opened, opened]
  exact congrArg Op.callee? (alike.map_eq fun writing => writing.2.1)

theorem emit_eq (alike : op'.WrittenAs op) : op'.map Composite.emit = op.map Composite.emit :=
  alike.map_eq fun writing => writing.2.2

theorem outputCount_eq {d : Composite} (alike : (call d).WrittenAs op) :
    ∃ c, op = .call c ∧ d.outputCount = c.outputCount := by
  have terms := alike.map_eq Prod.fst
  cases op with
  | prim p => cases terms
  | call c =>
    have same : d.terms = c.terms := Op.call.inj terms
    have lengths := d.length_terms
    rw [same, c.length_terms] at lengths
    exact ⟨c, rfl, by simpa [Composite.outputTypes, Expression.outputTypes, Composite.outputCount,
      Composite.outputs] using lengths.symm⟩

end Op.WrittenAs

/-- An expression and its mirror image of the same types, whose operations are written alike. -/
abbrev Expression.Renumbers (e e' : Expression Composite) (t : Table ValueId) : Prop :=
  e.Mirrors e' (e.Retypes id) (fun n op => op.WrittenAs (e.opAt n)) t

namespace Expression.Renumbers

variable {e e' : Expression Composite} {t : Table ValueId}

theorem typeOf_image (renumbers : e.Renumbers e' t) {v w : Nat} (image : t.get? v = some w) :
    e'.graph.typeOf w = e.graph.typeOf v :=
  renumbers.mirrored.typeOf_image image

theorem image_eq_iff (renumbers : e.Renumbers e' t) {u u' v w : Nat} (first : t.get? u = some u')
    (second : t.get? v = some w) : u' = w ↔ u = v := by
  constructor
  · rintro rfl
    exact renumbers.mirrored.injective first second
  · rintro rfl
    exact Option.some.inj (first.symm.trans second)

theorem of_mirrors (mirrors : e.Mirrors e' (e.Retypes id) (fun n op => op = e.opAt n) t) :
    e.Renumbers e' t :=
  mirrors.imp fun n op same => by rw [same]; rfl

theorem nodes_alike (renumbers : e.Renumbers e' t) :
    List.Forall₂ (fun entry entry' => entry'.2.op.WrittenAs entry.2.op ∧
      t.Lists entry.2.inputs entry'.2.inputs ∧ t.Lists entry.2.outputs entry'.2.outputs)
      e.nodes e'.nodes := by
  have related := renumbers.nodes
  rw [List.forall₂_iff_zip] at related ⊢
  refine ⟨related.1, fun {entry entry'} pair => ?_⟩
  obtain ⟨op, lists⟩ := related.2 pair
  have here := (mem_nodes.mp (List.of_mem_zip pair).1).2
  rw [opAt_eq here] at op
  exact ⟨op, lists⟩

theorem keys_eq (renumbers : e.Renumbers e' t) :
    e'.callees.map Composite.key = e.callees.map Composite.key := by
  have related := renumbers.nodes_alike
  unfold callees
  rw [List.map_filterMap, List.map_filterMap]
  generalize e.nodes = entries at related
  generalize e'.nodes = entries' at related
  induction related with
  | nil => rfl
  | cons here _ ih => simp only [List.filterMap_cons, here.1.key_eq, ih]

theorem idxOf_image (renumbers : e.Renumbers e' t) {vs ws : List ValueId} (lists : t.Lists vs ws)
    {v w : Nat} (image : t.get? v = some w) : ws.idxOf w = vs.idxOf v := by
  have related := lists.forall₂
  clear lists
  induction related with
  | nil => rfl
  | @cons u u' vs ws here _ ih =>
    by_cases same : u = v
    · subst same
      obtain rfl := Option.some.inj (here.symm.trans image)
      rw [List.idxOf_cons_self, List.idxOf_cons_self]
    · have other : u' ≠ w := by
        rintro rfl
        exact same (renumbers.mirrored.injective here image)
      rw [List.idxOf_cons_ne _ other, List.idxOf_cons_ne _ same, ih]

theorem term_image (renumbers : e.Renumbers e' t) (sourced : e.Sourced) (sourced' : e'.Sourced)
    {v w : Nat} (image : t.get? v = some w) :
    e'.term Composite.terms w = e.term Composite.terms v := by
  have closed := sourced.closed
  induction v using Nat.strong_induction_on generalizing w with
  | _ v ih =>
    have type := renumbers.typeOf_image image
    have inputs := renumbers.mirrored.mem_images renumbers.inputs image
    by_cases input : v ∈ e.inputs
    · rw [term_input input, term_input (inputs.mpr input), type,
        renumbers.idxOf_image renumbers.inputs image]
    · have beyond : w ∉ e'.inputs := fun member => input (inputs.mp member)
      obtain ⟨x, y, source, there, mirrors, typed⟩ := renumbers.mirrored.value image
      simp only [Retypes, Graph.typeOf, source, id] at typed
      cases mirrors with
      | free => exact absurd (closed.inputs_of_free _ _ _ source) input
      | constant =>
        simp only at typed
        subst typed
        rw [term_constant beyond there, term_constant input source, closed.constants source]
      | @output _ _ n j k place =>
        simp only at typed
        subst typed
        obtain ⟨node, op, args, outs, here, here', alike, operands, -⟩ :=
          renumbers.mirrored.node place
        rw [opAt_eq here] at alike
        obtain ⟨node', here'', output⟩ := closed.ordered.produced.mp ⟨_, source⟩
        obtain rfl := Option.some.inj (here.symm.trans here'')
        have terms : args.map (e'.term Composite.terms) =
            node.inputs.map (e.term Composite.terms) := by
          refine operands.map_eq_of_mem fun u member u' image' => ?_
          exact ih u (closed.ordered.before here u v member (List.mem_of_getElem? output)) image'
        rw [term_output sourced'.closed.ordered beyond there here',
          term_output closed.ordered input source here, terms, alike.term_eq]

theorem signature_eq (renumbers : e.Renumbers e' t) (sourced : e.Sourced) (sourced' : e'.Sourced)
    (spelled : e.graph.Calls Composite.Spelled) (spelled' : e'.graph.Calls Composite.Spelled) :
    (e'.map Composite.signature).signature = (e.map Composite.signature).signature := by
  rw [signature_map sourced spelled, signature_map sourced' spelled']
  congr 1
  exact renumbers.outputs.map_eq fun image => by rw [renumbers.term_image sourced sourced' image]

end Expression.Renumbers

section Values

variable {e e' : Expression Composite} {t : Table ValueId}

structure SeenAlike (t : Table ValueId) (seen seen' : Table Unit × Array ValueId) : Prop where
  contains : ∀ {v w : Nat}, t.get? v = some w → seen'.1.contains w = seen.1.contains v
  lists : t.Lists seen.2.toList seen'.2.toList

theorem SeenAlike.see {seen seen' : Table Unit × Array ValueId} (alike : SeenAlike t seen seen')
    (renumbers : e.Renumbers e' t) {v w : Nat} (image : t.get? v = some w) :
    SeenAlike t (Expression.see seen v) (Expression.see seen' w) := by
  unfold Expression.see
  rw [alike.contains image]
  split
  · exact alike
  · constructor
    · intro u u' image'
      rw [Bool.eq_iff_iff, Table.contains_insert, Table.contains_insert,
        renumbers.image_eq_iff image image', alike.contains image']
    · have lists := alike.lists
      unfold Table.Lists at lists ⊢
      rw [Array.toList_push, Array.toList_push, List.map_append, List.map_append, lists]
      simp [image]

theorem SeenAlike.foldl {seen seen' : Table Unit × Array ValueId} (alike : SeenAlike t seen seen')
    (renumbers : e.Renumbers e' t) {vs ws : List ValueId} (lists : t.Lists vs ws) :
    SeenAlike t (vs.foldl Expression.see seen) (ws.foldl Expression.see seen') := by
  have related := lists.forall₂
  clear lists
  induction related generalizing seen seen' with
  | nil => exact alike
  | cons here _ ih => exact ih (alike.see renumbers here)

theorem SeenAlike.nodes {seen seen' : Table Unit × Array ValueId} (alike : SeenAlike t seen seen')
    (renumbers : e.Renumbers e' t) {entries entries' : List (NodeId × Node Composite)}
    (related : List.Forall₂ (fun entry entry' => entry'.2.op.WrittenAs entry.2.op ∧
      t.Lists entry.2.inputs entry'.2.inputs ∧ t.Lists entry.2.outputs entry'.2.outputs)
      entries entries') :
    SeenAlike t
      (entries.foldl (fun seen entry =>
        entry.2.outputs.foldl Expression.see (entry.2.inputs.foldl Expression.see seen)) seen)
      (entries'.foldl (fun seen entry =>
        entry.2.outputs.foldl Expression.see (entry.2.inputs.foldl Expression.see seen)) seen') := by
  induction related generalizing seen seen' with
  | nil => exact alike
  | cons here _ ih => exact ih ((alike.foldl renumbers here.2.1).foldl renumbers here.2.2)

theorem Expression.Renumbers.values (renumbers : e.Renumbers e' t) :
    t.Lists e.values e'.values := by
  have start : SeenAlike t (.empty, #[]) (.empty, #[]) :=
    ⟨fun _ => by simp [Table.contains], rfl⟩
  have first := start.foldl renumbers renumbers.inputs
  exact ((first.nodes renumbers renumbers.nodes_alike).foldl renumbers renumbers.outputs).lists

theorem Expression.values_map {κ ι : Type} (f : κ → ι) (e : Expression κ) :
    (e.map f).values = e.values := by
  unfold values
  rw [nodes_map]
  simp only [List.foldl_map]
  rfl

theorem Composite.key_eq (c : Composite) : c.key =
    c.signature ++ "|" ++ typeList c.inputTypes ++ "->" ++ typeList c.outputTypes ++ "|" ++
      typeList (c.body.values.map c.graph.typeOf) ++
      (if (c.body.callees.map key).isEmpty then ""
        else "|[" ++ String.intercalate ";" (c.body.callees.map key) ++ "]") := by
  have nested : (c.body.map fun d => (d, d.key)).callees.map Prod.snd = c.body.callees.map key := by
    rw [Expression.callees_map, List.map_map]
    rfl
  have typeOf : (c.body.map fun d => (d, d.key)).graph.typeOf = c.graph.typeOf := rfl
  rw [key, fold_eq, ← key]
  simp only [nested, Expression.values_map, typeOf, Expression.map_map, signature_eq c]
  rfl

end Values

section Emission

/-- Two runs that fail with one cause, or give results that are related. -/
inductive Matching {α β : Type} (R : α → β → Prop) : Except Error α → Except Error β → Prop where
  | error (err : Error) : Matching R (.error err) (.error err)
  | ok {a : α} {b : β} (related : R a b) : Matching R (.ok a) (.ok b)

theorem Matching.bind {α β γ δ : Type} {R : α → β → Prop} {S : γ → δ → Prop} {x : Except Error α}
    {y : Except Error β} {f : α → Except Error γ} {g : β → Except Error δ} (first : Matching R x y)
    (next : ∀ a b, R a b → Matching S (f a) (g b)) : Matching S (x >>= f) (y >>= g) := by
  cases first with
  | error err => exact .error err
  | ok related => exact next _ _ related

theorem Matching.imp {α β : Type} {R S : α → β → Prop} {x : Except Error α} {y : Except Error β}
    (matching : Matching R x y) (implies : ∀ a b, R a b → S a b) : Matching S x y := by
  cases matching with
  | error err => exact .error err
  | ok related => exact .ok (implies _ _ related)

theorem Matching.of_eq {α : Type} {x y : Except Error α} (same : y = x) : Matching Eq x y := by
  rw [same]
  cases x with
  | error err => exact .error err
  | ok a => exact .ok rfl

theorem Matching.eq {α : Type} {x y : Except Error α} (matching : Matching Eq x y) : y = x := by
  cases matching with
  | error err => rfl
  | ok same => rw [same]

theorem Table.Lists.mapM_eq_of_mem {β : Type} {t : Table ValueId} {vs ws : List ValueId}
    (lists : t.Lists vs ws) {f g : ValueId → Except Error β}
    (each : ∀ v ∈ vs, ∀ w, t.get? v = some w → f w = g v) : ws.mapM f = vs.mapM g := by
  have same := lists.map_eq_of_mem each
  have opened : ∀ (us : List ValueId) (h : ValueId → Except Error β),
      us.mapM h = (us.map h).mapM id := by
    intro us h
    rw [List.mapM_map]
    rfl
  rw [opened, opened, same]

theorem Table.Lists.mapM_zip_eq {β γ δ : Type} {t : Table ValueId} {vs ws : List ValueId}
    (lists : t.Lists vs ws) {f g : ValueId → Except Error β}
    (each : ∀ v ∈ vs, ∀ w, t.get? v = some w → f w = g v) (cs : List γ) (k : γ → β → δ) :
    ((ws.zip cs).mapM fun (w, c) => do let b ← f w; .ok (k c b)) =
      ((vs.zip cs).mapM fun (v, c) => do let b ← g v; .ok (k c b)) := by
  have related := lists.forall₂
  clear lists
  induction related generalizing cs with
  | nil => rfl
  | @cons v w vs ws here _ ih =>
    cases cs with
    | nil => rfl
    | cons c cs =>
      rw [List.zip_cons_cons, List.zip_cons_cons, List.mapM_cons, List.mapM_cons,
        ih (fun v member => each v (by simp [member])) cs]
      simp only [each v (by simp) w here]

variable {e e' : Expression Composite} {t : Table ValueId}

structure Emission.Renamed (t : Table ValueId) (s s' : Emission) : Prop where
  names : ∀ {v w : Nat}, t.get? v = some w → s'.names.get? w = s.names.get? v
  temporaries : s'.temporaries = s.temporaries
  lines : s'.lines = s.lines

namespace Expression.Renumbers

theorem operand_image (renumbers : e.Renumbers e' t) (sourced : e.Sourced) {done : List NodeId}
    {s s' : Emission} (renamed : s.Renamed t s') (covers : s.names.Covers e done) {v w : Nat}
    (image : t.get? v = some w) (supplied : e.graph.Supplied e.inputs done v) :
    e'.operand s'.names w = e.operand s.names v := by
  unfold operand
  rw [renamed.names image, renumbers.typeOf_image image]
  cases found : s.names.get? v with
  | some x => rfl
  | none =>
    rcases covers.entry_or_constant sourced.closed.ordered supplied with
      ⟨x, entry⟩ | ⟨type, literal, name, source⟩
    · rw [found] at entry
      cases entry
    · obtain ⟨x, y, source', there, mirrors, typed⟩ := renumbers.mirrored.value image
      obtain rfl := Option.some.inj (source.symm.trans source')
      cases mirrors with
      | constant =>
        simp only [Retypes, Graph.typeOf, source, id] at typed
        rw [typed, sourced.closed.constants source] at there
        simp only [source, there]
        rfl

theorem matching_declare (renumbers : e.Renumbers e' t) (id : String) {vs ws : List ValueId}
    (lists : t.Lists vs ws) {s s' : Emission} (renamed : s.Renamed t s') :
    Matching (fun after after' => after.Renamed t after' ∧
        (∀ v x, s.names.get? v = some x → ∃ y, after.names.get? v = some y) ∧
        ∀ v ∈ vs, ∃ y, after.names.get? v = some y)
      (vs.foldlM (e.declare id) s) (ws.foldlM (e'.declare id) s') := by
  have related := lists.forall₂
  clear lists
  induction related generalizing s s' with
  | nil => exact .ok ⟨renamed, fun v x found => ⟨x, found⟩, by simp⟩
  | @cons v w vs ws image _ ih =>
    rw [List.foldlM_cons, List.foldlM_cons, declare, declare, renumbers.typeOf_image image]
    cases named : (e.graph.typeOf v).cName with
    | error err => exact .error err
    | ok type =>
      simp only [ok_bind]
      refine (ih (s := ⟨s.names.insert v ⟨temporary id s.temporaries, e.graph.typeOf v⟩,
        s.temporaries + 1, s.lines.push (type ++ " " ++ temporary id s.temporaries ++ ";")⟩) ?_).imp ?_
      · refine ⟨?_, by rw [renamed.temporaries], by rw [renamed.temporaries, renamed.lines]⟩
        intro u u' image'
        simp only [Table.get?_insert, renumbers.image_eq_iff image image', renamed.names image',
          renamed.temporaries]
      · rintro after after' ⟨alike, kept, set⟩
        have entry : ∃ y, after.names.get? v = some y :=
          kept v _ (by rw [Table.get?_insert, if_pos rfl])
        refine ⟨alike, ?_, ?_⟩
        · intro u x found
          by_cases same : v = u
          · exact same ▸ entry
          · exact kept u x (by rw [Table.get?_insert, if_neg same, found])
        · rintro u (_ | ⟨_, member⟩)
          · exact entry
          · exact set u member

theorem matching_emitNode (renumbers : e.Renumbers e' t) (sourced : e.Sourced)
    {done : List NodeId} {n : NodeId} {node node' : Node Composite}
    (here : e.graph.nodes[n]? = some node) (alike : node'.op.WrittenAs node.op)
    (inputs : t.Lists node.inputs node'.inputs) (outputs : t.Lists node.outputs node'.outputs)
    (operands : ∀ v ∈ node.inputs, e.graph.Supplied e.inputs done v) {s s' : Emission}
    (renamed : s.Renamed t s') (covers : s.names.Covers e done) (id : String) (k : Nat) :
    Matching (fun after after' => after.Renamed t after' ∧ after.names.Covers e (done ++ [n]))
      ((e.map Composite.emit).emitNode id s k (node.map Composite.emit))
      ((e'.map Composite.emit).emitNode id s' k (node'.map Composite.emit)) := by
  have ordered := sourced.closed.ordered
  have read : node'.inputs.mapM (e'.operand s'.names) = node.inputs.mapM (e.operand s.names) :=
    inputs.mapM_eq_of_mem fun v member w image =>
      renumbers.operand_image sourced renamed covers image (operands v member)
  show Matching _ (node.inputs.mapM (e.operand s.names) >>= fun inputs => do
      let s ← node.outputs.foldlM (e.declare id) s
      let outputs ← node.outputs.mapM (e.operand s.names)
      let code ← (node.op.map Composite.emit).statement inputs outputs (id ++ "_" ++ toString k)
      .ok { s with lines := s.lines.push code })
    (node'.inputs.mapM (e'.operand s'.names) >>= fun inputs => do
      let s ← node'.outputs.foldlM (e'.declare id) s'
      let outputs ← node'.outputs.mapM (e'.operand s.names)
      let code ← (node'.op.map Composite.emit).statement inputs outputs (id ++ "_" ++ toString k)
      .ok { s with lines := s.lines.push code })
  refine (Matching.of_eq read).bind ?_
  rintro args _ rfl
  refine (renumbers.matching_declare id outputs renamed).bind ?_
  rintro after after' ⟨renamed', kept, set⟩
  have covers' := covers.snoc here kept set
  have written : node'.outputs.mapM (e'.operand after'.names) =
      node.outputs.mapM (e.operand after.names) := by
    refine outputs.mapM_eq_of_mem fun v member w image => ?_
    obtain ⟨j, output⟩ := List.getElem?_of_mem member
    obtain ⟨type, source⟩ := ordered.produced.mpr ⟨node, here, output⟩
    exact renumbers.operand_image sourced renamed' covers' image (.output source (by simp))
  refine (Matching.of_eq written).bind ?_
  rintro outs _ rfl
  rw [alike.emit_eq]
  refine (Matching.of_eq rfl).bind ?_
  rintro code _ rfl
  exact .ok ⟨⟨renamed'.names, renamed'.temporaries, by rw [renamed'.lines]⟩, covers'⟩

theorem matching_nodes (renumbers : e.Renumbers e' t) (sourced : e.Sourced) {part : List NodeId}
    (scheduled : e.graph.Scheduled e.inputs part) (before : part <+: e.order) {s s' : Emission}
    (renamed : s.Renamed t s') (covers : s.names.Covers e []) (id : String) :
    Matching (fun after after' => after.Renamed t after' ∧ after.names.Covers e part)
      ((part.filterMap fun n => (e.graph.nodes[n]?).map fun node => (n, node)).zipIdx.foldlM
        (fun s entry => (e.map Composite.emit).emitNode id s entry.2
          (entry.1.2.map Composite.emit)) s)
      (((List.range part.length).filterMap fun n =>
        (e'.graph.nodes[n]?).map fun node => (n, node)).zipIdx.foldlM
        (fun s entry => (e'.map Composite.emit).emitNode id s entry.2
          (entry.1.2.map Composite.emit)) s') := by
  induction scheduled with
  | nil => exact .ok ⟨renamed, covers⟩
  | @snoc done n node _ _ here operands ih =>
    -- the walk of the copy leaves the nodes in the order of their ids, so
    -- the next node has the number of nodes before it for its id
    have place : e.order[done.length]? = some n := by
      obtain ⟨later, whole⟩ := before
      rw [← whole, List.append_assoc, List.getElem?_append_right (Nat.le_refl _)]
      simp
    obtain ⟨node', op, args, outs, here', there, alike, inputs, outputs⟩ :=
      renumbers.mirrored.node place
    obtain rfl := Option.some.inj (here.symm.trans here')
    rw [opAt_eq here] at alike
    have previous := ih ((List.prefix_append done [n]).trans before)
    have counted : (done.filterMap fun n => (e.graph.nodes[n]?).map fun node => (n, node)).length =
        ((List.range done.length).filterMap fun n =>
          (e'.graph.nodes[n]?).map fun node => (n, node)).length :=
      (renumbers.nodes_before done ((List.prefix_append done [n]).trans before)).length_eq
    rw [List.length_append, List.length_singleton, List.range_succ, List.filterMap_append,
      List.filterMap_append, List.zipIdx_append, List.zipIdx_append, List.foldlM_append,
      List.foldlM_append]
    refine previous.bind ?_
    rintro after after' ⟨renamed', covers'⟩
    simp only [List.filterMap_cons, here, there, Option.map_some, List.filterMap_nil,
      List.zipIdx_cons, List.zipIdx_nil, List.foldlM_cons, List.foldlM_nil, bind_pure, counted]
    exact renumbers.matching_emitNode sourced here alike inputs outputs operands renamed'
      covers' id _

theorem named_image (renumbers : e.Renumbers e' t) {vs ws : List ValueId} (ins : List String)
    {names names' : Table Operand} (related : List.Forall₂ (fun v w => t.get? v = some w) vs ws)
    (alike : ∀ {v w : Nat}, t.get? v = some w → names'.get? w = names.get? v) {v w : Nat}
    (image : t.get? v = some w) :
    ((ws.zip ins).foldl (fun t entry => t.insertNew entry.1 ⟨entry.2, e'.graph.typeOf entry.1⟩)
      names').get? w =
    ((vs.zip ins).foldl (fun t entry => t.insertNew entry.1 ⟨entry.2, e.graph.typeOf entry.1⟩)
      names).get? v := by
  induction related generalizing ins names names' with
  | nil => exact alike image
  | @cons u u' vs ws here _ ih =>
    cases ins with
    | nil => exact alike image
    | cons name ins =>
      refine ih ins fun image => ?_
      simp only [Table.get?_insertNew, renumbers.image_eq_iff here image, alike here, alike image,
        renumbers.typeOf_image here]

theorem inputNames_image (renumbers : e.Renumbers e' t) (ins : List String) {v w : Nat}
    (image : t.get? v = some w) : (e'.inputNames ins).get? w = (e.inputNames ins).get? v :=
  renumbers.named_image ins renumbers.inputs.forall₂ (fun _ => rfl) image

theorem emit_eq (renumbers : e.Renumbers e' t) (sourced : e.Sourced) (ins outs : List String)
    (id : String) :
    (e'.map Composite.emit).emit ins outs id = (e.map Composite.emit).emit ins outs id := by
  have inputs := renumbers.inputs.length
  have outputs := renumbers.outputs.length
  by_cases inputCount : ins.length = e.inputs.length
  · by_cases outputCount : outs.length = e.outputs.length
    · rw [emit_map inputCount outputCount, emit_map (inputCount.trans inputs)
        (outputCount.trans outputs)]
      apply Matching.eq
      have start : Emission.Renamed t { names := e.inputNames ins } { names := e'.inputNames ins } :=
        ⟨renumbers.inputNames_image ins, rfl, rfl⟩
      have covers := (names_inputs sourced.closed.distinct inputCount).covers
      have nodes := renumbers.matching_nodes sourced sourced.scheduled (List.prefix_refl _) start
        covers id
      rw [← renumbers.order] at nodes
      refine nodes.bind ?_
      rintro s s' ⟨renamed, covered⟩
      have last : ((e'.outputs.zip outs).mapM fun entry => do
            let x ← e'.operand s'.names entry.1
            .ok (entry.2 ++ " = " ++ x.text ++ ";")) =
          ((e.outputs.zip outs).mapM fun entry => do
            let x ← e.operand s.names entry.1
            .ok (entry.2 ++ " = " ++ x.text ++ ";")) :=
        renumbers.outputs.mapM_zip_eq (fun v member w image => renumbers.operand_image sourced
          renamed covered image (sourced.walks.supplied v member)) outs fun name x =>
            name ++ " = " ++ x.text ++ ";"
      refine (Matching.of_eq last).bind ?_
      rintro texts _ rfl
      rw [renamed.lines]
      exact .ok rfl
    · rw [emit_of_outputs inputCount outputCount, emit_of_outputs (inputCount.trans inputs)
        (outputs ▸ outputCount), outputs]
  · rw [emit_of_inputs inputCount, emit_of_inputs (inputs ▸ inputCount), inputs]

end Expression.Renumbers

end Emission

/-- Two composites that cannot be told apart by what is written of them. -/
structure Composite.WrittenAs (d c : Composite) : Prop where
  signature : d.signature = c.signature
  terms : d.terms = c.terms
  key : d.key = c.key
  emit : ∀ ins outs id, d.emit ins outs id = c.emit ins outs id

theorem Composite.WrittenAs.trans {c d b : Composite} (first : d.WrittenAs c)
    (second : b.WrittenAs d) : b.WrittenAs c where
  signature := second.signature.trans first.signature
  terms := second.terms.trans first.terms
  key := second.key.trans first.key
  emit ins outs id := (second.emit ins outs id).trans (first.emit ins outs id)

theorem Composite.WrittenAs.writing {c d : Composite} (alike : d.WrittenAs c) :
    d.writing = c.writing := by
  have emit : d.emit = c.emit := by
    funext ins outs id
    exact alike.emit ins outs id
  rw [Composite.writing, Composite.writing, alike.terms, alike.key, emit]

/-- Only ids tell an expression from its mirror image, and ids are not written. -/
theorem Expression.Renumbers.writtenAs {e e' : Expression Composite} {t : Table ValueId}
    (renumbers : e.Renumbers e' t) (sourced : e.Sourced) (sourced' : e'.Sourced)
    (calls : e.graph.Calls Composite.WellBuilt) (calls' : e'.graph.Calls Composite.WellBuilt) :
    (Composite.mk e').WrittenAs (.mk e) := by
  have signature : (Composite.mk e').signature = (Composite.mk e).signature := by
    rw [Composite.signature_eq, Composite.signature_eq]
    exact renumbers.signature_eq sourced sourced'
      (fun _ _ _ here called => (calls here called).spelled)
      fun _ _ _ here called => (calls' here called).spelled
  refine ⟨signature, ?_, ?_, ?_⟩
  · rw [Composite.terms_eq, Composite.terms_eq]
    exact renumbers.outputs.map_eq fun image => renumbers.term_image sourced sourced' image
  · have inputs : (Composite.mk e').inputTypes = (Composite.mk e).inputTypes :=
      renumbers.inputTypes.trans (List.map_id _)
    have outputs : (Composite.mk e').outputTypes = (Composite.mk e).outputTypes :=
      renumbers.outputTypes.trans (List.map_id _)
    have values : (Composite.mk e').body.values.map (Composite.mk e').graph.typeOf =
        (Composite.mk e).body.values.map (Composite.mk e).graph.typeOf :=
      renumbers.values.map_eq renumbers.typeOf_image
    have callees : (Composite.mk e').body.callees.map Composite.key =
        (Composite.mk e).body.callees.map Composite.key := renumbers.keys_eq
    rw [Composite.key_eq, Composite.key_eq, signature, inputs, outputs, values, callees]
  · intro ins outs id
    rw [Composite.emit_eq, Composite.emit_eq]
    exact renumbers.emit_eq sourced ins outs id

namespace Composite

theorem WellBuilt.exists_fuse_written {c : Composite} (good : c.WellBuilt) {copy : Copy}
    {config : Config} {types : List ScalarType} {count : Nat} {t : Table ValueId}
    (sound : copy.Sound WellBuilt config types count)
    (mirrored : Mirrored c.body (c.body.Retypes id) (fun n op => op.WrittenAs (c.body.opAt n))
      c.body.order t copy.graph)
    (inputs : t.Lists c.body.inputs copy.inputs) (outputs : t.Lists c.body.outputs copy.outputs) :
    ∃ d, copy.graph.fuse copy.inputs copy.outputs = .ok d ∧ d.WrittenAs c := by
  have sourced := good.body.sourced
  obtain ⟨e, e', t', walked, first, fused, second⟩ :=
    good.exists_fuse_mirrored sound mirrored inputs outputs fun entry member d called => by
      rw [Expression.opAt_eq (Expression.mem_nodes.mp member).2] at called
      exact called.outputCount_eq
  obtain ⟨wellBuilt, -⟩ := Graph.fuse_wellBuilt sound.calls fused
  have sourced' : e.Sourced := .of_expression sound.closed sound.known walked
  have calls : e.graph.Calls WellBuilt := by
    rw [(Graph.expression_eq walked).1]
    exact sound.calls
  have copied : (mk e).WrittenAs c := by
    cases c
    exact Expression.Renumbers.writtenAs first sourced sourced' good.callees calls
  exact ⟨.mk e', fused, copied.trans ((Expression.Renumbers.of_mirrors second).writtenAs sourced'
    wellBuilt.body.sourced calls wellBuilt.callees)⟩

def unpacked (name : Nat → Option String) (c : Composite) : Build (List ValueId × List ValueId) := do
  let inputs ← c.inputTypes.zipIdx.mapM fun entry => Build.newVariable entry.1 (name entry.2)
  let outputs ← Build.inline c inputs
  pure (inputs, outputs)

def roundTrip (name : Nat → Option String) (c : Composite) : Except Error Composite := do
  let ((inputs, outputs), g) ← (c.unpacked name).runNew c.config
  g.fuse inputs outputs

theorem WellBuilt.exists_roundTrip {c : Composite} (good : c.WellBuilt) (name : Nat → Option String) :
    ∃ d, c.roundTrip name = .ok d ∧ d.WrittenAs c := by
  have sourced := good.body.sourced
  obtain ⟨h, news, first, fresh⟩ := Build.exec_newVariables Prod.fst (fun entry => name entry.2)
    c.inputTypes.zipIdx { config := c.config }
  rw [List.zipIdx_map_fst] at fresh
  have arity : news.length = c.inputCount := by
    rw [← List.length_map h.typeOf, fresh.types]
    exact List.length_map _
  have inlined := Build.exec_inlineWith specialise arity h
  have typed : List.Forall₂ (c.body.Retypes id) c.body.inputs c.inputTypes :=
    Expression.retypes_iff.mpr rfl
  obtain ⟨⟨⟩, -⟩ | ⟨outs, t, s, run, mirrored, inputs, outputs, -⟩ :=
    Mirrored.exec_replay sourced (c.body.converts_retypes id)
      (Expression.placesAs_placeWith (σ := specialise) sourced) typed fresh
  rw [← inlined] at run
  have made : (c.unpacked name).runNew c.config = .ok ((news, outs), s) := by
    rw [Build.runNew_eq_ok, unpacked, Build.exec_bind_of_ok first, Build.inline,
      Build.exec_bind_of_ok run]
    rfl
  obtain ⟨growth, known, -⟩ := (Build.grows_inlineWith (Policy.body_keepsConstants WellBuilt)
    specialise_sound (Policy.body_callsGood WellBuilt) good.callees fresh.known).of_ok run
  have sound := fresh.sound growth known
  obtain ⟨d, fused, alike⟩ := good.exists_fuse_written sound
    (mirrored.imp fun n op same => by rw [same]; rfl) inputs outputs
  refine ⟨d, ?_, alike⟩
  rw [roundTrip, made]
  exact fused

end Composite

/-- Inlining then fusing is the identity. A composite that is inlined into a graph of its own, over
    one new variable for each input, can be fused again; the result has the same signature, the same
    key and fingerprint, and the same C statements or the same failure for all names and ids. -/
theorem fuse_inline {c : Composite} (obtained : Obtained c) (name : Nat → Option String) :
    ∃ d, c.roundTrip name = .ok d ∧ d.signature = c.signature ∧ d.key = c.key ∧
      d.fingerprint = c.fingerprint ∧ ∀ ins outs id, d.emit ins outs id = c.emit ins outs id := by
  obtain ⟨d, success, alike⟩ := obtained.wellBuilt.exists_roundTrip name
  exact ⟨d, success, alike.signature, alike.key, congrArg Hash.ofString alike.key, alike.emit⟩

theorem nested_roundTrip : ∃ c d, (Graph.nested (.float .half)).fuse [0] [1, 2] = .ok c ∧
    Obtained c ∧ c.body.callees.length = 1 ∧ c.roundTrip (fun _ => none) = .ok d ∧
    d.signature = c.signature ∧ d.key = c.key ∧ d.fingerprint = c.fingerprint ∧
    ∀ ins outs id, d.emit ins outs id = c.emit ins outs id := by
  obtain ⟨c, fused, calls⟩ : ∃ c, (Graph.nested (.float .half)).fuse [0] [1, 2] = .ok c ∧
      c.body.callees.length = 1 := ⟨_, rfl, rfl⟩
  have obtained : Obtained c := .fuse (nested_reachable (by decide)) (by decide) fused
  obtain ⟨d, success, alike⟩ := fuse_inline obtained fun _ => none
  exact ⟨c, d, fused, obtained, calls, success, alike⟩

end ScalarFusion

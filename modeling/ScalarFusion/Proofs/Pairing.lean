import ScalarFusion.Proofs.Denoting

/-!
One expression replayed in two arenas. Where its inputs have the same types there, the runs fail
together or succeed together, and what they add corresponds node by node. Values that correspond
denote the same.
-/
namespace ScalarFusion

/-- Values of two arenas that are computed alike from given pairs. -/
inductive Paired (g h : Arena) (given : ValueId → ValueId → Prop) : ValueId → ValueId → Prop where
  | given {v w : ValueId} {x y : Value} (pair : given v w) (found : g.values[v]? = some x)
      (there : h.values[w]? = some y) (types : y.type = x.type) : Paired g h given v w
  | constant {v w : ValueId} {type : ScalarType} {literal : Literal} {name name' : Option String}
      (found : g.values[v]? = some ⟨type, .constant literal name⟩)
      (there : h.values[w]? = some ⟨type, .constant literal name'⟩) : Paired g h given v w
  | output {v w : ValueId} {type : ScalarType} {n m : NodeId} {k : Nat} {op : Op Composite}
      {ins outs ins' outs' : List ValueId} (found : g.values[v]? = some ⟨type, .output n k⟩)
      (there : h.values[w]? = some ⟨type, .output m k⟩) (here : g.nodes[n]? = some ⟨op, ins, outs⟩)
      (here' : h.nodes[m]? = some ⟨op, ins', outs'⟩)
      (types : outs'.map h.typeOf = outs.map g.typeOf) (lengths : ins.length = ins'.length)
      (operands : ∀ u u', (u, u') ∈ ins.zip ins' → Paired g h given u u') : Paired g h given v w

namespace Paired

variable {g h g' h' : Arena} {given : ValueId → ValueId → Prop} {v w : ValueId}

theorem values (paired : Paired g h given v w) :
    ∃ x y, g.values[v]? = some x ∧ h.values[w]? = some y ∧ y.type = x.type := by
  cases paired with
  | given _ found there types => exact ⟨_, _, found, there, types⟩
  | constant found there => exact ⟨_, _, found, there, rfl⟩
  | output found there => exact ⟨_, _, found, there, rfl⟩

theorem typeOf_eq (paired : Paired g h given v w) : h.typeOf w = g.typeOf v := by
  obtain ⟨x, y, found, there, types⟩ := paired.values
  simp only [Graph.typeOf, found, there, types]

theorem types_eq {vs ws : List ValueId} (paired : List.Forall₂ (Paired g h given) vs ws) :
    ws.map h.typeOf = vs.map g.typeOf := by
  rw [← List.forall₂_eq_eq_eq, List.forall₂_map_left_iff, List.forall₂_map_right_iff]
  exact paired.flip.imp fun _ _ => typeOf_eq

theorem knows {vs ws : List ValueId} (paired : List.Forall₂ (Paired g h given) vs ws) :
    g.Knows vs ∧ h.Knows ws := by
  constructor
  · intro v member
    obtain ⟨w, -, paired⟩ := exists_image_of_mem paired member
    obtain ⟨x, -, found, -⟩ := paired.values
    exact (Array.getElem?_eq_some_iff.mp found).1
  · intro w member
    obtain ⟨v, -, paired⟩ := exists_image_of_mem paired.flip member
    obtain ⟨-, y, -, there, -⟩ := paired.values
    exact (Array.getElem?_eq_some_iff.mp there).1

theorem symm {given' : ValueId → ValueId → Prop} (paired : Paired g h given v w)
    (turned : ∀ v w, given v w → given' w v) : Paired h g given' w v := by
  induction paired with
  | given pair found there types => exact .given (turned _ _ pair) there found types.symm
  | constant found there => exact .constant there found
  | output found there here here' types lengths _ ih =>
    refine .output there found here' here types.symm lengths.symm fun u' u member => ih u u' ?_
    rwa [← List.zip_swap, List.mem_map_swap] at member

theorem grown (paired : Paired g h given v w) (ordered : g.Ordered) (ordered' : h.Ordered)
    (grows : g.Extends g') (grows' : h.Extends h') : Paired g' h' given v w := by
  induction paired with
  | given pair found there types => exact .given pair (grows.value found) (grows'.value there) types
  | constant found there => exact .constant (grows.value found) (grows'.value there)
  | output found there here here' types lengths _ ih =>
    refine .output (grows.value found) (grows'.value there) (grows.node here) (grows'.node here') ?_
      lengths ih
    rw [grows'.map_typeOf (ordered'.knows_outputs here'),
      grows.map_typeOf (ordered.knows_outputs here), types]

theorem pushNode {args args' : List ValueId} (paired : List.Forall₂ (Paired g h given) args args')
    (ordered : g.Ordered) (ordered' : h.Ordered) (op : Op Composite) (types : List ScalarType) :
    List.Forall₂ (Paired (g.pushNode op args types) (h.pushNode op args' types) given)
      (List.range' g.values.size types.length) (List.range' h.values.size types.length) := by
  rw [List.forall₂_iff_zip]
  refine ⟨by simp, ?_⟩
  intro v w member
  obtain ⟨k, at_k⟩ := List.getElem?_of_mem member
  obtain ⟨inside, rfl, rfl⟩ : k < types.length ∧ g.values.size + k = v ∧
      h.values.size + k = w := by
    obtain ⟨first, second⟩ := List.getElem?_zip_eq_some.mp at_k
    obtain ⟨inside, rfl⟩ := List.getElem?_eq_some_iff.mp first
    obtain ⟨inside', rfl⟩ := List.getElem?_eq_some_iff.mp second
    rw [List.length_range'] at inside
    simp [inside]
  have grows := g.extends_pushNode op args types
  have grows' := h.extends_pushNode op args' types
  obtain ⟨lengths, operands⟩ := List.forall₂_iff_zip.mp paired
  refine .output (g.pushNode_output_at op args inside) (h.pushNode_output_at op args' inside)
    (g.pushNode_node_at op args types) (h.pushNode_node_at op args' types) ?_ lengths ?_
  · rw [Graph.pushNode_types, Graph.pushNode_types]
  · intro u u' pair
    exact (operands pair).grown ordered ordered' grows grows'

end Paired

def Graph.Variables {κ : Type} (g : Graph κ) (vs : List ValueId) : Prop :=
  ∀ v ∈ vs, ∃ type name, g.values[v]? = some ⟨type, .free name⟩

theorem Graph.exists_valuation [Numerics] (g : Arena) (inputs : List ValueId)
    (args : List Literal) :
    ∃ V : ValueId → Literal, ∀ v a, g.Denotes inputs args v a → V v = a := by
  have each : ∀ v, ∃ b, ∀ a, g.Denotes inputs args v a → b = a := by
    intro v
    by_cases some : ∃ b, g.Denotes inputs args v b
    · obtain ⟨b, denotes⟩ := some
      exact ⟨b, fun a denotes' => denotes.unique denotes'⟩
    · exact ⟨.bool false, fun a denotes => absurd ⟨a, denotes⟩ some⟩
  exact Classical.axiomOfChoice each

theorem Paired.denotes [Numerics] {g h : Arena} {given : ValueId → ValueId → Prop} {v w : ValueId}
    (paired : Paired g h given v w) {inputs inputs' : List ValueId} {args args' : List Literal}
    (free : g.Variables inputs) (free' : h.Variables inputs')
    (start : ∀ v w a, given v w → h.typeOf w = g.typeOf v → g.Denotes inputs args v a →
      ∃ b, h.Denotes inputs' args' w b ∧ b.Alike a) {a : Literal}
    (denotes : g.Denotes inputs args v a) : ∃ b, h.Denotes inputs' args' w b ∧ b.Alike a := by
  induction paired generalizing a with
  | given pair found there types =>
    exact start _ _ a pair (typeOf_eq (.given pair found there types)) denotes
  | @constant v w type literal name name' found there =>
    have beyond' : w ∉ inputs' := fun member => by
      obtain ⟨type, name, source⟩ := free' w member
      simp [there] at source
    cases denotes with
    | input member _ =>
      obtain ⟨type, name, source⟩ := free v member
      simp [found] at source
    | constant _ found' =>
      obtain ⟨-, rfl, -⟩ : _ ∧ literal = a ∧ _ := by simpa [found] using found'
      exact ⟨literal, .constant beyond' there, .refl literal⟩
    | output _ found' => simp [found] at found'
  | @output v w type n m k op ins outs ins' outs' found there here here' types lengths operands ih =>
    have beyond : v ∉ inputs := fun member => by
      obtain ⟨type, name, source⟩ := free v member
      simp [found] at source
    have beyond' : w ∉ inputs' := fun member => by
      obtain ⟨type, name, source⟩ := free' w member
      simp [there] at source
    obtain ⟨V, results, result, denoted, computed, listed, rfl⟩ := denotes.of_output beyond found here
    -- the operands denote something each; a valuation of the other arena collects it
    obtain ⟨V', only⟩ := h.exists_valuation inputs' args'
    have image : ∀ u u', (u, u') ∈ ins.zip ins' →
        h.Denotes inputs' args' u' (V' u') ∧ (V' u').Alike (V u) := by
      intro u u' pair
      obtain ⟨b, denotes', alike⟩ := ih u u' pair (denoted u (List.of_mem_zip pair).1)
      rw [only u' b denotes']
      exact ⟨denotes', alike⟩
    have related : List.Forall₂ (fun u u' => h.Denotes inputs' args' u' (V' u') ∧
        (V' u').Alike (V u)) ins ins' :=
      List.forall₂_iff_zip.mpr ⟨lengths, fun {u u'} pair => image u u' pair⟩
    have paired : List.Forall₂ (Paired g h given) ins ins' :=
      List.forall₂_iff_zip.mpr ⟨lengths, fun {u u'} pair => operands u u' pair⟩
    have alike : (ins'.map V').map Literal.cast = (ins.map V).map Literal.cast := by
      rw [← List.forall₂_eq_eq_eq]
      simp only [List.forall₂_map_left_iff, List.forall₂_map_right_iff]
      exact related.flip.imp fun _ _ both => both.2
    have operands' : ∀ u' ∈ ins', h.Denotes inputs' args' u' (V' u') := by
      intro u' member
      obtain ⟨u, -, denotes', -⟩ := exists_image_of_mem related.flip member
      exact denotes'
    refine ⟨_, .output beyond' there here' operands' ?_ listed, .refl _⟩
    rw [types_eq paired, types]
    exact (op.results_alike alike _ _).trans computed

namespace Build

variable {α β γ δ : Type} {g h : Arena}

/-- Two builds, each in its own arena, fail together or succeed together, and then as `post`
    says. -/
def Together (b : Build α) (b' : Build β) (g h : Arena) (post : α → Arena → β → Arena → Prop) :
    Prop :=
  (∃ e e' k k', b.exec g = (.error e, k) ∧ b'.exec h = (.error e', k')) ∨
  ∃ a a' k k', b.exec g = (.ok a, k) ∧ b'.exec h = (.ok a', k') ∧ post a k a' k'

theorem together_pure {a : α} {a' : β} {post : α → Arena → β → Arena → Prop} (holds : post a g a' h) :
    (pure a : Build α).Together (pure a' : Build β) g h post :=
  .inr ⟨a, a', g, h, rfl, rfl, holds⟩

theorem together_throw {e e' : Error} {post : α → Arena → β → Arena → Prop} :
    (throw e : Build α).Together (throw e' : Build β) g h post :=
  .inl ⟨e, e', g, h, rfl, rfl⟩

theorem together_bind {b : Build α} {b' : Build β} {f : α → Build γ} {f' : β → Build δ}
    {post : γ → Arena → δ → Arena → Prop} (mid : α → Arena → β → Arena → Prop)
    (first : b.Together b' g h mid)
    (second : ∀ a k a' k', mid a k a' k' → (f a).Together (f' a') k k' post) :
    (b >>= f).Together (b' >>= f') g h post := by
  rcases first with ⟨e, e', k, k', run, run'⟩ | ⟨a, a', k, k', run, run', holds⟩
  · exact .inl ⟨e, e', k, k', by rw [exec_bind, run], by rw [exec_bind, run']⟩
  · have rest := second a k a' k' holds
    unfold Together at rest ⊢
    rwa [exec_bind_of_ok run, exec_bind_of_ok run']

theorem together_foldlM {f : β → α → Build β} {f' : γ → α → Build γ} {as : List α}
    {post : β → Arena → γ → Arena → Prop}
    (step : ∀ a ∈ as, ∀ b k b' k', post b k b' k' → (f b a).Together (f' b' a) k k' post) {b : β}
    {b' : γ} (start : post b g b' h) : (as.foldlM f b).Together (as.foldlM f' b') g h post := by
  induction as generalizing b b' g h with
  | nil => exact together_pure start
  | cons a as ih =>
    rw [List.foldlM_cons, List.foldlM_cons]
    refine together_bind post (step a (by simp) b g b' h start) ?_
    intro b k b' k' holds
    exact ih (fun a member => step a (by simp [member])) holds

end Build

def Op.typing (op : Op Composite) (types : List ScalarType) (config : Config) :
    Except Error (List ScalarType) :=
  match op, types with
  | .prim .mean, _ => op.outputTypes types config
  | _, [] => .error (.arity op.name (.atLeast 1) 0)
  | _, _ :: _ => op.outputTypes types config

def Op.boundTo (σ : Specialiser) (op : Op Composite) (types : List ScalarType) :
    Except Error (Op Composite) :=
  match op with
  | .prim p => .ok (.prim p)
  | .call c => (c.boundTo σ types).map .call

def Op.placement (σ : Specialiser) (op : Op Composite) (types : List ScalarType) (config : Config) :
    Except Error (Op Composite × List ScalarType) := do
  let bound ← op.boundTo σ types
  let outputs ← bound.typing types config
  .ok (bound, outputs)

theorem Op.typing_eq {op : Op Composite} {types : List ScalarType}
    (nonempty : types = [] → op = .prim .mean) (config : Config) :
    op.typing types config = op.outputTypes types config := by
  unfold typing
  split
  · rfl
  · next mean => exact absurd (nonempty rfl) mean
  · rfl

namespace Build

variable {given : ValueId → ValueId → Prop} {g h : Arena}

theorem exec_apply_eq (op : Op Composite) (args : List ValueId) (g : Arena) :
    (apply op args).exec g = match op.typing (args.map g.typeOf) g.config with
      | .ok types => (.ok g.nodes.size, g.pushNode op args types)
      | .error e => (.error e, g) := by
  by_cases nonempty : args = [] → op = .prim .mean
  · rw [Op.typing_eq fun none => nonempty (List.map_eq_nil_iff.mp none)]
    refine (exec_apply nonempty g).trans ?_
    cases op.outputTypes (args.map g.typeOf) g.config <;> rfl
  · obtain ⟨rfl, operands⟩ : args = [] ∧ op ≠ .prim .mean := by simpa using nonempty
    rw [exec_apply_refused operands, List.map_nil, Op.typing.eq_2 _ _ operands]

theorem exec_placeWith_eq (σ : Specialiser) (op : Op Composite) (args : List ValueId) (g : Arena) :
    (placeWith σ op args).exec g = match op.placement σ (args.map g.typeOf) g.config with
      | .ok (op, types) =>
        (.ok (List.range' g.values.size types.length), g.pushNode op args types)
      | .error e => (.error e, g) := by
  have applied : ∀ op : Op Composite, (apply op args >>= outputsOf).exec g =
      match op.typing (args.map g.typeOf) g.config with
      | .ok types => (.ok (List.range' g.values.size types.length), g.pushNode op args types)
      | .error e => (.error e, g) := by
    intro op
    rw [exec_bind, exec_apply_eq]
    cases op.typing (args.map g.typeOf) g.config with
    | error e => rfl
    | ok types => exact exec_outputsOf_pushNode op args types g
  cases op with
  | prim p =>
    refine (applied (.prim p)).trans ?_
    rw [Op.placement, Op.boundTo, ok_bind]
    cases (Op.prim p).typing (args.map g.typeOf) g.config <;> rfl
  | call c =>
    show (callWith σ c args >>= outputsOf).exec g = _
    rw [Op.placement, Op.boundTo, exec_bind, exec_callWith]
    cases c.boundTo σ (args.map g.typeOf) with
    | error e => rfl
    | ok d =>
      refine Eq.trans ?_ ((applied (.call d)).trans ?_)
      · rw [exec_bind]
      · rw [Except.map, ok_bind]
        cases (Op.call d).typing (args.map g.typeOf) g.config <;> rfl

theorem together_placeWith (σ : Specialiser) (op : Op Composite) {args args' : List ValueId}
    (paired : List.Forall₂ (Paired g h given) args args') (config : h.config = g.config)
    (ordered : g.Ordered) (ordered' : h.Ordered) :
    (placeWith σ op args).Together (placeWith σ op args') g h fun outs k outs' k' =>
      List.Forall₂ (Paired k k' given) outs outs' ∧ k'.config = k.config ∧ k.Ordered ∧ k'.Ordered ∧
        g.Extends k ∧ h.Extends k' := by
  unfold Together
  rw [exec_placeWith_eq, exec_placeWith_eq, Paired.types_eq paired, config]
  cases op.placement σ (args.map g.typeOf) g.config with
  | error e => exact .inl ⟨e, e, g, h, rfl, rfl⟩
  | ok placed =>
    obtain ⟨known, known'⟩ := Paired.knows paired
    exact .inr ⟨_, _, _, _, rfl, rfl, Paired.pushNode paired ordered ordered' _ _, config,
      Graph.ordered_pushNode ordered known, Graph.ordered_pushNode ordered' known',
      g.extends_pushNode _ _ _, h.extends_pushNode _ _ _⟩

end Build

structure Twins (given : ValueId → ValueId → Prop) (t t' : Table ValueId) (g h : Arena) : Prop where
  config : h.config = g.config
  ordered : g.Ordered
  ordered' : h.Ordered
  image : ∀ v, Option.Rel (Paired g h given) (t.get? v) (t'.get? v)

namespace Twins

variable {given : ValueId → ValueId → Prop} {t t' : Table ValueId} {g h k k' : Arena}

theorem cases (twins : Twins given t t' g h) (v : ValueId) :
    (∃ w w', t.get? v = some w ∧ t'.get? v = some w' ∧ Paired g h given w w') ∨
      t.get? v = none ∧ t'.get? v = none := by
  have image := twins.image v
  generalize t.get? v = x at image ⊢
  generalize t'.get? v = y at image ⊢
  cases image with
  | some paired => exact .inl ⟨_, _, rfl, rfl, paired⟩
  | none => exact .inr ⟨rfl, rfl⟩

theorem grown (twins : Twins given t t' g h) (config : k'.config = k.config) (ordered : k.Ordered)
    (ordered' : k'.Ordered) (grows : g.Extends k) (grows' : h.Extends k') :
    Twins given t t' k k' := by
  refine ⟨config, ordered, ordered', fun v => ?_⟩
  rcases twins.cases v with ⟨w, w', image, image', paired⟩ | ⟨image, image'⟩
  · rw [image, image']
    exact .some (paired.grown twins.ordered twins.ordered' grows grows')
  · rw [image, image']
    exact .none

theorem insert (twins : Twins given t t' g h) {w w' : ValueId} (paired : Paired g h given w w')
    (v : ValueId) : Twins given (t.insert v w) (t'.insert v w') g h := by
  refine ⟨twins.config, twins.ordered, twins.ordered', fun u => ?_⟩
  rw [Table.get?_insert, Table.get?_insert]
  split
  · exact .some paired
  · exact twins.image u

theorem insertNew (twins : Twins given t t' g h) {w w' : ValueId} (paired : Paired g h given w w')
    (v : ValueId) : Twins given (t.insertNew v w) (t'.insertNew v w') g h := by
  refine ⟨twins.config, twins.ordered, twins.ordered', fun u => ?_⟩
  rw [Table.get?_insertNew, Table.get?_insertNew]
  split
  · rcases twins.cases v with ⟨w, w', image, image', old⟩ | ⟨image, image'⟩
    · rw [image, image']
      exact .some old
    · rw [image, image']
      exact .some paired
  · exact twins.image u

theorem insert_zip (twins : Twins given t t' g h) {news news' : List ValueId}
    (paired : List.Forall₂ (Paired g h given) news news') (olds : List ValueId) :
    Twins given ((olds.zip news).foldl (fun t (old, new) => t.insert old new) t)
      ((olds.zip news').foldl (fun t (old, new) => t.insert old new) t') g h := by
  induction olds generalizing t t' news news' with
  | nil => exact twins
  | cons old olds ih =>
    cases paired with
    | nil => exact twins
    | cons first rest => exact ih (twins.insert first old) rest

theorem insertNew_zip (twins : Twins given t t' g h) {news news' : List ValueId}
    (paired : List.Forall₂ (Paired g h given) news news') (inputs : List ValueId) :
    Twins given ((inputs.zip news).foldl (fun t (v, arg) => t.insertNew v arg) t)
      ((inputs.zip news').foldl (fun t (v, arg) => t.insertNew v arg) t') g h := by
  induction inputs generalizing news news' t t' with
  | nil => exact twins
  | cons v inputs ih =>
    cases paired with
    | nil => exact twins
    | cons first rest => exact ih (twins.insertNew first v) rest

theorem bindInputs {news news' : List ValueId} (config : h.config = g.config) (ordered : g.Ordered)
    (ordered' : h.Ordered) (paired : List.Forall₂ (Paired g h given) news news')
    (inputs : List ValueId) :
    Twins given (Build.bindInputs inputs news) (Build.bindInputs inputs news') g h :=
  insertNew_zip ⟨config, ordered, ordered', fun v => by simp⟩ paired inputs

end Twins

namespace Build

variable {given : ValueId → ValueId → Prop} {t t' : Table ValueId} {g h : Arena}

theorem together_resolve {κ : Type} (source : Graph κ) (twins : Twins given t t' g h) (v : ValueId) :
    (resolve source id t v).Together (resolve source id t' v) g h fun r k r' k' =>
      Paired k k' given r.1 r'.1 ∧ Twins given r.2 r'.2 k k' ∧ g.Extends k ∧ h.Extends k' := by
  unfold resolve
  rcases twins.cases v with ⟨w, w', image, image', paired⟩ | ⟨image, image'⟩
  · rw [image, image']
    exact together_pure ⟨paired, twins, .refl g, .refl h⟩
  · rw [image, image']
    dsimp only
    split
    · next type literal name _ =>
      let x : Value := ⟨type, .constant (literal.cast type) name⟩
      have grows := g.extends_pushValue x
      have grows' := h.extends_pushValue x
      have found : ∀ k : Arena, (k.pushValue x).values[k.values.size]? =
          some ⟨type, .constant (literal.cast type) name⟩ := fun k => by simp [x]
      have paired : Paired (g.pushValue x) (h.pushValue x) given g.values.size h.values.size :=
        .constant (found g) (found h)
      have twins' : Twins given t t' (g.pushValue x) (h.pushValue x) :=
        twins.grown twins.config (Graph.ordered_pushValue twins.ordered rfl)
          (Graph.ordered_pushValue twins.ordered' rfl) grows grows'
      exact .inr ⟨_, _, _, _, rfl, rfl, paired, twins'.insert paired v, grows, grows'⟩
    · exact together_throw
    · exact together_throw

theorem together_resolveAll {κ : Type} (source : Graph κ) (twins : Twins given t t' g h)
    (vs : List ValueId) :
    (resolveAll source id vs t).Together (resolveAll source id vs t') g h fun r k r' k' =>
      List.Forall₂ (Paired k k' given) r.1 r'.1 ∧ Twins given r.2 r'.2 k k' ∧ g.Extends k ∧
        h.Extends k' := by
  induction vs generalizing t t' g h with
  | nil => exact together_pure ⟨.nil, twins, .refl g, .refl h⟩
  | cons v vs ih =>
    rw [resolveAll, resolveAll]
    refine together_bind _ (together_resolve source twins v) ?_
    rintro ⟨w, s⟩ k ⟨w', s'⟩ k' ⟨paired, twins', grows, grows'⟩
    refine together_bind _ (ih twins') ?_
    rintro ⟨ws, s⟩ l ⟨ws', s'⟩ l' ⟨rest, twins'', more, more'⟩
    exact together_pure ⟨.cons (paired.grown twins'.ordered twins'.ordered' more more') rest, twins'',
      grows.trans more, grows'.trans more'⟩

theorem together_replayNode {e : Expression Composite} (σ : Specialiser)
    (twins : Twins given t t' g h) (entry : NodeId × Node Composite) :
    (replayNode e id (fun _ op => placeWith σ op) t entry).Together
      (replayNode e id (fun _ op => placeWith σ op) t' entry) g h fun s k s' k' =>
        Twins given s s' k k' := by
  unfold replayNode
  refine together_bind _ (together_resolveAll e.graph twins entry.2.inputs) ?_
  rintro ⟨args, s⟩ k ⟨args', s'⟩ k' ⟨paired, twins', -, -⟩
  refine together_bind _ (together_placeWith σ entry.2.op paired twins'.config twins'.ordered
    twins'.ordered') ?_
  rintro outs l outs' l' ⟨paired', config, ordered, ordered', grows, grows'⟩
  exact together_pure ((twins'.grown config ordered ordered' grows grows').insert_zip paired' _)

theorem together_inlineWith (σ : Specialiser) (c : Composite) (config : h.config = g.config)
    (ordered : g.Ordered) (ordered' : h.Ordered) {args args' : List ValueId}
    (paired : List.Forall₂ (Paired g h given) args args') :
    (inlineWith σ c args).Together (inlineWith σ c args') g h fun outs k outs' k' =>
      List.Forall₂ (Paired k k' given) outs outs' := by
  unfold inlineWith
  rw [paired.length_eq]
  refine together_bind (fun _ k _ k' => k = g ∧ k' = h) ?_ ?_
  · unfold Together
    rw [exec_ofExcept, exec_ofExcept]
    cases c.checkArity args'.length with
    | error e => exact .inl ⟨e, e, g, h, rfl, rfl⟩
    | ok a => exact .inr ⟨a, a, g, h, rfl, rfl, rfl, rfl⟩
  · rintro - k - k' ⟨rfl, rfl⟩
    rw [replay_eq, replay_eq]
    refine together_bind (fun t k t' k' => Twins given t t' k k') (together_foldlM
      (fun entry _ t k t' k' twins => together_replayNode σ twins entry)
      (Twins.bindInputs config ordered ordered' paired c.inputs)) ?_
    intro t k t' k' twins
    refine together_bind _ (together_resolveAll c.graph twins c.outputs) ?_
    rintro ⟨outs, s⟩ l ⟨outs', s'⟩ l' ⟨paired', -⟩
    exact together_pure paired'

end Build

end ScalarFusion

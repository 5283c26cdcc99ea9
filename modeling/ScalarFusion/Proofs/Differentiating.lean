import ScalarFusion.Gradient
import ScalarFusion.Proofs.Specialising

/-!
Built arenas: what clients can make of an empty one. Gradients, however deep the calls that they
pass through, only add constants, applications of primitives and calls of well-built composites.
-/
namespace ScalarFusion

/-- The literal is held by constants of the type: it is one of the type, or is kept as it was given
    and has given the type. -/
def Literal.HeldAs (literal : Literal) (type : ScalarType) : Prop :=
  literal.cast type = literal ∨ type = literal.inferType

theorem Literal.HeldAs.alike {literal : Literal} {type : ScalarType} (held : literal.HeldAs type) :
    (literal.cast type).Alike literal := by
  rcases held with kept | rfl
  · rw [kept]
    exact .refl _
  · exact literal.alike_inferType

/-- Clients add variables, constants that hold what they are given, and well-built composites. -/
def Policy.client : Policy where
  leaf x := ∀ literal name, x.source = .constant literal name → literal.HeldAs x.type
  call c _ := c.WellBuilt

theorem Policy.client_keepsConstants : Policy.client.KeepsConstants := by
  rintro type literal name _ _ ⟨rfl, rfl⟩
  exact .inl (Literal.cast_cast literal type)

theorem Policy.client_callsGood : Policy.client.CallsGood Composite.WellBuilt :=
  fun _ good => good

structure Graph.Built (g : Graph Composite) : Prop where
  ordered : g.Ordered
  typed : g.Typed
  held : ∀ {v : ValueId} {type : ScalarType} {literal : Literal} {name : Option String},
    g.values[v]? = some ⟨type, .constant literal name⟩ → literal.HeldAs type
  calls : g.Calls Composite.WellBuilt

theorem Graph.Built.constants {g : Graph Composite} (built : g.Built) {v : ValueId}
    {type : ScalarType} {literal : Literal} {name : Option String}
    (found : g.values[v]? = some ⟨type, .constant literal name⟩) : (literal.cast type).Alike literal :=
  (built.held found).alike

theorem Graph.built_empty (config : Config) : ({ config } : Arena).Built where
  ordered := ordered_empty config
  typed := ⟨by simp, by simp⟩
  held := by simp
  calls := fun n node c found => by simp at found

theorem Graph.Built.grown {g h : Arena} (built : g.Built) (growth : Growth .client g h) :
    h.Built where
  ordered := growth.ordered built.ordered
  typed := growth.typed built.ordered built.typed
  held := by
    intro v type literal name found
    rcases growth.leaf_cases found rfl with old | allowed
    · exact built.held old
    · exact allowed literal name rfl
  calls := by
    intro n node c found called
    rcases growth.node_cases found built.ordered with old | ⟨-, -, allowed⟩
    · exact built.calls old called
    · exact allowed c called

theorem Composite.WellBuilt.graph_built {c : Composite} (good : c.WellBuilt) : c.graph.Built where
  ordered := good.body.closed.ordered
  typed := good.body.closed.typed
  held := fun found => .inl (good.body.closed.constants found)
  calls := good.callees

namespace Build

variable {α β : Type} {g h : Arena}

theorem exec_typeOf (v : ValueId) (g : Arena) : (typeOf v).exec g = (.ok (g.typeOf v), g) := rfl

theorem exec_isDiscrete (v : ValueId) (g : Arena) :
    (isDiscrete v).exec g = (.ok (g.typeOf v).isDiscrete, g) := rfl

abbrev Gives (g : Arena) (b : Build ValueId) : Prop :=
  b.Grows .client g fun v h => v < h.values.size

abbrev GivesAll (g : Arena) (b : Build (List ValueId)) : Prop :=
  b.Grows .client g fun vs h => h.Knows vs

theorem gives_pure {v : Nat} (known : v < g.values.size) : Gives g (pure v) :=
  grows_pure known

theorem givesAll_pure {vs : List ValueId} (known : g.Knows vs) : GivesAll g (pure vs) :=
  grows_pure known

theorem grows_then {b : Build ValueId} {f : ValueId → Build β} {post : β → Arena → Prop}
    {known : List ValueId} (before : g.Knows known) (first : Gives g b)
    (next : ∀ (v : Nat) h, Growth .client g h → h.Knows (v :: known) → (f v).Grows .client h post) :
    (b >>= f).Grows .client g post := by
  refine grows_bind _ first fun v h growth inside => next v h growth ?_
  rw [Graph.knows_cons]
  exact ⟨inside, growth.toExtends.knows before⟩

theorem gives_typedConstant (literal : Literal) (t : ScalarType) :
    Gives g (typedConstant literal t) := by
  refine (grows_newValue rfl (Policy.client_keepsConstants _ _ _)).weaken ?_
  rintro v h - ⟨rfl, rfl⟩
  simp

theorem gives_constantLike (v : ValueId) (x : Float) : Gives g (constantLike v x) :=
  gives_typedConstant _ _

theorem gives_zeroGradient (v : ValueId) : Gives g (zeroGradient v) :=
  gives_constantLike v 0.0

theorem grows_apply1 {op : Op Composite} (good : ∀ c, op = .call c → c.WellBuilt)
    {inputs : List ValueId} (known : g.Knows inputs) : Gives g (apply1 op inputs) := by
  refine grows_bind _ (grows_apply known good) ?_
  rintro n h - ⟨here, types, -, rfl⟩
  refine grows_bind _ (grows_outputs here) ?_
  rintro outs k - ⟨-, knownOuts, -⟩
  split
  · exact grows_pure ((Graph.knows_cons _ _ _).mp knownOuts).1
  · exact grows_throw

theorem gives_primitive {p : Primitive} {inputs : List ValueId} (known : g.Knows inputs) :
    Gives g (primitive p inputs) :=
  grows_apply1 (by simp) known

theorem Knows.subset {known vs : List ValueId} (before : g.Knows known)
    (among : ∀ v ∈ vs, v ∈ known) : g.Knows vs :=
  fun v member => before v (among v member)

theorem last_primitive {known : List ValueId} (before : g.Knows known) {p : Primitive}
    {inputs : List ValueId} (among : ∀ v ∈ inputs, v ∈ known) : Gives g (primitive p inputs) :=
  gives_primitive (Knows.subset before among)

theorem then_primitive {known : List ValueId} (before : g.Knows known) {p : Primitive}
    {inputs : List ValueId} (among : ∀ v ∈ inputs, v ∈ known) {f : ValueId → Build β}
    {post : β → Arena → Prop}
    (next : ∀ (v : Nat) h, Growth .client g h → h.Knows (v :: known) → (f v).Grows .client h post) :
    (primitive p inputs >>= f).Grows .client g post :=
  grows_then before (last_primitive before among) next

theorem then_constantLike {known : List ValueId} (before : g.Knows known) {v : ValueId} {x : Float}
    {f : ValueId → Build β} {post : β → Arena → Prop}
    (next : ∀ (v : Nat) h, Growth .client g h → h.Knows (v :: known) → (f v).Grows .client h post) :
    (constantLike v x >>= f).Grows .client g post :=
  grows_then before (gives_constantLike v x) next

theorem givesAll_mapM {f : α → Build ValueId} (as : List α)
    (each : ∀ a ∈ as, ∀ h, Growth .client g h → Gives h (f a)) : GivesAll g (as.mapM f) := by
  induction as generalizing g with
  | nil => exact grows_pure (by simp)
  | cons a as ih =>
    rw [List.mapM_cons]
    refine grows_bind _ (each a (by simp) g .refl) ?_
    intro v h growth here
    refine grows_bind _ (ih fun b member k growth' =>
      each b (by simp [member]) k (growth.trans growth')) ?_
    intro vs k growth' known
    refine grows_pure ?_
    rw [Graph.knows_cons]
    exact ⟨Nat.lt_of_lt_of_le here growth'.toExtends.size_le, known⟩

theorem givesAll_inline {c : Composite} (good : c.WellBuilt) {args : List ValueId}
    (known : g.Knows args) : GivesAll g (inline c args) :=
  (grows_inlineWith Policy.client_keepsConstants Composite.specialise_sound
    Policy.client_callsGood good.callees known).weaken fun _ _ _ result => result.1

end Build

open Build

theorem Elementary.gives_gradient (f : Elementary) {g : Arena} {x z gz : Nat}
    (known : g.Knows [gz, z, x]) : Gives g (f.gradient x z gz) := by
  unfold Elementary.gradient
  refine grows_then known (gives_constantLike z 1.0) ?_
  intro one h growth known
  cases f <;> simp only [mul, add, sub, trueDiv, neg, Build.elementary, mulMany]
  all_goals
    repeat
      with_reducible first
      | exact last_primitive known (by simp)
      | apply then_primitive known (by simp)
      | apply then_constantLike known
      try intro v h growth known

theorem Primitive.givesAll_gradient (p : Primitive) {g : Arena} {inputs : List ValueId} {z gz : Nat}
    (known : g.Knows (gz :: z :: inputs)) : GivesAll g (p.gradient inputs z gz) := by
  have zeros : GivesAll g (inputs.mapM zeroGradient) :=
    givesAll_mapM inputs fun v _ h _ => gives_zeroGradient v
  have copies : ∀ {h : Arena} {v : Nat}, v < h.values.size → h.Knows (inputs.map fun _ => v) := by
    intro h v inside w member
    obtain ⟨_, _, rfl⟩ := List.mem_map.mp member
    exact inside
  have given := ((Graph.knows_cons _ _ _).mp known).1
  unfold Primitive.gradient
  -- the cases are the rules in their order; the rules that only apply operations come last
  split
  case h_1 => exact givesAll_pure (copies given)
  case h_2 => exact givesAll_pure (copies given)
  case h_3 =>
    apply givesAll_mapM
    intro k _ h growth
    have known := growth.toExtends.knows known
    simp only [mulMany]
    split
    · exact gives_pure ((Graph.knows_cons _ _ _).mp known).1
    · apply last_primitive known
      intro v member
      rcases List.mem_cons.mp member with rfl | rest
      · simp
      · simp [List.mem_of_mem_eraseIdx rest]
  case h_10 target =>
    split
    · exact zeros
    · split
      · next x _ =>
        simp only [Build.cast]
        apply grows_look_bind (exec_typeOf x g)
        apply then_primitive known (by simp)
        intro converted k _ known
        exact givesAll_pure (Knows.subset known (by simp))
      · exact grows_throw
  case h_12 =>
    simp only [Build.trueDiv]
    apply then_constantLike known
    intro count h _ known
    apply then_primitive known (by simp)
    intro share k _ known
    exact givesAll_pure (copies ((Graph.knows_cons _ _ _).mp known).1)
  case h_14 f x _ =>
    refine grows_then known (f.gives_gradient (Knows.subset known (by simp))) ?_
    intro slope h _ known
    exact givesAll_pure (Knows.subset known (by simp))
  case h_15 => exact zeros
  case h_16 => exact zeros
  case h_17 => exact zeros
  case h_18 => exact zeros
  case h_19 => exact grows_throw
  all_goals
    simp only [Build.mul, Build.add, Build.sub, Build.trueDiv, Build.intDiv, Build.neg, Build.pow,
      Build.switch, Build.elementary, mulMany, zeroGradient]
    repeat
      with_reducible first
      | exact givesAll_pure (Knows.subset known (by simp))
      | apply then_primitive known (by simp)
      | apply then_constantLike known
      try intro v h growth known

def CallGradient.Safe (ofCall : CallGradient) : Prop :=
  ∀ ⦃g : Arena⦄ ⦃c : Composite⦄ ⦃args arriving : List ValueId⦄, g.Built → c.WellBuilt →
    g.Knows args → g.Knows arriving → GivesAll g (ofCall c args arriving)

namespace Build

variable {g : Arena}

theorem givesAll_clearDiscrete {vs gs : List ValueId} (known : g.Knows gs) :
    GivesAll g (clearDiscrete vs gs) := by
  induction vs generalizing g gs with
  | nil =>
    unfold clearDiscrete
    exact givesAll_pure known
  | cons v vs ih =>
    cases gs with
    | nil => exact givesAll_pure known
    | cons first rest =>
      obtain ⟨here, others⟩ := (Graph.knows_cons _ _ _).mp known
      have next : ∀ (w : Nat) h, Growth .client g h → h.Knows (w :: rest) → GivesAll h (do
          let others ← clearDiscrete vs rest
          pure (w :: others)) := by
        intro w h _ known
        obtain ⟨here, others⟩ := (Graph.knows_cons _ _ _).mp known
        refine grows_bind _ (ih others) ?_
        intro ws k growth known
        refine givesAll_pure ?_
        rw [Graph.knows_cons]
        exact ⟨Nat.lt_of_lt_of_le here growth.toExtends.size_le, known⟩
      rw [clearDiscrete]
      apply grows_look_bind (exec_isDiscrete v g)
      simp only
      split
      · exact grows_then others (gives_zeroGradient v) next
      · exact grows_then others (gives_pure here) next

theorem givesAll_gradientWith {ofCall : CallGradient} (safe : ofCall.Safe) (built : g.Built)
    {op : Op Composite} (good : ∀ c, op = .call c → c.WellBuilt)
    {inputs outputs arriving : List ValueId} (operands : g.Knows inputs)
    (results : g.Knows outputs) (known : g.Knows arriving) :
    GivesAll g (op.gradientWith ofCall inputs outputs arriving) := by
  unfold Op.gradientWith
  apply grows_look_bind (exec_get g)
  split
  · exact givesAll_mapM inputs fun v _ h _ => gives_zeroGradient v
  · have cleared : ∀ gs h, Growth .client g h → h.Knows gs → GivesAll h (clearDiscrete inputs gs) :=
      fun gs h _ known => givesAll_clearDiscrete known
    cases op with
    | call c => exact grows_bind _ (safe built (good c rfl) operands known) cleared
    | prim p =>
      simp only
      split
      · refine grows_bind _ (p.givesAll_gradient ?_) cleared
        rw [Graph.knows_cons, Graph.knows_cons]
        exact ⟨((Graph.knows_cons _ _ _).mp known).1, ((Graph.knows_cons _ _ _).mp results).1,
          operands⟩
      · exact grows_bind _ grows_throw cleared

theorem grows_accumulate {gradients : Table ValueId} (copied : Copied gradients g) {v w : Nat}
    (known : w < g.values.size) : (accumulate gradients v w).Grows .client g Copied := by
  unfold accumulate
  split
  · next existing found =>
    refine grows_bind _ (@gives_primitive g .add [existing, w] ?_) ?_
    · rw [Graph.knows_cons, Graph.knows_cons]
      exact ⟨copied v existing found, known, by simp⟩
    · intro total h growth here
      exact grows_pure ((copied.grown growth).insert here)
  · exact grows_pure (copied.insert known)

theorem grows_accumulateAll {pairs : List (ValueId × ValueId)} {gradients : Table ValueId}
    (copied : Copied gradients g) (known : g.Knows (pairs.map Prod.snd)) :
    (accumulateAll gradients pairs).Grows .client g Copied := by
  unfold accumulateAll
  induction pairs generalizing gradients g with
  | nil => exact grows_pure copied
  | cons pair pairs ih =>
    obtain ⟨v, w⟩ := pair
    rw [List.foldlM_cons]
    obtain ⟨here, rest⟩ := (Graph.knows_cons _ _ _).mp known
    refine grows_bind _ (grows_accumulate copied here) ?_
    intro gradients' h growth copied'
    exact ih copied' (growth.toExtends.knows rest)

theorem gives_gradientOf {gradients : Table ValueId} (copied : Copied gradients g) (v : ValueId) :
    Gives g (gradientOf gradients v) := by
  unfold gradientOf
  split
  · next w found => exact gives_pure (copied v w found)
  · exact gives_zeroGradient v

theorem givesAll_gradientsOf {gradients : Table ValueId} (copied : Copied gradients g)
    (vs : List ValueId) : GivesAll g (vs.mapM (gradientOf gradients)) :=
  givesAll_mapM vs fun v _ _ growth => gives_gradientOf (copied.grown growth) v

theorem knows_zip_snd {vs ws : List ValueId} (known : g.Knows ws) :
    g.Knows ((vs.zip ws).map Prod.snd) := by
  intro w member
  obtain ⟨pair, inside, rfl⟩ := List.mem_map.mp member
  exact known _ (List.of_mem_zip inside).2

theorem grows_backNode {ofCall : CallGradient} (safe : ofCall.Safe) (built : g.Built)
    {gradients : Table ValueId} (copied : Copied gradients g) (n : NodeId) :
    (backNode ofCall gradients n).Grows .client g Copied := by
  unfold backNode
  apply grows_look_bind (exec_get g)
  split
  · exact grows_pure copied
  · next node found =>
    split
    · refine grows_bind _ (givesAll_gradientsOf copied node.outputs) ?_
      intro arriving h growth known
      have operands := growth.toExtends.knows (built.ordered.known found)
      have results := growth.toExtends.knows (built.ordered.knows_outputs found)
      refine grows_bind _ (givesAll_gradientWith safe (built.grown growth)
        (fun c called => built.calls found called) operands results known) ?_
      intro contributions k growth' known'
      exact grows_accumulateAll ((copied.grown growth).grown growth') (knows_zip_snd known')
    · exact grows_pure copied

theorem grows_backNodes {ofCall : CallGradient} (safe : ofCall.Safe) (built : g.Built)
    (nodes : List NodeId) {gradients : Table ValueId} (copied : Copied gradients g) :
    (nodes.foldlM (backNode ofCall) gradients).Grows .client g Copied := by
  induction nodes generalizing gradients g with
  | nil => exact grows_pure copied
  | cons n nodes ih =>
    rw [List.foldlM_cons]
    refine grows_bind _ (grows_backNode safe built copied n) ?_
    intro gradients' h growth copied'
    exact ih (built.grown growth) copied'

theorem copied_empty (g : Arena) : Copied .empty g := by
  intro v w found
  simp at found

theorem givesAll_backpropagate {ofCall : CallGradient} (safe : ofCall.Safe) (built : g.Built)
    {seeds : List (ValueId × ValueId)} (known : g.Knows (seeds.map Prod.snd))
    (targets boundary : List ValueId) :
    GivesAll g (backpropagate ofCall seeds targets boundary) := by
  unfold backpropagate
  refine grows_bind _ (grows_accumulateAll (copied_empty g) known) ?_
  intro gradients h growth copied
  apply grows_look_bind (exec_get h)
  refine grows_bind _ (grows_backNodes safe (built.grown growth) _ copied) ?_
  intro gradients' k _ copied'
  exact givesAll_gradientsOf copied' targets

theorem callGradientAt_safe (n : Nat) : (callGradientAt n).Safe := by
  induction n with
  | zero =>
    intro g c args arriving _ _ _ _
    exact givesAll_mapM args fun v _ h _ => gives_zeroGradient v
  | succ n ih =>
    intro g c args arriving built good operands known
    refine grows_bind _ (givesAll_inline good operands) ?_
    intro outputs h growth _
    exact givesAll_backpropagate ih (built.grown growth)
      (knows_zip_snd (growth.toExtends.knows known)) args args

theorem callGradient_safe : callGradient.Safe :=
  fun _ c _ _ built good operands known => callGradientAt_safe c.depth built good operands known

theorem givesAll_gradient (built : g.Built) (cost : ValueId) (targets : List ValueId) :
    GivesAll g (gradient cost targets) := by
  refine grows_bind _ (gives_constantLike cost 1.0) ?_
  intro seed h growth here
  refine givesAll_backpropagate callGradient_safe (built.grown growth) ?_ targets []
  simpa using here

end Build

end ScalarFusion

import ScalarFusion.Proofs.Differentiating
import ScalarFusion.Proofs.TypeKinds

/-!
Gradients can always be built. The gradients that a rule is given are of continuous types, and every
step of every rule joins one of them with whatever it needs, so no step is undefined and the results
are continuous again. Where calls are bound at the types of their operands, their bodies can be
inlined, and the sweep through a body meets such calls only.
-/
namespace ScalarFusion

namespace Graph

variable {g h : Arena}

structure Continuous (g : Arena) (v : ValueId) : Prop where
  known : v < g.values.size
  type : (g.typeOf v).isDiscrete = false

theorem Continuous.grown {v : ValueId} (continuous : g.Continuous v) (grown : g.Extends h) :
    h.Continuous v where
  known := Nat.lt_of_lt_of_le continuous.known grown.size_le
  type := by rw [grown.typeOf continuous.known, continuous.type]

def Bound (g : Arena) : Prop :=
  ∀ ⦃n : NodeId⦄ ⦃node : Node Composite⦄ ⦃c : Composite⦄, g.nodes[n]? = some node →
    node.op = .call c → node.inputs.map g.typeOf = c.inputTypes

theorem Bound.grown {P : Composite → Prop} (bound : g.Bound) (ordered : g.Ordered)
    (growth : Growth (.body P) g h) : h.Bound := by
  intro n node c here called
  rcases growth.node_cases here ordered with old | ⟨-, -, allowed⟩
  · rw [growth.toExtends.map_typeOf (ordered.known old), bound old called]
  · exact (allowed c called).2

structure Sound (g : Arena) : Prop where
  built : g.Built
  bound : g.Bound

structure Has (g : Arena) (cs vs : List ValueId) : Prop where
  continuous : ∀ c ∈ cs, g.Continuous c
  known : g.Knows vs

theorem Has.grown {cs vs : List ValueId} (has : g.Has cs vs) (grown : g.Extends h) : h.Has cs vs :=
  ⟨fun c member => (has.continuous c member).grown grown, grown.knows has.known⟩

end Graph

abbrev Policy.gradient : Policy :=
  .body Composite.WellBuilt

theorem Policy.client_leaf_of_gradient {x : Value} (allowed : Policy.gradient.leaf x) :
    Policy.client.leaf x := by
  obtain ⟨type, literal, name, rfl⟩ := allowed
  exact Policy.client_keepsConstants type literal name

theorem Growth.client_of_gradient {g h : Arena} (growth : Growth .gradient g h) :
    Growth .client g h :=
  growth.mono (fun _ => Policy.client_leaf_of_gradient) fun _ _ => And.left

theorem Graph.Sound.grown {g h : Arena} (sound : g.Sound) (growth : Growth .gradient g h) :
    h.Sound where
  built := sound.built.grown growth.client_of_gradient
  bound := sound.bound.grown sound.built.ordered growth

namespace Build

variable {α β : Type} {g h : Arena}

theorem yields_of_outputType {p : Primitive} {inputs : List ValueId} {t : ScalarType}
    (some_input : inputs ≠ []) (known : g.Knows inputs)
    (typed : p.outputType (inputs.map g.typeOf) g.config = .ok t) :
    Yields .gradient g (primitive p inputs) fun v h => v < h.values.size ∧ h.typeOf v = t := by
  have nonempty : inputs = [] → (Op.prim p : Op Composite) = .prim .mean :=
    fun none => absurd none some_input
  have typed' : (Op.prim p).outputTypes (inputs.map g.typeOf) g.config = .ok [t] := by
    rw [Op.outputTypes, typed]
    rfl
  refine ⟨_, _, exec_apply1 nonempty typed', .node .refl known nonempty typed' (by simp), ?_, ?_⟩
  · simp
  · simpa using g.pushNode_types (.prim p) inputs [t]

section Steps

variable {cs vs inputs : List ValueId} {f : ValueId → Build β} {post : β → Arena → Prop}

theorem knows_among (has : g.Has cs vs) (among : ∀ v ∈ inputs, v ∈ cs ∨ v ∈ vs) : g.Knows inputs := by
  intro v member
  rcases among v member with inside | inside
  · exact (has.continuous v inside).known
  · exact has.known v inside

theorem last_joined (has : g.Has cs vs) {p : Primitive} (joins : p.joinsTypes = true)
    (admitted : p.arity.admits inputs.length = true) (among : ∀ v ∈ inputs, v ∈ cs ∨ v ∈ vs)
    (continuous : ∃ v ∈ inputs, v ∈ cs) :
    Yields .gradient g (primitive p inputs) fun v h => h.Continuous v := by
  obtain ⟨v, input, inside⟩ := continuous
  have some_input : inputs ≠ [] := List.ne_nil_of_mem input
  obtain ⟨t, typed, type⟩ := Primitive.outputType_of_continuous joins
    (by rwa [List.length_map] : p.arity.admits (inputs.map g.typeOf).length = true)
    ⟨_, List.mem_map_of_mem input, (has.continuous v inside).type⟩ g.config
  refine (yields_of_outputType some_input (knows_among has among) typed).weaken ?_
  rintro w h - ⟨known, rfl⟩
  exact ⟨known, type⟩

theorem then_joined (has : g.Has cs vs) {p : Primitive} (joins : p.joinsTypes = true)
    (admitted : p.arity.admits inputs.length = true) (among : ∀ v ∈ inputs, v ∈ cs ∨ v ∈ vs)
    (continuous : ∃ v ∈ inputs, v ∈ cs)
    (next : ∀ v h, h.Has (v :: cs) vs → Yields .gradient h (f v) post) :
    Yields .gradient g (primitive p inputs >>= f) post := by
  refine yields_bind _ (last_joined has joins admitted among continuous) ?_
  intro v h growth here
  have has' := has.grown growth.toExtends
  exact next v h ⟨List.forall_mem_cons.mpr ⟨here, has'.continuous⟩, has'.known⟩

theorem then_total (has : g.Has cs vs) {p : Primitive} (total : p = .add ∨ p = .mul ∨ p = .intDiv)
    (some_input : inputs ≠ []) (admitted : p.arity.admits inputs.length = true)
    (among : ∀ v ∈ inputs, v ∈ cs ∨ v ∈ vs)
    (next : ∀ v h, h.Has cs (v :: vs) → Yields .gradient h (f v) post) :
    Yields .gradient g (primitive p inputs >>= f) post := by
  obtain ⟨t, typed⟩ := Primitive.exists_outputType total
    (by simpa using some_input : inputs.map g.typeOf ≠ []) (by simpa using admitted) g.config
  refine yields_bind _ (yields_of_outputType some_input (knows_among has among) typed) ?_
  rintro v h growth ⟨here, -⟩
  have has' := has.grown growth.toExtends
  exact next v h ⟨has'.continuous, (Graph.knows_cons _ _ _).mpr ⟨here, has'.known⟩⟩

theorem then_elementary (has : g.Has cs vs) {e : Elementary} {x : ValueId} (among : x ∈ cs ∨ x ∈ vs)
    (next : ∀ v h, h.Has (v :: cs) vs → Yields .gradient h (f v) post) :
    Yields .gradient g (elementary e x >>= f) post := by
  have typed : (Primitive.elementary e).outputType ([x].map g.typeOf) g.config =
    .ok (g.typeOf x).upgrade := rfl
  have known : g.Knows [x] := knows_among has (by simpa using among)
  refine yields_bind _ (yields_of_outputType (List.cons_ne_nil x []) known typed) ?_
  rintro v h growth ⟨here, type⟩
  have has' := has.grown growth.toExtends
  refine next v h ⟨List.forall_mem_cons.mpr ⟨⟨here, ?_⟩, has'.continuous⟩, has'.known⟩
  rw [type, ScalarType.isDiscrete_upgrade]

theorem yields_constantLike_continuous (v : ValueId) (x : Float) :
    Yields .gradient g (constantLike v x) fun c h => h.Continuous c := by
  let t := if (g.typeOf v).isDiscrete then g.config.floatType else g.typeOf v
  have continuous : t.isDiscrete = false := by
    unfold t
    split
    · rfl
    · next type => simpa using type
  refine ⟨g.values.size, g.pushValue ⟨t, .constant ((Literal.float x).cast t) none⟩, rfl,
    .leaf .refl rfl ⟨t, _, none, rfl⟩, by simp, ?_⟩
  simpa [Graph.typeOf] using continuous

theorem then_constantLike_continuous (has : g.Has cs vs) {v : ValueId} {x : Float}
    (next : ∀ c h, h.Has (c :: cs) vs → Yields .gradient h (f c) post) :
    Yields .gradient g (constantLike v x >>= f) post := by
  refine yields_bind _ (yields_constantLike_continuous v x) ?_
  intro c h growth here
  have has' := has.grown growth.toExtends
  exact next c h ⟨List.forall_mem_cons.mpr ⟨here, has'.continuous⟩, has'.known⟩

end Steps

abbrev Gradients (vs : List ValueId) (gs : List ValueId) (h : Arena) : Prop :=
  gs.length = vs.length ∧ ∀ c ∈ gs, h.Continuous c

theorem yields_each {b : α → Build ValueId} (as : List α)
    (each : ∀ a ∈ as, ∀ h, Growth .gradient g h →
      Yields .gradient h (b a) fun c k => k.Continuous c) :
    Yields .gradient g (as.mapM b) fun gs h => gs.length = as.length ∧ ∀ c ∈ gs, h.Continuous c := by
  refine (yields_mapM as (fun _ _ _ _ here growth => here.grown growth.toExtends) each).weaken ?_
  intro gs h _ related
  refine ⟨related.length_eq.symm, fun c member => ?_⟩
  obtain ⟨_, -, here⟩ := exists_image_of_mem related.flip member
  exact here

theorem yields_zeros (vs : List ValueId) :
    Yields .gradient g (vs.mapM zeroGradient) (Gradients vs) :=
  yields_each vs fun v _ _ _ => yields_constantLike_continuous v 0.0

end Build

open Build

theorem Elementary.yields_continuous (f : Elementary) {g : Arena} {x z gz : ValueId}
    (has : g.Has [gz, z, x] []) :
    Yields .gradient g (f.gradient x z gz) fun c h => h.Continuous c := by
  unfold Elementary.gradient
  refine then_constantLike_continuous has ?_
  intro one h has
  cases f <;> simp only [mul, add, sub, trueDiv, neg, mulMany]
  all_goals
    repeat
      with_reducible first
      | exact last_joined has rfl rfl (by simp) (by simp)
      | apply then_joined has rfl rfl (by simp) (by simp)
      | apply then_elementary has (by simp)
      | apply then_constantLike_continuous has
      try intro v h has

namespace Build

variable {g : Arena} {cs vs : List ValueId} {β : Type} {f : ValueId → Build β}
  {post : β → Arena → Prop}

theorem then_switch (has : g.Has cs vs) {c x y : ValueId} (among : ∀ v ∈ [c, x, y], v ∈ cs ∨ v ∈ vs)
    (continuous : x ∈ cs) (next : ∀ v h, h.Has (v :: cs) vs → Yields .gradient h (f v) post) :
    Yields .gradient g (switch c x y >>= f) post := by
  have branch : ∃ t ∈ [g.typeOf x, g.typeOf y], t.isDiscrete = false :=
    ⟨_, by simp, (has.continuous x continuous).type⟩
  obtain ⟨t, joined, type⟩ := ScalarType.exists_upcast branch
  have typed : Primitive.switch.outputType ([c, x, y].map g.typeOf) g.config = .ok t := by
    show Primitive.switch.joined [g.typeOf x, g.typeOf y] = .ok t
    rw [Primitive.joined, joined]
  refine yields_bind _ (yields_of_outputType (List.cons_ne_nil c _) (knows_among has among) typed) ?_
  rintro v h growth ⟨here, rfl⟩
  have has' := has.grown growth.toExtends
  exact next v h ⟨List.forall_mem_cons.mpr ⟨⟨here, type⟩, has'.continuous⟩, has'.known⟩

theorem yields_gradients (has : g.Has cs vs) {inputs gs : List ValueId}
    (length : gs.length = inputs.length) (among : ∀ c ∈ gs, c ∈ cs) :
    Yields .gradient g (pure gs) (Gradients inputs) :=
  yields_pure ⟨length, fun c member => has.continuous c (among c member)⟩

end Build

theorem Primitive.yields_continuous (p : Primitive) {g : Arena} {inputs : List ValueId}
    {z gz : ValueId} (known : g.Knows (z :: inputs))
    (typed : p.outputType (inputs.map g.typeOf) g.config = .ok (g.typeOf z))
    (continuous : ∃ v ∈ inputs, (g.typeOf v).isDiscrete = false) (arrives : g.Continuous gz) :
    Yields .gradient g (p.gradient inputs z gz) (Gradients inputs) := by
  have admitted := admits_of_outputType typed
  rw [List.length_map] at admitted
  have has : g.Has [gz] (z :: inputs) := ⟨by simpa using arrives, known⟩
  have copies : ∀ {h : Arena} {c : ValueId}, h.Continuous c →
      Yields .gradient h (pure (inputs.map fun _ => c)) (Gradients inputs) := by
    intro h c here
    refine yields_pure ⟨by simp, fun d member => ?_⟩
    obtain ⟨_, _, rfl⟩ := List.mem_map.mp member
    exact here
  -- Every link of a rule is joined with the arriving gradient or one made of it. This is
  -- why a continuous type is kept all along, and why no link is refused.
  cases p with
  | add => exact copies arrives
  | identity => exact copies arrives
  | mul =>
    refine (yields_each (List.range inputs.length) fun k _ h growth => ?_).weaken ?_
    · have has := has.grown growth.toExtends
      simp only [mulMany]
      split
      · exact yields_pure (has.continuous gz (by simp))
      · refine last_joined has rfl (by simp [arity, Arity.admits]) ?_ (by simp)
        intro v member
        rcases List.mem_cons.mp member with rfl | rest
        · simp
        · simp [List.mem_of_mem_eraseIdx rest]
    · rintro gs h - ⟨length, each⟩
      exact ⟨by simpa using length, each⟩
  | sub =>
    obtain ⟨x, y, rfl⟩ := Arity.exists_two admitted
    refine then_joined has rfl rfl (by simp) (by simp) ?_
    intro negated h has
    exact yields_gradients has rfl (by simp)
  | neg =>
    obtain ⟨x, rfl⟩ := Arity.exists_one admitted
    refine then_joined has rfl rfl (by simp) (by simp) ?_
    intro negated h has
    exact yields_gradients has rfl (by simp)
  | trueDiv =>
    obtain ⟨x, y, rfl⟩ := Arity.exists_two admitted
    refine then_joined has rfl rfl (by simp) (by simp) fun gx h has => ?_
    refine then_joined has rfl rfl (by simp) (by simp) fun scaled h has => ?_
    refine then_total has (by simp) (by simp) rfl (by simp) fun square h has => ?_
    refine then_joined has rfl rfl (by simp) (by simp) fun ratio h has => ?_
    refine then_joined has rfl rfl (by simp) (by simp) fun gy h has => ?_
    exact yields_gradients has rfl (by simp)
  | mod =>
    obtain ⟨x, y, rfl⟩ := Arity.exists_two admitted
    refine then_total has (by simp) (by simp) rfl (by simp) fun quotient h has => ?_
    refine then_joined has rfl rfl (by simp) (by simp) fun scaled h has => ?_
    refine then_joined has rfl rfl (by simp) (by simp) fun gy h has => ?_
    exact yields_gradients has rfl (by simp)
  | pow =>
    obtain ⟨x, y, rfl⟩ := Arity.exists_two admitted
    refine then_constantLike_continuous has fun one h has => ?_
    refine then_joined has rfl rfl (by simp) (by simp) fun lower h has => ?_
    refine then_joined has rfl rfl (by simp) (by simp) fun power h has => ?_
    refine then_joined has rfl rfl (by simp) (by simp) fun gx h has => ?_
    refine then_elementary has (by simp) fun ln h has => ?_
    refine then_joined has rfl rfl (by simp) (by simp) fun gy h has => ?_
    exact yields_gradients has rfl (by simp)
  | reciprocal =>
    obtain ⟨x, rfl⟩ := Arity.exists_one admitted
    refine then_total has (by simp) (by simp) rfl (by simp) fun square h has => ?_
    refine then_joined has rfl rfl (by simp) (by simp) fun ratio h has => ?_
    refine then_joined has rfl rfl (by simp) (by simp) fun gx h has => ?_
    exact yields_gradients has rfl (by simp)
  | cast target =>
    obtain ⟨x, rfl⟩ := Arity.exists_one admitted
    have operand : (g.typeOf x).isDiscrete = false := by simpa using continuous
    simp only [Primitive.gradient]
    split
    · refine then_constantLike_continuous has fun gx h has => ?_
      exact yields_gradients has rfl (by simp)
    · apply yields_look_bind (exec_typeOf x g)
      have typed : (Primitive.cast (g.typeOf x)).outputType ([gz].map g.typeOf) g.config =
        .ok (g.typeOf x) := rfl
      refine yields_bind _ (yields_of_outputType (List.cons_ne_nil gz [])
        (knows_among has (by simp)) typed) ?_
      rintro gx h - ⟨here, type⟩
      exact yields_pure ⟨rfl, by simpa using ⟨here, type ▸ operand⟩⟩
  | switch =>
    obtain ⟨c, x, y, rfl⟩ := Arity.exists_three admitted
    refine then_constantLike_continuous has fun off h has => ?_
    refine then_switch has (by simp) (by simp) fun ga h has => ?_
    refine then_switch has (by simp) (by simp) fun gb h has => ?_
    refine then_constantLike_continuous has fun gc h has => ?_
    exact yields_gradients has rfl (by simp)
  | mean =>
    refine then_constantLike_continuous has fun count h has => ?_
    refine yields_bind _ (last_joined has rfl rfl (by simp) (by simp)) ?_
    intro share k _ here
    exact copies here
  | arctan2 =>
    obtain ⟨y, x, rfl⟩ := Arity.exists_two admitted
    refine then_total has (by simp) (by simp) rfl (by simp) fun yy h has => ?_
    refine then_total has (by simp) (by simp) rfl (by simp) fun xx h has => ?_
    refine then_total has (by simp) (by simp) rfl (by simp) fun norm h has => ?_
    refine then_joined has rfl rfl (by simp) (by simp) fun gzx h has => ?_
    refine then_joined has rfl rfl (by simp) (by simp) fun gy h has => ?_
    refine then_joined has rfl rfl (by simp) (by simp) fun gzy h has => ?_
    refine then_joined has rfl rfl (by simp) (by simp) fun ratio h has => ?_
    refine then_joined has rfl rfl (by simp) (by simp) fun gx h has => ?_
    exact yields_gradients has rfl (by simp)
  | elementary f =>
    obtain ⟨x, rfl⟩ := Arity.exists_one admitted
    have operand : g.Continuous x := ⟨known x (by simp), by simpa using continuous⟩
    have output : g.Continuous z := ⟨known z (by simp), isDiscrete_of_elementary typed⟩
    refine yields_bind _ (f.yields_continuous (x := x) (z := z) ⟨?_, by simp⟩) ?_
    · simpa using ⟨arrives, output, operand⟩
    · intro gx h _ here
      exact yields_pure ⟨rfl, by simpa using here⟩
  | intDiv | compare _ | bitwise _ | inRange _ _ => exact yields_zeros inputs

def CallGradient.Total (ofCall : CallGradient) : Prop :=
  ∀ ⦃g : Arena⦄ ⦃c : Composite⦄ ⦃args arriving : List ValueId⦄, g.Sound → c.WellBuilt →
    g.Knows args → args.map g.typeOf = c.inputTypes → Gradients c.outputs arriving g →
      Yields .gradient g (ofCall c args arriving) (Gradients args)

def Table.Continuous (t : Table ValueId) (g : Arena) : Prop :=
  ∀ v w, t.get? v = some w → g.Continuous w

theorem Table.Continuous.grown {t : Table ValueId} {g h : Arena} (continuous : t.Continuous g)
    (grown : g.Extends h) : t.Continuous h :=
  fun v w found => (continuous v w found).grown grown

theorem Table.Continuous.insert {t : Table ValueId} {g : Arena} (continuous : t.Continuous g)
    {w : ValueId} (here : g.Continuous w) (v : ValueId) : (t.insert v w).Continuous g := by
  intro u x found
  rcases Table.insert_cases found with ⟨-, rfl⟩ | old
  · exact here
  · exact continuous u x old

namespace Build

variable {g : Arena} {ofCall : CallGradient} {t : Table ValueId}

theorem yields_clearDiscrete {vs gs : List ValueId} (each : ∀ c ∈ gs, g.Continuous c) :
    Yields .gradient g (clearDiscrete vs gs) (Gradients gs) := by
  induction vs generalizing g gs with
  | nil =>
    unfold clearDiscrete
    exact yields_pure ⟨rfl, each⟩
  | cons v vs ih =>
    cases gs with
    | nil => exact yields_pure ⟨rfl, each⟩
    | cons first rest =>
      obtain ⟨here, others⟩ := List.forall_mem_cons.mp each
      have next : ∀ w h, Growth .gradient g h → h.Continuous w → Yields .gradient h (do
          let others ← clearDiscrete vs rest
          pure (w :: others)) (Gradients (first :: rest)) := by
        intro w h growth cleared
        refine yields_bind _ (ih fun c member => (others c member).grown growth.toExtends) ?_
        rintro ws k growth' ⟨length, each⟩
        refine yields_pure ⟨by simp [length], List.forall_mem_cons.mpr ⟨?_, each⟩⟩
        exact cleared.grown growth'.toExtends
      rw [clearDiscrete]
      apply yields_look_bind (exec_isDiscrete v g)
      simp only
      split
      · exact yields_bind _ (yields_constantLike_continuous v 0.0) next
      · exact yields_bind _ (yields_pure here) next

theorem yields_operands (total : ofCall.Total) (sound : g.Sound) {n : NodeId}
    {node : Node Composite} (here : g.nodes[n]? = some node) {arriving : List ValueId}
    (arrives : Gradients node.outputs arriving g) :
    Yields .gradient g (node.op.gradientWith ofCall node.inputs node.outputs arriving)
      (Gradients node.inputs) := by
  have ordered := sound.built.ordered
  have operands := ordered.known here
  have cleared : ∀ gs h, Growth .gradient g h → Gradients node.inputs gs h →
      Yields .gradient h (clearDiscrete node.inputs gs) (Gradients node.inputs) := by
    rintro gs h - ⟨length, each⟩
    refine (yields_clearDiscrete each).weaken ?_
    rintro cs k - ⟨length', each'⟩
    exact ⟨length'.trans length, each'⟩
  unfold Op.gradientWith
  apply yields_look_bind (exec_get g)
  split
  · exact yields_zeros node.inputs
  · next mixed =>
    -- where all operands are discrete only zeros are built, so
    -- that the rule is asked with a continuous one
    cases op : node.op with
    | call c =>
      have counted := Op.length_outputTypes (sound.built.typed.types here)
      rw [op, List.length_map] at counted
      exact yields_bind _ (total sound (sound.built.calls here op) operands (sound.bound here op)
        ⟨arrives.1.trans counted, arrives.2⟩) cleared
    | prim p =>
      obtain ⟨z, outputs, typed⟩ := sound.built.typed.primitive here op
      obtain ⟨length, each⟩ := arrives
      rw [outputs] at length ⊢
      obtain ⟨gz, rfl⟩ := List.length_eq_one_iff.mp length
      have continuous : ∃ v ∈ node.inputs, (g.typeOf v).isDiscrete = false := by
        simpa using mixed
      have output : z < g.values.size := ordered.knows_outputs here z (by simp [outputs])
      refine yields_bind _ (p.yields_continuous ?_ typed continuous (each gz (by simp))) cleared
      exact (Graph.knows_cons _ _ _).mpr ⟨output, operands⟩

theorem yields_accumulated (holds : t.Continuous g) {v c : ValueId} (here : g.Continuous c) :
    Yields .gradient g (accumulate t v c) Table.Continuous := by
  unfold accumulate
  split
  · next existing found =>
    have has : g.Has [existing, c] [] := ⟨by simpa using ⟨holds v existing found, here⟩, by simp⟩
    refine yields_bind _ (last_joined (p := .add) has rfl rfl (by simp) (by simp)) ?_
    intro total h growth sum
    exact yields_pure ((holds.grown growth.toExtends).insert sum v)
  · exact yields_pure (holds.insert here v)

theorem yields_accumulatedAll {pairs : List (ValueId × ValueId)} (holds : t.Continuous g)
    (each : ∀ pair ∈ pairs, g.Continuous pair.2) :
    Yields .gradient g (accumulateAll t pairs) Table.Continuous := by
  unfold accumulateAll
  induction pairs generalizing t g with
  | nil => exact yields_pure holds
  | cons pair pairs ih =>
    obtain ⟨here, rest⟩ := List.forall_mem_cons.mp each
    rw [List.foldlM_cons]
    refine yields_bind _ (yields_accumulated holds here) ?_
    intro t' h growth holds'
    exact ih holds' fun pair member => (rest pair member).grown growth.toExtends

theorem yields_gradientsOf (holds : t.Continuous g) (vs : List ValueId) :
    Yields .gradient g (vs.mapM (gradientOf t)) (Gradients vs) := by
  refine yields_each vs fun v _ h growth => ?_
  unfold gradientOf
  split
  · next w found => exact yields_pure ((holds v w found).grown growth.toExtends)
  · exact yields_constantLike_continuous v 0.0

theorem yields_swept (total : ofCall.Total) (sound : g.Sound) (holds : t.Continuous g) (n : NodeId) :
    Yields .gradient g (backNode ofCall t n) Table.Continuous := by
  unfold backNode
  apply yields_look_bind (exec_get g)
  split
  · exact yields_pure holds
  · next node found =>
    split
    · refine yields_bind _ (yields_gradientsOf holds node.outputs) ?_
      intro arriving h growth arrives
      refine yields_bind _ (yields_operands total (sound.grown growth)
        (growth.toExtends.node found) arrives) ?_
      rintro contributions k growth' ⟨-, each⟩
      refine yields_accumulatedAll ((holds.grown growth.toExtends).grown growth'.toExtends) ?_
      exact fun pair member => each pair.2 (List.of_mem_zip member).2
    · exact yields_pure holds

theorem yields_sweptAll (total : ofCall.Total) (sound : g.Sound) (nodes : List NodeId)
    (holds : t.Continuous g) :
    Yields .gradient g (nodes.foldlM (backNode ofCall) t) Table.Continuous := by
  induction nodes generalizing t g with
  | nil => exact yields_pure holds
  | cons n nodes ih =>
    rw [List.foldlM_cons]
    refine yields_bind _ (yields_swept total sound holds n) ?_
    intro t' h growth holds'
    exact ih (sound.grown growth) holds'

theorem yields_sweep (total : ofCall.Total) (sound : g.Sound) {seeds : List (ValueId × ValueId)}
    (each : ∀ seed ∈ seeds, g.Continuous seed.2) (targets boundary : List ValueId) :
    Yields .gradient g (backpropagate ofCall seeds targets boundary) (Gradients targets) := by
  unfold backpropagate
  have start : Table.Continuous .empty g := by
    intro v w found
    simp at found
  refine yields_bind _ (yields_accumulatedAll start each) ?_
  intro t h growth holds
  apply yields_look_bind (exec_get h)
  refine yields_bind _ (yields_sweptAll total (sound.grown growth) _ holds) ?_
  intro t' k _ holds'
  exact yields_gradientsOf holds' targets

theorem yields_inlined {c : Composite} (sound : g.Sound) (good : c.WellBuilt) {args : List ValueId}
    (known : g.Knows args) (types : args.map g.typeOf = c.inputTypes) :
    Yields .gradient g (inline c args) fun outs _ => outs.length = c.outputCount := by
  obtain ⟨outs, h, run⟩ := good.exists_inline sound.built.ordered known
    (by rw [types]; exact List.forall₂_same.mpr fun t _ => .refl t)
  obtain ⟨growth, -, length, -⟩ := (grows_inlineWith (Policy.body_keepsConstants _)
    Composite.specialise_sound (Policy.body_callsGood _) good.callees known).of_ok run
  exact ⟨outs, h, run, growth, length⟩

theorem callGradientAt_total (n : Nat) : (callGradientAt n).Total := by
  induction n with
  | zero =>
    intro g c args arriving _ _ _ _ _
    exact yields_zeros args
  | succ n ih =>
    intro g c args arriving sound good known types arrives
    refine yields_bind _ (yields_inlined sound good known types) ?_
    intro outs h growth _
    refine yields_sweep ih (sound.grown growth) ?_ args args
    exact fun seed member => (arrives.2 _ (List.of_mem_zip member).2).grown growth.toExtends

theorem callGradient_total : callGradient.Total :=
  fun _ c _ _ sound good known types arrives =>
    callGradientAt_total c.depth sound good known types arrives

theorem yields_gradient_continuous (sound : g.Sound) (cost : ValueId) (targets : List ValueId) :
    Yields .gradient g (gradient cost targets) (Gradients targets) := by
  refine yields_bind _ (yields_constantLike_continuous cost 1.0) ?_
  intro seed h growth here
  exact yields_sweep callGradient_total (sound.grown growth) (by simpa using here) targets []

end Build

end ScalarFusion

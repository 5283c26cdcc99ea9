import ScalarFusion.Proofs.HalfFree
import ScalarFusion.Proofs.Leftovers

/-!
Bodies without leftovers. A pass that dissolves a call leaves the arguments over that the callee
ignores. If no callee of one output ignores an input, as deep as calls are dissolved, every pass
keeps the copy free of leftovers, and so do fusing and adapting to other types. Narrowing dissolves
nothing and leaves nothing over in any case.
-/
namespace ScalarFusion

namespace Composite

/-- Dissolving leaves nothing over: a composite with several outputs stays a call, and one with a
    single output heeds its inputs and calls what is frugal itself. -/
def frugal : Composite → Bool :=
  fold fun e => e.outputs.length != 1 || (decide e.Heeds && e.callees.all Prod.snd)

theorem frugal_iff {c : Composite} : c.frugal = true ↔
    (c.outputCount = 1 → c.body.Heeds ∧ ∀ d ∈ c.body.callees, d.frugal = true) := by
  have unfolded : c.frugal = (c.outputs.length != 1 ||
      (decide (c.body.map fun d => (d, d.frugal)).Heeds && c.body.callees.all frugal)) := by
    rw [frugal, fold_eq, ← frugal, Expression.callees_map, List.all_map]
    rfl
  rw [unfolded]
  simp only [Expression.heeds_map, outputCount, Bool.or_eq_true, bne_iff_ne, Bool.and_eq_true,
    decide_eq_true_eq, List.all_eq_true, ne_eq, imp_iff_not_or]

/-- Every value of the arena is one of the body. -/
def Trim (c : Composite) : Prop :=
  ∀ v : Nat, v < c.graph.values.size → v ∈ c.body.values

def Spares (P : Composite → Prop) (c : Composite) : Prop :=
  P c ∧ c.frugal = true

theorem dissolves_of_frugal {P : Composite → Prop} {c : Composite} (sourced : c.body.Sourced)
    (calls : c.graph.Calls P) (frugal : c.frugal = true) (single : c.outputCount = 1) :
    c.Dissolves (Spares P) := by
  obtain ⟨heeds, callees⟩ := frugal_iff.mp frugal single
  exact ⟨sourced, fun d member => ⟨calls.callee member, callees d member⟩, single, heeds⟩

end Composite

structure Specialiser.Thrifty (σ : Specialiser) (P : Composite → Prop) : Prop where
  sound : σ.Sound P
  tidy : ∀ c, P c → c.body.Tidy
  hereditary : ∀ c, P c → c.graph.Calls P
  frugal : ∀ ⦃c : Composite⦄ ⦃types : List ScalarType⦄ ⦃d : Composite⦄, P c → c.frugal = true →
    types.length = c.inputCount → σ c types = .ok d → d.frugal = true

variable {P : Composite → Prop} {σ : Specialiser}

theorem Specialiser.Thrifty.sound_frugal (thrifty : σ.Thrifty P) :
    σ.Sound (Composite.Spares P) := by
  intro c types d good arity success
  obtain ⟨good', adapts⟩ := thrifty.sound good.1 arity success
  exact ⟨⟨good', thrifty.frugal good.1 good.2 arity success⟩, adapts⟩

namespace Expression

/-- Dissolving leaves nothing over, if what it dissolves does not. -/
theorem dissolve_whole (sound : σ.Sound P) {e : Expression Composite} (ordered : e.graph.Ordered)
    (typed : e.graph.Typed) (walks : e.graph.Walks e.inputs e.outputs [] e.order)
    (good : ∀ d ∈ e.callees, P d) {calls : List NodeId}
    (dissolves : ∀ n ∈ calls, ∀ node c, (n, node) ∈ e.nodes → node.op = .call c → c.Dissolves P)
    {copy : Copy} (success : e.dissolve σ calls = .ok copy) :
    copy.Whole P ∧ (e.Sourced → e.Heeds → copy.graph.Heeds copy.inputs copy.outputs) := by
  refine rebuild_whole ordered walks (fun n node member => ?_) success
  have placed := Build.passes_placeNode sound typed good member
  cases op : node.op with
  | prim p => rwa [op] at placed
  | call c =>
    by_cases marked : n ∈ calls
    · have dissolves := dissolves n marked node c member op
      have single : node.outputs.length = 1 := by
        rw [typed.length_outputs_eq (mem_nodes.mp member).2, op]
        exact dissolves.single
      simp only [if_pos ((mem_marked calls n).mpr marked), single]
      exact dissolves.passes sound
    · simp only [if_neg (fun entry => marked ((mem_marked calls n).mp entry))]
      rwa [op] at placed

end Expression

namespace Specialiser.Thrifty

theorem pass (thrifty : σ.Thrifty P) {e : Expression Composite} (ordered : e.graph.Ordered)
    (typed : e.graph.Typed) (walks : e.graph.Walks e.inputs e.outputs [] e.order)
    (good : ∀ d ∈ e.callees, d.Spares P) {copy : Copy}
    (success : e.dissolve σ e.dissolvable = .ok copy) :
    copy.Whole (Composite.Spares P) ∧
      (e.Sourced → e.Heeds → copy.graph.Heeds copy.inputs copy.outputs) := by
  refine Expression.dissolve_whole thrifty.sound_frugal ordered typed walks good ?_ success
  intro n marked node c member called
  obtain ⟨fine, frugal⟩ := good c (Expression.mem_callees.mpr ⟨n, node, member, called⟩)
  exact Composite.dissolves_of_frugal (thrifty.tidy c fine).sourced (thrifty.hereditary c fine)
    frugal (Expression.outputCount_of_dissolvable marked member called)

theorem flatten_whole (thrifty : σ.Thrifty P) {config : Config} {types : List ScalarType}
    {count : Nat} (fuel : Nat) {copy flat : Copy} (sound : copy.Sound P config types count)
    (whole : copy.Whole (Composite.Spares P)) (success : copy.flatten σ fuel = .ok flat) :
    flat.Whole (Composite.Spares P) ∧
      (copy.graph.Heeds copy.inputs copy.outputs → flat.graph.Heeds flat.inputs flat.outputs) := by
  induction fuel generalizing copy with
  | zero =>
    obtain rfl := Except.ok.inj success
    exact ⟨whole, id⟩
  | succ fuel ih =>
    rw [Copy.flatten] at success
    obtain ⟨e, expression, rest⟩ := bind_eq_ok success
    simp only at rest
    split at rest
    · obtain rfl := Except.ok.inj rest
      exact ⟨whole, id⟩
    · next some =>
      obtain ⟨next, dissolved, again⟩ := bind_eq_ok rest
      obtain ⟨sound', -⟩ := sound.pass thrifty.sound thrifty.hereditary expression
        (by simpa using some) dissolved
      have sourced : e.Sourced := .of_expression sound.closed sound.known expression
      obtain ⟨graph, inputs, outputs⟩ := Graph.expression_eq expression
      obtain ⟨calls, kept⟩ := whole
      rw [← graph] at calls
      rw [← graph, ← outputs] at kept
      obtain ⟨whole', heeds⟩ := thrifty.pass sourced.closed.ordered sourced.closed.typed
        sourced.walks (fun d member => calls.callee member) dissolved
      obtain ⟨final, heeds'⟩ := ih sound' whole' again
      refine ⟨final, fun start => heeds' (heeds sourced ?_)⟩
      rw [← graph, ← inputs, ← outputs] at start
      exact sourced.heeds_of_kept kept start

theorem fuseWith_trim (thrifty : σ.Thrifty P) {g : Arena} (ordered : g.Ordered) (typed : g.Typed)
    (calls : g.Calls P) {inputs outputs : List ValueId} (known : g.Knows outputs)
    {e : Expression Composite} (expression : g.expression inputs.eraseDups outputs = .ok e)
    (frugal : ∀ d ∈ e.callees, d.frugal = true) {c : Composite}
    (success : g.fuseWith σ inputs outputs = .ok c) :
    c.Trim ∧ (∀ d ∈ c.body.callees, d.frugal = true) ∧ (e.Sourced → e.Heeds → c.body.Heeds) := by
  have walks := Graph.walks_of_expression ordered known expression
  obtain ⟨rfl, inputs_eq, outputs_eq⟩ := Graph.expression_eq expression
  rw [← inputs_eq, ← outputs_eq] at walks
  have good : ∀ d ∈ e.callees, d.Spares P := fun d member =>
    ⟨calls.callee member, frugal d member⟩
  unfold Graph.fuseWith at success
  split at success
  · cases success
  · obtain ⟨e', expression', success⟩ := bind_eq_ok success
    obtain rfl := Except.ok.inj (expression.symm.trans expression')
    obtain ⟨copy, dissolved, success⟩ := bind_eq_ok success
    obtain ⟨flat, flattened, success⟩ := bind_eq_ok success
    obtain ⟨body, final, success⟩ := bind_eq_ok success
    obtain rfl := Except.ok.inj success
    obtain ⟨sound, -⟩ := Expression.dissolve_sound thrifty.sound thrifty.hereditary calls dissolved
    obtain ⟨sound', -, -⟩ := Copy.flatten_sound thrifty.sound thrifty.hereditary _ sound
      (Nat.le_refl _) flattened
    -- the first pass and those after it leave nothing over, and
    -- collecting the result shows what is there
    obtain ⟨whole, heeds⟩ := thrifty.pass ordered typed walks good dissolved
    obtain ⟨⟨calls', kept⟩, heeds'⟩ := thrifty.flatten_whole _ sound whole flattened
    have sourced : body.Sourced := .of_expression sound'.closed sound'.known final
    obtain ⟨graph, bodyInputs, bodyOutputs⟩ := Graph.expression_eq final
    rw [← graph] at calls'
    rw [← graph, ← bodyOutputs] at kept
    refine ⟨fun v known => sourced.mem_values_of_kept kept known,
      fun d member => (calls'.callee member).2, ?_⟩
    intro source start
    refine sourced.heeds_of_kept kept ?_
    rw [graph, bodyInputs, bodyOutputs]
    exact heeds' (heeds source start)

end Specialiser.Thrifty

namespace Composite

theorem retypeWith_trim (thrifty : σ.Thrifty P) {c d : Composite} (sourced : c.body.Sourced)
    (calls : c.graph.Calls P) (frugal : ∀ b ∈ c.body.callees, b.frugal = true)
    {types : List ScalarType} (arity : types.length = c.inputCount)
    (success : retypeWith σ c types = .ok d) :
    d.Trim ∧ (∀ b ∈ d.body.callees, b.frugal = true) ∧ (c.body.Heeds → d.body.Heeds) := by
  obtain ⟨⟨⟨news, outs⟩, scratch⟩, run, fused⟩ := bind_eq_ok success
  obtain ⟨sound, -⟩ := Build.copy_sound c.graph arity (fun g news known =>
    Build.grows_inlineWith (Policy.body_keepsConstants P) thrifty.sound (Policy.body_callsGood P)
      calls known) run
  obtain ⟨g, fresh, length, inlined⟩ := Build.exists_fresh c.graph arity run
  obtain ⟨clears, -⟩ := Build.clears_inlineWith thrifty.sound_frugal sourced
    (fun b member => ⟨calls.callee member, frugal b member⟩) inlined
  have whole := fresh.whole clears
  obtain ⟨e, expression⟩ := Graph.exists_expression sound.closed.inputs_of_free outs
  have walked : e.Sourced := .of_expression sound.closed sound.known expression
  rw [← eraseDups_of_nodup sound.closed.distinct] at expression
  obtain ⟨rfl, inputs, outputs⟩ := Graph.expression_eq expression
  rw [eraseDups_of_nodup sound.closed.distinct] at inputs
  have frugal' : ∀ b ∈ e.callees, b.frugal = true := fun b member => (whole.calls.callee member).2
  obtain ⟨trim, callees, heeds⟩ := thrifty.fuseWith_trim sound.closed.ordered sound.closed.typed
    sound.calls sound.known expression frugal' fused
  refine ⟨trim, callees, fun start => heeds walked ?_⟩
  subst inputs outputs
  exact walked.heeds_of_kept whole.kept
    (clears.heeds fun v input => sourced.pending_bindInputs start length.symm input)

theorem retypeWith_frugal (thrifty : σ.Thrifty P) {c d : Composite} (sourced : c.body.Sourced)
    (calls : c.graph.Calls P) (frugal : c.frugal = true) {types : List ScalarType}
    (arity : types.length = c.inputCount) (success : retypeWith σ c types = .ok d) :
    d.frugal = true := by
  obtain ⟨-, -, -, adapts⟩ :=
    retypeWith_sound thrifty.sound thrifty.hereditary calls arity success
  rw [frugal_iff] at frugal ⊢
  intro single
  obtain ⟨heeds, callees⟩ := frugal (adapts.outputCount ▸ single)
  obtain ⟨-, callees', heeds'⟩ := retypeWith_trim thrifty sourced calls callees arity success
  exact ⟨heeds' heeds, callees'⟩

theorem specialiseAt_thrifty (n : Nat) : (specialiseAt n).Thrifty (WellBuiltTo n) := by
  induction n with
  | zero =>
    refine ⟨specialiseAt_sound 0, fun c good => good.1.body, WellBuiltTo.hereditary, ?_⟩
    intro c types d good
    exact absurd good.2 (Nat.not_le.mpr c.depth_pos)
  | succ n ih =>
    refine ⟨specialiseAt_sound (n + 1), fun c good => good.1.body, WellBuiltTo.hereditary, ?_⟩
    intro c types d good frugal arity success
    exact retypeWith_frugal ih good.1.body.sourced good.callees frugal arity success

theorem specialise_thrifty : specialise.Thrifty WellBuilt := by
  refine ⟨specialise_sound, fun c good => good.body, wellBuilt_hereditary, ?_⟩
  intro c types d good frugal arity success
  exact (specialiseAt_thrifty c.depth).frugal ⟨good, Nat.le_refl _⟩ frugal arity success

theorem specialise_trim {c d : Composite} (good : c.WellBuilt)
    (frugal : ∀ b ∈ c.body.callees, b.frugal = true) {types : List ScalarType}
    (arity : types.length = c.inputCount) (success : c.specialise types = .ok d) : d.Trim := by
  obtain ⟨n, deep⟩ : ∃ n, c.depth = n + 1 := ⟨_, depth_eq c⟩
  have calls : c.graph.Calls (WellBuiltTo n) :=
    WellBuiltTo.callees ⟨good, Nat.le_of_eq deep⟩
  rw [specialise, deep] at success
  exact (retypeWith_trim (specialiseAt_thrifty n) good.body.sourced calls frugal arity success).1

theorem narrow_trim {c d : Composite} (good : c.WellBuilt) (narrowed : c.narrow = .ok d) :
    d.Trim := by
  cases good with
  | @mk e tidy wellBuilt =>
    obtain ⟨copy, e₁, _, sound, same, walked, -, settled, nonempty⟩ :=
      exists_widened tidy wellBuilt (callsNarrow_of_wellBuilt wellBuilt)
    obtain ⟨copy', e₂, _, dissolved, walked', fused, -⟩ := Graph.exists_fuse_flat sound.closed
      sound.calls sound.known nonempty walked settled
    obtain rfl := Except.ok.inj ((same.trans fused).symm.trans narrowed)
    have sourced : e₁.Sourced := .of_expression sound.closed sound.known walked
    have calls : e₁.graph.Calls WellBuilt := (Graph.expression_eq walked).1 ▸ sound.calls
    obtain ⟨⟨-, kept⟩, -⟩ := Expression.dissolve_whole specialise_sound sourced.closed.ordered
      sourced.closed.typed sourced.walks (fun d member => calls.callee member) (by simp) dissolved
    have final : e₂.Sourced := (narrow_wellBuilt (.mk tidy wellBuilt) narrowed).1.body.sourced
    obtain ⟨graph, -, outputs⟩ := Graph.expression_eq walked'
    rw [← graph, ← outputs] at kept
    exact fun v known => final.mem_values_of_kept kept known

theorem Narrows.heeds {c d : Composite} {ρ : ValueId → ValueId} (narrows : c.Narrows d ρ)
    (heeds : c.body.Heeds) : d.body.Heeds := by
  intro w member
  have member : w ∈ c.inputs.map ρ := narrows.inputs ▸ member
  obtain ⟨v, input, rfl⟩ := List.mem_map.mp member
  rcases heeds v input with given | ⟨entry, inside, operand⟩
  · refine .inl ?_
    show ρ v ∈ d.outputs
    rw [narrows.outputs]
    exact List.mem_map_of_mem given
  · obtain ⟨entry', inside', -, inputs, -⟩ := exists_image_of_mem narrows.nodes inside
    exact .inr ⟨entry', inside', inputs ▸ List.mem_map_of_mem operand⟩

theorem narrow_frugal {c d : Composite} (good : c.WellBuilt) (frugal : c.frugal = true)
    (narrowed : c.narrow = .ok d) : d.frugal = true := by
  induction good generalizing d with
  | @mk e tidy wellBuilt ih =>
    obtain ⟨d', ρ, narrowed', -, narrows, -⟩ := exists_narrow (.mk tidy wellBuilt)
    obtain rfl := Except.ok.inj (narrowed.symm.trans narrowed')
    rw [frugal_iff] at frugal ⊢
    intro single
    have count : d.outputCount = (mk e).outputCount := by
      rw [outputCount, outputCount, narrows.outputs, List.length_map]
    obtain ⟨heeds, callees⟩ := frugal (count ▸ single)
    refine ⟨narrows.heeds heeds, ?_⟩
    intro b member
    obtain ⟨a, callee, ⟨-, rfl⟩ | ⟨-, narrowed⟩⟩ := narrows.callee_cases member
    · exact callees b callee
    · have kept : e.graph.Calls fun a => ∀ b, a.frugal = true → a.narrow = .ok b →
          b.frugal = true := fun _ _ _ found called _ => ih found called
      exact kept.callee callee b (callees a callee) narrowed

end Composite

theorem Expression.Tidy.knows_values {e : Expression Composite} (tidy : e.Tidy) :
    e.graph.Knows e.values := by
  intro v member
  rcases Expression.mem_values.mp member with input | ⟨⟨n, node⟩, inside, used⟩ | output
  · exact tidy.closed.knows_inputs v input
  · have here := (Expression.mem_nodes.mp inside).2
    rcases used with operand | result
    · exact tidy.closed.ordered.known here v operand
    · exact tidy.closed.ordered.knows_outputs here v result
  · exact tidy.known v output

theorem Composite.Trim.mentions_iff {c : Composite} (trim : c.Trim) (good : c.WellBuilt)
    (p : ScalarType → Bool) : c.mentions p = true ↔
      (∃ v ∈ c.body.values, p (c.graph.typeOf v) = true) ∨
        ∃ d ∈ c.body.callees, d.mentions p = true := by
  have typeOf : ∀ (v : Nat) (known : v < c.graph.values.size),
      c.graph.typeOf v = c.graph.values[v].type := by
    intro v known
    rw [Graph.typeOf, Array.getElem?_eq_getElem known]
  rw [mentions_eq, Bool.or_eq_true, Array.any_eq_true, List.any_eq_true]
  refine or_congr_left ⟨?_, ?_⟩
  · rintro ⟨v, known, holds⟩
    exact ⟨v, trim v known, by rwa [typeOf v known]⟩
  · rintro ⟨v, member, holds⟩
    have known : v < c.graph.values.size := good.body.knows_values v member
    exact ⟨v, known, by rwa [← typeOf v known]⟩

/-- A body that fusing makes holds what it computes and nothing else, if what the expression calls
    heeds its inputs wherever it can be dissolved. The same goes for adapting a composite to other
    types, and narrowing leaves nothing over in any case. All three keep what is frugal so. Over
    bodies without leftovers the tests for types are exact. -/
theorem bodies_hold_what_they_compute {c : Composite} (obtained : Obtained c) :
    (∀ {g : Arena} {inputs outputs : List ValueId} {e : Expression Composite}, Reachable g →
      g.Knows outputs → g.expression inputs.eraseDups outputs = .ok e →
      (∀ d ∈ e.callees, d.frugal = true) → g.fuse inputs outputs = .ok c →
      c.Trim ∧ (c.frugal = true ↔ (c.outputCount = 1 → c.body.Heeds))) ∧
    (∀ {types : List ScalarType} {d : Composite}, types.length = c.inputCount →
      (∀ b ∈ c.body.callees, b.frugal = true) → c.specialise types = .ok d →
      d.Trim ∧ (c.frugal = true → d.frugal = true)) ∧
    (∀ {d : Composite}, c.narrow = .ok d → d.Trim ∧ (c.frugal = true → d.frugal = true)) ∧
    (c.Trim → ∀ p : ScalarType → Bool, c.mentions p = true ↔
      (∃ v ∈ c.body.values, p (c.graph.typeOf v) = true) ∨
        ∃ d ∈ c.body.callees, d.mentions p = true) := by
  have good := obtained.wellBuilt
  refine ⟨?_, ?_, ?_, fun trim => trim.mentions_iff good⟩
  · intro g inputs outputs e reachable known expression frugal fused
    have built := reachable.built
    obtain ⟨trim, callees, -⟩ := Composite.specialise_thrifty.fuseWith_trim built.ordered
      built.typed built.calls known expression frugal fused
    refine ⟨trim, ?_⟩
    rw [Composite.frugal_iff]
    exact forall_congr' fun _ => and_iff_left callees
  · intro types d arity frugal adapted
    exact ⟨Composite.specialise_trim good frugal arity adapted, fun frugal' =>
      Composite.specialise_thrifty.frugal good frugal' arity adapted⟩
  · intro d narrowed
    exact ⟨Composite.narrow_trim good narrowed, fun frugal =>
      Composite.narrow_frugal good frugal narrowed⟩

def Composite.unnested (t : ScalarType) : Composite :=
  .mk ⟨(Action.apply (.prim .neg) [1]).perform ((Action.apply (.prim .neg) [0]).perform
    ((Action.newVariable t (some "x")).perform {})), [0], [2], [0, 1]⟩

theorem nested_trimmed :
    (Graph.nested (.float .half)).fuse [0] [2] = .ok (.unnested (.float .half)) ∧
    Obtained (.unnested (.float .half)) ∧ (Composite.unnested (.float .half)).Trim ∧
    (Composite.unnested (.float .half)).frugal = true ∧
    (Composite.unnested (.float .half)).specialise [.float .double] =
      .ok (.unnested (.float .double)) ∧ (Composite.unnested (.float .double)).Trim ∧
    (∃ b, (Composite.unnested (.float .half)).narrow = .ok b ∧ b.Trim) ∧
    (Composite.unnested (.float .half)).hasHalf = true ∧
    ∃ v ∈ (Composite.unnested (.float .half)).body.values,
      (Composite.unnested (.float .half)).graph.typeOf v = .float .half := by
  have reachable : Reachable (.nested (.float .half)) := nested_reachable (by decide)
  have known : (Graph.nested (.float .half)).Knows [2] := by decide
  have fused : (Graph.nested (.float .half)).fuse [0] [2] = .ok (.unnested (.float .half)) := rfl
  have adapted : (Composite.unnested (.float .half)).specialise [.float .double] =
      .ok (.unnested (.float .double)) := by
    rw [Composite.specialise, Composite.depth_eq]
    rfl
  have heeds : (Composite.unnested (.float .half)).body.Heeds := by decide +kernel
  have callees : (Composite.unnested (.float .half)).body.callees = [] := rfl
  have half : (Composite.unnested (.float .half)).hasHalf = true := by
    rw [Composite.hasHalf_eq]
    decide +kernel
  obtain ⟨e, expression, called⟩ : ∃ e, (Graph.nested (.float .half)).expression [0].eraseDups [2] =
    .ok e ∧ e.callees = [.negation (.float .half)] := ⟨_, rfl, rfl⟩
  have obtained : Obtained (.unnested (.float .half)) := .fuse reachable (by decide) fused
  obtain ⟨fusing, adapting, narrowing, exactly⟩ := bodies_hold_what_they_compute obtained
  have negation : (Composite.negation (.float .half)).frugal = true := by
    rw [Composite.frugal_iff]
    decide +kernel
  obtain ⟨trim, frugal⟩ := fusing reachable known expression (by simp [called, negation]) fused
  obtain ⟨trim', -⟩ := adapting rfl (by simp [callees]) adapted
  obtain ⟨b, _, narrowed, -⟩ := Composite.exists_narrow obtained.wellBuilt
  refine ⟨fused, obtained, trim, frugal.mpr fun _ => heeds, adapted, trim',
    ⟨b, narrowed, (narrowing narrowed).1⟩, half, ?_⟩
  rcases (exactly trim _).mp half with ⟨v, member, holds⟩ | ⟨_, callee, _⟩
  · exact ⟨v, member, by simpa using holds⟩
  · simp [callees] at callee

/-- The cast that `first` ignores is left over where `first` was dissolved, and is all that the
    test for float16 finds. -/
theorem spared_left_over : Graph.spared.fuse [0] [2] = .ok .spared ∧ Obtained .spared ∧
    Composite.first.frugal = false ∧
    1 < Composite.spared.graph.values.size ∧ 1 ∉ Composite.spared.body.values ∧
    Composite.spared.hasHalf = true ∧ Composite.spared.body.callees = [] ∧
    ∀ v ∈ Composite.spared.body.values, Composite.spared.graph.typeOf v ≠ .float .half := by
  have half : Composite.spared.hasHalf = true := by
    rw [Composite.hasHalf_eq]
    decide +kernel
  have wasteful : Composite.first.frugal = false := by
    rw [Bool.eq_false_iff, ne_eq, Composite.frugal_iff]
    decide +kernel
  exact ⟨rfl, spared_obtained, wasteful, by decide, by decide +kernel, half, rfl, by decide +kernel⟩

end ScalarFusion

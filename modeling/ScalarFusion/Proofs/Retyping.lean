import ScalarFusion.Proofs.SpecialiserDepth
import ScalarFusion.Proofs.Mirroring
import ScalarFusion.Proofs.Pairing

/-!
What a call is bound to at arguments of other types. Its body is inlined over fresh variables of
these types, and the copy has the shape of the body, so no call in it can be dissolved and fusing
succeeds. What it gives corresponds to the copy value by value.
-/
namespace ScalarFusion

def SamePlace (vs ws : List ValueId) (v w : ValueId) : Prop :=
  ∃ k : Nat, vs[k]? = some v ∧ ws[k]? = some w

theorem Mirrored.paired {e : Expression Composite} {done : List NodeId} {t : Table ValueId}
    {h : Arena} (mirrored : Mirrored e (e.Retypes id) (fun n op => op = e.opAt n) done t h)
    (closed : e.graph.Closed e.inputs) {ins : List ValueId} (inputs : t.Lists e.inputs ins)
    {v w : Nat} (image : t.get? v = some w) : Paired e.graph h (SamePlace e.inputs ins) v w := by
  induction v using Nat.strong_induction_on generalizing w with
  | _ v ih =>
    obtain ⟨x, y, source, there, mirrors, typed⟩ := mirrored.value image
    have types : y.type = x.type := by rw [typed, Graph.typeOf, source, id]
    cases mirrors with
    | @free type _ name _ =>
      obtain ⟨k, at_k⟩ := List.getElem?_of_mem ((closed.free v).mp ⟨type, name, source⟩)
      obtain ⟨w', there', image'⟩ := inputs.at at_k
      obtain rfl := Option.some.inj (image.symm.trans image')
      exact .given ⟨k, at_k, there'⟩ source there types
    | @constant type type' =>
      obtain rfl : type' = type := types
      rw [closed.constants source] at there
      exact .constant source there
    | @output type type' n j k place =>
      obtain rfl : type' = type := types
      obtain ⟨⟨op, ins, outs⟩, _, args, outs', here, here', rfl, operands, outputs⟩ :=
        mirrored.node place
      rw [Expression.opAt_eq here] at here'
      have output : v ∈ outs := by
        obtain ⟨node, here', at_k⟩ := closed.ordered.produced.mp ⟨_, source⟩
        obtain rfl := Option.some.inj (here.symm.trans here')
        exact List.mem_of_getElem? at_k
      refine .output source there here here' ?_ operands.length ?_
      · exact Expression.retypes_iff.mp (mirrored.types_images outputs)
      · intro u u' pair
        exact ih u (closed.ordered.before here u v (List.of_mem_zip pair).1 output)
          ((List.forall₂_iff_zip.mp operands.forall₂).2 pair)

namespace Op

theorem length_outputTypes {op : Op Composite} {types outputs : List ScalarType} {config : Config}
    (typed : op.outputTypes types config = .ok outputs) :
    outputs.length = (op.callee?.map Composite.outputCount).getD 1 := by
  cases op with
  | prim p =>
    obtain ⟨t, -, single⟩ := bind_eq_ok typed
    obtain rfl := Except.ok.inj single
    rfl
  | call c =>
    obtain ⟨_, -, same⟩ := bind_eq_ok typed
    obtain rfl := Except.ok.inj same
    rw [Composite.outputTypes, Expression.outputTypes, List.length_map]
    rfl

theorem placement_sound {P : Composite → Prop} {σ : Specialiser} (sound : σ.Sound P)
    {op op' : Op Composite} (good : ∀ c, op = .call c → P c) {types outputs : List ScalarType}
    {config : Config} (placed : op.placement σ types config = .ok (op', outputs)) :
    (∀ d, op' = .call d → P d ∧ ∃ c, op = .call c ∧ d.outputCount = c.outputCount) ∧
      outputs.length = (op.callee?.map Composite.outputCount).getD 1 := by
  obtain ⟨bound, found, rest⟩ := bind_eq_ok placed
  obtain ⟨outputs', typed, last⟩ := bind_eq_ok rest
  obtain ⟨rfl, rfl⟩ := Prod.mk.inj (Except.ok.inj last)
  have length : outputs'.length = (bound.callee?.map Composite.outputCount).getD 1 := by
    unfold typing at typed
    split at typed
    · exact length_outputTypes typed
    · cases typed
    · exact length_outputTypes typed
  cases op with
  | prim p =>
    obtain rfl := Except.ok.inj found
    exact ⟨by simp, length⟩
  | call c =>
    cases result : c.boundTo σ types with
    | error e => simp [boundTo, result, Except.map] at found
    | ok d =>
      obtain rfl : Op.call d = bound := by simpa [boundTo, result, Except.map] using found
      obtain ⟨good', adapts⟩ := Composite.boundTo_sound sound (good c rfl) result
      refine ⟨?_, length.trans adapts.outputCount⟩
      rintro _ ⟨rfl⟩
      exact ⟨good', c, rfl, adapts.outputCount⟩

end Op

theorem Graph.Typed.length_outputs_eq {g : Arena} (typed : g.Typed) {n : NodeId}
    {node : Node Composite} (here : g.nodes[n]? = some node) :
    node.outputs.length = (node.op.callee?.map Composite.outputCount).getD 1 := by
  rw [← Op.length_outputTypes (typed.types here), List.length_map]

theorem Expression.placesAs_adapted {P : Composite → Prop} {σ : Specialiser} (sound : σ.Sound P)
    {e : Expression Composite} (sourced : e.Sourced) (good : e.graph.Calls P) (config : Config) :
    PlacesAs e (fun _ _ => True)
      (fun n op => ∀ d, op = .call d → ∃ c, e.opAt n = .call c ∧ d.outputCount = c.outputCount)
      config True fun _ op => Build.placeWith σ op := by
  intro n node member here h args configured types
  simp only [Build.exec_placeWith_eq, opAt_eq here]
  cases placed : node.op.placement σ (args.map h.typeOf) h.config with
  | error e => exact .inl ⟨trivial, e, h, rfl⟩
  | ok result =>
    obtain ⟨op, outputs⟩ := result
    obtain ⟨called, length⟩ := Op.placement_sound sound (fun c called => good here called) placed
    have lengths : node.outputs.length = outputs.length := by
      rw [length, sourced.closed.typed.length_outputs_eq here]
    refine .inr ⟨op, outputs, fun d same => (called d same).2, ?_, by rw [lengths]⟩
    exact List.forall₂_iff_zip.mpr ⟨lengths, fun _ => trivial⟩

theorem Build.runNew_of_error {α : Type} {b : Build α} {config : Config} {e : Error} {g : Arena}
    (run : b.exec { config } = (.error e, g)) : b.runNew config = .error e := by
  have ran : (b.run).run { config } = (.error e, g) := run
  rw [runNew, ran]

theorem Build.exec_inlineWith (σ : Specialiser) {c : Composite} {args : List ValueId}
    (arity : args.length = c.inputCount) (h : Arena) : (inlineWith σ c args).exec h =
      (replay c.body id (fun _ op => placeWith σ op) (bindInputs c.body.inputs args)).exec h := by
  rw [inlineWith, Composite.checkArity_eq, if_pos arity]
  rfl

namespace Composite

variable {c : Composite} {types : List ScalarType} {h : Arena} {news : List ValueId}

theorem exists_copy_kept (good : c.WellBuilt)
    (fresh : Fresh { config := c.config } h news c.inputTypes) :
    ∃ outs s, (Build.inlineWith specialise c news).exec h = (.ok outs, s) ∧
      List.Forall₂ (Paired c.graph s (SamePlace c.inputs news)) c.outputs outs := by
  have sourced := good.body.sourced
  have arity : news.length = c.inputCount := by
    rw [← length_inputTypes, ← fresh.types, List.length_map]
  have typed : List.Forall₂ (c.body.Retypes id) c.body.inputs c.inputTypes :=
    Expression.retypes_iff.mpr rfl
  obtain ⟨⟨⟩, -⟩ | ⟨outs, t, s, run, mirrored, inputs, outputs, -⟩ := Mirrored.exec_replay sourced
    (c.body.converts_retypes id) (Expression.placesAs_placeWith (σ := specialise) sourced) typed fresh
  refine ⟨outs, s, (Build.exec_inlineWith specialise arity h).trans run, ?_⟩
  exact outputs.forall₂.imp fun _ _ image => mirrored.paired sourced.closed inputs image

theorem exists_copy_adapted (good : c.WellBuilt) (arity : types.length = c.inputCount)
    (first : (Build.freshInputs c.graph c.inputs types).exec { config := c.config } = (.ok news, h))
    (fresh : Fresh { config := c.config } h news types) :
    (∃ e e' k, (Build.inlineWith specialise c news).exec h = (.error e, k) ∧
      retypeWith specialise c types = .error e') ∨
    ∃ outs s d, (Build.inlineWith specialise c news).exec h = (.ok outs, s) ∧
      retypeWith specialise c types = .ok d ∧
      List.Forall₂ (Paired d.graph s (SamePlace d.inputs news)) d.outputs outs := by
  have sourced := good.body.sourced
  have arity' : news.length = c.inputCount := by rw [← arity, ← fresh.types, List.length_map]
  have typed : List.Forall₂ (fun _ _ => True) c.body.inputs types :=
    List.forall₂_iff_zip.mpr ⟨arity.symm, fun _ => trivial⟩
  have inlined := Build.exec_inlineWith specialise arity' h
  -- Inlining the copy is the common part. Adapting fuses it
  -- afterwards, which only renumbers what is flat.
  rcases Mirrored.exec_replay sourced (fun _ _ _ _ _ _ => trivial)
      (Expression.placesAs_adapted specialise_sound sourced good.callees c.config) typed fresh with
    ⟨-, error, k, failed⟩ | ⟨outs, t, s, run, mirrored, inputs, outputs, -⟩
  · rw [← inlined] at failed
    refine .inl ⟨error, error, k, failed, ?_⟩
    rw [retypeWith, Build.runNew_of_error]
    · rfl
    · rw [Build.exec_bind_of_ok first, Build.exec_bind, failed]
  · rw [← inlined] at run
    have built : (do
        let inputs ← Build.freshInputs c.graph c.inputs types
        let outputs ← Build.inlineWith specialise c inputs
        pure (inputs, outputs) : Build (List ValueId × List ValueId)).runNew c.config =
          .ok ((news, outs), s) := by
      rw [Build.runNew_eq_ok, Build.exec_bind_of_ok first, Build.exec_bind_of_ok run]
      rfl
    obtain ⟨sound, -⟩ := Build.copy_sound c.graph arity (fun g news known =>
      Build.grows_inlineWith (Policy.body_keepsConstants WellBuilt) specialise_sound
        (Policy.body_callsGood WellBuilt) good.callees known) built
    obtain ⟨e, e', t', walked, -, fused, second⟩ := good.exists_fuse_mirrored sound mirrored inputs
      outputs fun entry member d called => by
        rw [← Expression.opAt_eq (Expression.mem_nodes.mp member).2]
        exact called d rfl
    refine .inr ⟨outs, s, .mk e', run, ?_, ?_⟩
    · rw [retypeWith, built]
      exact fused
    · obtain ⟨rfl, rfl, rfl⟩ := Graph.expression_eq walked
      refine second.outputs.forall₂.flip.imp fun w v image => ?_
      refine (second.mirrored.paired sound.closed second.inputs image).symm ?_
      rintro v w ⟨k, at_k, at_k'⟩
      exact ⟨k, at_k', at_k⟩

/-- What a composite is bound to at given types, next to the copy of its body over fresh variables
    of these types: both fail, or they correspond. -/
theorem exists_bound (good : c.WellBuilt) (arity : types.length = c.inputCount) :
    ∃ h news, Fresh { config := c.config } h news types ∧
      ((∃ e e' k, (Build.inlineWith specialise c news).exec h = (.error e, k) ∧
        c.boundTo specialise types = .error e') ∨
      ∃ outs s d, (Build.inlineWith specialise c news).exec h = (.ok outs, s) ∧ s.Closed news ∧
        c.boundTo specialise types = .ok d ∧
        List.Forall₂ (Paired d.graph s (SamePlace d.inputs news)) d.outputs outs) := by
  obtain ⟨h, news, first, -, fresh⟩ := Build.exec_freshInputs c.graph arity { config := c.config }
  have closed : ∀ {outs s}, (Build.inlineWith specialise c news).exec h = (.ok outs, s) →
      s.Closed news := by
    intro outs s run
    have grows := Build.grows_inlineWith (Policy.body_keepsConstants WellBuilt) specialise_sound
      (Policy.body_callsGood WellBuilt) good.callees fresh.known
    exact (fresh.closed [] (Graph.closed_empty c.config)).grown (grows.of_ok run).1
  refine ⟨h, news, fresh, ?_⟩
  by_cases same : types = c.inputTypes
  · subst same
    obtain ⟨outs, s, run, paired⟩ := exists_copy_kept good fresh
    exact .inr ⟨outs, s, c, run, closed run, c.boundTo_inputTypes specialise, paired⟩
  · have bound : c.boundTo specialise types = retypeWith specialise c types := by
      rw [boundTo, checkArity_eq, if_pos arity, ok_bind, if_neg same, specialise_eq good arity]
    rw [bound]
    refine (exists_copy_adapted good arity first fresh).imp_right ?_
    rintro ⟨outs, s, d, run, adapted, paired⟩
    exact ⟨outs, s, d, run, closed run, adapted, paired⟩

end Composite

end ScalarFusion

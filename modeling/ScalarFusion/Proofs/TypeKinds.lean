import ScalarFusion.Proofs.Calling
import ScalarFusion.Proofs.Typing

/-!
Composites at types of other precisions. Whether an operation is defined depends on the kinds of its
operands and not on their precision, so a body can be replayed over inputs of the same kinds in an
arena of any configuration, and every composite can be adapted to such inputs.
-/
namespace ScalarFusion

namespace ScalarType

def kind : ScalarType → ScalarType
  | float _ => float .double
  | complex _ => complex .double
  | t => t

def Kin (s t : ScalarType) : Prop :=
  t.kind = s.kind

theorem Kin.refl (t : ScalarType) : Kin t t := rfl

theorem kin_floatType (config config' : Config) : Kin config.floatType config'.floatType := rfl

theorem promote_kind (s t : ScalarType) : (promote s.kind t.kind).kind = (promote s t).kind := by
  rcases s with _ | (_ | _ | _ | _) | (_ | _ | _ | _) | (_ | _ | _) | (_ | _) <;>
    rcases t with _ | (_ | _ | _ | _) | (_ | _ | _ | _) | (_ | _ | _) | (_ | _) <;> rfl

theorem upgrade_kind (t : ScalarType) : t.kind.upgrade.kind = t.upgrade.kind := by
  rcases t with _ | (_ | _ | _ | _) | (_ | _ | _ | _) | (_ | _ | _) | (_ | _) <;> rfl

theorem Kin.eq_of_kind {f : ScalarType → Bool} (decided : ∀ t, f t.kind = f t) (s t : ScalarType)
    (kin : Kin s t) : f t = f s := by
  rw [← decided, kin, decided]

theorem similarity_kin : Similarity Kin where
  bool := rfl
  byte := rfl
  isBool := Kin.eq_of_kind fun t => by cases t <;> rfl
  isDiscrete := Kin.eq_of_kind fun t => by cases t <;> rfl
  isFloat := Kin.eq_of_kind fun t => by cases t <;> rfl
  isComplex := Kin.eq_of_kind fun t => by cases t <;> rfl
  promote := by
    intro s s' t t' first second
    rw [Kin, ← promote_kind, first, second, promote_kind]
  upgrade := by
    intro s t kin
    rw [Kin, ← upgrade_kind, kin, upgrade_kind]

end ScalarType

open ScalarType

def Composite.Adaptable (c : Composite) : Prop :=
  ∀ types, List.Forall₂ Kin c.inputTypes types →
    ∃ d, c.specialise types = .ok d ∧ List.Forall₂ Kin c.outputTypes d.outputTypes

theorem Composite.Adaptable.exists_bound {c : Composite} (adaptable : c.Adaptable)
    {types : List ScalarType} (kin : List.Forall₂ Kin c.inputTypes types) :
    ∃ d, c.boundTo specialise types = .ok d ∧ List.Forall₂ Kin c.outputTypes d.outputTypes := by
  have arity : types.length = c.inputCount := kin.length_eq.symm.trans c.length_inputTypes
  rw [boundTo, checkArity_eq, if_pos arity, ok_bind]
  split
  · exact ⟨c, rfl, List.forall₂_same.mpr fun t _ => .refl t⟩
  · exact adaptable types kin

theorem Op.exists_placement {op : Op Composite} {inputs inputs' outputs : List ScalarType}
    {config : Config} (nonempty : inputs = [] → op = .prim .mean)
    (good : ∀ c, op = .call c → c.WellBuilt ∧ c.Adaptable ∧ inputs = c.inputTypes)
    (typed : op.outputTypes inputs config = .ok outputs) (kin : List.Forall₂ Kin inputs inputs')
    (config' : Config) :
    ∃ op' outputs', op.placement Composite.specialise inputs' config' = .ok (op', outputs') ∧
      List.Forall₂ Kin outputs outputs' := by
  have nonempty' : inputs' = [] → op = .prim .mean := by
    rintro rfl
    exact nonempty (List.forall₂_nil_right_iff.mp kin)
  cases op with
  | prim p =>
    obtain ⟨t, output, single⟩ := bind_eq_ok typed
    obtain rfl := Except.ok.inj single
    obtain ⟨t', output', here⟩ := Primitive.outputType_similar similarity_kin (.refl Kin.refl p)
      (kin_floatType config config') kin output
    refine ⟨.prim p, [t'], ?_, .cons here .nil⟩
    rw [placement, boundTo, ok_bind, typing_eq nonempty', outputTypes, output']
    rfl
  | call c =>
    obtain ⟨wellBuilt, adaptable, rfl⟩ := good c rfl
    obtain ⟨_, -, same⟩ := bind_eq_ok typed
    obtain rfl := Except.ok.inj same
    -- a call is adapted to the new types before it is placed,
    -- so that it is typed by what it is bound to
    obtain ⟨d, bound, outs⟩ := adaptable.exists_bound kin
    have inputTypes :=
      (Composite.boundTo_sound Composite.specialise_sound wellBuilt bound).2.inputTypes
    have arity : inputs'.length = d.inputCount := by rw [← inputTypes, Composite.length_inputTypes]
    have typed' : (Op.call d).typing inputs' config' = .ok d.outputTypes := by
      rw [typing_eq (fun none => absurd (nonempty' none) (by simp)), outputTypes,
        Composite.checkArity_eq, if_pos arity]
      rfl
    refine ⟨.call d, d.outputTypes, ?_, outs⟩
    rw [placement, boundTo, bound, Except.map, ok_bind, typed']
    rfl

namespace Expression

def SameKinds (e : Expression Composite) (v : ValueId) (type : ScalarType) : Prop :=
  Kin (e.graph.typeOf v) type

theorem sameKinds_iff {e : Expression Composite} {vs : List ValueId} {types : List ScalarType} :
    List.Forall₂ e.SameKinds vs types ↔ List.Forall₂ Kin (vs.map e.graph.typeOf) types := by
  rw [List.forall₂_map_left_iff]
  rfl

theorem placesAs_kin {e : Expression Composite} (sourced : e.Sourced)
    (good : e.graph.Calls fun c => c.WellBuilt ∧ c.Adaptable) (config : Config) :
    PlacesAs e e.SameKinds (fun _ _ => True) config False
      fun _ op => Build.placeWith Composite.specialise op := by
  intro n node member here h args _ types
  obtain ⟨op, outputs, placed, kin⟩ := Op.exists_placement
    (fun none => sourced.closed.typed.nonempty here (List.map_eq_nil_iff.mp none))
    (fun c called => ⟨(good here called).1, (good here called).2, sourced.closed.bound here called⟩)
    (sourced.closed.typed.types here) (sameKinds_iff.mp types) h.config
  refine .inr ⟨op, outputs, trivial, sameKinds_iff.mpr kin, ?_⟩
  have lengths : node.outputs.length = outputs.length := by
    rw [← kin.length_eq, List.length_map]
  simp only [Build.exec_placeWith_eq, placed, lengths]

end Expression

namespace Composite

variable {c : Composite} {types : List ScalarType}

theorem WellBuilt.exists_copy_kin (good : c.WellBuilt) (callees : c.graph.Calls Adaptable)
    (kin : List.Forall₂ Kin c.inputTypes types) {config : Config} {h : Arena} {news : List ValueId}
    (fresh : Fresh { config } h news types) :
    ∃ outs s, (Build.inline c news).exec h = (.ok outs, s) ∧
      List.Forall₂ Kin c.outputTypes (outs.map s.typeOf) := by
  have sourced := good.body.sourced
  have arity : news.length = c.inputCount := by
    rw [← List.length_map h.typeOf, fresh.types, ← kin.length_eq, length_inputTypes]
  have constants : c.body.Converts id c.body.SameKinds := by
    intro v type literal name _ source
    simp [Expression.SameKinds, Graph.typeOf, source, Kin.refl]
  have calls : c.body.graph.Calls fun d => d.WellBuilt ∧ d.Adaptable :=
    fun n node d here called => ⟨good.callees here called, callees here called⟩
  have places := Expression.placesAs_kin sourced calls config
  obtain ⟨⟨⟩, -⟩ | ⟨outs, t, s, run, mirrored, -, outputs, -⟩ :=
    Mirrored.exec_replay sourced constants places (Expression.sameKinds_iff.mpr kin) fresh
  refine ⟨outs, s, (Build.exec_inlineWith specialise arity h).trans run, ?_⟩
  exact Expression.sameKinds_iff.mp (mirrored.types_images outputs)

/-- Every composite can be adapted to inputs of the same kinds. -/
theorem WellBuilt.adaptable (good : c.WellBuilt) : c.Adaptable := by
  induction good with
  | @mk e tidy callees ih =>
    intro types kin
    have good : (mk e).WellBuilt := .mk tidy callees
    have arity : types.length = (mk e).inputCount :=
      kin.length_eq.symm.trans (length_inputTypes _)
    obtain ⟨h, news, first, -, fresh⟩ := Build.exec_freshInputs (mk e).graph arity
      { config := (mk e).config }
    obtain ⟨outs, s, run, outputs⟩ :=
      good.exists_copy_kin (fun _ _ _ here called => ih here called) kin fresh
    rw [specialise_eq good arity]
    rcases exists_copy_adapted good arity first fresh with
      ⟨_, _, _, failed, -⟩ | ⟨outs', s', d, run', adapted, paired⟩
    · rw [Build.inline, failed] at run
      cases run
    · rw [Build.inline, run'] at run
      obtain ⟨⟨rfl⟩, rfl⟩ := Prod.mk.inj run
      rw [Paired.types_eq paired] at outputs
      exact ⟨d, adapted, outputs⟩

theorem WellBuilt.exists_inline (good : c.WellBuilt) {g : Arena} (ordered : g.Ordered)
    {args : List ValueId} (known : g.Knows args)
    (kin : List.Forall₂ Kin c.inputTypes (args.map g.typeOf)) :
    ∃ outs h, (Build.inline c args).exec g = (.ok outs, h) := by
  obtain ⟨h, news, -, fresh⟩ := Build.exec_newVariables id (fun _ => none) (args.map g.typeOf)
    { config := g.config }
  rw [List.map_id] at fresh
  obtain ⟨outs, s, run, -⟩ :=
    good.exists_copy_kin (fun _ _ _ here called => adaptable (good.callees here called)) kin fresh
  have config : g.config = h.config := fresh.grown.config.symm
  have together := Build.together_inlineWith specialise c config
    (fresh.closed [] (Graph.closed_empty g.config)).ordered ordered (paired_fresh known fresh)
  rcases together with ⟨_, _, _, _, failed, -⟩ | ⟨_, outs', _, h', -, inlined, -⟩
  · rw [Build.inline, failed] at run
    cases run
  · exact ⟨outs', h', inlined⟩

end Composite

end ScalarFusion

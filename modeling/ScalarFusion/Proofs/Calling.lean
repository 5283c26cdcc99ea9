import ScalarFusion.Proofs.Retyping

/-!
Calling a composite and inlining it. At arguments of any types the two succeed together, with
outputs of the same types, and what the outputs of the call denote, those of the body do.
-/
namespace ScalarFusion

namespace Graph

variable {g h k : Arena} {inputs : List ValueId} {args : List Literal}

theorem Denotes.alike_cast [Numerics] (built : g.Built) {v : ValueId} {a : Literal}
    (denotes : g.Denotes inputs args v a) : (a.cast (g.typeOf v)).Alike a := by
  cases denotes with
  | input => rw [Literal.cast_cast]; exact .refl _
  | constant _ found =>
    simp only [typeOf, found]
    exact built.constants found
  | output _ found =>
    simp only [typeOf, found, Literal.cast_cast]
    exact .refl _

theorem Denotes.across [Numerics] (ordered : g.Ordered) (grows : g.Extends h) (grows' : g.Extends k)
    {v : ValueId} {a : Literal} (denotes : h.Denotes inputs args v a) (known : v < g.values.size) :
    k.Denotes inputs args v a := by
  have old : ∀ {v : Nat} {x : Value}, v < g.values.size → h.values[v]? = some x →
      g.values[v]? = some x := by
    intro v x known found
    have before : g.values[v]? = some g.values[v] := Array.getElem?_eq_getElem known
    rw [before, Option.some.inj ((grows.value before).symm.trans found)]
  induction denotes with
  | input member given =>
    rw [grows.typeOf known, ← grows'.typeOf known]
    exact .input member given
  | constant beyond found => exact .constant beyond (grows'.value (old known found))
  | @output v type n i node V results result beyond found here operands computed listed ih =>
    have source := old known found
    obtain ⟨node', before, -⟩ := ordered.produced.mp ⟨type, source⟩
    obtain rfl := Option.some.inj (here.symm.trans (grows.node before))
    refine .output beyond (grows'.value source) (grows'.node before)
      (fun u member => ih u member (ordered.known before u member)) ?_ listed
    rw [grows'.map_typeOf (ordered.known before), grows'.map_typeOf (ordered.knows_outputs before),
      ← grows.map_typeOf (ordered.known before), ← grows.map_typeOf (ordered.knows_outputs before)]
    exact computed

theorem Variables.extends (free : g.Variables inputs) (grows : g.Extends h) :
    h.Variables inputs := by
  intro v member
  obtain ⟨type, name, found⟩ := free v member
  exact ⟨type, name, grows.value found⟩

theorem Variables.keepsInputs {e : Expression Composite} (free : e.graph.Variables e.inputs)
    (ordered : e.graph.Ordered) : e.KeepsInputs := by
  intro first n rest _ node here v output input
  obtain ⟨type, name, found⟩ := free v input
  obtain ⟨i, at_i⟩ := List.getElem?_of_mem output
  obtain ⟨type', found'⟩ := ordered.produced.mpr ⟨node, here, at_i⟩
  simp [found] at found'

theorem Closed.variables (closed : g.Closed inputs) : g.Variables inputs :=
  fun v member => (closed.free v).mpr member

theorem evaluate_variables_iff [Numerics] (built : g.Built) (free : g.Variables inputs)
    {outputs : List ValueId} (known : g.Knows outputs) (results : List Literal) :
    (g.expression inputs outputs >>= fun e => (e.map Composite.evaluate).evaluate args) =
      .ok results ↔
    args.length = inputs.length ∧ List.Forall₂ (g.Denotes inputs args) outputs results := by
  have evaluated : ∀ e, g.expression inputs outputs = .ok e →
      ((e.map Composite.evaluate).evaluate args = .ok results ↔
        args.length = inputs.length ∧ List.Forall₂ (g.Denotes inputs args) outputs results) := by
    intro e success
    by_cases arity : args.length = inputs.length
    · rw [and_iff_right arity]
      refine evaluate_expression_iff built.ordered built.typed known success ?_ arity results
      obtain ⟨rfl, rfl, -⟩ := expression_eq success
      exact free.keepsInputs built.ordered
    · rw [Expression.evaluate_map, (expression_eq success).2.1, if_neg arity]
      exact ⟨by simp, fun both => absurd both.1 arity⟩
  constructor
  · intro success
    obtain ⟨e, walked, computed⟩ := bind_eq_ok success
    exact (evaluated e walked).mp computed
  · intro denotes
    obtain ⟨e, walked⟩ := exists_expression_of_denotes built.ordered known fun o member => by
      obtain ⟨a, -, denoted⟩ := exists_image_of_mem denotes.2 member
      exact ⟨a, denoted⟩
    rw [walked, ok_bind]
    exact (evaluated e walked).mpr denotes

end Graph

theorem Composite.evaluate_iff [Numerics] {c : Composite} (good : c.WellBuilt) {args : List Literal}
    (results : List Literal) : c.evaluate args = .ok results ↔
      args.length = c.inputs.length ∧
        List.Forall₂ (c.graph.Denotes c.inputs args) c.outputs results := by
  have tidy := good.body
  have free : c.graph.Variables c.inputs := Graph.Closed.variables tidy.closed
  have known : c.graph.Knows c.outputs := tidy.known
  have success : c.graph.expression c.inputs c.outputs = .ok c.body := tidy.order
  rw [← Graph.evaluate_variables_iff good.graph_built free known, success, evaluate_eq]
  rfl

theorem Graph.Denotes.at_place [Numerics] {g : Arena} {vs : List ValueId} {xs : List Literal}
    (distinct : vs.Nodup) {k : Nat} {v : ValueId} (place : vs[k]? = some v) {a : Literal}
    (denotes : g.Denotes vs xs v a) :
    ∃ x, xs[k]? = some x ∧ a = x.cast (g.typeOf v) := by
  have member := List.mem_of_getElem? place
  cases denotes with
  | @input _ x _ given =>
    obtain ⟨inside, rfl⟩ := List.getElem?_eq_some_iff.mp place
    rw [distinct.idxOf_getElem k inside] at given
    exact ⟨x, given, rfl⟩
  | constant beyond => exact absurd member beyond
  | output beyond => exact absurd member beyond

namespace Paired

variable {g h : Arena} {vs ws : List ValueId} {xs : List Literal} {v w : ValueId} {a : Literal}

theorem denotes_of_inputs [Numerics] (paired : Paired g h (SamePlace vs ws) v w)
    (closed : g.Closed vs) (closed' : h.Closed ws) (denotes : g.Denotes vs xs v a) :
    ∃ b, h.Denotes ws xs w b ∧ b.Alike a := by
  refine paired.denotes closed.variables closed'.variables ?_ denotes
  rintro v w a ⟨k, place, place'⟩ types denotes
  obtain ⟨x, given, rfl⟩ := denotes.at_place closed.distinct place
  refine ⟨_, ?_, .refl _⟩
  obtain ⟨inside, rfl⟩ := List.getElem?_eq_some_iff.mp place'
  rw [← types]
  refine .input (List.getElem_mem inside) ?_
  rwa [closed'.distinct.idxOf_getElem k inside]

theorem denotes_of_args [Numerics] (paired : Paired g h (SamePlace vs ws) v w)
    (closed : g.Closed vs)
    (built : h.Built) {inputs : List ValueId} (free : h.Variables inputs) {args : List Literal}
    (given : List.Forall₂ (h.Denotes inputs args) ws xs) (denotes : g.Denotes vs xs v a) :
    ∃ b, h.Denotes inputs args w b ∧ b.Alike a := by
  refine paired.denotes closed.variables free ?_ denotes
  rintro v w a ⟨k, place, place'⟩ types denotes
  obtain ⟨x, found, rfl⟩ := denotes.at_place closed.distinct place
  obtain ⟨x', found', denotes'⟩ := exists_image_at given place'
  obtain rfl := Option.some.inj (found.symm.trans found')
  rw [← types]
  exact ⟨x, denotes', (denotes'.alike_cast built).symm⟩

end Paired

theorem exists_images {α β γ : Type} {R : α → γ → Prop} {f : γ → α → β} {xs : List α} {ys : List β}
    (each : List.Forall₂ (fun x y => ∃ z, R x z ∧ y = f z x) xs ys) :
    ∃ zs, List.Forall₂ R xs zs ∧ ys = List.zipWith f zs xs := by
  induction each with
  | nil => exact ⟨[], .nil, rfl⟩
  | cons first _ ih =>
    obtain ⟨z, related, rfl⟩ := first
    obtain ⟨zs, rest, rfl⟩ := ih
    exact ⟨z :: zs, .cons related rest, rfl⟩

namespace Composite

variable {c d : Composite} {g : Arena} {args : List ValueId}

theorem exec_call (nonempty : args ≠ [])
    (bound : c.boundTo specialise (args.map g.typeOf) = .ok d)
    (inputTypes : d.inputTypes = args.map g.typeOf) :
    (Build.call c args).exec g = (.ok (List.range' g.values.size d.outputTypes.length),
      g.pushNode (.call d) args d.outputTypes) := by
  have typed : (Op.call d).typing (args.map g.typeOf) g.config = .ok d.outputTypes := by
    rw [Op.typing_eq fun none => absurd (List.map_eq_nil_iff.mp none) nonempty, Op.outputTypes,
      checkArity_eq, ← inputTypes, length_inputTypes, if_pos rfl]
    rfl
  have placed : (Op.call c).placement specialise (args.map g.typeOf) g.config =
      .ok (.call d, d.outputTypes) := by
    rw [Op.placement, Op.boundTo, bound, Except.map, ok_bind, typed]
    rfl
  refine (Build.exec_placeWith_eq specialise (.call c) args g).trans ?_
  rw [placed]

theorem paired_fresh {config : Config} {h : Arena} {news : List ValueId} (known : g.Knows args)
    (fresh : Fresh { config } h news (args.map g.typeOf)) :
    List.Forall₂ (Paired h g (SamePlace news args)) news args := by
  rw [List.forall₂_iff_zip]
  refine ⟨by simpa using congrArg List.length fresh.types, ?_⟩
  intro v w member
  obtain ⟨k, at_k⟩ := List.getElem?_of_mem member
  obtain ⟨place, place'⟩ := List.getElem?_zip_eq_some.mp at_k
  have found := Array.getElem?_eq_getElem (fresh.known v (List.mem_of_getElem? place))
  have there := Array.getElem?_eq_getElem (known w (List.mem_of_getElem? place'))
  refine .given ⟨k, place, place'⟩ found there ?_
  have types := congrArg (·[k]?) fresh.types
  simpa [place, place', Graph.typeOf, found, there] using types.symm

/-- Calling and inlining fail together or succeed together, and then correspond through a copy of
    the body over fresh variables. -/
theorem call_or_inline (good : c.WellBuilt) (nonempty : args ≠ []) (built : g.Built)
    (config : g.config = c.config) (known : g.Knows args) (arity : args.length = c.inputCount) :
    (∃ e e' k k', (Build.call c args).exec g = (.error e, k) ∧
      (Build.inline c args).exec g = (.error e', k')) ∨
    ∃ d outs h' s news middle, (Build.call c args).exec g =
        (.ok (List.range' g.values.size d.outputTypes.length),
          g.pushNode (.call d) args d.outputTypes) ∧
      (Build.inline c args).exec g = (.ok outs, h') ∧ d.WellBuilt ∧
      d.inputTypes = args.map g.typeOf ∧ s.Closed news ∧
      List.Forall₂ (Paired d.graph s (SamePlace d.inputs news)) d.outputs middle ∧
      List.Forall₂ (Paired s h' (SamePlace news args)) middle outs := by
  obtain ⟨h, news, fresh, result⟩ :=
    exists_bound good (by rwa [List.length_map] : (args.map g.typeOf).length = c.inputCount)
  -- inlining sees types only, so over fresh variables of these types it goes the same way
  have together := Build.together_inlineWith specialise c (config.trans fresh.grown.config.symm)
    (fresh.closed [] (Graph.closed_empty c.config)).ordered built.ordered (paired_fresh known fresh)
  rcases result with ⟨e, e', k, failed, unbound⟩ | ⟨middle, s, d, run, closed, bound, paired⟩
  · rcases together with ⟨_, e'', _, k', _, failed'⟩ | ⟨_, _, _, _, success, _⟩
    · refine .inl ⟨e', e'', g, k', ?_, failed'⟩
      refine (Build.exec_placeWith_eq specialise (.call c) args g).trans ?_
      rw [Op.placement, Op.boundTo, unbound]
      rfl
    · rw [failed] at success
      cases success
  · obtain ⟨good', adapts⟩ := boundTo_sound specialise_sound good bound
    rcases together with ⟨_, _, _, _, failed, _⟩ | ⟨middle', outs, s', h', run', inlined, paired'⟩
    · rw [run] at failed
      cases failed
    · obtain ⟨⟨rfl⟩, rfl⟩ := Prod.mk.inj (run.symm.trans run')
      exact .inr ⟨d, outs, h', s, news, middle, exec_call nonempty bound adapts.inputTypes,
        inlined, good', adapts.inputTypes, closed, paired, paired'⟩

variable {inputs : List ValueId} {literals : List Literal}

theorem denotes_call [Numerics] (free : g.Variables inputs) {v : ValueId} {k : Nat} {a : Literal}
    (place : (List.range' g.values.size d.outputTypes.length)[k]? = some v)
    (denotes : (g.pushNode (.call d) args d.outputTypes).Denotes inputs literals v a) :
    ∃ xs results result type,
      List.Forall₂ ((g.pushNode (.call d) args d.outputTypes).Denotes inputs literals) args xs ∧
      d.evaluate xs = .ok results ∧ results[k]? = some result ∧ d.outputTypes[k]? = some type ∧
      a = result.cast type := by
  obtain ⟨inside, rfl⟩ := List.getElem?_eq_some_iff.mp place
  rw [List.length_range'] at inside
  rw [List.getElem_range', Nat.one_mul] at denotes
  have beyond : g.values.size + k ∉ inputs := by
    intro member
    obtain ⟨type, name, old⟩ := free _ member
    have := (Array.getElem?_eq_some_iff.mp old).1
    omega
  obtain ⟨V, results, result, operands, computed, listed, rfl⟩ := denotes.of_output beyond
    (g.pushNode_output_at (.call d) args inside) (g.pushNode_node_at (.call d) args d.outputTypes)
  refine ⟨args.map V, results, result, _, ?_, computed, listed,
    List.getElem?_eq_getElem inside, rfl⟩
  rw [List.forall₂_map_right_iff]
  exact List.forall₂_same.mpr operands

theorem denotes_inlined [Numerics] {h s : Arena} {news middle outs : List ValueId}
    (good : d.WellBuilt)
    (ordered : g.Ordered) (built : h.Built) (grows : g.Extends h) (known : g.Knows args)
    (closed : s.Closed news)
    (paired : List.Forall₂ (Paired d.graph s (SamePlace d.inputs news)) d.outputs middle)
    (paired' : List.Forall₂ (Paired s h (SamePlace news args)) middle outs)
    (free : g.Variables inputs) {k : Nat} {v w : ValueId} {a : Literal}
    (place : (List.range' g.values.size d.outputTypes.length)[k]? = some v)
    (place' : outs[k]? = some w)
    (denotes : (g.pushNode (.call d) args d.outputTypes).Denotes inputs literals v a) :
    ∃ b, h.Denotes inputs literals w b ∧ a = b.cast (h.typeOf w) := by
  obtain ⟨xs, results, result, type, operands, computed, listed, typed, rfl⟩ :=
    denotes_call free place denotes
  have operands' : List.Forall₂ (h.Denotes inputs literals) args xs := by
    rw [List.forall₂_iff_zip] at operands ⊢
    refine ⟨operands.1, fun pair => ?_⟩
    exact (operands.2 pair).across ordered (g.extends_pushNode _ _ _) grows
      (known _ (List.of_mem_zip pair).1)
  obtain ⟨-, ends⟩ := (evaluate_iff good results).mp computed
  obtain ⟨o, at_k, first⟩ := exists_image_at ends.flip listed
  obtain ⟨u, at_k', pair⟩ := exists_image_at paired at_k
  obtain ⟨w', at_k'', pair'⟩ := exists_image_at paired' at_k'
  obtain rfl := Option.some.inj (place'.symm.trans at_k'')
  obtain ⟨b, second, alike⟩ := pair.denotes_of_inputs good.body.closed closed first
  obtain ⟨b', third, alike'⟩ := pair'.denotes_of_args closed built (free.extends grows) operands'
    second
  refine ⟨b', third, ?_⟩
  have type_eq : d.graph.typeOf o = type := by
    have : d.outputTypes[k]? = some (d.graph.typeOf o) := by
      rw [outputTypes, Expression.outputTypes, List.getElem?_map,
        show d.body.outputs[k]? = some o from at_k]
      rfl
    exact Option.some.inj (this.symm.trans typed)
  rw [alike'.cast_eq, alike.cast_eq, pair'.typeOf_eq, pair.typeOf_eq, type_eq]

theorem exists_inlined_denotes [Numerics] {h s : Arena} {news middle outs : List ValueId}
    (good : d.WellBuilt)
    (ordered : g.Ordered) (built : h.Built) (grows : g.Extends h) (known : g.Knows args)
    (closed : s.Closed news)
    (paired : List.Forall₂ (Paired d.graph s (SamePlace d.inputs news)) d.outputs middle)
    (paired' : List.Forall₂ (Paired s h (SamePlace news args)) middle outs)
    (free : g.Variables inputs) {vs : List Literal}
    (denotes : List.Forall₂ ((g.pushNode (.call d) args d.outputTypes).Denotes inputs literals)
      (List.range' g.values.size d.outputTypes.length) vs) :
    ∃ vs', List.Forall₂ (h.Denotes inputs literals) outs vs' ∧
      vs = List.zipWith Literal.cast vs' (outs.map h.typeOf) := by
  have each : List.Forall₂ (fun w a => ∃ b, h.Denotes inputs literals w b ∧
      a = b.cast (h.typeOf w)) outs vs := by
    rw [List.forall₂_iff_zip]
    refine ⟨?_, ?_⟩
    · rw [← denotes.length_eq, ← paired'.length_eq, ← paired.length_eq, List.length_range',
        outputTypes, Expression.outputTypes, List.length_map]
      rfl
    · intro w a member
      obtain ⟨k, at_k⟩ := List.getElem?_of_mem member
      obtain ⟨place', result⟩ := List.getElem?_zip_eq_some.mp at_k
      obtain ⟨v, place, denotes⟩ := exists_image_at denotes.flip result
      exact denotes_inlined good ordered built grows known closed paired paired' free place place'
        denotes
  simp only [List.zipWith_map_right]
  exact exists_images each

end Composite

/-- Calling a composite and inlining it agree. At arguments of any types they succeed together,
    their outputs have the same types, and the call is bound at the types of the arguments. Whatever
    variables are taken as inputs, where the outputs of the call evaluate, those of the body evaluate
    to the same, converted to their types. -/
theorem call_agrees_with_inline [Numerics] {c : Composite} (obtained : Obtained c)
    (positive : 1 ≤ c.inputCount) {g : Arena} (reachable : Reachable g)
    (config : g.config = c.config) {args : List ValueId} (known : g.Knows args)
    (arity : args.length = c.inputCount) :
    ((∃ outs h, (Build.call c args).exec g = (.ok outs, h)) ↔
      ∃ outs h, (Build.inline c args).exec g = (.ok outs, h)) ∧
    ∀ outs h outs' h', (Build.call c args).exec g = (.ok outs, h) →
      (Build.inline c args).exec g = (.ok outs', h') →
      outs'.map h'.typeOf = outs.map h.typeOf ∧
      (∃ d, h.nodes[g.nodes.size]? = some ⟨.call d, args, outs⟩ ∧
        d.inputTypes = args.map g.typeOf) ∧
      ∀ inputs, g.Variables inputs → ∀ literals vs,
        (h.expression inputs outs >>= fun e => (e.map Composite.evaluate).evaluate literals) =
          .ok vs →
        ∃ vs', (h'.expression inputs outs' >>= fun e =>
            (e.map Composite.evaluate).evaluate literals) = .ok vs' ∧
          vs = List.zipWith Literal.cast vs' (outs'.map h'.typeOf) := by
  have good := obtained.wellBuilt
  have built := reachable.built
  have nonempty : args ≠ [] := List.ne_nil_of_length_pos (arity ▸ positive)
  have composite : ∀ d, some c = some d → d.WellBuilt := by
    rintro d ⟨rfl⟩
    exact good
  rcases c.call_or_inline good nonempty built config known arity with
    ⟨e, e', k, k', failed, failed'⟩ |
    ⟨d, outs, h', s, news, middle, called, inlined, good', inputTypes, closed, paired, paired'⟩
  · simp [failed, failed']
  have growth := Action.growth (a := .call c args) built known composite
  have growth' := Action.growth (a := .inline c args) built known composite
  rw [Action.perform, called] at growth
  rw [Action.perform, inlined] at growth'
  -- the call and the body are both paired with a copy of the body over fresh variables
  have types : outs.map h'.typeOf = d.outputTypes :=
    (Paired.types_eq paired').trans (Paired.types_eq paired)
  refine ⟨⟨fun _ => ⟨_, _, inlined⟩, fun _ => ⟨_, _, called⟩⟩, ?_⟩
  intro outs₁ h₁ outs₂ h₂ run run'
  obtain ⟨⟨rfl⟩, rfl⟩ := Prod.mk.inj (called.symm.trans run)
  obtain ⟨⟨rfl⟩, rfl⟩ := Prod.mk.inj (inlined.symm.trans run')
  refine ⟨by rw [types, Graph.pushNode_types], ⟨d, Graph.pushNode_node_at _ _ _ _, inputTypes⟩, ?_⟩
  intro inputs free literals vs evaluated
  have knows : (g.pushNode (.call d) args d.outputTypes).Knows
      (List.range' g.values.size d.outputTypes.length) := by
    intro v member
    rw [Graph.pushNode_size]
    exact (List.mem_range'_1.mp member).2
  obtain ⟨arity, denotes⟩ := (Graph.evaluate_variables_iff (Graph.Built.grown built growth)
    (free.extends growth.toExtends) knows vs).mp evaluated
  have built' := Graph.Built.grown built growth'
  obtain ⟨vs', denotes', same⟩ := Composite.exists_inlined_denotes good' built.ordered built'
    growth'.toExtends known closed paired paired' free denotes
  exact ⟨vs', (Graph.evaluate_variables_iff built' (free.extends growth'.toExtends)
    (Paired.knows paired').2 vs').mpr ⟨arity, denotes'⟩, same⟩

def Graph.wide : Arena :=
  (Action.newVariable (.signed .w32) (some "y")).perform {}

theorem wide_reachable : Reachable .wide :=
  .perform (.empty {}) (by decide) (by simp [Action.composite?])

def Composite.wideBoth : Composite :=
  .mk ⟨(Action.apply (.prim .mul) [0, 0]).perform (.negation (.signed .w32)), [0], [1, 2], [0, 1]⟩

theorem both_boundTo :
    Composite.both.boundTo Composite.specialise [.signed .w32] = .ok .wideBoth := by
  have depth : Composite.both.depth = 1 := by
    rw [Composite.depth_eq]
    rfl
  have adapted : Composite.specialise .both [.signed .w32] = .ok .wideBoth := by
    rw [Composite.specialise, depth]
    rfl
  rw [Composite.boundTo, adapted]
  rfl

theorem wideBoth_evaluate :
    Composite.wideBoth.evaluate [.signed 100] = .ok [.signed (-100), .signed 10000] := by
  rw [Composite.evaluate_eq, Expression.evaluate_map]
  rfl

theorem both_called_wide :
    Graph.wide.config = Composite.both.config ∧ Graph.wide.Knows [0] ∧
    ∃ h h', (Build.call .both [0]).exec .wide = (.ok [1, 2], h) ∧
      (Build.inline .both [0]).exec .wide = (.ok [1, 2], h') ∧
      [1, 2].map h'.typeOf = [.signed .w32, .signed .w32] ∧
      (h.expression [0] [1, 2] >>= fun e => (e.map Composite.evaluate).evaluate [.signed 100]) =
        .ok [.signed (-100), .signed 10000] ∧
      ∃ vs', (h'.expression [0] [1, 2] >>= fun e =>
          (e.map Composite.evaluate).evaluate [.signed 100]) = .ok vs' ∧
        [.signed (-100), .signed 10000] = List.zipWith Literal.cast vs' ([1, 2].map h'.typeOf) := by
  let h := Graph.wide.pushNode (.call .wideBoth) [0] [.signed .w32, .signed .w32]
  have called : (Build.call .both [0]).exec .wide = (.ok [1, 2], h) :=
    Composite.exec_call (c := .both) (d := .wideBoth) (List.cons_ne_nil _ _) both_boundTo rfl
  have inlined : (Build.inline .both [0]).exec .wide = (.ok [1, 2],
      (Action.apply (.prim .mul) [0, 0]).perform ((Action.apply (.prim .neg) [0]).perform .wide)) := rfl
  have built : h.Built := by
    have reachable : Reachable ((Action.call .both [0]).perform .wide) := by
      refine .perform wide_reachable (by decide) ?_
      intro c same
      obtain rfl := Option.some.inj same
      exact both_obtained
    rw [Action.perform, called] at reachable
    exact reachable.built
  have free : ∀ k : Arena, Graph.wide.Extends k → k.Variables [0] := by
    intro k grows v member
    obtain rfl := List.mem_singleton.mp member
    exact ⟨.signed .w32, some "y", grows.value rfl⟩
  have operand : ∀ u ∈ [0], h.Denotes [0] [.signed 100] u (.signed 100) := by
    intro u member
    obtain rfl := List.mem_singleton.mp member
    exact .input (a := .signed 100) (by decide) rfl
  have here : h.nodes[0]? = some ⟨.call .wideBoth, [0], [1, 2]⟩ := rfl
  have opposite : h.Denotes [0] [.signed 100] 1 (Literal.cast (.signed (-100)) (.signed .w32)) :=
    .output (k := 0) (V := fun _ => .signed 100) (by decide) rfl here operand wideBoth_evaluate rfl
  have square : h.Denotes [0] [.signed 100] 2 (Literal.cast (.signed 10000) (.signed .w32)) :=
    .output (k := 1) (V := fun _ => .signed 100) (by decide) rfl here operand wideBoth_evaluate rfl
  have evaluated := (Graph.evaluate_variables_iff built (free h (Graph.extends_pushNode _ _ _ _))
    (by decide : h.Knows [1, 2]) [.signed (-100), .signed 10000]).mpr
      ⟨rfl, .cons opposite (.cons square .nil)⟩
  obtain ⟨-, agree⟩ := call_agrees_with_inline both_obtained (by decide) wide_reachable rfl
    (by decide : Graph.wide.Knows [0]) rfl
  obtain ⟨types, -, values⟩ := agree _ _ _ _ called inlined
  exact ⟨rfl, by decide, _, _, called, inlined, types, evaluated,
    values [0] (free _ (.refl _)) _ _ evaluated⟩

end ScalarFusion

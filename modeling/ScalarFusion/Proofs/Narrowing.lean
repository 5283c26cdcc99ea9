import ScalarFusion.Proofs.Mirroring
import ScalarFusion.Proofs.Reaching
import ScalarFusion.Proofs.Typing

/-!
Narrowing. Types commute with the replacement of float16 by float32, whatever the operation, so the
narrowed body mirrors the body, and nothing of it has float16 any more.
-/
namespace ScalarFusion

namespace ScalarType

@[simp]
theorem isBool_widen (t : ScalarType) : t.widen.isBool = t.isBool := by
  cases t <;> rfl

@[simp]
theorem isFloat_widen (t : ScalarType) : t.widen.isFloat = t.isFloat := by
  cases t <;> rfl

@[simp]
theorem isComplex_widen (t : ScalarType) : t.widen.isComplex = t.isComplex := by
  cases t <;> rfl

@[simp]
theorem isDiscrete_widen (t : ScalarType) : t.widen.isDiscrete = t.isDiscrete := by
  cases t <;> rfl

theorem widen_ne_half (t : ScalarType) : t.widen ≠ .float .half := by
  rcases t with _ | _ | _ | (_ | _ | _) | _ <;> simp [widen, Precision.widen]

theorem widen_of_ne_half {t : ScalarType} (other : t ≠ .float .half) : t.widen = t := by
  rcases t with _ | _ | _ | (_ | _ | _) | _ <;> first | rfl | exact absurd rfl other

theorem upgrade_widen (t : ScalarType) : t.widen.upgrade = t.upgrade.widen := by
  rcases t with _ | (_ | _ | _ | _) | (_ | _ | _ | _) | (_ | _ | _) | (_ | _) <;> rfl

theorem promote_widen (s t : ScalarType) : promote s.widen t.widen = (promote s t).widen := by
  rcases s with _ | (_ | _ | _ | _) | (_ | _ | _ | _) | (_ | _ | _) | (_ | _) <;>
    rcases t with _ | (_ | _ | _ | _) | (_ | _ | _ | _) | (_ | _ | _) | (_ | _) <;> rfl

theorem upcast_widen (ts : List ScalarType) : upcast (ts.map widen) = (upcast ts).map widen := by
  cases ts with
  | nil => rfl
  | cons t ts =>
    simp only [List.map_cons, upcast, Option.map_some, Option.some.injEq]
    induction ts generalizing t with
    | nil => rfl
    | cons u ts ih => rw [List.map_cons, List.foldl_cons, List.foldl_cons, promote_widen, ih]

theorem similarity_widen : Similarity fun s t => t = s.widen where
  bool := rfl
  byte := rfl
  isBool := by rintro s _ rfl; exact isBool_widen s
  isDiscrete := by rintro s _ rfl; exact isDiscrete_widen s
  isFloat := by rintro s _ rfl; exact isFloat_widen s
  isComplex := by rintro s _ rfl; exact isComplex_widen s
  promote := by rintro s _ t _ rfl rfl; exact promote_widen s t
  upgrade := by rintro s _ rfl; exact upgrade_widen s

end ScalarType

namespace Primitive

def widen : Primitive → Primitive
  | cast t => cast t.widen
  | p => p

theorem recast_widen (p : Primitive) : Recast (fun s t => t = s.widen) p p.widen := by
  cases p with
  | cast t => exact .cast rfl
  | _ => exact .same (by simp)

theorem related_widen (inputs : List ScalarType) :
    List.Forall₂ (fun s t => t = ScalarType.widen s) inputs (inputs.map ScalarType.widen) :=
  List.forall₂_map_right_iff.mpr (List.forall₂_same.mpr fun _ _ => rfl)

theorem outputType_widen {p : Primitive} {inputs : List ScalarType} {config : Config}
    {t : ScalarType} (typed : p.outputType inputs config = .ok t) :
    p.widen.outputType (inputs.map ScalarType.widen) config.widen = .ok t.widen := by
  obtain ⟨_, typed', rfl⟩ : ∃ t', p.widen.outputType (inputs.map ScalarType.widen) config.widen =
      .ok t' ∧ t' = t.widen :=
    outputType_similar ScalarType.similarity_widen p.recast_widen rfl (related_widen inputs) typed
  exact typed'

theorem exists_of_outputType_widen {p : Primitive} {inputs : List ScalarType} {config : Config}
    {t : ScalarType}
    (typed : p.widen.outputType (inputs.map ScalarType.widen) config.widen = .ok t) :
    ∃ s, p.outputType inputs config = .ok s ∧ t = s.widen :=
  outputType_similar ScalarType.similarity_widen.flip p.recast_widen.flip rfl
    (related_widen inputs).flip typed

end Primitive

namespace Composite

inductive Uses : Composite → Composite → Prop where
  | self (c : Composite) : Uses c c
  | through {c d b : Composite} (callee : d ∈ c.body.callees) (further : Uses d b) : Uses c b

theorem mentions_eq (p : ScalarType → Bool) (c : Composite) : c.mentions p =
    ((c.graph.values.any fun x => p x.type) || c.body.callees.any (mentions p)) := by
  rw [mentions, fold_eq, Expression.callees_map, List.any_map]
  rfl

theorem hasHalf_eq (c : Composite) : c.hasHalf =
    ((c.graph.values.any fun x => x.type == .float .half) || c.body.callees.any hasHalf) :=
  mentions_eq _ c

theorem hasHalf_eq_false {c : Composite} : c.hasHalf = false ↔
    (∀ x ∈ c.graph.values, x.type ≠ .float .half) ∧ ∀ d ∈ c.body.callees, d.hasHalf = false := by
  rw [hasHalf_eq, Bool.or_eq_false_iff, Array.any_eq_false', List.any_eq_false]
  simp

theorem Uses.ne_half {c d : Composite} (uses : c.Uses d) (free : c.hasHalf = false) :
    ∀ x ∈ d.graph.values, x.type ≠ .float .half := by
  induction uses with
  | self c => exact (hasHalf_eq_false.mp free).1
  | through callee _ ih => exact ih ((hasHalf_eq_false.mp free).2 _ callee)

theorem widen_typeOf {c : Composite} (free : c.hasHalf = false) (v : ValueId) :
    (c.graph.typeOf v).widen = c.graph.typeOf v := by
  apply ScalarType.widen_of_ne_half
  unfold Graph.typeOf
  split
  · next found => exact (hasHalf_eq_false.mp free).1 _ (Array.mem_of_getElem? found)
  · simp

def widened (c : Composite) : Composite :=
  if c.hasHalf then (c.narrow.toOption).getD c else c

structure Widens (c d : Composite) : Prop where
  inputTypes : d.inputTypes = c.inputTypes.map ScalarType.widen
  outputTypes : d.outputTypes = c.outputTypes.map ScalarType.widen
  free : d.hasHalf = false

theorem widens_self {c : Composite} (free : c.hasHalf = false) : c.Widens c := by
  refine ⟨?_, ?_, free⟩
  · simp [inputTypes, Expression.inputTypes, widen_typeOf free, show c.body.graph = c.graph from rfl]
  · simp [outputTypes, Expression.outputTypes, widen_typeOf free,
      show c.body.graph = c.graph from rfl]

theorem widens_widened {c d : Composite} (narrowed : c.narrow = .ok d) (widens : c.Widens d) :
    c.Widens c.widened := by
  unfold widened
  split
  · rw [narrowed]
    exact widens
  · next whole => exact widens_self (by simpa using whole)

end Composite

def Op.widened : Op Composite → Op Composite
  | .prim p => .prim p.widen
  | .call c => .call c.widened

theorem Op.outputTypes_widened {op : Op Composite} {inputs types : List ScalarType} {config : Config}
    (widens : ∀ c, op = .call c → c.Widens c.widened)
    (typed : op.outputTypes inputs config = .ok types) :
    op.widened.outputTypes (inputs.map ScalarType.widen) config.widen =
      .ok (types.map ScalarType.widen) := by
  cases op with
  | prim p =>
    obtain ⟨t, output, same⟩ := bind_eq_ok typed
    obtain rfl := Except.ok.inj same
    rw [Op.widened, Op.outputTypes, Primitive.outputType_widen output, ok_bind]
    rfl
  | call c =>
    obtain ⟨_, admitted, same⟩ := bind_eq_ok typed
    obtain rfl := Except.ok.inj same
    have widens := widens c rfl
    have counts : c.widened.inputCount = c.inputCount := by
      rw [← Composite.length_inputTypes, widens.inputTypes, List.length_map,
        Composite.length_inputTypes]
    have admitted' : c.widened.checkArity (inputs.map ScalarType.widen).length = .ok () := by
      rw [Composite.checkArity_eq] at admitted ⊢
      rw [List.length_map, counts]
      split at admitted
      · next arity => rw [if_pos arity]
      · cases admitted
    rw [Op.widened, Op.outputTypes, admitted', ok_bind, widens.outputTypes]

/-- Typing commutes with narrowing: at the widened operand types, what narrowing places for an
    operation has output types exactly if the operation has some at its own, and these widened. -/
theorem typing_commutes_with_narrowing (p : Primitive) (inputs types : List ScalarType)
    (config : Config) :
    ((Op.prim p.widen).outputTypes (inputs.map ScalarType.widen) config.widen = .ok types ↔
      ∃ own, (Op.prim p).outputTypes inputs config = .ok own ∧ types = own.map ScalarType.widen) ∧
    ∀ args, Build.placeWidened (.prim p) args =
      Build.placeWith Composite.specialise (.prim p.widen) args := by
  refine ⟨⟨fun typed => ?_, ?_⟩, fun args => by cases p <;> rfl⟩
  · obtain ⟨t, output, single⟩ := bind_eq_ok typed
    obtain rfl := Except.ok.inj single
    obtain ⟨s, own, rfl⟩ := Primitive.exists_of_outputType_widen output
    exact ⟨[s], by rw [Op.outputTypes, own, ok_bind], rfl⟩
  · rintro ⟨own, typed, rfl⟩
    exact Op.outputTypes_widened (fun c called => by cases called) typed

namespace Build

theorem resolveAll_map {κ ι : Type} (f : κ → ι) (g : Graph κ) (τ : ScalarType → ScalarType)
    (vs : List ValueId) (t : Table ValueId) :
    resolveAll (g.map f) τ vs t = resolveAll g τ vs t := by
  induction vs generalizing t with
  | nil => rfl
  | cons v vs ih =>
    simp only [resolveAll, ih]
    rfl

theorem replay_map {κ ι : Type} (f : κ → ι) (e : Expression κ) (τ : ScalarType → ScalarType)
    (place : NodeId → Op ι → List ValueId → Build (List ValueId)) (t : Table ValueId) :
    replay (e.map f) τ place t = replay e τ (fun n op => place n (op.map f)) t := by
  unfold replay
  rw [Expression.nodes_map, List.foldlM_map]
  simp only [show (e.map f).graph = e.graph.map f from rfl, resolveAll_map]
  rfl

end Build

theorem Expression.rebuild_map {κ ι : Type} (f : κ → ι) (e : Expression κ) (config : Config)
    (τ : ScalarType → ScalarType)
    (place : NodeId → Op ι → List ValueId → Build (List ValueId)) :
    (e.map f).rebuild config τ place = e.rebuild config τ fun n op => place n (op.map f) := by
  unfold Expression.rebuild
  simp only [Build.replay_map]
  rfl

namespace Composite

def CallsNarrow (g : Arena) : Prop :=
  g.Calls fun c => ∃ d, c.narrow = .ok d ∧ c.Widens d

theorem CallsNarrow.outputCount_widened {g : Arena} (callees : CallsNarrow g) {n : NodeId}
    {node : Node Composite} (here : g.nodes[n]? = some node) {d : Composite}
    (called : node.op.widened = .call d) :
    ∃ c, node.op = .call c ∧ d.outputCount = c.outputCount := by
  cases op : node.op with
  | prim p => simp [op, Op.widened] at called
  | call c =>
    obtain rfl : c.widened = d := by simpa [op, Op.widened] using called
    obtain ⟨d, narrowed, widens⟩ := callees here op
    have types := congrArg List.length (widens_widened narrowed widens).outputTypes
    exact ⟨c, rfl, by simpa [outputTypes, Expression.outputTypes, outputCount, outputs] using types⟩

theorem placeWidened_eq {op : Op Composite} (narrows : ∀ c, op = .call c → ∃ d, c.narrow = .ok d)
    (args : List ValueId) : Build.placeWidened (op.map fun d => (d, d.narrow)) args =
      Build.placeWith specialise op.widened args := by
  cases op with
  | prim p => cases p <;> rfl
  | call c =>
    obtain ⟨d, narrowed⟩ := narrows c rfl
    rw [Op.map, placeWidened_call, Op.widened, widened, narrowed]
    split <;> rfl

theorem placesAs_widened {e : Expression Composite} (sourced : e.Sourced)
    (callees : CallsNarrow e.graph) :
    PlacesAs e (e.Retypes ScalarType.widen) (fun n op => op = (e.opAt n).widened)
      e.graph.config.widen False fun _ op => Build.placeWidened (op.map fun d => (d, d.narrow)) := by
  intro n node member here h args configured types
  have types := Expression.retypes_iff.mp types
  have widens : ∀ c, node.op = .call c → c.Widens c.widened := by
    intro c called
    obtain ⟨d, narrowed, widens⟩ := callees here called
    exact widens_widened narrowed widens
  have count : node.outputs.length = (node.outputs.map fun o => (e.graph.typeOf o).widen).length :=
    (List.length_map _).symm
  refine .inr ⟨node.op.widened, node.outputs.map fun o => (e.graph.typeOf o).widen,
    congrArg Op.widened (Expression.opAt_eq here).symm, Expression.retypes_iff.mpr rfl, ?_⟩
  beta_reduce
  rw [placeWidened_eq (fun c called => (callees here called).imp fun _ => And.left), count]
  have types' : args.map h.typeOf = (node.inputs.map e.graph.typeOf).map ScalarType.widen := by
    rw [types, List.map_map]
    rfl
  apply Build.exec_placeWith
  · rintro rfl
    have none : node.inputs = [] := List.map_eq_nil_iff.mp types.symm
    rw [sourced.closed.typed.nonempty here none]
    rfl
  · intro c called
    cases op : node.op with
    | prim p => simp [op, Op.widened] at called
    | call d =>
      obtain rfl : d.widened = c := by simpa [op, Op.widened] using called
      rw [types', sourced.closed.bound here op, (widens d op).inputTypes]
  · have typed := Op.outputTypes_widened widens (sourced.closed.typed.types here)
    rwa [← types', List.map_map, ← configured] at typed

end Composite

/-- What narrowing makes of an operation: a cast to float16 becomes one to float32, and a composite
    with float16 becomes its narrowed form. -/
def Op.Narrows : Op Composite → Op Composite → Prop
  | .prim p, op => op = .prim p.widen
  | .call c, op => (c.hasHalf = false ∧ op = .call c) ∨
      (c.hasHalf = true ∧ ∃ d, c.narrow = .ok d ∧ op = .call d)

theorem Op.narrows_widened {op : Op Composite}
    (narrows : ∀ c, op = .call c → ∃ d, c.narrow = .ok d) : op.Narrows op.widened := by
  cases op with
  | prim p => rfl
  | call c =>
    obtain ⟨d, narrowed⟩ := narrows c rfl
    unfold Op.Narrows Op.widened Composite.widened
    by_cases half : c.hasHalf = true
    · exact .inr ⟨half, d, narrowed, by simp [half, narrowed, Except.toOption]⟩
    · exact .inl ⟨by simpa using half, by simp [half]⟩

/-- The body of `d` is that of `c`, value by value and node by node, without float16. -/
structure Composite.Narrows (c d : Composite) (ρ : ValueId → ValueId) : Prop where
  injective : ∀ v ∈ c.body.values, ∀ u ∈ c.body.values, ρ v = ρ u → v = u
  values : ∀ v ∈ c.body.values, ∃ x y, c.graph.values[v]? = some x ∧
    d.graph.values[ρ v]? = some y ∧ y.type = x.type.widen ∧
    y.literal? = x.literal?.map fun literal => literal.cast x.type.widen
  inputs : d.inputs = c.inputs.map ρ
  outputs : d.outputs = c.outputs.map ρ
  nodes : List.Forall₂ (fun m n => m.2.op.Narrows n.2.op ∧ n.2.inputs = m.2.inputs.map ρ ∧
    n.2.outputs = m.2.outputs.map ρ) c.body.nodes d.body.nodes

theorem Table.Lists.comp {t s : Table ValueId} {us vs ws : List ValueId} (first : t.Lists us vs)
    (second : s.Lists vs ws) :
    ws = us.map fun u => (s.get? ((t.get? u).getD 0)).getD 0 := by
  induction us generalizing vs ws with
  | nil =>
    obtain rfl := List.length_eq_zero_iff.mp first.length.symm
    exact List.length_eq_zero_iff.mp second.length.symm
  | cons u us ih =>
    cases vs with
    | nil => cases first.length
    | cons v vs =>
      cases ws with
      | nil => cases second.length
      | cons w ws =>
        obtain ⟨image, first⟩ := List.cons.inj first
        obtain ⟨image', second⟩ := List.cons.inj second
        rw [List.map_cons, ← ih first second]
        simp [image, image']

theorem forall₂_comp {α β γ : Type} {R : α → β → Prop} {S : β → γ → Prop} {T : α → γ → Prop}
    {xs : List α} {ys : List β} {zs : List γ} (first : List.Forall₂ R xs ys)
    (second : List.Forall₂ S ys zs)
    (joint : ∀ x ∈ xs, ∀ y ∈ ys, ∀ z, R x y → S y z → T x z) : List.Forall₂ T xs zs := by
  induction first generalizing zs with
  | nil =>
    cases second
    exact .nil
  | cons here _ ih =>
    cases second with
    | cons there rest =>
      refine .cons (joint _ (by simp) _ (by simp) _ here there) (ih rest ?_)
      exact fun x inside y inside' => joint x (by simp [inside]) y (by simp [inside'])

namespace Composite

theorem narrows_of_mirrors {e e₁ e₂ : Expression Composite} {t₁ t₂ : Table ValueId}
    (callees : CallsNarrow e.graph)
    (first : e.Mirrors e₁ (e.Retypes ScalarType.widen) (fun n op => op = (e.opAt n).widened) t₁)
    (second : e₁.Mirrors e₂ (e₁.Retypes id) (fun n op => op = e₁.opAt n) t₂) :
    (mk e).Narrows (mk e₂) fun v => (t₂.get? ((t₁.get? v).getD 0)).getD 0 := by
  -- a value has its image in the copy, and that one an image in what fusing makes of it
  have image : ∀ v ∈ e.values, ∃ u w, t₁.get? v = some u ∧ t₂.get? u = some w := by
    intro v member
    obtain ⟨u, inside, image⟩ := first.exists_image member
    obtain ⟨w, -, image'⟩ := second.exists_image inside
    exact ⟨u, w, image, image'⟩
  refine ⟨?_, ?_, first.inputs.comp second.inputs, first.outputs.comp second.outputs, ?_⟩
  · intro v member v' member' same
    obtain ⟨u, w, image₁, image₂⟩ := image v member
    obtain ⟨u', w', image₁', image₂'⟩ := image v' member'
    simp only [image₁, image₁', image₂, image₂', Option.getD_some] at same
    subst same
    obtain rfl := second.mirrored.injective image₂ image₂'
    exact first.mirrored.injective image₁ image₁'
  · intro v member
    obtain ⟨u, w, image₁, image₂⟩ := image v member
    obtain ⟨x, y, source, there, mirrors, widened⟩ := first.mirrored.value image₁
    obtain ⟨y', z, source', there', mirrors', kept⟩ := second.mirrored.value image₂
    obtain rfl := Option.some.inj (there.symm.trans source')
    have kept : z.type = y.type := by rw [kept, Graph.typeOf, there, id]
    have widened : y.type = x.type.widen := by rw [widened, Graph.typeOf, source]
    refine ⟨x, z, source, ?_, ?_, ?_⟩
    · simp only [image₁, image₂, Option.getD_some]
      exact there'
    · rw [kept, widened]
    · rw [mirrors'.literal_eq, mirrors.literal_eq, kept, widened]
      cases x.literal? <;> simp
  · refine forall₂_comp first.nodes second.nodes ?_
    rintro ⟨n, node⟩ inside ⟨n₁, node₁⟩ inside₁ ⟨n₂, node₂⟩ ⟨op, ins, outs⟩ ⟨op', ins', outs'⟩
    refine ⟨?_, ins.comp ins', outs.comp outs'⟩
    have here : e.graph.nodes[n]? = some node := (Expression.mem_nodes.mp inside).2
    have here₁ := (Expression.mem_nodes.mp inside₁).2
    rw [op', Expression.opAt_eq here₁, op, Expression.opAt_eq here]
    exact Op.narrows_widened fun c called => (callees here called).imp fun _ => And.left

/-- A narrowed body calls what the body calls, narrowed where it has float16. -/
theorem Narrows.callee_cases {c d : Composite} {ρ : ValueId → ValueId} (narrows : c.Narrows d ρ)
    {b : Composite} (member : b ∈ d.body.callees) : ∃ a ∈ c.body.callees,
      (a.hasHalf = false ∧ b = a) ∨ (a.hasHalf = true ∧ a.narrow = .ok b) := by
  obtain ⟨n, node, inside, called⟩ := Expression.mem_callees.mp member
  obtain ⟨⟨m, source⟩, inside', op, -⟩ :=
    exists_image_of_mem narrows.nodes.flip inside
  cases callee : source.op with
  | prim p =>
    simp only [callee, called] at op
    cases op
  | call a =>
    refine ⟨a, Expression.mem_callees.mpr ⟨m, source, inside', callee⟩, ?_⟩
    simp only [callee, called] at op
    rcases op with ⟨free, same⟩ | ⟨half, d, narrowed, same⟩
    · exact .inl ⟨free, Op.call.inj same⟩
    · exact .inr ⟨half, by rw [Op.call.inj same, narrowed]⟩

theorem Narrows.callees_free {c d : Composite} {ρ : ValueId → ValueId} (narrows : c.Narrows d ρ)
    (callees : CallsNarrow c.graph) : ∀ b ∈ d.body.callees, b.hasHalf = false := by
  intro b member
  obtain ⟨a, callee, ⟨free, rfl⟩ | ⟨-, narrowed⟩⟩ := narrows.callee_cases member
  · exact free
  · obtain ⟨a', narrowed', widens⟩ := Graph.Calls.callee callees callee
    obtain rfl := Except.ok.inj (narrowed.symm.trans narrowed')
    exact widens.free

theorem narrow_of_rebuild {e : Expression Composite} (calls : e.graph.Calls WellBuilt) {copy : Copy}
    (rebuilt : e.rebuild e.graph.config.widen ScalarType.widen
      (fun _ op => Build.placeWidened (op.map fun d => (d, d.narrow))) = .ok copy) :
    copy.Sound WellBuilt e.graph.config.widen (e.inputTypes.map ScalarType.widen) e.outputs.length ∧
      (mk e).narrow = copy.graph.fuse copy.inputs copy.outputs := by
  rw [← Expression.rebuild_map (fun d => (d, d.narrow)) e e.graph.config.widen ScalarType.widen
    fun _ op => Build.placeWidened op] at rebuilt
  refine ⟨rebuild_widened_sound (fun n node c found called =>
    ⟨calls found called, fun d narrowed => (narrow_wellBuilt (calls found called) narrowed).1⟩)
    rebuilt, ?_⟩
  rw [narrow_eq, show (mk e).config = e.graph.config from rfl, show (mk e).body = e from rfl,
    rebuilt, ok_bind]

theorem exists_widened {e : Expression Composite} (tidy : e.Tidy) (calls : e.graph.Calls WellBuilt)
    (callees : CallsNarrow e.graph) :
    ∃ (copy : Copy) (e₁ : Expression Composite) (t : Table ValueId),
      copy.Sound WellBuilt e.graph.config.widen (e.inputTypes.map ScalarType.widen)
        e.outputs.length ∧
      (mk e).narrow = copy.graph.fuse copy.inputs copy.outputs ∧
      copy.graph.expression copy.inputs copy.outputs = .ok e₁ ∧
      e.Mirrors e₁ (e.Retypes ScalarType.widen) (fun n op => op = (e.opAt n).widened) t ∧
      e₁.dissolvable = [] ∧ copy.outputs ≠ [] := by
  have sourced := tidy.sourced
  obtain ⟨copy, t, rebuilt, mirrored, inputs, outputs⟩ :=
    Expression.exists_rebuild sourced (placesAs_widened sourced callees)
  obtain ⟨sound, narrowed⟩ := narrow_of_rebuild calls rebuilt
  obtain ⟨e₁, walked, mirrors⟩ := Expression.exists_mirrors sourced mirrored inputs outputs
    sound.closed sound.known
  refine ⟨copy, e₁, t, sound, narrowed, walked, mirrors, ?_, ?_⟩
  · refine mirrors.settled sourced.scheduled.nodup (fun entry member d called => ?_) tidy.settled
    have here := (Expression.mem_nodes.mp member).2
    rw [Expression.opAt_eq here] at called
    exact callees.outputCount_widened here called.symm
  · have some := tidy.nonempty
    rw [ne_eq, ← List.length_eq_zero_iff] at some ⊢
    rwa [← outputs.length]

theorem exists_narrow {c : Composite} (good : c.WellBuilt) : ∃ d ρ, c.narrow = .ok d ∧
    c.Widens d ∧ c.Narrows d ρ ∧ d.order.length = c.order.length := by
  induction good with
  | @mk e tidy wellBuilt ih =>
    have callees : CallsNarrow e.graph := by
      intro n node c found called
      obtain ⟨d, ρ, narrowed, widens, -⟩ := ih found called
      exact ⟨d, narrowed, widens⟩
    obtain ⟨copy, e₁, t₁, sound, narrowed, walked, first, settled, nonempty⟩ :=
      exists_widened tidy wellBuilt callees
    obtain ⟨_, e₂, t₂, -, -, fused, second⟩ := Graph.exists_fuse_flat sound.closed sound.calls
      sound.known nonempty walked settled
    have narrows := narrows_of_mirrors callees first second
    refine ⟨.mk e₂, _, narrowed.trans fused, ⟨?_, ?_, ?_⟩, narrows, ?_⟩
    · rw [inputTypes, inputTypes, body, second.inputTypes, first.inputTypes, List.map_id]
      rfl
    · rw [outputTypes, outputTypes, body, second.outputTypes, first.outputTypes, List.map_id]
      rfl
    · refine hasHalf_eq_false.mpr ⟨?_, narrows.callees_free callees⟩
      intro z member
      obtain ⟨y, inside, same⟩ := second.value_type member
      obtain ⟨x, -, same'⟩ := first.value_type inside
      rw [same, id_eq, same']
      exact ScalarType.widen_ne_half x.type
    · rw [order, order, body, second.order, first.order, List.length_range, List.length_range]
      rfl

theorem callsNarrow_of_wellBuilt {g : Arena} (calls : g.Calls WellBuilt) : CallsNarrow g := by
  intro n node c found called
  obtain ⟨d, _, narrowed, widens, -⟩ := exists_narrow (calls found called)
  exact ⟨d, narrowed, widens⟩

end Composite

/-- Every composite that a client obtains can be narrowed. The narrowed one has float16 nowhere, not
    even in what it calls, and is the same otherwise: types, nodes and their operands. -/
theorem narrow_total {c : Composite} (obtained : Obtained c) :
    ∃ d ρ, c.narrow = .ok d ∧ d.hasHalf = false ∧
      (∀ b, d.Uses b → ∀ x ∈ b.graph.values, x.type ≠ .float .half) ∧
      d.inputTypes = c.inputTypes.map ScalarType.widen ∧
      d.outputTypes = c.outputTypes.map ScalarType.widen ∧
      d.order.length = c.order.length ∧ c.Narrows d ρ := by
  obtain ⟨d, ρ, narrowed, widens, narrows, length⟩ := Composite.exists_narrow obtained.wellBuilt
  exact ⟨d, ρ, narrowed, widens.free, fun b uses => uses.ne_half widens.free, widens.inputTypes,
    widens.outputTypes, length, narrows⟩

theorem nested_narrowed : ∃ c d, (Graph.nested (.float .half)).fuse [0] [1, 2] = .ok c ∧ Obtained c ∧
    c.inputTypes = [.float .half] ∧ c.body.callees.length = 1 ∧ c.narrow = .ok d ∧
    d.hasHalf = false ∧ d.inputTypes = [.float .single] := by
  obtain ⟨c, fused, types, calls⟩ : ∃ c, (Graph.nested (.float .half)).fuse [0] [1, 2] = .ok c ∧
      c.inputTypes = [.float .half] ∧ c.body.callees.length = 1 := ⟨_, rfl, rfl, rfl⟩
  have obtained : Obtained c := .fuse (nested_reachable (by decide)) (by decide) fused
  obtain ⟨d, _, narrowed, free, -, inputTypes, -⟩ := narrow_total obtained
  rw [types] at inputTypes
  exact ⟨c, d, fused, obtained, types, calls, narrowed, free, inputTypes⟩

end ScalarFusion

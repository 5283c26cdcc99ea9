import ScalarFusion.Proofs.Representation
import ScalarFusion.Proofs.ReverseMode
import ScalarFusion.Proofs.Transplanting

/-!
Gradients through calls. The body is put in the place of the call and swept back to the arguments.
Where no call is given a value twice, that gives the derivative, just as if the body had been there
from the start. A value that is given twice would be counted once for each place.
-/
namespace ScalarFusion

open DualNumber

def Composite.Smooth (config : Config) (c : Composite) : Prop :=
  c.Everywhere (Expression.Smooth config)

def paired (V : ValueId → ℚ[ε]) (gradients : List ValueId) (xs : List ℚ[ε]) : ℚ :=
  (List.zipWith (fun w x => (V w).fst * x.snd) gradients xs).sum

theorem pairing_eq (V : ValueId → ℚ[ε]) (gradients vs : List ValueId) :
    pairing V gradients vs = paired V gradients (vs.map V) := by
  rw [pairing, paired, List.zipWith_map_right]

theorem Composite.length_interpret {A : Type} [CommRing A] [Inv A] [Algebra ℚ A] (c : Composite)
    (args : List A) : (c.interpret args).length = c.outputCount := by
  rw [interpret_eq, Expression.interpret, List.length_map]
  rfl

theorem Graph.Models.call_outputs {A : Type} [CommRing A] [Inv A] [Algebra ℚ A] {g : Arena}
    {V : ValueId → A} (models : g.Models V) (typed : g.Typed) {n : NodeId} {node : Node Composite}
    {c : Composite} (here : g.nodes[n]? = some node) (called : node.op = .call c) :
    node.outputs.map V = c.interpret (node.inputs.map V) := by
  have length := typed.length_outputs here called
  apply List.ext_getElem?
  intro k
  rw [List.getElem?_map]
  cases output : node.outputs[k]? with
  | none =>
    rw [List.getElem?_eq_none_iff] at output
    rw [List.getElem?_eq_none]
    · rfl
    · rwa [Composite.length_interpret, ← length]
  | some o =>
    have inside := (List.getElem?_eq_some_iff.mp output).1
    rw [length, ← c.length_interpret (node.inputs.map V)] at inside
    rw [Option.map_some, models.nodes here output, called, Op.interpret,
      List.getElem?_eq_getElem inside]
    rfl

namespace Build

def CallRule (ofCall : CallGradient) (g : Arena) (c : Composite) (args : List ValueId) : Prop :=
  ∀ arriving : List ValueId, arriving.length = c.outputCount → (∀ w ∈ arriving, g.Number True w) →
    Yields .client g (ofCall c args arriving) fun gradients k => gradients.length = args.length ∧
      (∀ w ∈ gradients, k.Number True w) ∧
        ∀ V : ValueId → ℚ[ε], k.Models V →
          pairing V gradients args = paired V arriving (c.interpret (args.map V))

variable {g : Arena} {ofCall : CallGradient} {region : ValueId → Prop}

theorem propagates_arithmetic (built : g.Built) {n : NodeId} {node : Node Composite} {p : Primitive}
    (here : g.nodes[n]? = some node) (applied : node.op = .prim p)
    (arithmetic : p.isArithmetic = true)
    (numbers : ∀ v ∈ node.inputs, region v ∧ g.Number True v) {o : ValueId}
    (output : o ∈ node.outputs) (inside : region o) :
    Propagates ofCall region (fun _ => True) g node := by
  apply propagates_primitive built here applied arithmetic numbers
  intro o' output'
  obtain ⟨only, outputs, -⟩ := built.typed.primitive here applied
  have same : o' = o := by
    rw [outputs, List.mem_singleton] at output output'
    rw [output, output']
  exact ⟨same ▸ inside, fun _ _ _ => trivial⟩

theorem propagates_call (built : g.Built) {n : NodeId} {node : Node Composite} {c : Composite}
    (here : g.nodes[n]? = some node) (called : node.op = .call c)
    (numbers : ∀ v ∈ node.inputs, g.Number True v)
    (rule : ∀ h, Growth .client g h → CallRule ofCall h c node.inputs) :
    Propagates ofCall region (fun _ => True) g node := by
  intro h arriving growth given
  have length := built.typed.length_outputs here called
  have some_input : node.inputs ≠ [] := by
    intro none
    rw [built.typed.nonempty here none] at called
    cases called
  have loose : ∀ v ∈ node.inputs, h.Number False v :=
    fun v member => ((numbers v member).grown growth.toExtends).loosen False.elim
  have good : ∀ w ∈ arriving, h.Number True w := by
    intro w member
    obtain ⟨o, -, number⟩ := exists_image_of_mem given.flip member
    exact number
  apply yields_gradientWith some_input loose
  rw [called]
  refine (rule h growth arriving (given.length_eq.symm.trans length) good).weaken ?_
  rintro gradients k growth' ⟨length', numbers', balance⟩
  constructor
  · apply List.forall₂_iff_zip.mpr
    refine ⟨length'.symm, ?_⟩
    intro v w member
    exact numbers' w (List.of_mem_zip member).2
  · intro V models _
    have growth'' := growth.trans growth'
    rw [balance V models, pairing_eq, models.call_outputs (built.grown growth'').typed
      (growth''.toExtends.node here) called]

end Build

namespace Transplanted

open Build

variable {e : Expression Composite} {args : List ValueId} {start h : Arena} {done : List NodeId}
  {t : Table ValueId}

def Inside (args : List ValueId) (start h : Arena) (v : Nat) : Prop :=
  v ∈ args ∨ (start.values.size ≤ v ∧ v < h.values.size)

theorem inside_copy (planted : Transplanted e args start done t h) {v w : Nat}
    (image : t.get? v = some w) : Inside args start h w := by
  have known := (planted.double image).1
  cases planted.copy image with
  | input _ arg => exact .inl (List.mem_of_getElem? arg)
  | constant fresh _ _ => exact .inr ⟨fresh, known⟩
  | output fresh _ _ _ _ _ _ _ => exact .inr ⟨fresh, known⟩

theorem node_of_output (planted : Transplanted e args start done t h) (ordered : start.Ordered)
    {m : NodeId} {copy : Node Composite} (there : h.nodes[m]? = some copy) {o : Nat}
    (output : o ∈ copy.outputs) (fresh : start.values.size ≤ o) :
    ∃ (n : NodeId) (node : Node Composite), e.graph.nodes[n]? = some node ∧ copy.op = node.op ∧
      t.Lists node.inputs copy.inputs ∧ ∀ o : Nat, o ∈ copy.outputs → start.values.size ≤ o := by
  rcases planted.nodes there with old | copied
  · exact absurd (ordered.knows_outputs old o output) (Nat.not_lt.mpr fresh)
  · exact copied

theorem nodup_images (planted : Transplanted e args start done t h) {vs ws : List ValueId}
    (images : t.Lists vs ws) (distinct : vs.Nodup) : ws.Nodup := by
  rw [List.nodup_iff_getElem?_ne_getElem?]
  intro i j less inside same
  have inside' : j < vs.length := by rwa [images.length]
  have first := List.getElem?_eq_getElem (Nat.lt_trans less inside')
  have second := List.getElem?_eq_getElem inside'
  obtain ⟨w, at_i, image⟩ := images.at first
  obtain ⟨w', at_j, image'⟩ := images.at second
  rw [at_i, at_j] at same
  obtain rfl := Option.some.inj same
  have equal := planted.injective image image'
  exact Nat.ne_of_lt less ((List.Nodup.getElem_inj_iff distinct).mp equal)

theorem smooth_copy (planted : Transplanted e args start done t h) {node copy : Node Composite}
    (op : copy.op = node.op) (images : t.Lists node.inputs copy.inputs) {config : Config}
    (smooth : node.Smooth config) : copy.Smooth config := by
  cases applied : node.op with
  | prim p =>
    simp only [Node.Smooth, op, applied] at smooth ⊢
    refine ⟨smooth.1, fun none => smooth.2 ?_⟩
    rw [none] at images
    exact List.length_eq_zero_iff.mp images.length
  | call d =>
    simp only [Node.Smooth, op, applied] at smooth ⊢
    exact planted.nodup_images images smooth

end Transplanted

namespace Build

variable {g : Arena}

theorem region_inside {c : Composite} {args : List ValueId} {h : Arena} {t : Table ValueId}
    {ofCall : CallGradient} (ordered : g.Ordered) (growth : Growth .client g h) (built : h.Built)
    (smooth : c.body.Smooth g.config)
    (doubles : ∀ a : Nat, a ∈ args → a < g.values.size ∧ g.typeOf a = .float .double)
    (planted : Transplanted c.body args g c.body.order t h)
    (rule : ∀ {n : NodeId} {node : Node Composite} {d : Composite}, c.graph.nodes[n]? = some node →
      node.op = .call d → ∀ ws : List ValueId, ws.Nodup → ws.length = node.inputs.length →
        (∀ w ∈ ws, h.Number True w) → ∀ k, Growth .client h k → CallRule ofCall k d ws) :
    Region ofCall h args (Transplanted.Inside args g h) fun _ => True := by
  have number : ∀ v, Transplanted.Inside args g h v → h.Number True v := by
    rintro v (arg | ⟨fresh, known⟩)
    · obtain ⟨known, double⟩ := doubles v arg
      exact (Graph.number_of_typeOf known double).grown growth.toExtends
    · obtain ⟨u, image⟩ := planted.covered v fresh known
      exact Graph.number_of_typeOf known (planted.double image).2
  have fresh : ∀ {o : Nat}, Transplanted.Inside args g h o → o ∉ args → g.values.size ≤ o :=
    fun inside beyond => (inside.resolve_left beyond).1
  have operands : ∀ {vs ws : List ValueId}, t.Lists vs ws → ∀ w ∈ ws,
      Transplanted.Inside args g h w := by
    intro vs ws images w member
    obtain ⟨v, -, image⟩ := images.mem_right member
    exact planted.inside_copy image
  -- only nodes of the copy have outputs in the region beyond the arguments
  constructor
  · exact number
  · intro m copy there o output inside beyond
    obtain ⟨n, node, here, op, images, -⟩ :=
      planted.node_of_output ordered there output (fresh inside beyond)
    have numbers : ∀ w ∈ copy.inputs, h.Number True w :=
      fun w member => number w (operands images w member)
    have simple := smooth.nodes here
    cases applied : node.op with
    | prim p =>
      simp only [Node.Smooth, applied] at simple
      exact propagates_arithmetic built there (op.trans applied) simple.1
        (fun w member => ⟨operands images w member, numbers w member⟩) output inside
    | call d =>
      simp only [Node.Smooth, applied] at simple
      apply propagates_call built there (op.trans applied) numbers
      exact rule here applied copy.inputs (planted.nodup_images images simple) images.length.symm numbers
  · intro m copy there o output inside beyond w member
    obtain ⟨n, node, here, -, images, -⟩ :=
      planted.node_of_output ordered there output (fresh inside beyond)
    exact operands images w member
  · intro m copy there o output inside beyond o' output'
    obtain ⟨n, node, here, -, -, outputs⟩ :=
      planted.node_of_output ordered there output (fresh inside beyond)
    have inside' : Transplanted.Inside args g h o' :=
      .inr ⟨outputs o' output', built.ordered.knows_outputs there o' output'⟩
    refine ⟨.inl inside', number o' inside', ?_⟩
    intro arg
    exact Nat.not_lt.mpr (outputs o' output') (doubles o' arg).1

/-- The rule for calls, whatever the depth of what is called. -/
theorem callRule_callGradientAt (depth : Nat) {g : Arena} (built : g.Built) {c : Composite}
    (good : c.WellBuilt) (smooth : c.Smooth g.config) (enough : c.depth ≤ depth)
    {args : List ValueId} (distinct : args.Nodup) (arity : args.length = c.inputCount)
    (doubles : ∀ a : Nat, a ∈ args → a < g.values.size ∧ g.typeOf a = .float .double) :
    CallRule (callGradientAt depth) g c args := by
  induction depth generalizing g c args with
  | zero =>
    exact absurd enough (Nat.not_le.mpr c.depth_pos)
  | succ depth ih =>
    intro arriving length numbers
    refine yields_bind _ (yields_inline good smooth.body doubles distinct arity) ?_
    rintro outs h growth ⟨t, planted, images⟩
    have grown := growth.toExtends
    have built' := built.grown growth
    -- calls in the body are of a lower depth
    have rule : ∀ {n : NodeId} {node : Node Composite} {d : Composite},
        c.graph.nodes[n]? = some node → node.op = .call d → ∀ ws : List ValueId, ws.Nodup →
        ws.length = node.inputs.length → (∀ w ∈ ws, h.Number True w) →
        ∀ k, Growth .client h k → CallRule (callGradientAt depth) k d ws := by
      intro n node d here called ws distinct' length' numbers' k growth'
      have config : k.config = g.config := (grown.trans growth'.toExtends).config
      have lower := Composite.depth_callee_lt here called
      have arity' : ws.length = d.inputCount := by
        have types := congrArg List.length (good.body.closed.bound here called)
        rw [List.length_map, Composite.length_inputTypes] at types
        exact length'.trans types
      apply ih (built'.grown growth') (good.callees here called)
        (config ▸ smooth.callees here called) (by omega) distinct' arity'
      exact fun w member => ((numbers' w member).grown growth'.toExtends).double
    have r := region_inside built.ordered growth built' smooth.body doubles planted rule
    -- the arguments are the boundary of the sweep through the copy, and its only ends
    refine (yields_backpropagate built'.ordered r ?_ ?_).weaken ?_
    · rintro ⟨out, w⟩ member
      obtain ⟨among, arrived⟩ := List.of_mem_zip member
      obtain ⟨v, -, image⟩ := images.mem_right among
      exact ⟨planted.inside_copy image, (numbers w arrived).grown grown⟩
    · intro a member
      obtain ⟨known, double⟩ := doubles a member
      exact (Graph.number_of_typeOf known double).grown grown
    · rintro gradients k growth' ⟨table, given, balance⟩
      refine ⟨given.length_eq.symm, ?_, ?_⟩
      · intro w member
        obtain ⟨a, -, result⟩ := exists_image_of_mem given.flip member
        exact result.1
      · intro V models
        have models' := models.of_extends growth'.toExtends
        have tame : Tame (Transplanted.Inside args g h) (fun _ => True) V :=
          fun v _ less => absurd trivial less
        have total := balance V models tame args distinct ?_ ?_
        · rw [pairing_arriving tame (fun a member => .inl (.inl member))
            (given.imp fun a w result fully => result.2 fully V models), total,
            sum_zip outs arriving fun _ _ => rfl, pairing_eq,
            planted.outputs_eq good images models']
        · intro a member
          exact ⟨Nat.lt_of_lt_of_le (doubles a member).1 grown.size_le, .inl member⟩
        · intro v inside limit beyond
          obtain ⟨fresh, known⟩ := inside.resolve_left beyond
          obtain ⟨u, image⟩ := planted.covered v fresh known
          cases planted.copy image with
          | input _ arg => exact absurd (List.mem_of_getElem? arg) beyond
          | constant _ _ there =>
            rw [models'.constants there]
            rfl
          | output _ _ _ _ there output' _ _ =>
            exact absurd (List.mem_of_getElem? output') (limit.resolve_left beyond _ _ there)

end Build

theorem Graph.Typed.length_inputs {g : Arena} (typed : g.Typed) {n : NodeId} {node : Node Composite}
    {c : Composite} (here : g.nodes[n]? = some node) (called : node.op = .call c) :
    node.inputs.length = c.inputCount := by
  have types := typed.types here
  rw [called, Op.outputTypes, Composite.checkArity_eq] at types
  split at types
  · next arity => simpa using arity
  · cases types

def Graph.SmoothFor (g : Arena) (v : ValueId) : Prop :=
  ∀ (n : NodeId) (node : Node Composite) (o : ValueId), g.nodes[n]? = some node →
    o ∈ node.outputs → g.Needs v o →
      node.Smooth g.config ∧ ∀ c, node.op = .call c → c.Smooth g.config

namespace Graph

variable {g h : Arena} {cost : ValueId}

theorem region_smooth (built : g.Built) (doubles : g.Doubles) (known : cost < g.values.size)
    (smooth : g.SmoothFor cost) :
    Build.Region Build.callGradient g [] (g.Needs cost) fun _ => True := by
  have double : ∀ v : Nat, v < g.values.size → g.Number True v :=
    fun v inside => number_of_typeOf inside (doubles.typeOf inside)
  constructor
  · intro v needed
    exact double v (needed.known built.ordered known)
  · intro n node here o output needed _
    obtain ⟨simple, callees⟩ := smooth n node o here output needed
    cases applied : node.op with
    | prim p =>
      simp only [Node.Smooth, applied] at simple
      refine Build.propagates_arithmetic built here applied simple.1 ?_ output needed
      intro v input
      exact ⟨needed.operand here output input, double v (built.ordered.known here v input)⟩
    | call c =>
      simp only [Node.Smooth, applied] at simple
      apply Build.propagates_call built here applied
      · exact fun v input => double v (built.ordered.known here v input)
      · intro h growth
        have config := growth.toExtends.config
        apply Build.callRule_callGradientAt c.depth (built.grown growth) (built.calls here applied)
          (config ▸ callees c applied) (Nat.le_refl _) simple (built.typed.length_inputs here applied)
        exact fun v input => ((double v (built.ordered.known here v input)).grown growth.toExtends).double
  · intro n node here o output needed _ v input
    exact needed.operand here output input
  · intro n node here o output needed _ o' output'
    exact ⟨.inr trivial, double o' (built.ordered.knows_outputs here o' output'), by simp⟩

theorem Needs.of_grown {args : List ValueId} (ordered : g.Ordered)
    (nodes : ∀ (n : NodeId) (node : Node Composite), h.nodes[n]? = some node →
      g.nodes[n]? = some node ∨ ∀ v : Nat, v ∈ node.inputs → v ∈ args ∨ g.values.size ≤ v) {o : Nat}
    (start : o ∈ args ∨ g.values.size ≤ o) {v : Nat} (needed : h.Needs o v) :
    (∃ a ∈ args, g.Needs a v) ∨ g.values.size ≤ v := by
  induction needed with
  | self => exact start.imp_left fun arg => ⟨o, arg, .self⟩
  | @operand n node o' u _ here output input ih =>
    rcases nodes n node here with old | operands
    · rcases ih with ⟨a, arg, needed⟩ | fresh
      · exact .inl ⟨a, arg, needed.operand old output input⟩
      · exact absurd (ordered.knows_outputs old o' output) (Nat.not_lt.mpr fresh)
    · exact (operands u input).imp_left fun arg => ⟨u, arg, .self⟩

theorem SmoothFor.grown {args : List ValueId} (built : g.Built) (growth : Growth .client g h)
    (smooth : ∀ a ∈ args, g.SmoothFor a)
    (nodes : ∀ (n : NodeId) (node : Node Composite), h.nodes[n]? = some node →
      g.nodes[n]? = some node ∨ (node.Smooth g.config ∧ (∀ c, node.op = .call c → c.Smooth g.config) ∧
        ∀ v : Nat, v ∈ node.inputs → v ∈ args ∨ g.values.size ≤ v)) {o : Nat}
    (start : o ∈ args ∨ g.values.size ≤ o) : h.SmoothFor o := by
  intro n node o' here output needed
  rw [growth.toExtends.config]
  rcases nodes n node here with old | ⟨simple, callees, -⟩
  · have operands := fun m user there => (nodes m user there).imp_right fun new => new.2.2
    rcases needed.of_grown built.ordered operands start with ⟨a, arg, needed'⟩ | fresh
    · exact smooth a arg n node o' old output needed'
    · exact absurd (built.ordered.knows_outputs old o' output) (Nat.not_lt.mpr fresh)
  · exact ⟨simple, callees⟩

end Graph

/-- What stands for the outputs of a composite at the arguments: numbers that are worth what the
    composite computes, in an arena of doubles and on smooth ground. -/
structure Stands (c : Composite) (args : List ValueId) (outs : List ValueId) (h : Arena) : Prop where
  doubles : h.Doubles
  known : h.Knows outs
  smooth : ∀ o ∈ outs, h.SmoothFor o
  worth : ∀ V : ValueId → ℚ[ε], h.Models V → outs.map V = c.interpret (args.map V)

theorem Stands.output {c : Composite} {args outs : List ValueId} {h : Arena}
    (stands : Stands c args outs h) (ordered : h.Ordered) {k : Nat} (index : k < c.outputCount) :
    ∃ o, outs[k]? = some o := by
  have length := congrArg List.length (stands.worth _ (Graph.models_meaning ordered 0))
  rw [List.length_map, Composite.length_interpret] at length
  exact ⟨_, List.getElem?_eq_getElem (length ▸ index)⟩

namespace Build

variable {g : Arena} {c : Composite} {args targets : List ValueId}

theorem yields_call (built : g.Built) (doubles : g.Doubles) (good : c.WellBuilt)
    (smooth : c.Smooth g.config) (known : g.Knows args) (some_arg : args ≠ [])
    (arity : args.length = c.inputCount) (distinct : args.Nodup)
    (computed : ∀ a ∈ args, g.SmoothFor a) :
    Yields .client g (call c args) (Stands c args) := by
  have types : args.map g.typeOf = c.inputTypes := by
    have inputs : c.graph.Knows c.inputs := by
      intro v member
      obtain ⟨type, name, found⟩ := (good.body.closed.free v).mpr member
      exact (Array.getElem?_eq_some_iff.mp found).1
    rw [doubles.map_typeOf known, arity]
    exact (smooth.body.doubles.map_typeOf inputs).symm
  have typed : (Op.call c).outputTypes (args.map g.typeOf) g.config = .ok c.outputTypes := by
    rw [Op.outputTypes, Composite.checkArity_eq, List.length_map, if_pos arity]
    rfl
  have nonempty : args = [] → Op.call c = .prim .mean := fun none => absurd none some_arg
  have growth : Growth .client g (g.pushNode (.call c) args c.outputTypes) := by
    refine .node .refl known nonempty typed ?_
    rintro d ⟨rfl⟩
    exact good
  have built' := built.grown growth
  have there : (g.pushNode (.call c) args c.outputTypes).nodes[g.nodes.size]? =
      some ⟨.call c, args, List.range' g.values.size c.outputTypes.length⟩ := by simp
  refine ⟨_, _, @exec_placeWith Composite.specialise (.call c) args g c.outputTypes nonempty ?_ typed,
    growth, ?_⟩
  · rintro d ⟨rfl⟩
    exact types
  constructor
  · intro v x found
    rw [Graph.pushNode_value_at] at found
    split at found
    · exact doubles v x found
    · obtain ⟨type, output, rfl⟩ := Option.map_eq_some_iff.mp found
      obtain ⟨o, member, rfl⟩ := List.mem_map.mp (List.mem_of_getElem? output)
      exact smooth.body.doubles.typeOf (good.body.known o member)
  · exact built'.ordered.knows_outputs there
  · intro o output
    apply Graph.SmoothFor.grown built growth computed
    · intro n node here
      rw [Graph.pushNode_nodes, Array.getElem?_push] at here
      split at here
      · obtain rfl := Option.some.inj here
        refine .inr ⟨distinct, ?_, fun v input => .inl input⟩
        rintro d ⟨rfl⟩
        exact smooth
      · exact .inl here
    · exact .inr (List.mem_range'_1.mp output).1
  · intro V models
    exact models.call_outputs built'.typed there rfl

theorem stands_inline (built : g.Built) (doubles : g.Doubles) (good : c.WellBuilt)
    (smooth : c.Smooth g.config) (known : g.Knows args) (arity : args.length = c.inputCount)
    (distinct : args.Nodup) (computed : ∀ a ∈ args, g.SmoothFor a) :
    Yields .client g (inline c args) (Stands c args) := by
  have double : ∀ a : Nat, a ∈ args → a < g.values.size ∧ g.typeOf a = .float .double :=
    fun a member => ⟨known a member, doubles.typeOf (known a member)⟩
  refine (yields_inline good smooth.body double distinct arity).weaken ?_
  rintro outs h growth ⟨t, planted, images⟩
  have grown := growth.toExtends
  have copied : ∀ {vs ws : List ValueId}, t.Lists vs ws → ∀ w : Nat, w ∈ ws →
      w < h.values.size ∧ (w ∈ args ∨ g.values.size ≤ w) := by
    intro vs ws lists w member
    obtain ⟨v, -, image⟩ := lists.mem_right member
    exact ⟨(planted.double image).1, (planted.inside_copy image).imp_right And.left⟩
  constructor
  · intro v x found
    have inside := (Array.getElem?_eq_some_iff.mp found).1
    have type : h.typeOf v = .float .double := by
      by_cases old : v < g.values.size
      · rw [grown.typeOf old]
        exact doubles.typeOf old
      · obtain ⟨u, image⟩ := planted.covered v (Nat.le_of_not_lt old) inside
        exact (planted.double image).2
    simpa [Graph.typeOf, found] using type
  · exact fun o output => (copied images o output).1
  · intro o output
    apply Graph.SmoothFor.grown built growth computed
    · intro m copy there
      rcases planted.nodes there with old | ⟨n, node, here, op, inputs, -⟩
      · exact .inl old
      · refine .inr ⟨?_, ?_, fun w input => (copied inputs w input).2⟩
        · exact planted.smooth_copy op inputs (smooth.body.nodes here)
        · intro d called
          exact smooth.callees here (op ▸ called)
    · exact (copied images o output).2
  · intro V models
    exact planted.outputs_eq good images models

theorem yields_gradient_output {h : Arena} {outs : List ValueId} (built : g.Built)
    (growth : Growth .client g h) (known : g.Knows args) (stands : Stands c args outs h) {k : Nat}
    {o : ValueId} (output : outs[k]? = some o)
    (free : ∀ t ∈ targets, ∃ type name, g.values[t]? = some ⟨type, .free name⟩) :
    Yields .client h (gradient o targets) fun results h' => ∀ ρ : ValueId → ℚ,
      results.map (h'.meaning ρ) = targets.map fun t =>
        ((c.interpret (args.map (g.meaning (along ρ t))))[k]?.map TrivSqZeroExt.snd).getD 0 := by
  have built' := built.grown growth
  have among := List.mem_of_getElem? output
  have r := Graph.region_smooth built' stands.doubles (stands.known o among) (stands.smooth o among)
  have free' : ∀ t ∈ targets, True ∧ h.Number True t ∧
      ∃ type name, h.values[t]? = some ⟨type, .free name⟩ := by
    intro t member
    obtain ⟨type, name, found⟩ := free t member
    have found' := growth.toExtends.value found
    have inside := (Array.getElem?_eq_some_iff.mp found').1
    exact ⟨trivial, Graph.number_of_typeOf inside (stands.doubles.typeOf inside), type, name, found'⟩
  refine (yields_derivatives built' r (fun ρ t v _ less => absurd trivial less) free').weaken ?_
  intro results h' _ derivatives ρ
  have same : ∀ t, (h.meaning (along ρ t) o).snd =
      ((c.interpret (args.map (g.meaning (along ρ t))))[k]?.map TrivSqZeroExt.snd).getD 0 := by
    intro t
    have operands : args.map (h.meaning (along ρ t)) = args.map (g.meaning (along ρ t)) := by
      apply List.map_congr_left
      intro a member
      exact Graph.meaning_extends growth.toExtends built.ordered built'.ordered _ (known a member)
    rw [← operands, ← stands.worth _ (Graph.models_meaning built'.ordered _), List.getElem?_map, output]
    rfl
  have all : List.Forall₂ Eq (targets.map fun t =>
      ((c.interpret (args.map (g.meaning (along ρ t))))[k]?.map TrivSqZeroExt.snd).getD 0)
      (results.map (h'.meaning ρ)) := by
    rw [List.forall₂_map_left_iff, List.forall₂_map_right_iff]
    exact (derivatives ρ).imp fun t w result => (same t).symm.trans result.symm
  rw [List.forall₂_eq_eq_eq] at all
  exact all.symm

end Build

/-- Where no call is given a value twice, the gradients of an output of a call are those of the same
    output of the body in its place, and both are the derivatives. -/
theorem gradient_call_eq_gradient_inline {g : Arena} (reachable : Reachable g) (doubles : g.Doubles)
    {c : Composite} (obtained : Obtained c) (smooth : c.Smooth g.config) {args : List ValueId}
    (known : g.Knows args) (some_arg : args ≠ []) (arity : args.length = c.inputCount)
    (distinct : args.Nodup) (computed : ∀ a ∈ args, g.SmoothFor a) {k : Nat}
    (index : k < c.outputCount) {targets : List ValueId}
    (free : ∀ t ∈ targets, ∃ type name, g.values[t]? = some ⟨type, .free name⟩) :
    ∃ outs g₁ o results h₁ outs' g₂ o' results' h₂,
      (Build.call c args).exec g = (.ok outs, g₁) ∧ outs[k]? = some o ∧
      (Build.gradient o targets).exec g₁ = (.ok results, h₁) ∧
      (Build.inline c args).exec g = (.ok outs', g₂) ∧ outs'[k]? = some o' ∧
      (Build.gradient o' targets).exec g₂ = (.ok results', h₂) ∧
      ∀ ρ : ValueId → ℚ, results.map (h₁.meaning ρ) = results'.map (h₂.meaning ρ) ∧
        results.map (h₁.meaning ρ) = targets.map fun t =>
          ((c.interpret (args.map (g.meaning (along ρ t))))[k]?.map TrivSqZeroExt.snd).getD 0 := by
  have built := reachable.built
  have good := obtained.wellBuilt
  obtain ⟨outs, g₁, called, growth₁, stands₁⟩ :=
    Build.yields_call built doubles good smooth known some_arg arity distinct computed
  obtain ⟨outs', g₂, inlined, growth₂, stands₂⟩ :=
    Build.stands_inline built doubles good smooth known arity distinct computed
  obtain ⟨o, output⟩ := stands₁.output (built.grown growth₁).ordered index
  obtain ⟨o', output'⟩ := stands₂.output (built.grown growth₂).ordered index
  obtain ⟨results, h₁, run₁, -, derivatives₁⟩ :=
    Build.yields_gradient_output built growth₁ known stands₁ output free
  obtain ⟨results', h₂, run₂, -, derivatives₂⟩ :=
    Build.yields_gradient_output built growth₂ known stands₂ output' free
  refine ⟨outs, g₁, o, results, h₁, outs', g₂, o', results', h₂, called, output, run₁, inlined,
    output', run₂, ?_⟩
  intro ρ
  exact ⟨(derivatives₁ ρ).trans (derivatives₂ ρ).symm, derivatives₁ ρ⟩

def Graph.opposed : Arena :=
  (Action.apply (.prim .mul) [2, 1]).perform ((Action.call (.negation (.float .double)) [0]).perform
    ((Action.newVariable (.float .double) (some "b")).perform
      ((Action.newVariable (.float .double) (some "a")).perform {})))

def Composite.opposed : Composite :=
  .mk ⟨.opposed, [0, 1], [2, 3], [0, 1]⟩

theorem opposed_obtained : Obtained .opposed := by
  have reachable : Reachable .opposed := by
    refine .perform (.perform (.perform (.perform (.empty {}) ?_ ?_) ?_ ?_) ?_ ?_) ?_ ?_
    case refine_6 =>
      intro c same
      obtain rfl := Option.some.inj same
      exact negation_obtained (by decide)
    all_goals first | decide | simp [Action.composite?, Op.callee?]
  exact .fuse reachable (by decide : Graph.opposed.Knows ([0, 1] ++ [2, 3])) rfl

theorem negation_smooth : (Composite.negation (.float .double)).Smooth {} := by
  refine .mk ⟨?_, ?_⟩ ?_
  · intro v x found
    have inside := (Array.getElem?_eq_some_iff.mp found).1
    match v, inside with
    | 0, _ | 1, _ =>
      obtain rfl := Option.some.inj found
      rfl
  · intro n node here
    have inside := (Array.getElem?_eq_some_iff.mp here).1
    match n, inside with
    | 0, _ =>
      obtain rfl := Option.some.inj here
      exact ⟨rfl, fun none => nomatch none⟩
  · intro n node c here called
    have inside := (Array.getElem?_eq_some_iff.mp here).1
    match n, inside with
    | 0, _ =>
      obtain rfl := Option.some.inj here
      cases called

theorem opposed_smooth : Composite.opposed.Smooth {} := by
  refine .mk ⟨?_, ?_⟩ ?_
  · intro v x found
    have inside := (Array.getElem?_eq_some_iff.mp found).1
    match v, inside with
    | 0, _ | 1, _ | 2, _ | 3, _ =>
      obtain rfl := Option.some.inj found
      rfl
  · intro n node here
    have inside := (Array.getElem?_eq_some_iff.mp here).1
    match n, inside with
    | 0, _ =>
      obtain rfl := Option.some.inj here
      exact (by decide : [0].Nodup)
    | 1, _ =>
      obtain rfl := Option.some.inj here
      exact ⟨rfl, fun none => nomatch none⟩
  · intro n node c here called
    have inside := (Array.getElem?_eq_some_iff.mp here).1
    match n, inside with
    | 0, _ =>
      obtain rfl := Option.some.inj here
      obtain rfl := Op.call.inj called
      exact negation_smooth
    | 1, _ =>
      obtain rfl := Option.some.inj here
      cases called

def Graph.squared : Arena :=
  (Action.apply (.prim .mul) [0, 0]).perform
    ((Action.newVariable (.float .double) (some "x")).perform {})

theorem squared_reachable : Reachable .squared := by
  refine .perform (.perform (.empty {}) ?_ ?_) ?_ ?_
  all_goals first | decide | simp [Action.composite?, Op.callee?]

theorem opposed_differentiated : Reachable .squared ∧ Graph.squared.Doubles ∧ Obtained .opposed ∧
    Composite.opposed.Smooth Graph.squared.config ∧ (∀ a ∈ [0, 1], Graph.squared.SmoothFor a) ∧
    ∃ outs g₁ o results h₁ outs' g₂ o' results' h₂,
      (Build.call .opposed [0, 1]).exec .squared = (.ok outs, g₁) ∧ outs[1]? = some o ∧
      (Build.gradient o [0]).exec g₁ = (.ok results, h₁) ∧
      (Build.inline .opposed [0, 1]).exec .squared = (.ok outs', g₂) ∧ outs'[1]? = some o' ∧
      (Build.gradient o' [0]).exec g₂ = (.ok results', h₂) ∧
      ∀ ρ : ValueId → ℚ, results.map (h₁.meaning ρ) = results'.map (h₂.meaning ρ) := by
  have doubles : Graph.squared.Doubles := by
    intro v x found
    have inside := (Array.getElem?_eq_some_iff.mp found).1
    match v, inside with
    | 0, _ | 1, _ =>
      obtain rfl := Option.some.inj found
      rfl
  have computed : ∀ a ∈ [0, 1], Graph.squared.SmoothFor a := by
    intro a _ n node o here _ _
    have inside := (Array.getElem?_eq_some_iff.mp here).1
    match n, inside with
    | 0, _ =>
      obtain rfl := Option.some.inj here
      exact ⟨⟨rfl, fun none => nomatch none⟩, fun c called => nomatch called⟩
  have free : ∀ t ∈ [0], ∃ type name, Graph.squared.values[t]? = some ⟨type, .free name⟩ := by
    intro t member
    obtain rfl := List.mem_singleton.mp member
    exact ⟨_, _, rfl⟩
  obtain ⟨outs, g₁, o, results, h₁, outs', g₂, o', results', h₂, called, output, run, inlined,
      output', run', same⟩ := gradient_call_eq_gradient_inline squared_reachable doubles
    opposed_obtained opposed_smooth (by decide : Graph.squared.Knows [0, 1]) (by decide) rfl
    (by decide) computed (by decide : 1 < Composite.opposed.outputCount) free
  exact ⟨squared_reachable, doubles, opposed_obtained, opposed_smooth, computed, outs, g₁, o, results,
    h₁, outs', g₂, o', results', h₂, called, output, run, inlined, output', run',
    fun ρ => (same ρ).1⟩

def Graph.product : Arena :=
  (Action.apply (.prim .mul) [0, 1]).perform
    ((Action.newVariable (.float .double) (some "b")).perform
      ((Action.newVariable (.float .double) (some "a")).perform {}))

def Composite.product : Composite :=
  .mk ⟨.product, [0, 1], [2], [0]⟩

theorem product_obtained : Obtained .product := by
  have reachable : Reachable .product := by
    refine .perform (.perform (.perform (.empty {}) ?_ ?_) ?_ ?_) ?_ ?_
    all_goals first | decide | simp [Action.composite?, Op.callee?]
  exact .fuse reachable (by decide : Graph.product.Knows ([0, 1] ++ [2])) rfl

/-- The first values and nodes of a graph that calls the product with a variable for both inputs, and
    of its gradient: a copy of the body, the two partial products and their sum, and the sum again for
    each place of the call. -/
def Graph.paid (values nodes : Nat) : Arena where
  values := (List.take values [⟨.float .double, .free (some "x")⟩, ⟨.float .double, .output 0 0⟩,
    ⟨.float .double, .constant (.float 1.0) none⟩, ⟨.float .double, .output 1 0⟩,
    ⟨.float .double, .output 2 0⟩, ⟨.float .double, .output 3 0⟩, ⟨.float .double, .output 4 0⟩,
    ⟨.float .double, .output 5 0⟩]).toArray
  nodes := (List.take nodes [⟨.call .product, [0, 0], [1]⟩, ⟨.prim .mul, [0, 0], [3]⟩,
    ⟨.prim .mul, [2, 0], [4]⟩, ⟨.prim .mul, [2, 0], [5]⟩, ⟨.prim .add, [4, 5], [6]⟩,
    ⟨.prim .add, [6, 6], [7]⟩]).toArray

theorem paid_swept : ((Op.call .product).gradientWith Build.callGradient [0, 0] [1] [2]).exec
    (.paid 3 1) = (.ok [6, 6], .paid 7 5) := by
  have depth : Composite.product.depth = 1 := by
    rw [Composite.depth_eq]
    rfl
  have inlined : (Build.inline .product [0, 0]).exec (.paid 3 1) = (.ok [3], .paid 4 2) := rfl
  have started : (Build.accumulateAll .empty [(3, 2)]).exec (.paid 4 2) =
      (.ok (Table.empty.insert 3 2), .paid 4 2) := rfl
  have order : (Graph.paid 4 2).ancestors [3] [0, 0] = [1] := rfl
  have passed : (Build.backNode (Build.callGradientAt 0) (Table.empty.insert 3 2) 1).exec (.paid 4 2) =
      (.ok (((Table.empty.insert 3 2).insert 0 4).insert 0 6), .paid 7 5) := rfl
  have called : (Build.callGradient .product [0, 0] [2]).exec (.paid 3 1) =
      (.ok [6, 6], .paid 7 5) := by
    rw [Build.callGradient, depth, Build.callGradientAt, Build.exec_bind_of_ok inlined,
      Build.backpropagate]
    simp only [List.zip_cons_cons, List.zip_nil_left]
    rw [Build.exec_bind_of_ok started, Build.exec_bind_of_ok (Build.exec_get _)]
    simp only [List.map_cons, List.map_nil, order, List.reverse_singleton, List.foldlM_cons,
      List.foldlM_nil, bind_pure]
    rw [Build.exec_bind_of_ok passed]
    rfl
  unfold Op.gradientWith
  rw [Build.exec_bind_of_ok (Build.exec_get _), if_neg (by decide), Build.exec_bind_of_ok called]
  rfl

theorem paid_differentiated :
    (Build.gradient 1 [0]).exec (.paid 2 1) = (.ok [7], .paid 8 6) := by
  have seeded : (Build.constantLike 1 1.0).exec (.paid 2 1) = (.ok 2, .paid 3 1) := rfl
  have started : (Build.accumulateAll .empty [(1, 2)]).exec (.paid 3 1) =
      (.ok (Table.empty.insert 1 2), .paid 3 1) := rfl
  have order : (Graph.paid 3 1).ancestors [1] [] = [0] := rfl
  have here : (Graph.paid 3 1).nodes[0]? = some ⟨.call .product, [0, 0], [1]⟩ := rfl
  have reached : [1].any (Table.empty.insert 1 2 : Table ValueId).contains = true := rfl
  have arriving : ([1].mapM (Build.gradientOf (Table.empty.insert 1 2))).exec (.paid 3 1) =
      (.ok [2], .paid 3 1) := rfl
  have passed : (Build.backNode Build.callGradient (Table.empty.insert 1 2) 0).exec (.paid 3 1) =
      (.ok (((Table.empty.insert 1 2).insert 0 6).insert 0 7), .paid 8 6) := by
    unfold Build.backNode
    rw [Build.exec_bind_of_ok (Build.exec_get _)]
    simp only [here]
    rw [if_pos reached, Build.exec_bind_of_ok arriving, Build.exec_bind_of_ok paid_swept]
    rfl
  rw [Build.gradient, Build.exec_bind_of_ok seeded, Build.backpropagate,
    Build.exec_bind_of_ok started, Build.exec_bind_of_ok (Build.exec_get _)]
  simp only [List.map_cons, List.map_nil, order, List.reverse_singleton, List.foldlM_cons,
    List.foldlM_nil, bind_pure]
  rw [Build.exec_bind_of_ok passed]
  rfl

def Graph.earned : Arena where
  values := #[⟨.float .double, .free (some "x")⟩, ⟨.float .double, .output 0 0⟩,
    ⟨.float .double, .constant (.float 1.0) none⟩, ⟨.float .double, .output 1 0⟩,
    ⟨.float .double, .output 2 0⟩, ⟨.float .double, .output 3 0⟩]
  nodes := #[⟨.prim .mul, [0, 0], [1]⟩, ⟨.prim .mul, [2, 0], [3]⟩, ⟨.prim .mul, [2, 0], [4]⟩,
    ⟨.prim .add, [3, 4], [5]⟩]

/-- A square, as a call that is given its variable twice and as the body in the place of the call. The
    gradient of the call is twice the derivative. -/
theorem repeated_argument_counted_twice : Obtained .product ∧ ∃ single, Reachable single ∧
    (Build.call .product [0, 0]).exec single = (.ok [1], .paid 2 1) ∧
    (Build.gradient 1 [0]).exec (.paid 2 1) = (.ok [7], .paid 8 6) ∧
    (Build.inline .product [0, 0]).exec single = (.ok [1], .squared) ∧
    (Build.gradient 1 [0]).exec .squared = (.ok [5], .earned) ∧
    ∀ ρ : ValueId → ℚ, (Graph.paid 8 6).meaning ρ 7 = 4 * ρ 0 ∧
      Graph.earned.meaning ρ 5 = 2 * ρ 0 := by
  refine ⟨product_obtained, (Action.newVariable (.float .double) (some "x")).perform {},
    .perform (.empty {}) (by decide) (by simp [Action.composite?]), rfl, paid_differentiated, rfl, rfl,
    fun ρ => ⟨?_, ?_⟩⟩
  · simp [Graph.meaning, Graph.interpret, Graph.paid, Graph.map, Op.map, Primitive.interpret,
      Literal.rational, Literal.real, Real.rational_one]
    ring
  · simp [Graph.meaning, Graph.interpret, Graph.earned, Graph.map, Op.map, Primitive.interpret,
      Literal.rational, Literal.real, Real.rational_one]
    ring

end ScalarFusion

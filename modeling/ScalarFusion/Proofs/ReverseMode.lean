import ScalarFusion.Proofs.Sweeping

/-!
Reverse mode agrees with forward mode. For a cost computed by arithmetic from doubles, the gradient
by a variable has, at every point, the value of the derivative that dual numbers carry along.
-/
namespace ScalarFusion

open DualNumber

theorem Primitive.snd_interpret (p : Primitive) {xs : List ℚ[ε]} (flat : ∀ x ∈ xs, x.snd = 0) :
    (p.interpret xs).snd = 0 := by
  have constant : xs = (xs.map TrivSqZeroExt.fst).map (TrivSqZeroExt.inlAlgHom ℚ ℚ ℚ) := by
    rw [List.map_map]
    conv_lhs => rw [← List.map_id xs]
    apply List.map_congr_left
    intro x member
    ext
    · rfl
    · exact flat x member
  rw [constant, ← p.map_interpret _ fun x => (TrivSqZeroExt.inv_inl x).symm]
  rfl

namespace Build

variable {g h : Arena} {ofCall : CallGradient} {region full : ValueId → Prop}

theorem exec_clearDiscrete {vs : List ValueId} (floats : ∀ v ∈ vs, (h.typeOf v).isDiscrete = false)
    (gradients : List ValueId) : (clearDiscrete vs gradients).exec h = (.ok gradients, h) := by
  induction vs generalizing gradients with
  | nil => rfl
  | cons v vs ih =>
    cases gradients with
    | nil => rfl
    | cons c gradients =>
      have rest := ih (fun v member => floats v (by simp [member])) gradients
      rw [clearDiscrete, exec_bind_of_ok (exec_isDiscrete v h), floats v (by simp)]
      exact exec_bind_of_ok rest

def rule (ofCall : CallGradient) (op : Op Composite) (inputs outputs arriving : List ValueId) :
    Build (List ValueId) :=
  match op with
  | .call c => ofCall c inputs arriving
  | .prim p =>
    match outputs, arriving with
    | z :: _, gz :: _ => p.gradient inputs z gz
    | _, _ => throw (.noOutputGradient p.name)

theorem exec_gradientWith (op : Op Composite) {inputs : List ValueId} (outputs arriving : List ValueId)
    (some_float : (inputs.all fun v => (h.typeOf v).isDiscrete) = false) :
    (op.gradientWith ofCall inputs outputs arriving).exec h =
      (rule ofCall op inputs outputs arriving >>= clearDiscrete inputs).exec h := by
  rw [Op.gradientWith, exec_bind_of_ok (exec_get h), some_float]
  cases op with
  | call c => rfl
  | prim p =>
    cases outputs with
    | nil => rfl
    | cons z zs => cases arriving <;> rfl

theorem yields_gradientWith {op : Op Composite} {inputs outputs arriving : List ValueId}
    {post : List ValueId → Arena → Prop} (some_input : inputs ≠ [])
    (numbers : ∀ v ∈ inputs, h.Number False v)
    (yields : Yields .client h (rule ofCall op inputs outputs arriving) post) :
    Yields .client h (op.gradientWith ofCall inputs outputs arriving) post := by
  have floats : ∀ k, h.Extends k → ∀ v ∈ inputs, (k.typeOf v).isDiscrete = false := by
    intro k grown v member
    obtain ⟨p, type, -⟩ := ((numbers v member).grown grown).type
    rw [type]
    rfl
  have some_float : (inputs.all fun v => (h.typeOf v).isDiscrete) = false := by
    obtain ⟨v, vs, rfl⟩ := List.exists_cons_of_ne_nil some_input
    rw [List.all_cons, floats h (.refl h) v (by simp), Bool.false_and]
  obtain ⟨gradients, k, run, growth, holds⟩ := yields
  refine ⟨gradients, k, ?_, growth, holds⟩
  rw [exec_gradientWith op outputs arriving some_float, exec_bind_of_ok run]
  exact exec_clearDiscrete (floats k growth.toExtends) gradients

theorem propagates_primitive (built : g.Built) {n : NodeId} {node : Node Composite} {p : Primitive}
    (here : g.nodes[n]? = some node) (applied : node.op = .prim p)
    (arithmetic : p.isArithmetic = true)
    (numbers : ∀ v ∈ node.inputs, region v ∧ g.Number (full v) v)
    (rises : ∀ o ∈ node.outputs, region o ∧ ∀ v ∈ node.inputs, full v → full o) :
    Propagates ofCall region full g node := by
  obtain ⟨o, only, typed⟩ := built.typed.primitive here applied
  have admitted := Primitive.admits_of_outputType typed
  rw [List.length_map] at admitted
  intro h arriving growth given
  have value : ∀ k, Growth .client h k → ∀ V : ValueId → ℚ[ε], k.Models V →
      V o = p.interpret (node.inputs.map V) := by
    intro k growth' V models
    have first : node.outputs[0]? = some o := by rw [only]; rfl
    have here' := (growth.trans growth').toExtends.node here
    rw [models.nodes here' first, applied]
    rfl
  rw [only] at given
  obtain ⟨gz, rfl, number⟩ : ∃ gz, arriving = [gz] ∧ h.Number (full o) gz := by
    cases given with
    | cons number rest =>
      cases rest
      exact ⟨_, rfl, number⟩
  have inside := (rises o (by simp [only])).1
  by_cases some_input : node.inputs = []
  · refine ⟨[], h, ?_, .refl, ?_, ?_⟩
    · rw [some_input]
      rfl
    · rw [some_input]
      exact .nil
    · intro V models _
      have flat : (V o).snd = 0 := by
        rw [value h .refl V models, some_input]
        exact p.snd_interpret (by simp)
      rw [some_input, only, pairing_nil, pairing_cons, flat]
      simp
  · have loose : ∀ v ∈ node.inputs, h.Number False v :=
      fun v member => ((numbers v member).2.grown growth.toExtends).loosen False.elim
    refine yields_gradientWith some_input loose ?_
    rw [applied, only]
    refine (Primitive.yields_gradient (z := o) arithmetic admitted loose number).weaken ?_
    rintro gradients k growth' ⟨length, good, paired⟩
    constructor
    · apply List.forall₂_iff_zip.mpr
      refine ⟨length.symm, ?_⟩
      intro v c member
      obtain ⟨input, among⟩ := List.of_mem_zip member
      exact (good c among).loosen ((rises o (by simp [only])).2 v input)
    · intro V models tame
      rw [pairing_cons, pairing_nil, add_zero]
      by_cases fully : full o
      · rw [paired fully V models, value k growth' V models]
      · -- without full precision nothing here has a tangent
        have flat : ∀ v ∈ node.inputs, (V v).snd = 0 := by
          intro v member
          exact tame v (numbers v member).1 fun full_v =>
            fully ((rises o (by simp [only])).2 v member full_v)
        rw [tame o inside fully, mul_zero, pairing_flat gradients flat]

end Build

inductive Graph.Needs (g : Arena) (v : ValueId) : ValueId → Prop where
  | self : g.Needs v v
  | operand {n : NodeId} {node : Node Composite} {o u : ValueId} (needed : g.Needs v o)
      (here : g.nodes[n]? = some node) (output : o ∈ node.outputs) (input : u ∈ node.inputs) :
      g.Needs v u

theorem Graph.Needs.known {g : Arena} (ordered : g.Ordered) {v u : Nat} (needed : g.Needs v u)
    (known : v < g.values.size) : u < g.values.size := by
  cases needed with
  | self => exact known
  | operand _ here _ input => exact ordered.known here _ input

theorem Graph.Ordered.snd_leaf {g : Arena} (ordered : g.Ordered) (ρ : ValueId → ℚ) {v t : Nat}
    (known : v < g.values.size) (leaf : g.Leaf v) (other : v ≠ t) :
    (g.meaning (along ρ t) v).snd = 0 := by
  have found : g.values[v]? = some g.values[v] := Array.getElem?_eq_getElem known
  have unproduced := (ordered.leaf_iff found).mp leaf
  generalize g.values[v] = x at found unproduced
  obtain ⟨type, source⟩ := x
  cases source with
  | free name => simp [meaning_free _ found, along, other]
  | constant literal name =>
    rw [(models_meaning ordered _).constants found]
    rfl
  | output n k => simp [Value.producer?] at unproduced

theorem fst_along (ρ : ValueId → ℚ) (t : ValueId) : (fun u => (along ρ t u).fst) = ρ := by
  funext u
  by_cases same : u = t <;> simp [along, same]

namespace Build

variable {g : Arena} {full : ValueId → Prop} {cost : ValueId}

theorem yields_derivatives (built : g.Built)
    (r : Region callGradient g [] (g.Needs cost) full)
    (tame : ∀ ρ t, Tame (g.Needs cost) full (g.meaning (along ρ t))) {targets : List ValueId}
    (free : ∀ t ∈ targets, full t ∧ g.Number (full t) t ∧
      ∃ type name, g.values[t]? = some ⟨type, .free name⟩) :
    Yields .client g (gradient cost targets) fun results h => ∀ ρ : ValueId → ℚ,
      List.Forall₂ (fun t w => h.meaning ρ w = (g.meaning (along ρ t) cost).snd) targets results := by
  have number := r.number cost .self
  refine yields_bind _ (yields_constantLike number 1.0) ?_
  rintro seed g₁ growth₁ ⟨seeded, one⟩
  have built₁ := built.grown growth₁
  refine (yields_backpropagate built₁.ordered (r.grown built.ordered growth₁) ?_ ?_).weaken ?_
  · intro pair member
    obtain rfl := List.mem_singleton.mp member
    exact ⟨.self, seeded⟩
  · intro t member
    exact (free t member).2.1.grown growth₁.toExtends
  rintro results h growth₂ ⟨table, given, balance⟩
  have growth := growth₁.trans growth₂
  have ordered := (built.grown growth).ordered
  intro ρ
  apply ((List.forall₂_and_left targets results).mpr ⟨free, given⟩).imp
  rintro t w ⟨⟨fully, numeric, type, name, found⟩, -, holds⟩
  have models : h.Models (h.meaning (along ρ t)) := Graph.models_meaning ordered _
  have old : ∀ v : Nat, v < g.values.size → h.meaning (along ρ t) v = g.meaning (along ρ t) v :=
    fun v known => Graph.meaning_extends growth.toExtends built.ordered ordered _ known
  have needed : ∀ v, g.Needs cost v → h.meaning (along ρ t) v = g.meaning (along ρ t) v :=
    fun v inside => old v (r.number v inside).known
  have tame' : Tame (g.Needs cost) full (h.meaning (along ρ t)) := by
    intro v inside less
    rw [needed v inside]
    exact tame ρ t v inside less
  have sum := balance _ models tame' [t] (by simp) ?_ ?_
  · have moved : (h.meaning (along ρ t) t).snd = 1 := by
      rw [old t numeric.known, Graph.meaning_free _ found]
      simp [along]
    have started : (h.meaning (along ρ t) seed).fst * (h.meaning (along ρ t) cost).snd =
        (h.meaning (along ρ t) cost).snd := by
      by_cases costly : full cost
      · rw [one costly _ (models.of_extends growth₂.toExtends), Real.rational_one]
        simp
      · rw [tame' cost .self costly, mul_zero]
    simp only [List.map_cons, List.map_nil, List.sum_cons, List.sum_nil, add_zero, moved, mul_one,
      started] at sum
    rw [← needed cost .self, ← sum, ← holds fully _ models, Graph.fst_meaning, fst_along]
  · intro e member
    obtain rfl := List.mem_singleton.mp member
    have found₁ := growth₁.toExtends.value found
    exact ⟨(numeric.grown growth₁.toExtends).known, .inr ((built₁.ordered.leaf_iff found₁).mpr rfl)⟩
  · intro v inside limit other
    have leaf : g.Leaf v := by
      intro n node here
      exact limit.resolve_left (by simp) n node (growth₁.toExtends.node here)
    rw [needed v inside]
    exact built.ordered.snd_leaf ρ (r.number v inside).known leaf (by simpa using other)

end Build

namespace Graph

variable {g : Arena} {cost : ValueId}

def DoubleLeaves (g : Arena) : Prop :=
  ∀ (v : ValueId) (x : Value), g.values[v]? = some x → x.producer? = none → x.type = .float .double

theorem DoubleLeaves.typeOf (leaves : g.DoubleLeaves) (ordered : g.Ordered) {v : Nat}
    (known : v < g.values.size) (leaf : g.Leaf v) : g.typeOf v = .float .double := by
  have found : g.values[v]? = some g.values[v] := Array.getElem?_eq_getElem known
  rw [Graph.typeOf, found]
  exact leaves v _ found ((ordered.leaf_iff found).mp leaf)

def ArithmeticFor (g : Arena) (cost : ValueId) : Prop :=
  ∀ (n : NodeId) (node : Node Composite) (o : ValueId), g.nodes[n]? = some node →
    o ∈ node.outputs → g.Needs cost o → ∃ p, node.op = .prim p ∧ p.isArithmetic = true

/-- What arithmetic makes of doubles is floating, and not of full precision only if made of
    nothing of full precision. -/
theorem needs_cases (built : g.Built) (arithmetic : g.ArithmeticFor cost) {n : NodeId}
    {node : Node Composite} (here : g.nodes[n]? = some node) {o : ValueId} (output : o ∈ node.outputs)
    (needed : g.Needs cost o) (floats : ∀ v ∈ node.inputs, ∃ p, g.typeOf v = .float p) :
    ∃ q, g.typeOf o = .float q ∧
      ∀ v ∈ node.inputs, g.typeOf v = .float .double → q = .double := by
  obtain ⟨p, applied, arithmetic'⟩ := arithmetic n node o here output needed
  obtain ⟨o', only, typed⟩ := built.typed.primitive here applied
  obtain rfl : o = o' := by simpa [only] using output
  by_cases some_input : node.inputs = []
  · obtain rfl : p = .mean := by
      have mean := built.typed.nonempty here some_input
      rw [applied] at mean
      exact Op.prim.inj mean
    rw [some_input] at typed
    refine ⟨g.config.floatX, (Except.ok.inj typed).symm, ?_⟩
    simp [some_input]
  · have admitted := Primitive.admits_of_outputType typed
    obtain ⟨q, typed', double⟩ := Primitive.outputType_floats arithmetic' (by simpa using some_input)
      admitted (by simpa using floats) g.config
    rw [typed] at typed'
    refine ⟨q, Except.ok.inj typed', ?_⟩
    intro v member type
    exact double.mpr (List.mem_map.mpr ⟨v, member, type⟩)

theorem float_of_needs (built : g.Built) (leaves : g.DoubleLeaves)
    (arithmetic : g.ArithmeticFor cost) (known : cost < g.values.size) {v : Nat}
    (needed : g.Needs cost v) : ∃ p, g.typeOf v = .float p := by
  induction v using Nat.strongRecOn with
  | ind v ih =>
    have inside := needed.known built.ordered known
    by_cases leaf : g.Leaf v
    · exact ⟨.double, leaves.typeOf built.ordered inside leaf⟩
    · simp only [Leaf, not_forall, not_not] at leaf
      obtain ⟨n, node, here, output⟩ := leaf
      obtain ⟨q, type, -⟩ := needs_cases built arithmetic here output needed fun u input =>
        ih u (built.ordered.before here u v input output) (needed.operand here output input)
      exact ⟨q, type⟩

theorem Models.snd_eq_zero (built : g.Built) (arithmetic : g.ArithmeticFor cost)
    {V : ValueId → ℚ[ε]} (models : g.Models V) (flat : ValueId → Prop)
    (needed : ∀ v, flat v → g.Needs cost v) (leaves : ∀ v, flat v → g.Leaf v → (V v).snd = 0)
    (closed : ∀ (n : NodeId) (node : Node Composite) (o : ValueId), g.nodes[n]? = some node →
      o ∈ node.outputs → flat o → ∀ v ∈ node.inputs, flat v)
    {v : Nat} (inside : flat v) : (V v).snd = 0 := by
  induction v using Nat.strongRecOn with
  | ind v ih =>
    by_cases leaf : g.Leaf v
    · exact leaves v inside leaf
    · simp only [Leaf, not_forall, not_not] at leaf
      obtain ⟨n, node, here, output⟩ := leaf
      obtain ⟨p, applied, -⟩ := arithmetic n node v here output (needed v inside)
      obtain ⟨k, at_k⟩ := List.getElem?_of_mem output
      rw [models.nodes here at_k, applied]
      apply p.snd_interpret
      intro x member
      obtain ⟨u, input, rfl⟩ := List.mem_map.mp member
      exact ih u (built.ordered.before here u v input output) (closed n node v here output inside u input)

theorem tame_needs (built : g.Built) (leaves : g.DoubleLeaves) (arithmetic : g.ArithmeticFor cost)
    (known : cost < g.values.size) {V : ValueId → ℚ[ε]} (models : g.Models V) :
    Tame (g.Needs cost) (fun v => g.typeOf v = .float .double) V := by
  intro v needed less
  apply models.snd_eq_zero built arithmetic
    (fun u => g.Needs cost u ∧ g.typeOf u ≠ .float .double) (fun u inside => inside.1) ?_ ?_
    ⟨needed, less⟩
  · intro u inside leaf
    have double := leaves.typeOf built.ordered (inside.1.known built.ordered known) leaf
    exact absurd double inside.2
  · intro n node o here output inside u input
    have needed' := inside.1.operand here output input
    obtain ⟨q, type, rises⟩ := needs_cases built arithmetic here output inside.1 fun w member =>
      float_of_needs built leaves arithmetic known (inside.1.operand here output member)
    refine ⟨needed', ?_⟩
    intro double
    exact inside.2 (rises u input double ▸ type)

theorem region_needs (built : g.Built) (leaves : g.DoubleLeaves) (arithmetic : g.ArithmeticFor cost)
    (known : cost < g.values.size) :
    Build.Region Build.callGradient g [] (g.Needs cost) fun v => g.typeOf v = .float .double := by
  have number : ∀ v, g.Needs cost v → g.Number (g.typeOf v = .float .double) v := by
    intro v needed
    obtain ⟨p, type⟩ := float_of_needs built leaves arithmetic known needed
    refine ⟨needed.known built.ordered known, p, type, ?_⟩
    intro double
    exact ScalarType.float.inj (type.symm.trans double)
  refine ⟨number, ?_, ?_, ?_⟩
  · intro n node here o output needed _
    obtain ⟨p, applied, arithmetic'⟩ := arithmetic n node o here output needed
    obtain ⟨o', only, -⟩ := built.typed.primitive here applied
    obtain rfl : o = o' := by simpa [only] using output
    apply Build.propagates_primitive built here applied arithmetic'
    · intro v input
      have needed' := needed.operand here output input
      exact ⟨needed', number v needed'⟩
    · intro o'' member
      obtain rfl : o'' = o := by simpa [only] using member
      obtain ⟨q, type, rises⟩ := needs_cases built arithmetic here output needed fun v input =>
        float_of_needs built leaves arithmetic known (needed.operand here output input)
      exact ⟨needed, fun v input double => rises v input double ▸ type⟩
  · intro n node here o output needed _ v input
    exact needed.operand here output input
  · intro n node here o output needed _ o' output'
    obtain ⟨p, applied, -⟩ := arithmetic n node o here output needed
    obtain ⟨o'', only, -⟩ := built.typed.primitive here applied
    rw [only, List.mem_singleton] at output output'
    rw [output', ← output]
    exact ⟨.inl needed, number o needed, by simp⟩

end Graph

/-- Reverse mode agrees with forward mode: gradients exist and have the values of the derivatives,
    and a variable that the cost does not depend on gets zero. -/
theorem gradient_eq_forward_derivative {g : Arena} (reachable : Reachable g)
    (leaves : g.DoubleLeaves) {cost : ValueId} (known : cost < g.values.size)
    (arithmetic : g.ArithmeticFor cost) {targets : List ValueId}
    (free : ∀ t ∈ targets, ∃ type name, g.values[t]? = some ⟨type, .free name⟩) :
    ∃ results h, (Build.gradient cost targets).exec g = (.ok results, h) ∧
      ∀ ρ : ValueId → ℚ, List.Forall₂ (fun t w =>
        h.meaning ρ w = (g.meaning (along ρ t) cost).snd ∧
          (¬g.Needs cost t → h.meaning ρ w = 0)) targets results := by
  have built := reachable.built
  have r := Graph.region_needs built leaves arithmetic known
  have double : ∀ t ∈ targets, g.typeOf t = .float .double ∧
      g.Number (g.typeOf t = .float .double) t ∧
        ∃ type name, g.values[t]? = some ⟨type, .free name⟩ := by
    intro t member
    obtain ⟨type, name, found⟩ := free t member
    obtain rfl : type = .float .double := leaves t _ found rfl
    have type_t : g.typeOf t = .float .double := by simp [Graph.typeOf, found]
    have inside := (Array.getElem?_eq_some_iff.mp found).1
    exact ⟨type_t, Graph.number_of_typeOf inside type_t, _, name, found⟩
  -- what the cost needs is arithmetic throughout, so that every node of it has a rule
  obtain ⟨results, h, run, -, derivatives⟩ := Build.yields_derivatives built r
    (fun ρ t => Graph.tame_needs built leaves arithmetic known (Graph.models_meaning built.ordered _)) double
  refine ⟨results, h, run, ?_⟩
  intro ρ
  apply (derivatives ρ).imp
  intro t w same
  refine ⟨same, ?_⟩
  intro unneeded
  rw [same]
  apply (Graph.models_meaning built.ordered (along ρ t)).snd_eq_zero built arithmetic
    (g.Needs cost) (fun v inside => inside) ?_ ?_ .self
  · intro v inside leaf
    have other : v ≠ t := by
      rintro rfl
      exact unneeded inside
    exact built.ordered.snd_leaf ρ (inside.known built.ordered known) leaf other
  · intro n node o here output inside v input
    exact inside.operand here output input

/-- The mean of `x² / (x + y + m)`, `x` and `x`, where `m` is a mean of nothing and so of single
    precision, and a variable beside it. -/
def Graph.shares : Arena :=
  (Action.apply (.prim .mean) [6, 0, 0]).perform ((Action.apply (.prim .trueDiv) [4, 5]).perform
    ((Action.apply (.prim .add) [0, 1, 3]).perform ((Action.apply (.prim .mul) [0, 0]).perform
      ((Action.apply (.prim .mean) []).perform
        ((Action.newVariable (.float .double) (some "z")).perform
          ((Action.newVariable (.float .double) (some "y")).perform
            ((Action.newVariable (.float .double) (some "x")).perform { config := ⟨.single⟩ })))))))

theorem shares_reachable : Reachable .shares := by
  refine .perform (.perform (.perform (.perform (.perform (.perform (.perform (.perform
    (.empty ⟨.single⟩) ?_ ?_) ?_ ?_) ?_ ?_) ?_ ?_) ?_ ?_) ?_ ?_) ?_ ?_) ?_ ?_
  all_goals first | decide | simp [Action.composite?, Op.callee?]

theorem shares_values : Graph.shares.values = #[⟨.float .double, .free (some "x")⟩,
    ⟨.float .double, .free (some "y")⟩, ⟨.float .double, .free (some "z")⟩,
    ⟨.float .single, .output 0 0⟩, ⟨.float .double, .output 1 0⟩, ⟨.float .double, .output 2 0⟩,
    ⟨.float .double, .output 3 0⟩, ⟨.float .double, .output 4 0⟩] := rfl

theorem shares_nodes : Graph.shares.nodes = #[⟨.prim .mean, [], [3]⟩, ⟨.prim .mul, [0, 0], [4]⟩,
    ⟨.prim .add, [0, 1, 3], [5]⟩, ⟨.prim .trueDiv, [4, 5], [6]⟩, ⟨.prim .mean, [6, 0, 0], [7]⟩] := rfl

theorem shares_unneeded : ¬Graph.shares.Needs 7 2 := by
  have others : ∀ v, Graph.shares.Needs 7 v → v ≠ 2 := by
    intro v needed
    induction needed with
    | self => decide
    | @operand n node o u _ here _ input _ =>
      rw [shares_nodes] at here
      have inside := (Array.getElem?_eq_some_iff.mp here).1
      rintro rfl
      match n, inside with
      | 0, _ | 1, _ | 2, _ | 3, _ | 4, _ =>
        obtain rfl := Option.some.inj here
        simp at input
  exact fun needed => others 2 needed rfl

theorem shares_differentiated : Reachable .shares ∧ Graph.shares.DoubleLeaves ∧
    Graph.shares.ArithmeticFor 7 ∧ ∃ x y z h,
      (Build.gradient 7 [0, 1, 2]).exec .shares = (.ok [x, y, z], h) ∧ ∀ ρ : ValueId → ℚ,
        h.meaning ρ x = (Graph.shares.meaning (along ρ 0) 7).snd ∧
        h.meaning ρ y = (Graph.shares.meaning (along ρ 1) 7).snd ∧ h.meaning ρ z = 0 := by
  have leaves : Graph.shares.DoubleLeaves := by
    intro v x found unproduced
    rw [shares_values] at found
    have inside := (Array.getElem?_eq_some_iff.mp found).1
    match v, inside with
    | 0, _ | 1, _ | 2, _ =>
      obtain rfl := Option.some.inj found
      rfl
    | 3, _ | 4, _ | 5, _ | 6, _ | 7, _ =>
      obtain rfl := Option.some.inj found
      cases unproduced
  have arithmetic : Graph.shares.ArithmeticFor 7 := by
    intro n node o here _ _
    rw [shares_nodes] at here
    have inside := (Array.getElem?_eq_some_iff.mp here).1
    match n, inside with
    | 0, _ | 1, _ | 2, _ | 3, _ | 4, _ =>
      obtain rfl := Option.some.inj here
      exact ⟨_, rfl, rfl⟩
  have free : ∀ t ∈ [0, 1, 2], ∃ type name, Graph.shares.values[t]? = some ⟨type, .free name⟩ := by
    rw [shares_values]
    simp
  obtain ⟨results, h, run, derivatives⟩ := gradient_eq_forward_derivative shares_reachable leaves
    (by decide : 7 < Graph.shares.values.size) arithmetic free
  have three := (derivatives 0).length_eq
  match results, three with
  | [x, y, z], _ =>
    refine ⟨shares_reachable, leaves, arithmetic, x, y, z, h, run, ?_⟩
    intro ρ
    have all := derivatives ρ
    simp only [List.forall₂_cons, List.Forall₂.nil, and_true] at all
    exact ⟨all.1.1, all.2.1.1, all.2.2.2 shares_unneeded⟩

end ScalarFusion

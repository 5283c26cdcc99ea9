import ScalarFusion.Proofs.Exact

/-!
The rules of differentiation, one for each arithmetic operation. A rule builds gradients of the
operands such that, paired with the tangents of the operands, they give what the gradient of the
output gives with the tangent of the output.
-/
namespace ScalarFusion

open DualNumber

namespace ScalarType

theorem foldl_promote_floats {types : List ScalarType} (floats : ∀ t ∈ types, ∃ p, t = float p)
    (p : Precision) : ∃ q, types.foldl promote (float p) = float q ∧
      (q = .double ↔ p = .double ∨ float .double ∈ types) := by
  induction types generalizing p with
  | nil => exact ⟨p, rfl, by simp⟩
  | cons t types ih =>
    obtain ⟨r, rfl⟩ := floats t (by simp)
    obtain ⟨q, folded, full⟩ := ih (fun t member => floats t (by simp [member])) (p.max r)
    refine ⟨q, folded, ?_⟩
    have joined : p.max r = .double ↔ p = .double ∨ r = .double := by
      cases p <;> cases r <;> decide
    rw [full, joined, List.mem_cons, or_assoc]
    simp [eq_comm]

theorem upcast_floats {types : List ScalarType} (some_type : types ≠ [])
    (floats : ∀ t ∈ types, ∃ p, t = float p) :
    ∃ q, upcast types = some (float q) ∧ (q = .double ↔ float .double ∈ types) := by
  cases types with
  | nil => exact absurd rfl some_type
  | cons t types =>
    obtain ⟨p, rfl⟩ := floats t (by simp)
    have rest : ∀ t ∈ types, ∃ p, t = float p := fun t member => floats t (by simp [member])
    obtain ⟨q, folded, full⟩ := foldl_promote_floats rest p
    refine ⟨q, congrArg some folded, ?_⟩
    rw [full, List.mem_cons]
    simp [eq_comm]

end ScalarType

theorem Primitive.outputType_floats {p : Primitive} (arithmetic : p.isArithmetic = true)
    {types : List ScalarType} (some_type : types ≠ []) (admitted : p.arity.admits types.length = true)
    (floats : ∀ t ∈ types, ∃ p, t = .float p) (config : Config) :
    ∃ q, p.outputType types config = .ok (.float q) ∧ (q = .double ↔ .float .double ∈ types) := by
  obtain ⟨q, joined, full⟩ := ScalarType.upcast_floats some_type floats
  have continuous : types.all ScalarType.isDiscrete = false := by
    obtain ⟨t, rest, rfl⟩ := List.exists_cons_of_ne_nil some_type
    obtain ⟨r, rfl⟩ := floats t (by simp)
    rfl
  refine ⟨q, ?_, full⟩
  unfold outputType checkArity
  rw [if_pos admitted, ok_bind]
  cases p with
  | add | mul | identity => simp only [Primitive.joined, joined]
  | sub | neg => simp only [Primitive.joined, joined, ok_bind]; rfl
  | trueDiv => simp only [continuous, Primitive.joined, joined]; rfl
  | reciprocal => simp only [Primitive.joined, joined, ok_bind]; rfl
  | mean => simp only [joined]; rfl
  | _ => cases arithmetic

/-- A value of a floating type, of full precision where `full` holds. -/
structure Graph.Number (g : Arena) (full : Prop) (v : ValueId) : Prop where
  known : v < g.values.size
  type : ∃ p, g.typeOf v = .float p ∧ (full → p = .double)

namespace Graph

variable {g h : Arena} {full : Prop} {v : ValueId}

theorem Number.grown (number : g.Number full v) (grown : g.Extends h) : h.Number full v := by
  constructor
  · exact Nat.lt_of_lt_of_le number.known grown.size_le
  · rw [grown.typeOf number.known]
    exact number.type

theorem Number.loosen (number : g.Number full v) {less : Prop} (implies : less → full) :
    g.Number less v := by
  obtain ⟨p, type, double⟩ := number.type
  exact ⟨number.known, p, type, fun holds => double (implies holds)⟩

theorem Number.double (number : g.Number True v) :
    v < g.values.size ∧ g.typeOf v = .float .double := by
  obtain ⟨p, type, double⟩ := number.type
  exact ⟨number.known, double trivial ▸ type⟩

theorem number_of_typeOf (known : v < g.values.size) (type : g.typeOf v = .float .double) :
    g.Number full v :=
  ⟨known, .double, type, fun _ => rfl⟩

end Graph

namespace Build

variable {α β : Type} {g h : Arena} {full : Prop}

theorem yields_primitive {p : Primitive} (arithmetic : p.isArithmetic = true)
    {inputs : List ValueId} (some_input : inputs ≠ [])
    (admitted : p.arity.admits inputs.length = true) (numbers : ∀ v ∈ inputs, g.Number False v)
    (fully : full → ∃ v ∈ inputs, g.Number True v) :
    Yields .client g (primitive p inputs) fun v h => h.Number full v ∧
      ∀ V : ValueId → ℚ[ε], h.Models V → V v = p.interpret (inputs.map V) := by
  have floats : ∀ t ∈ inputs.map g.typeOf, ∃ p, t = .float p := by
    intro t member
    obtain ⟨v, input, rfl⟩ := List.mem_map.mp member
    obtain ⟨p, type, -⟩ := (numbers v input).type
    exact ⟨p, type⟩
  obtain ⟨q, typed, double⟩ := Primitive.outputType_floats arithmetic
    (by simpa using some_input) (by simpa using admitted) floats g.config
  have typed' : (Op.prim p).outputTypes (inputs.map g.typeOf) g.config = .ok [.float q] := by
    rw [Op.outputTypes, typed]
    rfl
  have nonempty : inputs = [] → (Op.prim p : Op Composite) = .prim .mean :=
    fun none => absurd none some_input
  refine ⟨_, _, exec_apply1 nonempty typed', ?_, ⟨by simp, q, ?_, ?_⟩, ?_⟩
  · exact .node .refl (fun v member => (numbers v member).known) nonempty typed' (by simp)
  · simpa using g.pushNode_types (.prim p) inputs [.float q]
  · intro holds
    obtain ⟨v, input, number⟩ := fully holds
    obtain ⟨r, type, same⟩ := number.type
    rw [double, ← same trivial, ← type]
    exact List.mem_map_of_mem input
  · intro V models
    have here : (g.pushNode (.prim p) inputs [.float q]).nodes[g.nodes.size]? =
        some ⟨.prim p, inputs, [g.values.size]⟩ := by simp
    exact @Graph.Models.nodes _ _ _ _ _ _ models _ _ 0 _ here rfl

theorem yields_constantLike {v : ValueId} (number : g.Number full v) (x : Float) :
    Yields .client g (constantLike v x) fun c h => h.Number full c ∧
      (full → ∀ V : ValueId → ℚ[ε], h.Models V → V c = algebraMap ℚ ℚ[ε] (Real.rational x)) := by
  obtain ⟨p, type, double⟩ := number.type
  have run : (constantLike v x).exec g = (.ok g.values.size, g.pushValue
      ⟨.float p, .constant ((Literal.float x).cast (.float p)) none⟩) := by
    show (typedConstant (.float x) (if (g.typeOf v).isDiscrete then g.config.floatType
      else g.typeOf v)).exec g = _
    rw [type]
    rfl
  have growth := (gives_constantLike (g := g) v x).1
  rw [run] at growth
  refine ⟨_, _, run, growth, ⟨by simp, p, ?_, double⟩, ?_⟩
  · simp [Graph.typeOf]
  · intro holds V models
    obtain rfl := double holds
    have found : (g.pushValue ⟨.float .double, .constant ((Literal.float x).cast (.float .double))
        none⟩).values[g.values.size]? = some ⟨.float .double, .constant (.float x) none⟩ := by
      simp [Literal.cast, Precision.round, Literal.real]
    exact models.constants found

theorem yields_binary {p : Primitive} (arithmetic : p.isArithmetic = true)
    (admitted : p.arity.admits 2 = true) {x y : ValueId} (first : g.Number full x)
    (second : g.Number False y) :
    Yields .client g (primitive p [x, y]) fun v h => h.Number full v ∧
      ∀ V : ValueId → ℚ[ε], h.Models V → V v = p.interpret [V x, V y] := by
  refine yields_primitive arithmetic (List.cons_ne_nil x [y]) admitted ?_ ?_
  · intro v member
    rcases List.mem_pair.mp member with rfl | rfl
    · exact first.loosen False.elim
    · exact second
  · intro holds
    exact ⟨x, by simp, first.loosen fun _ => holds⟩

theorem yields_neg {x : ValueId} (number : g.Number full x) :
    Yields .client g (neg x) fun v h => h.Number full v ∧
      ∀ V : ValueId → ℚ[ε], h.Models V → V v = -V x := by
  apply yields_primitive (p := .neg) rfl (List.cons_ne_nil _ _) rfl
  · intro v member
    obtain rfl := List.mem_singleton.mp member
    exact number.loosen False.elim
  · intro holds
    exact ⟨x, by simp, number.loosen fun _ => holds⟩

end Build

def pairing (V : ValueId → ℚ[ε]) (gradients vs : List ValueId) : ℚ :=
  (List.zipWith (fun c v => (V c).fst * (V v).snd) gradients vs).sum

@[simp]
theorem pairing_nil (V : ValueId → ℚ[ε]) (vs : List ValueId) : pairing V [] vs = 0 := by
  simp [pairing]

@[simp]
theorem pairing_cons (V : ValueId → ℚ[ε]) (c v : ValueId) (cs vs : List ValueId) :
    pairing V (c :: cs) (v :: vs) = (V c).fst * (V v).snd + pairing V cs vs := by
  simp [pairing]

theorem fst_list_prod (xs : List ℚ[ε]) : xs.prod.fst = (xs.map TrivSqZeroExt.fst).prod := by
  induction xs with
  | nil => rfl
  | cons x xs ih => simp [ih]

theorem pairing_same (V : ValueId → ℚ[ε]) (c : ValueId) (vs : List ValueId) :
    pairing V (vs.map fun _ => c) vs = (V c).fst * ((vs.map V).sum).snd := by
  induction vs with
  | nil => simp
  | cons v vs ih =>
    rw [List.map_cons, pairing_cons, ih]
    simp [mul_add]

theorem pairing_flat {V : ValueId → ℚ[ε]} (cs : List ValueId) {vs : List ValueId}
    (flat : ∀ v ∈ vs, (V v).snd = 0) : pairing V cs vs = 0 := by
  induction vs generalizing cs with
  | nil => simp [pairing]
  | cons v vs ih =>
    cases cs with
    | nil => simp
    | cons c cs =>
      rw [pairing_cons, flat v (by simp), ih cs fun v member => flat v (by simp [member])]
      simp

theorem pairing_product (V : ValueId → ℚ[ε]) {a : ℚ} {cs vs : List ValueId}
    (others : List.Forall₂ (fun k c => (V c).fst =
      a * ((vs.eraseIdx k).map fun v => (V v).fst).prod) (List.range vs.length) cs) :
    pairing V cs vs = a * ((vs.map V).prod).snd := by
  induction vs generalizing a cs with
  | nil =>
    obtain rfl : cs = [] := by simpa using others.length_eq.symm
    simp
  | cons v vs ih =>
    rw [List.length_cons, List.range_succ_eq_map] at others
    cases others with
    | @cons _ c _ cs first rest =>
      have rest' : List.Forall₂ (fun k c => (V c).fst =
          a * (V v).fst * ((vs.eraseIdx k).map fun v => (V v).fst).prod)
            (List.range vs.length) cs := by
        rw [List.forall₂_map_left_iff] at rest
        apply rest.imp
        intro k c same
        rw [same, List.eraseIdx_cons_succ, List.map_cons, List.prod_cons, mul_assoc]
      have product : ((vs.map V).prod).fst = (vs.map fun v => (V v).fst).prod := by
        rw [fst_list_prod, List.map_map]
        rfl
      rw [pairing_cons, ih rest', first, List.eraseIdx_cons_zero, List.map_cons, List.prod_cons,
        DualNumber.snd_mul, product]
      ring

namespace Primitive

open Build

variable {g : Arena} {full : Prop}

/-- What a rule gives: gradients of the operands that do together what the gradient of the output
    does. -/
def Transposes (p : Primitive) (full : Prop) (inputs : List ValueId) (gz : ValueId)
    (gradients : List ValueId) (h : Arena) : Prop :=
  gradients.length = inputs.length ∧ (∀ c ∈ gradients, h.Number full c) ∧
    (full → ∀ V : ValueId → ℚ[ε], h.Models V →
      pairing V gradients inputs = (V gz).fst * (p.interpret (inputs.map V)).snd)

theorem yields_product {inputs : List ValueId} {gz : ValueId}
    (numbers : ∀ v ∈ inputs, g.Number False v) (number : g.Number full gz) :
    Yields .client g (if inputs.isEmpty then pure gz else mulMany (gz :: inputs)) fun c h =>
      h.Number full c ∧ ∀ V : ValueId → ℚ[ε], h.Models V →
        (V c).fst = (V gz).fst * (inputs.map fun v => (V v).fst).prod := by
  split
  · next alone =>
    apply yields_pure
    rw [List.isEmpty_iff.mp alone]
    exact ⟨number, fun V _ => by simp⟩
  · have factors : ∀ v ∈ gz :: inputs, g.Number False v := by
      intro v member
      rcases List.mem_cons.mp member with rfl | other
      · exact number.loosen False.elim
      · exact numbers v other
    refine (yields_primitive (p := mul) rfl (by simp) (by simp [arity, Arity.admits]) factors
      fun holds => ⟨gz, by simp, number.loosen fun _ => holds⟩).weaken ?_
    intro c k _ result
    refine ⟨result.1, fun V models => ?_⟩
    rw [result.2 V models, interpret, fst_list_prod, List.map_map, List.map_cons, List.prod_cons]
    rfl

theorem yields_gradient_mul {inputs : List ValueId} {z gz : ValueId}
    (numbers : ∀ v ∈ inputs, g.Number False v) (number : g.Number full gz) :
    Yields .client g (mul.gradient inputs z gz) (mul.Transposes full inputs gz) := by
  refine (yields_mapM (List.range inputs.length) ?_ fun k _ h growth => yields_product
    (fun v member => (numbers v (List.mem_of_mem_eraseIdx member)).grown growth.toExtends)
    (number.grown growth.toExtends)).weaken ?_
  · intro k c h h' good growth
    exact ⟨good.1.grown growth.toExtends, fun V models => good.2 V (models.of_extends growth.toExtends)⟩
  · intro cs h _ result
    refine ⟨by simpa using result.length_eq.symm, ?_, ?_⟩
    · intro c member
      obtain ⟨k, -, good⟩ := exists_image_of_mem result.flip member
      exact good.1
    · intro _ V models
      exact pairing_product V (result.imp fun k c good => good.2 V models)

theorem yields_gradient_trueDiv {x y z gz : ValueId} (dividend : g.Number False x)
    (divisor : g.Number False y) (number : g.Number full gz) :
    Yields .client g (trueDiv.gradient [x, y] z gz) (trueDiv.Transposes full [x, y] gz) := by
  refine yields_bind _ (yields_binary (p := trueDiv) rfl rfl number divisor) ?_
  rintro gx g₁ growth₁ ⟨number₁, means₁⟩
  have grown₁ := growth₁.toExtends
  refine yields_bind _ (yields_binary (p := mul) rfl rfl (number.grown grown₁)
    (dividend.grown grown₁)) ?_
  rintro scaled g₂ growth₂ ⟨number₂, means₂⟩
  have grown₂ := growth₂.toExtends
  have divisor₂ := divisor.grown (grown₁.trans grown₂)
  refine yields_bind _ (yields_binary (p := mul) rfl rfl divisor₂ divisor₂) ?_
  rintro square g₃ growth₃ ⟨number₃, means₃⟩
  have grown₃ := growth₃.toExtends
  refine yields_bind _ (yields_binary (p := trueDiv) rfl rfl (number₂.grown grown₃) number₃) ?_
  rintro ratio g₄ growth₄ ⟨number₄, means₄⟩
  have grown₄ := growth₄.toExtends
  refine yields_bind _ (yields_neg number₄) ?_
  rintro gy g₅ growth₅ ⟨number₅, means₅⟩
  have grown₅ := growth₅.toExtends
  apply yields_pure
  refine ⟨rfl, ?_, ?_⟩
  · intro c member
    rcases List.mem_pair.mp member with rfl | rfl
    · exact number₁.grown (((grown₂.trans grown₃).trans grown₄).trans grown₅)
    · exact number₅
  · intro _ V models
    have models₄ := models.of_extends grown₅
    have models₃ := models₄.of_extends grown₄
    have models₂ := models₃.of_extends grown₃
    have models₁ := models₂.of_extends grown₂
    simp only [pairing_cons, pairing_nil, means₅ V models, means₄ V models₄, means₃ V models₃,
      means₂ V models₂, means₁ V models₁, interpret, List.map_cons, List.map_nil]
    simp
    ring

theorem yields_gradient_reciprocal {x z gz : ValueId} (divisor : g.Number False x)
    (number : g.Number full gz) :
    Yields .client g (reciprocal.gradient [x] z gz) (reciprocal.Transposes full [x] gz) := by
  refine yields_bind _ (yields_binary (p := mul) rfl rfl divisor divisor) ?_
  rintro square g₁ growth₁ ⟨number₁, means₁⟩
  have grown₁ := growth₁.toExtends
  refine yields_bind _ (yields_binary (p := trueDiv) rfl rfl (number.grown grown₁) number₁) ?_
  rintro ratio g₂ growth₂ ⟨number₂, means₂⟩
  have grown₂ := growth₂.toExtends
  refine yields_bind _ (yields_neg number₂) ?_
  rintro gx g₃ growth₃ ⟨number₃, means₃⟩
  have grown₃ := growth₃.toExtends
  apply yields_pure
  refine ⟨rfl, by simpa using number₃, ?_⟩
  intro _ V models
  have models₂ := models.of_extends grown₃
  have models₁ := models₂.of_extends grown₂
  simp only [pairing_cons, pairing_nil, means₃ V models, means₂ V models₂, means₁ V models₁,
    interpret, List.map_cons, List.map_nil]
  simp
  ring

theorem yields_gradient_mean {inputs : List ValueId} {z gz : ValueId} (number : g.Number full gz) :
    Yields .client g (mean.gradient inputs z gz) (mean.Transposes full inputs gz) := by
  refine yields_bind _ (yields_constantLike number (Real.ofInt inputs.length)) ?_
  rintro c g₁ growth₁ ⟨number₁, means₁⟩
  have grown₁ := growth₁.toExtends
  refine yields_bind _ (yields_binary (p := trueDiv) rfl rfl (number.grown grown₁)
    (number₁.loosen False.elim)) ?_
  rintro share g₂ growth₂ ⟨number₂, means₂⟩
  have grown₂ := growth₂.toExtends
  apply yields_pure
  refine ⟨by simp, ?_, ?_⟩
  · intro v member
    obtain ⟨_, _, rfl⟩ := List.mem_map.mp member
    exact number₂
  · intro holds V models
    have models₁ := models.of_extends grown₂
    have counted : V c = TrivSqZeroExt.inl (count inputs.length) := means₁ holds V models₁
    rw [pairing_same, means₂ V models, interpret, interpret, counted, List.length_map,
      TrivSqZeroExt.algebraMap_eq_inl]
    simp
    ring

theorem yields_gradient {p : Primitive} (arithmetic : p.isArithmetic = true)
    {inputs : List ValueId} {z gz : ValueId} (admitted : p.arity.admits inputs.length = true)
    (numbers : ∀ v ∈ inputs, g.Number False v) (number : g.Number full gz) :
    Yields .client g (p.gradient inputs z gz) (p.Transposes full inputs gz) := by
  have same : ∀ c ∈ inputs.map fun _ => gz, g.Number full c := by
    intro c member
    obtain ⟨_, _, rfl⟩ := List.mem_map.mp member
    exact number
  cases p with
  | add =>
    apply yields_pure
    exact ⟨by simp, same, fun _ V _ => pairing_same V gz inputs⟩
  | identity =>
    obtain ⟨x, rfl⟩ := List.length_eq_one_iff.mp (by simpa [arity, Arity.admits] using admitted)
    apply yields_pure
    exact ⟨by simp, same, fun _ V _ => by simp [interpret]⟩
  | mul => exact yields_gradient_mul numbers number
  | sub =>
    obtain ⟨x, y, rfl⟩ := List.length_eq_two.mp (by simpa [arity, Arity.admits] using admitted)
    refine yields_bind _ (yields_neg number) ?_
    rintro c h growth ⟨number', means⟩
    apply yields_pure
    refine ⟨rfl, ?_, ?_⟩
    · intro v member
      rcases List.mem_pair.mp member with rfl | rfl
      · exact number.grown growth.toExtends
      · exact number'
    · intro _ V models
      simp [interpret, means V models]
      ring
  | neg =>
    obtain ⟨x, rfl⟩ := List.length_eq_one_iff.mp (by simpa [arity, Arity.admits] using admitted)
    refine yields_bind _ (yields_neg number) ?_
    rintro c h growth ⟨number', means⟩
    apply yields_pure
    exact ⟨rfl, by simpa using number', fun _ V models => by simp [interpret, means V models]⟩
  | trueDiv =>
    obtain ⟨x, y, rfl⟩ := List.length_eq_two.mp (by simpa [arity, Arity.admits] using admitted)
    exact yields_gradient_trueDiv (numbers x (by simp)) (numbers y (by simp)) number
  | reciprocal =>
    obtain ⟨x, rfl⟩ := List.length_eq_one_iff.mp (by simpa [arity, Arity.admits] using admitted)
    exact yields_gradient_reciprocal (numbers x (by simp)) number
  | mean => exact yields_gradient_mean number
  | _ => cases arithmetic

end Primitive

end ScalarFusion

import ScalarFusion.Proofs.Continuity
import ScalarFusion.Proofs.Reaching

/-!
Gradients of discrete values. An operation gives zeros to its discrete operands, whatever its rule
or, for a call, the sweep through its body has found; what a discrete value collects from all of its
consumers is then a sum of zeros. The one exception is the cost, which is given the seed.
-/
namespace ScalarFusion

namespace Graph

variable {g h : Arena} {v : ValueId}

/-- A constant zero of the configured floating type, or a sum of two of these, and so on. -/
inductive ZeroSum (g : Arena) : ValueId → Prop where
  | zero {v : ValueId}
      (found : g.values[v]? = some ⟨g.config.floatType, .constant (.float 0.0) none⟩) : ZeroSum g v
  | add {v a b : ValueId} {n : NodeId}
      (found : g.values[v]? = some ⟨g.config.floatType, .output n 0⟩)
      (node : g.nodes[n]? = some ⟨.prim .add, [a, b], [v]⟩) (left : ZeroSum g a)
      (right : ZeroSum g b) : ZeroSum g v

theorem ZeroSum.grown (sum : g.ZeroSum v) (grown : g.Extends h) : h.ZeroSum v := by
  induction sum with
  | zero found => exact .zero (by rw [grown.config]; exact grown.value found)
  | add found node left right ihLeft ihRight =>
    exact .add (by rw [grown.config]; exact grown.value found) (grown.node node) ihLeft ihRight

theorem ZeroSum.typeOf (sum : g.ZeroSum v) : g.typeOf v = g.config.floatType := by
  cases sum with
  | zero found => simp only [Graph.typeOf, found]
  | add found _ _ _ => simp only [Graph.typeOf, found]

theorem ZeroSum.known (sum : g.ZeroSum v) : v < g.values.size := by
  cases sum with
  | zero found => exact (Array.getElem?_eq_some_iff.mp found).1
  | add found _ _ _ => exact (Array.getElem?_eq_some_iff.mp found).1

structure Negligible (g : Arena) (cost v : ValueId) : Prop where
  known : v < g.values.size
  discrete : (g.typeOf v).isDiscrete = true
  other : v ≠ cost

end Graph

/-- The gradients that the table has of the negligible values of `base` are sums of zeros. -/
def Table.Vanishing (base : Arena) (cost : ValueId) (t : Table ValueId) (g : Arena) : Prop :=
  ∀ v w, t.get? v = some w → base.Negligible cost v → g.ZeroSum w

theorem Table.Vanishing.grown {base g h : Arena} {cost : ValueId} {t : Table ValueId}
    (vanishing : t.Vanishing base cost g) (grown : g.Extends h) : t.Vanishing base cost h :=
  fun v w found negligible => (vanishing v w found negligible).grown grown

theorem Table.Vanishing.insert {base g : Arena} {cost : ValueId} {t : Table ValueId}
    (vanishing : t.Vanishing base cost g) {v w : ValueId}
    (zero : base.Negligible cost v → g.ZeroSum w) : (t.insert v w).Vanishing base cost g := by
  intro u x found negligible
  rcases Table.insert_cases found with ⟨rfl, rfl⟩ | old
  · exact zero negligible
  · exact vanishing u x old negligible

namespace Build

variable {α : Type} {p q : Policy} {base g : Arena} {cost : ValueId} {t : Table ValueId}

theorem Grows.and {b : Build α} {post post' : α → Arena → Prop} (first : b.Grows p g post)
    (second : b.Grows q g post') : b.Grows p g fun a h => post a h ∧ post' a h :=
  ⟨first.1, fun a success => ⟨first.2 a success, second.2 a success⟩⟩

theorem Yields.grows {b : Build α} {post : α → Arena → Prop} (yields : Yields p g b post) :
    b.Grows p g post := by
  obtain ⟨a, h, run, growth, holds⟩ := yields
  rw [Grows, run]
  refine ⟨growth, ?_⟩
  intro a' success
  obtain rfl : a = a' := Except.ok.inj success
  exact holds

theorem Yields.and_grows {b : Build α} {post post' : α → Arena → Prop} (yields : Yields p g b post)
    (grows : b.Grows q g post') : Yields p g b fun a h => post a h ∧ post' a h := by
  obtain ⟨a, h, run, growth, holds⟩ := yields
  exact ⟨a, h, run, growth, holds, (grows.of_ok run).2⟩

theorem yields_zeroGradient_discrete (v : ValueId) :
    Yields .client g (zeroGradient v) fun w h =>
      w < h.values.size ∧ ((g.typeOf v).isDiscrete = true → h.ZeroSum w) := by
  let type := if (g.typeOf v).isDiscrete then g.config.floatType else g.typeOf v
  refine ⟨g.values.size, g.pushValue ⟨type, .constant ((Literal.float 0.0).cast type) none⟩, rfl,
    .leaf .refl rfl (Policy.client_keepsConstants _ _ _), by simp, ?_⟩
  intro discrete
  have here : type = g.config.floatType := if_pos discrete
  have literal : (Literal.float 0.0).cast g.config.floatType = .float 0.0 := by
    rw [Config.floatType]
    cases g.config.floatX <;> rfl
  apply Graph.ZeroSum.zero
  rw [here, literal, Graph.pushValue_values, Array.getElem?_push, if_pos rfl]
  rfl

theorem yields_add_zeroSums {a b : ValueId} (left : g.ZeroSum a) (right : g.ZeroSum b) :
    Yields .client g (add a b) fun s h => h.ZeroSum s := by
  have joined : Primitive.add.outputType ([a, b].map g.typeOf) g.config =
      .ok g.config.floatType := by
    simp only [List.map_cons, List.map_nil, left.typeOf, right.typeOf, Config.floatType]
    cases g.config.floatX <;> rfl
  have typed : (Op.prim .add).outputTypes ([a, b].map g.typeOf) g.config =
      .ok [g.config.floatType] := by
    rw [Op.outputTypes, joined]
    rfl
  have known : g.Knows [a, b] := by simp [Graph.knows_cons, left.known, right.known]
  have growth : Growth .client g (g.pushNode (.prim .add) [a, b] [g.config.floatType]) :=
    .node .refl known (by simp) typed (by simp)
  refine ⟨g.values.size, _, exec_apply1 (by simp) typed, growth, ?_⟩
  refine .add (n := g.nodes.size) ?_ ?_ (left.grown growth.toExtends) (right.grown growth.toExtends)
  · rw [Graph.pushNode_value_at]
    simp
  · simp

theorem grows_add_contribution {P : Prop} {existing c : ValueId} (known : g.Knows [existing, c])
    (zeros : P → g.ZeroSum existing ∧ g.ZeroSum c) :
    (add existing c).Grows .client g fun s h => s < h.values.size ∧ (P → h.ZeroSum s) := by
  by_cases vanishes : P
  · refine (yields_add_zeroSums (zeros vanishes).1 (zeros vanishes).2).grows.weaken ?_
    intro s h _ sum
    exact ⟨sum.known, fun _ => sum⟩
  · refine (gives_primitive (p := .add) known).weaken ?_
    intro s h _ inside
    exact ⟨inside, fun holds => absurd holds vanishes⟩

theorem grows_accumulate_vanishing (copied : Copied t g) (vanishing : t.Vanishing base cost g)
    {v c : Nat} (known : c < g.values.size) (zero : base.Negligible cost v → g.ZeroSum c) :
    (accumulate t v c).Grows .client g fun t' h => Copied t' h ∧ t'.Vanishing base cost h := by
  unfold accumulate
  split
  · next existing found =>
    have both : g.Knows [existing, c] := by simp [Graph.knows_cons, copied v existing found, known]
    refine grows_bind _ (grows_add_contribution both
      fun negligible => ⟨vanishing v existing found negligible, zero negligible⟩) ?_
    rintro total h growth ⟨inside, sum⟩
    exact grows_pure ⟨(copied.grown growth).insert inside, (vanishing.grown growth.toExtends).insert sum⟩
  · exact grows_pure ⟨copied.insert known, vanishing.insert zero⟩

theorem grows_accumulateAll_vanishing {pairs : List (ValueId × ValueId)} (copied : Copied t g)
    (vanishing : t.Vanishing base cost g) (known : g.Knows (pairs.map Prod.snd))
    (zeros : ∀ pair ∈ pairs, base.Negligible cost pair.1 → g.ZeroSum pair.2) :
    (accumulateAll t pairs).Grows .client g fun t' h =>
      Copied t' h ∧ t'.Vanishing base cost h := by
  unfold accumulateAll
  induction pairs generalizing t g with
  | nil => exact grows_pure ⟨copied, vanishing⟩
  | cons pair pairs ih =>
    obtain ⟨here, rest⟩ := (Graph.knows_cons _ _ _).mp known
    rw [List.foldlM_cons]
    refine grows_bind _ (grows_accumulate_vanishing copied vanishing here (zeros pair (by simp))) ?_
    rintro t' h growth ⟨copied', vanishing'⟩
    refine ih copied' vanishing' (growth.toExtends.knows rest) ?_
    intro pair member negligible
    exact (zeros pair (by simp [member]) negligible).grown growth.toExtends

/-- Operands with the gradients that they are given: the discrete ones get zeros. -/
def Cleared (g : Arena) (inputs contributions : List ValueId) (h : Arena) : Prop :=
  ∀ pair ∈ inputs.zip contributions, (g.typeOf pair.1).isDiscrete = true → h.ZeroSum pair.2

theorem yields_zeros_cleared {inputs : List ValueId} (known : g.Knows inputs) :
    Yields .client g (inputs.mapM zeroGradient) (Cleared g inputs) := by
  have zeros : Yields .client g (inputs.mapM zeroGradient) fun ws h =>
      List.Forall₂ (fun v w => (g.typeOf v).isDiscrete = true → h.ZeroSum w) inputs ws := by
    apply yields_mapM
    · intro v w h k zero growth discrete
      exact (zero discrete).grown growth.toExtends
    · intro v member h growth
      refine (yields_zeroGradient_discrete v).weaken ?_
      rintro w k - ⟨-, zero⟩
      rwa [growth.toExtends.typeOf (known v member)] at zero
  apply zeros.weaken
  intro ws h _ related pair member
  exact List.forall₂_zip related member

theorem yields_clearDiscrete_cleared {inputs gradients : List ValueId} (known : g.Knows inputs) :
    Yields .client g (clearDiscrete inputs gradients) (Cleared g inputs) := by
  induction inputs generalizing g gradients with
  | nil =>
    unfold clearDiscrete
    exact yields_pure (by simp [Cleared])
  | cons v vs ih =>
    cases gradients with
    | nil => exact yields_pure (by simp [Cleared])
    | cons first rest =>
      obtain ⟨here, others⟩ := (Graph.knows_cons _ _ _).mp known
      have next : ∀ w h, Growth .client g h → ((g.typeOf v).isDiscrete = true → h.ZeroSum w) →
          Yields .client h (do
            let others ← clearDiscrete vs rest
            pure (w :: others)) (Cleared g (v :: vs)) := by
        intro w h growth zero
        refine yields_bind _ (ih (growth.toExtends.knows others)) ?_
        intro ws k growth' cleared
        refine yields_pure ?_
        intro pair member discrete
        rcases List.mem_cons.mp member with rfl | later
        · exact (zero discrete).grown growth'.toExtends
        · have inside := others pair.1 (List.of_mem_zip later).1
          exact cleared pair later (by rwa [growth.toExtends.typeOf inside])
      rw [clearDiscrete]
      apply yields_look_bind (exec_isDiscrete v g)
      simp only
      split
      · refine yields_bind _ (yields_zeroGradient_discrete v) ?_
        rintro w h growth ⟨-, zero⟩
        exact next w h growth zero
      · next continuous =>
        exact yields_bind _ (yields_pure fun discrete => absurd discrete continuous) next

/-- Whatever the operation is and has contributed, its discrete operands get zeros. -/
theorem grows_gradientWith_cleared {ofCall : CallGradient} (safe : ofCall.Safe) (built : g.Built)
    {op : Op Composite} (good : ∀ c, op = .call c → c.WellBuilt)
    {inputs outputs arriving : List ValueId} (operands : g.Knows inputs)
    (results : g.Knows outputs) (known : g.Knows arriving) :
    (op.gradientWith ofCall inputs outputs arriving).Grows .client g (Cleared g inputs) := by
  have cleared : ∀ gs h, Growth .client g h → h.Knows gs →
      (clearDiscrete inputs gs).Grows .client h (Cleared g inputs) := by
    intro gs h growth _
    refine (yields_clearDiscrete_cleared (growth.toExtends.knows operands)).grows.weaken ?_
    intro cs k _ zeros pair member discrete
    have inside := operands pair.1 (List.of_mem_zip member).1
    exact zeros pair member (by rwa [growth.toExtends.typeOf inside])
  unfold Op.gradientWith
  apply grows_look_bind (exec_get g)
  split
  · exact (yields_zeros_cleared operands).grows
  · cases op with
    | call c => exact grows_bind _ (safe built (good c rfl) operands known) cleared
    | prim p =>
      simp only
      split
      · refine grows_bind _ (p.givesAll_gradient ?_) cleared
        rw [Graph.knows_cons, Graph.knows_cons]
        exact ⟨((Graph.knows_cons _ _ _).mp known).1, ((Graph.knows_cons _ _ _).mp results).1,
          operands⟩
      · exact grows_bind _ grows_throw cleared

theorem grows_backNode_vanishing {ofCall : CallGradient} (safe : ofCall.Safe) (built : g.Built)
    (grown : base.Extends g) (copied : Copied t g) (vanishing : t.Vanishing base cost g) (n : NodeId) :
    (backNode ofCall t n).Grows .client g fun t' h => Copied t' h ∧ t'.Vanishing base cost h := by
  unfold backNode
  apply grows_look_bind (exec_get g)
  split
  · exact grows_pure ⟨copied, vanishing⟩
  · next node found =>
    split
    · refine grows_bind _ (givesAll_gradientsOf copied node.outputs) ?_
      intro arriving h growth known
      have extended := growth.toExtends
      have operands := extended.knows (built.ordered.known found)
      have results := extended.knows (built.ordered.knows_outputs found)
      have good : ∀ c, node.op = .call c → c.WellBuilt := fun c called => built.calls found called
      refine grows_bind _ ((givesAll_gradientWith safe (built.grown growth) good operands results
        known).and (grows_gradientWith_cleared safe (built.grown growth) good operands results
        known)) ?_
      rintro contributions k growth' ⟨known', cleared⟩
      have extended' := growth'.toExtends
      refine grows_accumulateAll_vanishing ((copied.grown growth).grown growth')
        ((vanishing.grown extended).grown extended') (knows_zip_snd known') ?_
      intro pair member negligible
      exact cleared pair member (by
        rw [(grown.trans extended).typeOf negligible.known]
        exact negligible.discrete)
    · exact grows_pure ⟨copied, vanishing⟩

theorem grows_backNodes_vanishing {ofCall : CallGradient} (safe : ofCall.Safe) (built : g.Built)
    (grown : base.Extends g) (nodes : List NodeId) (copied : Copied t g)
    (vanishing : t.Vanishing base cost g) :
    (nodes.foldlM (backNode ofCall) t).Grows .client g fun t' h =>
      Copied t' h ∧ t'.Vanishing base cost h := by
  induction nodes generalizing t g with
  | nil => exact grows_pure ⟨copied, vanishing⟩
  | cons n nodes ih =>
    rw [List.foldlM_cons]
    refine grows_bind _ (grows_backNode_vanishing safe built grown copied vanishing n) ?_
    rintro t' h growth ⟨copied', vanishing'⟩
    exact ih (built.grown growth) (grown.trans growth.toExtends) copied' vanishing'

theorem yields_gradientsOf_vanishing (grown : base.Extends g) (vanishing : t.Vanishing base cost g)
    (targets : List ValueId) :
    Yields .client g (targets.mapM (gradientOf t)) fun ws h =>
      List.Forall₂ (fun v w => base.Negligible cost v → h.ZeroSum w) targets ws := by
  apply yields_mapM
  · intro v w h k zero growth negligible
    exact (zero negligible).grown growth.toExtends
  · intro v _ h growth
    unfold gradientOf
    split
    · next w found =>
      exact yields_pure fun negligible =>
        (vanishing v w found negligible).grown growth.toExtends
    · refine (yields_zeroGradient_discrete v).weaken ?_
      rintro w k - ⟨-, zero⟩ negligible
      apply zero
      rw [(grown.trans growth.toExtends).typeOf negligible.known]
      exact negligible.discrete

theorem grows_gradient_vanishing (built : g.Built) (cost : ValueId) (targets : List ValueId) :
    (gradient cost targets).Grows .client g fun ws h =>
      List.Forall₂ (fun v w => g.Negligible cost v → h.ZeroSum w) targets ws := by
  refine grows_bind _ (gives_constantLike cost 1.0) ?_
  intro seed g₁ growth₁ known
  have start : Table.empty.Vanishing g cost g₁ := by
    intro v w found
    simp at found
  have seeded : ∀ pair ∈ [(cost, seed)], g.Negligible cost pair.1 → g₁.ZeroSum pair.2 := by
    intro pair member negligible
    obtain rfl := List.mem_singleton.mp member
    exact absurd rfl negligible.other
  refine grows_bind _ (grows_accumulateAll_vanishing (copied_empty g₁) start (by simpa using known)
    seeded) ?_
  rintro t₂ g₂ growth₂ ⟨copied₂, vanishing₂⟩
  have growth := growth₁.trans growth₂
  apply grows_look_bind (exec_get g₂)
  refine grows_bind _ (grows_backNodes_vanishing callGradient_safe (built.grown growth)
    growth.toExtends _ copied₂ vanishing₂) ?_
  rintro t₃ g₃ growth₃ ⟨-, vanishing₃⟩
  exact (yields_gradientsOf_vanishing (growth.trans growth₃).toExtends vanishing₃ targets).grows

end Build

/-- Discrete values get zero gradients. In a reachable graph with calls of composites for the types
    of their operands, the gradients of any value by any list of values exist, one for each of them,
    and for a boolean or integer value other than the cost it is of the configured floating type and
    a sum of zeros: a constant 0.0 of this type, or additions all of whose leaves are such
    constants. -/
theorem discrete_gradients_vanish {g : Arena} (reachable : Reachable g) (bound : g.Bound)
    {cost : ValueId} {targets : List ValueId} (known : g.Knows (cost :: targets)) :
    ∃ gradients h, (Build.gradient cost targets).exec g = (.ok gradients, h) ∧
      List.Forall₂ (fun v w => (g.typeOf v).isDiscrete = true → v ≠ cost →
        h.typeOf w = g.config.floatType ∧ h.ZeroSum w) targets gradients := by
  have total := Build.yields_gradient_continuous ⟨reachable.built, bound⟩ cost targets
  obtain ⟨gradients, h, run, growth, -, sums⟩ :=
    total.and_grows (Build.grows_gradient_vanishing reachable.built cost targets)
  refine ⟨gradients, h, run, ?_⟩
  rw [List.forall₂_iff_get] at sums ⊢
  refine ⟨sums.1, ?_⟩
  intro k inside inside' discrete other
  have target := known _ (List.mem_cons_of_mem cost (List.get_mem targets ⟨k, inside⟩))
  have sum := sums.2 k inside inside' ⟨target, discrete, other⟩
  rw [← growth.toExtends.config]
  exact ⟨sum.typeOf, sum⟩

def Graph.weighted : Arena :=
  (Action.apply (.prim .add) [3, 0]).perform ((Action.apply (.prim .mul) [0, 2]).perform
    ((Action.call (.negation (.float .double)) [1]).perform
      ((Action.newVariable (.float .double) (some "y")).perform
        ((Action.newVariable (.signed .w8) (some "x")).perform {}))))

theorem weighted_reachable : Reachable .weighted := by
  refine .perform (.perform (.perform (.perform (.perform (.empty {}) ?_ ?_) ?_ ?_) ?_ ?_) ?_ ?_)
    ?_ ?_
  · decide
  · simp [Action.composite?]
  · decide
  · simp [Action.composite?]
  · decide
  · intro c same
    obtain rfl := Option.some.inj same
    exact negation_obtained (by decide)
  · decide
  · simp [Action.composite?, Op.callee?]
  · decide
  · simp [Action.composite?, Op.callee?]

theorem weighted_bound : Graph.weighted.Bound := by
  intro (n : Nat) node c found called
  have inside : n < 3 := (Array.getElem?_eq_some_iff.mp found).1
  obtain rfl | rfl | rfl : n = 0 ∨ n = 1 ∨ n = 2 := by omega
  · obtain rfl := Option.some.inj found
    obtain rfl := Op.call.inj called
    rfl
  · obtain rfl := Option.some.inj found
    cases called
  · obtain rfl := Option.some.inj found
    cases called

theorem weighted_vanishes : Reachable .weighted ∧ Graph.weighted.Bound ∧
    Graph.weighted.Knows [4, 0, 1] ∧ (Graph.weighted.typeOf 0).isDiscrete = true ∧
    ∃ byte double h, (Build.gradient 4 [0, 1]).exec .weighted = (.ok [byte, double], h) ∧
      h.typeOf byte = .float .double ∧ h.ZeroSum byte := by
  have known : Graph.weighted.Knows [4, 0, 1] := by decide
  have discrete : (Graph.weighted.typeOf 0).isDiscrete = true := by decide
  obtain ⟨gradients, h, run, each⟩ :=
    discrete_gradients_vanish weighted_reachable weighted_bound known
  obtain ⟨byte, rest, first, others, rfl⟩ := List.forall₂_cons_left_iff.mp each
  obtain ⟨double, _, -, none, rfl⟩ := List.forall₂_cons_left_iff.mp others
  obtain rfl := List.forall₂_nil_left_iff.mp none
  obtain ⟨type, sum⟩ := first discrete (by decide)
  exact ⟨weighted_reachable, weighted_bound, known, discrete, byte, double, h, run, type, sum⟩

end ScalarFusion

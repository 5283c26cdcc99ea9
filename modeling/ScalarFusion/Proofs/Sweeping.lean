import Mathlib.Algebra.BigOperators.Ring.Finset
import ScalarFusion.Proofs.Adjoints
import ScalarFusion.Proofs.Ancestry

/-!
The reverse sweep. What it keeps is the sum of all gradients in its table, each times the tangent of
its value: a node hands the share of its outputs on to its operands. At the end only the boundary
and the leaves are left.
-/
namespace ScalarFusion

open DualNumber

namespace Table

def amount (t : Table ValueId) (V : ValueId → ℚ[ε]) (v : ValueId) : ℚ :=
  match t.get? v with
  | some w => (V w).fst
  | none => 0

def total (t : Table ValueId) (V : ValueId → ℚ[ε]) (size : Nat) (s : ValueId → ℚ) : ℚ :=
  ∑ v ∈ Finset.range size, t.amount V v * s v

/-- The table has gradients of values in `keys` only, and those are numbers. -/
structure Holds (t : Table ValueId) (keys full : ValueId → Prop) (g : Arena) : Prop where
  key : ∀ {v w : ValueId}, t.get? v = some w → keys v
  number : ∀ {v w : ValueId}, t.get? v = some w → g.Number (full v) w

variable {t : Table ValueId} {keys full : ValueId → Prop} {g h : Arena}

theorem Holds.grown (holds : t.Holds keys full g) (grown : g.Extends h) : t.Holds keys full h :=
  ⟨holds.key, fun found => (holds.number found).grown grown⟩

theorem Holds.imp (holds : t.Holds keys full g) {keys' : ValueId → Prop}
    (among : ∀ v, keys v → keys' v) : t.Holds keys' full g :=
  ⟨fun found => among _ (holds.key found), holds.number⟩

theorem holds_empty : Table.empty.Holds keys full g := by
  constructor <;> simp

theorem Holds.insert (holds : t.Holds keys full g) {v w : ValueId} (key : keys v)
    (number : g.Number (full v) w) : (t.insert v w).Holds keys full g := by
  constructor
  · intro u x found
    rw [get?_insert] at found
    split at found
    · next same => exact same ▸ key
    · exact holds.key found
  · intro u x found
    rw [get?_insert] at found
    split at found
    · next same =>
      obtain rfl := Option.some.inj found
      exact same ▸ number
    · exact holds.number found

theorem amount_insert (t : Table ValueId) (V : ValueId → ℚ[ε]) (v w u : ValueId) :
    (t.insert v w).amount V u = if v = u then (V w).fst else t.amount V u := by
  by_cases same : v = u <;> simp [amount, get?_insert, same]

@[simp]
theorem total_empty (V : ValueId → ℚ[ε]) (size : Nat) (s : ValueId → ℚ) :
    Table.empty.total V size s = 0 := by
  simp [total, amount]

def without (os : List ValueId) (s : ValueId → ℚ) : ValueId → ℚ :=
  fun v => if v ∈ os then 0 else s v

@[simp]
theorem without_nil (s : ValueId → ℚ) : without [] s = s := by
  funext v
  simp [without]

theorem total_without (t : Table ValueId) (V : ValueId → ℚ[ε]) {size : Nat} (s : ValueId → ℚ)
    {os : List ValueId} (nodup : os.Nodup) (known : ∀ o : Nat, o ∈ os → o < size) :
    t.total V size (without os s) + (os.map fun o => t.amount V o * s o).sum = t.total V size s := by
  have inside : Finset.range size ∩ os.toFinset = os.toFinset := by
    apply Finset.inter_eq_right.mpr
    intro o member
    exact Finset.mem_range.mpr (known o (List.mem_toFinset.mp member))
  have listed : (os.map fun o => t.amount V o * s o).sum =
      ∑ v ∈ Finset.range size, if v ∈ os.toFinset then t.amount V v * s v else 0 := by
    rw [Finset.sum_ite_mem, inside, List.sum_toFinset _ nodup]
  rw [listed, total, total, ← Finset.sum_add_distrib]
  apply Finset.sum_congr rfl
  intro v _
  by_cases member : v ∈ os <;> simp [without, member]

theorem without_without (os os' : List ValueId) (s : ValueId → ℚ) :
    without os (without os' s) = without (os' ++ os) s := by
  funext v
  by_cases first : v ∈ os <;> by_cases second : v ∈ os' <;> simp [without, first, second]

end Table

/-- Values of the region that are not of full precision have no tangent. -/
def Tame (region full : ValueId → Prop) (V : ValueId → ℚ[ε]) : Prop :=
  ∀ v, region v → ¬full v → (V v).snd = 0

namespace Build

variable {t : Table ValueId} {keys full : ValueId → Prop} {g h : Arena}

theorem yields_accumulate (holds : t.Holds keys full g) {v c : ValueId} (key : keys v)
    (number : g.Number (full v) c) :
    Yields .client g (accumulate t v c) fun t' h => t'.Holds keys full h ∧
      ∀ V : ValueId → ℚ[ε], h.Models V → ∀ u, t'.amount V u =
        t.amount V u + if v = u then (V c).fst else 0 := by
  unfold accumulate
  cases found : t.get? v with
  | none =>
    apply yields_pure
    refine ⟨holds.insert key number, ?_⟩
    intro V _ u
    rw [Table.amount_insert]
    split
    · next same =>
      subst same
      simp [Table.amount, found]
    · simp
  | some existing =>
    refine yields_bind _ (yields_binary (p := .add) rfl rfl (holds.number found)
      (number.loosen False.elim)) ?_
    rintro sum h growth ⟨number', means⟩
    apply yields_pure
    refine ⟨(holds.grown growth.toExtends).insert key number', ?_⟩
    intro V models u
    rw [Table.amount_insert]
    split
    · next same =>
      subst same
      simp [Table.amount, found, means V models, Primitive.interpret]
    · simp

theorem yields_accumulateAll {pairs : List (ValueId × ValueId)} (holds : t.Holds keys full g)
    (good : ∀ pair ∈ pairs, keys pair.1 ∧ g.Number (full pair.1) pair.2) :
    Yields .client g (accumulateAll t pairs) fun t' h => t'.Holds keys full h ∧
      ∀ V : ValueId → ℚ[ε], h.Models V → ∀ size, (∀ v : Nat, keys v → v < size) → ∀ s,
        t'.total V size s =
          t.total V size s + (pairs.map fun pair => (V pair.2).fst * s pair.1).sum := by
  unfold accumulateAll
  induction pairs generalizing t g with
  | nil =>
    apply yields_pure
    exact ⟨holds, fun V _ _ _ s => by simp⟩
  | cons pair pairs ih =>
    obtain ⟨key, number⟩ := good pair (by simp)
    rw [List.foldlM_cons]
    refine yields_bind _ (yields_accumulate holds key number) ?_
    rintro t₁ h growth ⟨holds₁, added⟩
    have good' : ∀ pair ∈ pairs, keys pair.1 ∧ h.Number (full pair.1) pair.2 := by
      intro other member
      obtain ⟨key', number'⟩ := good other (by simp [member])
      exact ⟨key', number'.grown growth.toExtends⟩
    refine (ih holds₁ good').weaken ?_
    rintro t₂ k growth' ⟨holds₂, rest⟩
    refine ⟨holds₂, ?_⟩
    intro V models size known s
    have step : t₁.total V size s = t.total V size s + (V pair.2).fst * s pair.1 := by
      have inside := known pair.1 key
      simp only [Table.total, added V (models.of_extends growth'.toExtends), add_mul,
        Finset.sum_add_distrib, ite_mul, zero_mul]
      rw [Finset.sum_ite_eq]
      simp [inside]
    rw [rest V models size known s, step, List.map_cons, List.sum_cons, add_assoc]

theorem yields_gradientOf (holds : t.Holds keys full g) {v : ValueId} (number : g.Number (full v) v) :
    Yields .client g (gradientOf t v) fun w h => h.Number (full v) w ∧
      (full v → ∀ V : ValueId → ℚ[ε], h.Models V → (V w).fst = t.amount V v) := by
  unfold gradientOf
  cases found : t.get? v with
  | some w =>
    apply yields_pure
    exact ⟨holds.number found, fun _ V _ => by simp [Table.amount, found]⟩
  | none =>
    refine (yields_constantLike number 0.0).weaken ?_
    rintro w h _ ⟨number', means⟩
    refine ⟨number', fun holds V models => ?_⟩
    rw [means holds V models, Real.rational_zero]
    simp [Table.amount, found]

/-- The gradients that a node hands to its operands do together what those of its outputs do. -/
def Propagates (ofCall : CallGradient) (region full : ValueId → Prop) (g : Arena)
    (node : Node Composite) : Prop :=
  ∀ h arriving, Growth .client g h →
    List.Forall₂ (fun o w => h.Number (full o) w) node.outputs arriving →
    Yields .client h (node.op.gradientWith ofCall node.inputs node.outputs arriving) fun gradients k =>
      List.Forall₂ (fun v c => k.Number (full v) c) node.inputs gradients ∧
        ∀ V : ValueId → ℚ[ε], k.Models V → Tame region full V →
          pairing V gradients node.inputs = pairing V arriving node.outputs

variable {ofCall : CallGradient} {region : ValueId → Prop}

theorem pairing_arriving {V : ValueId → ℚ[ε]} (tame : Tame region full V) {os arriving : List ValueId}
    (inside : ∀ o ∈ os, region o ∨ full o)
    (given : List.Forall₂ (fun o w => full o → (V w).fst = t.amount V o) os arriving) :
    pairing V arriving os = (os.map fun o => t.amount V o * (V o).snd).sum := by
  induction given with
  | nil => rfl
  | @cons o w os arriving first rest ih =>
    rw [pairing_cons, List.map_cons, List.sum_cons, ih fun o member => inside o (by simp [member])]
    congr 1
    by_cases fully : full o
    · rw [first fully]
    · rw [tame o ((inside o (by simp)).resolve_right fully) fully, mul_zero, mul_zero]

theorem sum_zip {V : ValueId → ℚ[ε]} {s : ValueId → ℚ} (vs cs : List ValueId)
    (weights : ∀ v ∈ vs, s v = (V v).snd) :
    ((vs.zip cs).map fun pair => (V pair.2).fst * s pair.1).sum = pairing V cs vs := by
  induction vs generalizing cs with
  | nil => simp [pairing]
  | cons v vs ih =>
    cases cs with
    | nil => simp
    | cons c cs =>
      rw [List.zip_cons_cons, List.map_cons, List.sum_cons, pairing_cons,
        ih cs fun v member => weights v (by simp [member]), weights v (by simp)]

theorem yields_backNode (ordered : g.Ordered) (growth : Growth .client g h) {n : NodeId}
    {node : Node Composite} (here : g.nodes[n]? = some node)
    (rule : Propagates ofCall region full g node)
    (outputs : ∀ o ∈ node.outputs, (region o ∨ full o) ∧ g.Number (full o) o)
    (inputs : ∀ v ∈ node.inputs, keys v) (known : ∀ v : Nat, keys v → v < g.values.size)
    (holds : t.Holds keys full h) :
    Yields .client h (backNode ofCall t n) fun t' k => t'.Holds keys full k ∧
      ∀ V : ValueId → ℚ[ε], k.Models V → Tame region full V → ∀ s : ValueId → ℚ,
        (∀ v, v ∈ node.inputs ∨ v ∈ node.outputs → s v = (V v).snd) →
        t'.total V g.values.size (Table.without node.outputs s) = t.total V g.values.size s := by
  have nodup := ordered.nodup_outputs here
  have split := fun (V : ValueId → ℚ[ε]) s => t.total_without V s nodup (ordered.knows_outputs here)
  refine yields_look_bind (exec_get h) ?_
  rw [growth.toExtends.node here]
  simp only
  split
  · next reached =>
    have each : ∀ o ∈ node.outputs, ∀ k, Growth .client h k → Yields .client k (gradientOf t o)
        fun w k => k.Number (full o) w ∧
          (full o → ∀ V : ValueId → ℚ[ε], k.Models V → (V w).fst = t.amount V o) := by
      intro o member k growth'
      exact yields_gradientOf (holds.grown growth'.toExtends)
        ((outputs o member).2.grown (growth.trans growth').toExtends)
    refine yields_bind _ (yields_mapM node.outputs ?_ each) ?_
    · rintro o w k k' ⟨number, means⟩ growth'
      exact ⟨number.grown growth'.toExtends,
        fun fully V models => means fully V (models.of_extends growth'.toExtends)⟩
    · intro arriving h₁ growth₁ given
      refine yields_bind _ (rule h₁ arriving (growth.trans growth₁)
        (given.imp fun o w good => good.1)) ?_
      rintro gradients h₂ growth₂ ⟨numbers, paired⟩
      have good : ∀ pair ∈ node.inputs.zip gradients,
          keys pair.1 ∧ h₂.Number (full pair.1) pair.2 := by
        rintro ⟨v, c⟩ member
        exact ⟨inputs v (List.of_mem_zip member).1, List.forall₂_zip numbers member⟩
      refine (yields_accumulateAll (holds.grown (growth₁.trans growth₂).toExtends) good).weaken ?_
      rintro t' k growth₃ ⟨holds', added⟩
      refine ⟨holds', ?_⟩
      intro V models tame s weights
      have models₂ := models.of_extends growth₃.toExtends
      have models₁ := models₂.of_extends growth₂.toExtends
      -- the operands keep their weights, since no node reads its own outputs
      have kept : ∀ v ∈ node.inputs, Table.without node.outputs s v = (V v).snd := by
        intro v member
        have apart : v ∉ node.outputs := by
          intro output
          exact Nat.lt_irrefl n (ordered.layered here here v output member)
        rw [Table.without, if_neg apart, weights v (.inl member)]
      have arrived : (node.outputs.map fun o => t.amount V o * s o).sum =
          pairing V arriving node.outputs := by
        rw [pairing_arriving tame (fun o member => (outputs o member).1)
          (given.imp fun o w good fully => good.2 fully V models₁)]
        congr 1
        apply List.map_congr_left
        intro o member
        rw [weights o (.inr member)]
      -- what arrives at the outputs leaves for the operands: the rule pairs the two
      rw [added V models _ known, sum_zip _ _ kept, paired V models₂ tame, ← arrived, split]
  · next silent =>
    apply yields_pure
    refine ⟨holds, ?_⟩
    intro V _ _ s _
    -- nothing has arrived, so the outputs count for nothing
    have nothing : (node.outputs.map fun o => t.amount V o * s o).sum = 0 := by
      apply List.sum_eq_zero
      intro x member
      obtain ⟨o, output, rfl⟩ := List.mem_map.mp member
      have unset : t.get? o = none := by
        simp only [List.any_eq_true, Table.contains, not_exists, not_and] at silent
        simpa using silent o output
      simp [Table.amount, unset]
    rw [← split V s, nothing, add_zero]

/-- What a node of a sweep has to satisfy. -/
structure Sweeps (ofCall : CallGradient) (region keys full : ValueId → Prop) (g : Arena)
    (node : Node Composite) : Prop where
  rule : Propagates ofCall region full g node
  outputs : ∀ o ∈ node.outputs, (region o ∨ full o) ∧ g.Number (full o) o
  inputs : ∀ v ∈ node.inputs, keys v

/-- Consumers before producers: what all values count for stays, and in the end the outputs of the
    nodes count for nothing. -/
theorem yields_backNodes (ordered : g.Ordered) (growth : Growth .client g h) {ns : List NodeId}
    (descending : ns.Pairwise (· > ·))
    (sweeps : ∀ n ∈ ns, ∃ node, g.nodes[n]? = some node ∧ Sweeps ofCall region keys full g node)
    (known : ∀ v : Nat, keys v → v < g.values.size) (holds : t.Holds keys full h) :
    Yields .client h (ns.foldlM (backNode ofCall) t) fun t' k => t'.Holds keys full k ∧
      ∀ V : ValueId → ℚ[ε], k.Models V → Tame region full V → ∀ s : ValueId → ℚ,
        (∀ n ∈ ns, ∀ node, g.nodes[n]? = some node →
          ∀ v, v ∈ node.inputs ∨ v ∈ node.outputs → s v = (V v).snd) →
        t'.total V g.values.size (Table.without (ns.flatMap g.outputsAt) s) =
          t.total V g.values.size s := by
  induction ns generalizing t h with
  | nil =>
    apply yields_pure
    exact ⟨holds, fun V _ _ s _ => by simp⟩
  | cons n ns ih =>
    obtain ⟨later, descending'⟩ := List.pairwise_cons.mp descending
    obtain ⟨node, here, sweep⟩ := sweeps n (by simp)
    rw [List.foldlM_cons]
    refine yields_bind _ (yields_backNode ordered growth here sweep.rule sweep.outputs sweep.inputs
      known holds) ?_
    intro t₁ h₁ growth₁ first
    refine (ih (growth.trans growth₁) descending'
      (fun m member => sweeps m (List.mem_cons_of_mem n member)) first.1).weaken ?_
    intro t₂ h₂ growth₂ rest
    refine ⟨rest.1, ?_⟩
    intro V models tame s weights
    have step := first.2 V (models.of_extends growth₂.toExtends) tame s
      (weights n (by simp) node here)
    -- the nodes to come neither use nor produce the outputs of this one
    have weights' : ∀ m ∈ ns, ∀ user, g.nodes[m]? = some user →
        ∀ v, v ∈ user.inputs ∨ v ∈ user.outputs →
          Table.without node.outputs s v = (V v).snd := by
      intro m member user there v used
      have apart : v ∉ node.outputs := by
        intro output
        have below := later m member
        rcases used with input | output'
        · exact Nat.lt_asymm below (ordered.layered here there v output input)
        · exact Nat.ne_of_gt below (ordered.producer_unique here there output output')
      rw [Table.without, if_neg apart, weights m (List.mem_cons_of_mem n member) user there v used]
    have last := rest.2 V models tame _ weights'
    rw [Table.without_without] at last
    rw [List.flatMap_cons, Graph.outputsAt_of_node here, last, step]

/-- The part of an arena that a sweep back to the boundary can get to. -/
structure Region (ofCall : CallGradient) (g : Arena) (boundary : List ValueId)
    (region full : ValueId → Prop) : Prop where
  number : ∀ v, region v → g.Number (full v) v
  rule : ∀ {n : NodeId} {node : Node Composite}, g.nodes[n]? = some node →
    ∀ o ∈ node.outputs, region o → o ∉ boundary → Propagates ofCall region full g node
  inputs : ∀ {n : NodeId} {node : Node Composite}, g.nodes[n]? = some node →
    ∀ o ∈ node.outputs, region o → o ∉ boundary → ∀ v ∈ node.inputs, region v
  outputs : ∀ {n : NodeId} {node : Node Composite}, g.nodes[n]? = some node →
    ∀ o ∈ node.outputs, region o → o ∉ boundary → ∀ o' ∈ node.outputs,
      (region o' ∨ full o') ∧ g.Number (full o') o' ∧ o' ∉ boundary

theorem Region.grown {boundary : List ValueId} (r : Region ofCall g boundary region full)
    (ordered : g.Ordered) (growth : Growth .client g h) : Region ofCall h boundary region full := by
  have grown := growth.toExtends
  have old : ∀ {n : NodeId} {node : Node Composite}, h.nodes[n]? = some node →
      ∀ o ∈ node.outputs, region o → g.nodes[n]? = some node := by
    intro n node here o output inside
    exact grown.node_of_output ordered (growth.ordered ordered) here output (r.number o inside).known
  constructor
  · intro v inside
    exact (r.number v inside).grown grown
  · intro n node here o output inside beyond k arriving growth' numbers
    exact r.rule (old here o output inside) o output inside beyond k arriving
      (growth.trans growth') numbers
  · intro n node here o output inside
    exact r.inputs (old here o output inside) o output inside
  · intro n node here o output inside beyond o' output'
    obtain ⟨among, number, beyond'⟩ :=
      r.outputs (old here o output inside) o output inside beyond o' output'
    exact ⟨among, number.grown grown, beyond'⟩

theorem Region.reached {boundary values : List ValueId} (r : Region ofCall g boundary region full)
    (ordered : g.Ordered) (start : ∀ v ∈ values, region v) {v : Nat}
    (reached : g.Reached values (g.ancestors values boundary) v) : region v :=
  ordered.reached_within start r.inputs reached

theorem Region.sweeps {boundary values : List ValueId} (r : Region ofCall g boundary region full)
    (ordered : g.Ordered) (start : ∀ v ∈ values, region v) {n : NodeId}
    (member : n ∈ g.ancestors values boundary) : ∃ node, g.nodes[n]? = some node ∧
      (∀ o ∈ node.outputs, o ∉ boundary) ∧ Sweeps ofCall region
        (fun v => region v ∧ g.Reached values (g.ancestors values boundary) v) full g node := by
  obtain ⟨node, o, here, output, beyond, reached⟩ :=
    (Graph.mem_ancestors ordered values boundary).mp member
  have inside := r.reached ordered start reached
  have outputs := r.outputs here o output inside beyond
  refine ⟨node, here, fun o' member' => (outputs o' member').2.2, ?_, ?_, ?_⟩
  · exact r.rule here o output inside beyond
  · intro o' member'
    exact ⟨(outputs o' member').1, (outputs o' member').2.1⟩
  · intro v input
    exact ⟨r.inputs here o output inside beyond v input, .inr ⟨n, member, node, here, input⟩⟩

theorem limit_of_reached {boundary values : List ValueId} {v : ValueId} (ordered : g.Ordered)
    (reached : g.Reached values (g.ancestors values boundary) v)
    (passed : v ∉ (g.ancestors values boundary).reverse.flatMap g.outputsAt) :
    v ∈ boundary ∨ g.Leaf v := by
  by_contra neither
  simp only [not_or, Graph.Leaf, not_forall, not_not] at neither
  obtain ⟨beyond, n, node, here, output⟩ := neither
  have met := (Graph.mem_ancestors ordered values boundary).mpr
    ⟨node, v, here, output, beyond, reached⟩
  refine passed (List.mem_flatMap.mpr ⟨n, List.mem_reverse.mpr met, ?_⟩)
  rw [Graph.outputsAt_of_node here]
  exact output

theorem Region.total_ends {boundary values : List ValueId} (r : Region ofCall g boundary region full)
    (ordered : g.Ordered) (start : ∀ v ∈ values, region v) {k : Arena}
    (holds : t.Holds (fun v => region v ∧ g.Reached values (g.ancestors values boundary) v) full k)
    {V : ValueId → ℚ[ε]} {ends : List ValueId} (nodup : ends.Nodup)
    (limits : ∀ e : Nat, e ∈ ends → e < g.values.size ∧ (e ∈ boundary ∨ g.Leaf e))
    (flat : ∀ v, region v → v ∈ boundary ∨ g.Leaf v → v ∉ ends → (V v).snd = 0) :
    t.total V g.values.size (Table.without
        ((g.ancestors values boundary).reverse.flatMap g.outputsAt) fun v => (V v).snd) =
      (ends.map fun e => t.amount V e * (V e).snd).sum := by
  have swept : ∀ v, v ∈ (g.ancestors values boundary).reverse.flatMap g.outputsAt →
      v ∉ boundary ∧ ¬g.Leaf v := by
    intro v member
    obtain ⟨n, inside, output⟩ := List.mem_flatMap.mp member
    obtain ⟨node, here, beyond, -⟩ := r.sweeps ordered start (List.mem_reverse.mp inside)
    rw [Graph.outputsAt_of_node here] at output
    exact ⟨beyond v output, fun leaf => leaf n node here output⟩
  rw [← t.total_without V _ nodup fun e member => (limits e member).1]
  -- all others either have been passed on or have no tangent
  have others : t.total V g.values.size (Table.without ends (Table.without
      ((g.ancestors values boundary).reverse.flatMap g.outputsAt) fun v => (V v).snd)) = 0 := by
    apply Finset.sum_eq_zero
    intro v _
    by_cases listed : v ∈ ends
    · simp [Table.without, listed]
    by_cases passed : v ∈ (g.ancestors values boundary).reverse.flatMap g.outputsAt
    · rw [Table.without, if_neg listed, Table.without, if_pos passed, mul_zero]
    cases found : t.get? v with
    | none => simp [Table.amount, found]
    | some w =>
      obtain ⟨inside, reached⟩ := holds.key found
      have limit := limit_of_reached ordered reached passed
      rw [Table.without, if_neg listed, Table.without, if_neg passed, flat v inside limit listed,
        mul_zero]
  rw [others, zero_add]
  congr 1
  apply List.map_congr_left
  intro e member
  have passed : e ∉ (g.ancestors values boundary).reverse.flatMap g.outputsAt := by
    intro passed
    rcases (limits e member).2 with bound | leaf
    · exact (swept e passed).1 bound
    · exact (swept e passed).2 leaf
  rw [Table.without, if_neg passed]

/-- A sweep finds the gradients of the targets. Where all tangents of the boundary and the leaves
    are at `ends`, the gradients there do together what the seeds do. -/
theorem yields_backpropagate (ordered : g.Ordered) {seeds : List (ValueId × ValueId)}
    {targets boundary : List ValueId} (r : Region ofCall g boundary region full)
    (start : ∀ pair ∈ seeds, region pair.1 ∧ g.Number (full pair.1) pair.2)
    (numbers : ∀ v ∈ targets, g.Number (full v) v) :
    Yields .client g (backpropagate ofCall seeds targets boundary) fun results k =>
      ∃ t : Table ValueId,
        List.Forall₂ (fun v w => k.Number (full v) w ∧
          (full v → ∀ V : ValueId → ℚ[ε], k.Models V → (V w).fst = t.amount V v)) targets results ∧
        ∀ V : ValueId → ℚ[ε], k.Models V → Tame region full V → ∀ ends : List ValueId, ends.Nodup →
          (∀ e : Nat, e ∈ ends → e < g.values.size ∧ (e ∈ boundary ∨ g.Leaf e)) →
          (∀ v, region v → v ∈ boundary ∨ g.Leaf v → v ∉ ends → (V v).snd = 0) →
          (ends.map fun e => t.amount V e * (V e).snd).sum =
            (seeds.map fun pair => (V pair.2).fst * (V pair.1).snd).sum := by
  have start' : ∀ pair ∈ seeds, (region pair.1 ∧ pair.1 ∈ seeds.map Prod.fst) ∧
      g.Number (full pair.1) pair.2 := by
    intro pair member
    obtain ⟨inside, number⟩ := start pair member
    exact ⟨⟨inside, List.mem_map_of_mem member⟩, number⟩
  have seeded : ∀ v ∈ seeds.map Prod.fst, region v := by
    intro v member
    obtain ⟨pair, inside, rfl⟩ := List.mem_map.mp member
    exact (start pair inside).1
  have holds₀ : Table.empty.Holds (fun v => region v ∧ v ∈ seeds.map Prod.fst) full g :=
    Table.holds_empty
  refine yields_bind _ (yields_accumulateAll holds₀ start') ?_
  rintro t₁ g₁ growth₁ ⟨holds₁, added⟩
  have ordered₁ := growth₁.ordered ordered
  have r₁ := r.grown ordered growth₁
  refine yields_look_bind (exec_get g₁) ?_
  have known : ∀ v : Nat, (region v ∧ g₁.Reached (seeds.map Prod.fst)
      (g₁.ancestors (seeds.map Prod.fst) boundary) v) → v < g₁.values.size :=
    fun v key => (r₁.number v key.1).known
  have sweeps : ∀ n ∈ (g₁.ancestors (seeds.map Prod.fst) boundary).reverse,
      ∃ node, g₁.nodes[n]? = some node ∧ Sweeps ofCall region (fun v => region v ∧
        g₁.Reached (seeds.map Prod.fst) (g₁.ancestors (seeds.map Prod.fst) boundary) v) full g₁ node := by
    intro n member
    obtain ⟨node, here, -, sweep⟩ := r₁.sweeps ordered₁ seeded (List.mem_reverse.mp member)
    exact ⟨node, here, sweep⟩
  refine yields_bind _ (yields_backNodes ordered₁ .refl
    (List.pairwise_reverse.mpr (Graph.ancestors_ascending g₁ _ _)) sweeps known
    (holds₁.imp fun v key => ⟨key.1, .inl key.2⟩)) ?_
  rintro t₂ g₂ growth₂ ⟨holds₂, kept⟩
  refine (yields_mapM targets ?_ fun v member k growth =>
    yields_gradientOf (holds₂.grown growth.toExtends)
      ((numbers v member).grown ((growth₁.trans growth₂).trans growth).toExtends)).weaken ?_
  · rintro v w h k ⟨number, means⟩ growth
    exact ⟨number.grown growth.toExtends,
      fun fully V models => means fully V (models.of_extends growth.toExtends)⟩
  intro results g₃ growth₃ given
  refine ⟨t₂, given, ?_⟩
  intro V models tame ends nodup limits flat
  have models₂ := models.of_extends growth₃.toExtends
  have models₁ := models₂.of_extends growth₂.toExtends
  -- nothing that is appended on the way computes an old value, so leaves stay leaves
  have old : ∀ v : Nat, v < g.values.size → (g.Leaf v ↔ g₁.Leaf v) := by
    intro v inside
    constructor
    · intro leaf n node here output
      exact leaf n node (growth₁.toExtends.node_of_output ordered ordered₁ here output inside) output
    · intro leaf n node here
      exact leaf n node (growth₁.toExtends.node here)
  have limits₁ : ∀ e : Nat, e ∈ ends → e < g₁.values.size ∧ (e ∈ boundary ∨ g₁.Leaf e) := by
    intro e member
    obtain ⟨inside, limit⟩ := limits e member
    rw [old e inside] at limit
    exact ⟨Nat.lt_of_lt_of_le inside growth₁.toExtends.size_le, limit⟩
  have flat₁ : ∀ v, region v → v ∈ boundary ∨ g₁.Leaf v → v ∉ ends → (V v).snd = 0 := by
    intro v inside limit
    rw [← old v (r.number v inside).known] at limit
    exact flat v inside limit
  -- read from right to left: the seeds, all values before the sweep, all values after it, the ends
  rw [← r₁.total_ends ordered₁ seeded holds₂ nodup limits₁ flat₁,
    kept V models₂ tame _ fun _ _ _ _ _ _ => rfl,
    added V models₁ _ (fun v key => (r₁.number v key.1).known), Table.total_empty, zero_add]

end Build

end ScalarFusion

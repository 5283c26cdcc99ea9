import ScalarFusion.Proofs.Continuity
import ScalarFusion.Proofs.Termination

/-!
Gradients of calls by recursion. The gradients of a call are those of its body, swept back to the
arguments; the sweep meets copies of the nodes of the body and nothing else, so it asks for
gradients of less deep calls only. The recursion ends, and at any level above the depth it ends in
the same result. Together with the rules, which never fail, it gives continuous gradients for
everything.
-/
namespace ScalarFusion

namespace Build

variable {α β : Type} {g h : Arena}

theorem exec_bind_congr {b : Build α} {f f' : α → Build β}
    (same : ∀ a h, b.exec g = (.ok a, h) → (f a).exec h = (f' a).exec h) :
    (b >>= f).exec g = (b >>= f').exec g := by
  rw [exec_bind, exec_bind]
  rcases run : b.exec g with ⟨outcome, h⟩
  cases outcome with
  | error e => rfl
  | ok a => exact same a h run

theorem exec_bind_congr_left {b b' : Build α} (same : b.exec g = b'.exec g) (f : α → Build β) :
    (b >>= f).exec g = (b' >>= f).exec g := by
  rw [exec_bind, exec_bind, same]

end Build

namespace CallGradient

structure Asks (P : Composite → Prop) (c : Composite) (args arriving : List ValueId) (g : Arena) :
    Prop where
  built : g.Built
  wellBuilt : c.WellBuilt
  good : P c
  args : g.Knows args
  arriving : g.Knows arriving

theorem Asks.imp {P Q : Composite → Prop} {c : Composite} {args arriving : List ValueId} {g : Arena}
    (asks : Asks P c args arriving g) (good : Q c) : Asks Q c args arriving g :=
  ⟨asks.built, asks.wellBuilt, good, asks.args, asks.arriving⟩

def Agrees (σ τ : CallGradient)
    (asked : Composite → List ValueId → List ValueId → Arena → Prop) : Prop :=
  ∀ ⦃c : Composite⦄ ⦃args arriving : List ValueId⦄ ⦃g : Arena⦄, asked c args arriving g →
    (τ c args arriving).exec g = (σ c args arriving).exec g

end CallGradient

open CallGradient (Asks)

namespace Build

variable {g : Arena} {σ τ : CallGradient} {P : Composite → Prop} {t : Table ValueId}

theorem exec_gradientWith_congr (agrees : σ.Agrees τ (Asks P)) (built : g.Built) {op : Op Composite}
    (calls : ∀ c, op = .call c → c.WellBuilt ∧ P c) {inputs arriving : List ValueId}
    (operands : g.Knows inputs) (outputs : List ValueId) (known : g.Knows arriving) :
    (op.gradientWith τ inputs outputs arriving).exec g =
      (op.gradientWith σ inputs outputs arriving).exec g := by
  unfold Op.gradientWith
  rw [exec_bind_of_ok (exec_get g), exec_bind_of_ok (exec_get g)]
  split
  · rfl
  · cases op with
    | prim p => rfl
    | call c =>
      obtain ⟨good, holds⟩ := calls c rfl
      exact exec_bind_congr_left (agrees ⟨built, good, holds, operands, known⟩) _

theorem exec_backNode_congr (agrees : σ.Agrees τ (Asks P)) (built : g.Built) (copied : Copied t g)
    {n : NodeId} {node : Node Composite} (here : g.nodes[n]? = some node)
    (calls : ∀ c, node.op = .call c → P c) :
    (backNode τ t n).exec g = (backNode σ t n).exec g := by
  unfold backNode
  rw [exec_bind_of_ok (exec_get g), exec_bind_of_ok (exec_get g)]
  simp only [here]
  split
  · apply exec_bind_congr
    intro arriving h run
    obtain ⟨growth, known⟩ := (givesAll_gradientsOf copied node.outputs).of_ok run
    apply exec_bind_congr_left
    refine exec_gradientWith_congr agrees (built.grown growth) ?_ ?_ _ known
    · exact fun c called => ⟨built.calls here called, calls c called⟩
    · exact growth.toExtends.knows (built.ordered.known here)
  · rfl

theorem exec_backNodes_congr (safe : σ.Safe) (agrees : σ.Agrees τ (Asks P)) (built : g.Built)
    (copied : Copied t g) {nodes : List NodeId}
    (calls : ∀ n ∈ nodes, ∃ node, g.nodes[n]? = some node ∧ ∀ c, node.op = .call c → P c) :
    (nodes.foldlM (backNode τ) t).exec g = (nodes.foldlM (backNode σ) t).exec g := by
  induction nodes generalizing t g with
  | nil => rfl
  | cons n nodes ih =>
    obtain ⟨node, here, callee⟩ := calls n (by simp)
    rw [List.foldlM_cons, List.foldlM_cons,
      exec_bind_congr_left (exec_backNode_congr agrees built copied here callee)]
    apply exec_bind_congr
    intro t' h run
    obtain ⟨growth, copied'⟩ := (grows_backNode safe built copied n).of_ok run
    refine ih (built.grown growth) copied' ?_
    intro m member
    obtain ⟨node, here, callee⟩ := calls m (by simp [member])
    exact ⟨node, growth.toExtends.node here, callee⟩

theorem exec_backpropagate_congr (safe : σ.Safe) (agrees : σ.Agrees τ (Asks P)) (built : g.Built)
    {seeds : List (ValueId × ValueId)} (known : g.Knows (seeds.map Prod.snd))
    {boundary : List ValueId}
    (calls : ∀ h, Growth .client g h → ∀ n ∈ h.ancestors (seeds.map Prod.fst) boundary,
      ∀ node c, h.nodes[n]? = some node → node.op = .call c → P c) (targets : List ValueId) :
    (backpropagate τ seeds targets boundary).exec g =
      (backpropagate σ seeds targets boundary).exec g := by
  unfold backpropagate
  apply exec_bind_congr
  intro t h run
  obtain ⟨growth, copied⟩ := (grows_accumulateAll (copied_empty g) known).of_ok run
  rw [exec_bind_of_ok (exec_get h), exec_bind_of_ok (exec_get h)]
  refine exec_bind_congr_left (exec_backNodes_congr safe agrees (built.grown growth) copied ?_) _
  intro n member
  have met := List.mem_reverse.mp member
  obtain ⟨node, o, here, -⟩ := (Graph.mem_ancestors (growth.ordered built.ordered) _ _).mp met
  exact ⟨node, here, fun c called => calls h growth n met node c here called⟩

end Build

namespace Paired

variable {s h : Arena} {given : ValueId → ValueId → Prop} {args : List ValueId}

theorem of_output (ordered : h.Ordered) (within : ∀ v w, given v w → w ∈ args) {v o : ValueId}
    (paired : Paired s h given v o) (beyond : o ∉ args) {n : NodeId} {node : Node Composite}
    (here : h.nodes[n]? = some node) (output : o ∈ node.outputs) :
    (∃ (m : NodeId) (ins outs : List ValueId), s.nodes[m]? = some ⟨node.op, ins, outs⟩) ∧
      ∀ w ∈ node.inputs, ∃ u, Paired s h given u w := by
  obtain ⟨k, place⟩ := List.getElem?_of_mem output
  obtain ⟨type, source⟩ := ordered.produced.mpr ⟨node, here, place⟩
  cases paired with
  | given pair => exact absurd (within _ _ pair) beyond
  | constant _ there => simp [source] at there
  | output found there here' here'' types lengths operands =>
    obtain ⟨rfl, rfl, -⟩ : _ ∧ n = _ ∧ _ := by simpa [source] using there
    obtain rfl := Option.some.inj (here.symm.trans here'')
    refine ⟨⟨_, _, _, here'⟩, fun w member => ?_⟩
    obtain ⟨u, -, pair⟩ := exists_image_of_mem
      (List.forall₂_iff_zip.mpr ⟨lengths, fun {u w} pair => operands u w pair⟩).flip member
    exact ⟨u, pair⟩

end Paired

namespace Composite.WellBuiltTo

variable {depth : Nat} {c : Composite} {g h : Arena} {args outs : List ValueId}

/-- What is inlined can be found again in a copy of the body that calls less deep composites. -/
theorem exists_origin (good : c.WellBuiltTo (depth + 1)) (ordered : g.Ordered)
    (known : g.Knows args) (run : (Build.inline c args).exec g = (.ok outs, h)) :
    ∃ (news : List ValueId) (s : Arena), s.Ordered ∧ s.Calls (WellBuiltTo depth) ∧
      ∀ v ∈ outs, ∃ u, Paired s h (SamePlace news args) u v := by
  obtain ⟨s₀, news, -, fresh⟩ := Build.exec_newVariables id (fun _ => none) (args.map g.typeOf)
    { config := g.config }
  rw [List.map_id] at fresh
  have config : g.config = s₀.config := fresh.grown.config.symm
  have start : s₀.Ordered := (fresh.closed [] (Graph.closed_empty g.config)).ordered
  rcases Build.together_inlineWith specialise c config start ordered (paired_fresh known fresh) with
    ⟨_, _, _, _, -, failed⟩ | ⟨middle, outs', s, h', copied, inlined, paired⟩
  · rw [Build.inline, failed] at run
    cases run
  · obtain ⟨⟨rfl⟩, rfl⟩ := Prod.mk.inj (inlined.symm.trans run)
    obtain ⟨growth, ends, -⟩ := (Build.grows_inlineWith (Policy.body_keepsConstants _)
      (specialise_soundTo depth) (Policy.body_callsGood _) good.callees fresh.known).of_ok copied
    have sound := fresh.sound growth ends
    refine ⟨news, s, sound.closed.ordered, sound.calls, fun v member => ?_⟩
    obtain ⟨u, -, pair⟩ := exists_image_of_mem paired.flip member
    exact ⟨u, pair⟩

theorem of_met (good : c.WellBuiltTo (depth + 1)) (built : g.Built) (known : g.Knows args)
    (run : (Build.inline c args).exec g = (.ok outs, h)) {k : Arena} (grown : Growth .client h k)
    {vs : List ValueId} (among : ∀ v ∈ vs, v ∈ outs) {n : NodeId} (met : n ∈ k.ancestors vs args)
    {node : Node Composite} {d : Composite} (here : k.nodes[n]? = some node)
    (called : node.op = .call d) : d.WellBuiltTo depth := by
  obtain ⟨news, s, ordered, calls, origin⟩ := good.exists_origin built.ordered known run
  have inlined := ((Build.givesAll_inline good.1 known).of_ok run).1.ordered built.ordered
  have swept := grown.ordered inlined
  have within : ∀ v w, SamePlace news args v w → w ∈ args := by
    rintro v w ⟨_, -, place⟩
    exact List.mem_of_getElem? place
  have first : ∀ v ∈ vs, ∃ u, Paired s k (SamePlace news args) u v := by
    intro v member
    obtain ⟨u, pair⟩ := origin v (among v member)
    exact ⟨u, pair.grown ordered inlined (.refl s) grown.toExtends⟩
  obtain ⟨node', o, here', output, beyond, reached⟩ := (Graph.mem_ancestors swept vs args).mp met
  obtain rfl := Option.some.inj (here.symm.trans here')
  -- the sweep stays among values that have an origin, up to the arguments
  obtain ⟨u, pair⟩ : ∃ u, Paired s k (SamePlace news args) u o := by
    refine swept.reached_within first ?_ reached
    rintro m node there o output ⟨u, pair⟩ beyond
    exact (pair.of_output swept within beyond there output).2
  obtain ⟨⟨m, ins, outs, there⟩, -⟩ := pair.of_output swept within beyond here output
  exact calls there called

end Composite.WellBuiltTo

def Build.bodyGradient (ofCall : CallGradient) : CallGradient := fun c args arriving => do
  let outputs ← inline c args
  backpropagate ofCall (outputs.zip arriving) args args

/-- The gradients of a call by recursion: the gradients that the sweep asks for are got in the same
    way. -/
inductive Composite.Differentiated : Composite → List ValueId → List ValueId → Arena →
    Except Error (List ValueId) × Arena → Prop where
  | intro {c : Composite} {args arriving : List ValueId} {g : Arena}
      {result : Except Error (List ValueId) × Arena} (σ : CallGradient)
      (asked : Composite → List ValueId → List ValueId → Arena → Prop)
      (answers : ∀ d us ws h, asked d us ws h → Differentiated d us ws h ((σ d us ws).exec h))
      (enough : ∀ τ, σ.Agrees τ asked → (Build.bodyGradient τ c args arriving).exec g = result) :
      Differentiated c args arriving g result

/-- What a run that asks for gradients of calls gives by recursion. -/
def ByDifferentiating {α : Type} (run : CallGradient → Build α) (g : Arena)
    (result : Except Error α × Arena) : Prop :=
  ∃ (σ : CallGradient) (asked : Composite → List ValueId → List ValueId → Arena → Prop),
    (∀ d us ws h, asked d us ws h → d.Differentiated us ws h ((σ d us ws).exec h)) ∧
    ∀ τ, σ.Agrees τ asked → (run τ).exec g = result

theorem CallGradient.exists_common {σ σ' : CallGradient}
    {asked asked' : Composite → List ValueId → List ValueId → Arena → Prop}
    (agree : ∀ d us ws h, asked d us ws h → asked' d us ws h →
      (σ d us ws).exec h = (σ' d us ws).exec h) :
    ∃ τ, σ.Agrees τ asked ∧ σ'.Agrees τ asked' := by
  classical
  let τ : CallGradient := fun d us ws h =>
    if asked d us ws h then (σ d us ws).exec h else (σ' d us ws).exec h
  have opened : ∀ d us ws h, (τ d us ws).exec h =
    if asked d us ws h then (σ d us ws).exec h else (σ' d us ws).exec h := fun _ _ _ _ => rfl
  refine ⟨τ, ?_, ?_⟩
  · intro d us ws h here
    rw [opened, if_pos here]
  · intro d us ws h there
    rw [opened]
    split
    · next here => exact agree d us ws h here there
    · rfl

theorem Composite.Differentiated.unique {c : Composite} {args arriving : List ValueId} {g : Arena}
    {result result' : Except Error (List ValueId) × Arena}
    (left : c.Differentiated args arriving g result)
    (right : c.Differentiated args arriving g result') : result = result' := by
  induction left generalizing result' with
  | intro σ asked answers enough ih =>
    obtain ⟨σ', asked', answers', enough'⟩ := right
    obtain ⟨τ, first, second⟩ := CallGradient.exists_common fun d us ws h here there =>
      ih d us ws h here (answers' d us ws h there)
    exact (enough τ first).symm.trans (enough' τ second)

theorem ByDifferentiating.unique {α : Type} {run : CallGradient → Build α} {g : Arena}
    {result result' : Except Error α × Arena} (left : ByDifferentiating run g result)
    (right : ByDifferentiating run g result') : result = result' := by
  obtain ⟨σ, asked, answers, enough⟩ := left
  obtain ⟨σ', asked', answers', enough'⟩ := right
  obtain ⟨τ, first, second⟩ := CallGradient.exists_common fun d us ws h here there =>
    (answers d us ws h here).unique (answers' d us ws h there)
  exact (enough τ first).symm.trans (enough' τ second)

namespace Build

open Composite (WellBuilt WellBuiltTo)

variable {g : Arena} {σ τ : CallGradient} {c : Composite} {args arriving : List ValueId}

theorem exec_bodyGradient_congr {n : Nat} (safe : σ.Safe)
    (agrees : σ.Agrees τ (Asks (WellBuiltTo n))) (asks : Asks (WellBuiltTo (n + 1)) c args arriving g) :
    (bodyGradient τ c args arriving).exec g = (bodyGradient σ c args arriving).exec g := by
  apply exec_bind_congr
  intro outs h run
  have growth := ((givesAll_inline asks.wellBuilt asks.args).of_ok run).1
  refine exec_backpropagate_congr safe agrees (asks.built.grown growth)
    (knows_zip_snd (growth.toExtends.knows asks.arriving)) ?_ args
  intro k grown m met node d here called
  refine asks.good.of_met asks.built asks.args run grown ?_ met here called
  intro v member
  obtain ⟨pair, inside, rfl⟩ := List.mem_map.mp member
  exact (List.of_mem_zip inside).1

/-- Levels above the depth of a call make no difference. -/
theorem callGradientAt_agrees {n m : Nat} (le : n ≤ m) :
    (callGradientAt n).Agrees (callGradientAt m) (Asks (WellBuiltTo n)) := by
  induction n generalizing m with
  | zero =>
    intro c args arriving g asks
    exact absurd asks.good.2 (Nat.not_le.mpr c.depth_pos)
  | succ n ih =>
    obtain ⟨m, rfl⟩ : ∃ k, m = k + 1 := ⟨m - 1, by omega⟩
    intro c args arriving g asks
    exact exec_bodyGradient_congr (callGradientAt_safe n) (ih (by omega)) asks

theorem exec_bodyGradient (asks : Asks WellBuilt c args arriving g)
    (agrees : callGradient.Agrees τ (Asks fun d => d.depth < c.depth)) :
    (bodyGradient τ c args arriving).exec g = (callGradient c args arriving).exec g := by
  obtain ⟨n, depth⟩ : ∃ n, c.depth = n + 1 := ⟨_, c.depth_eq⟩
  have below : (callGradientAt n).Agrees τ (Asks (WellBuiltTo n)) := by
    intro d us ws h asked
    have shallow := asked.good.2
    have least : Asks (WellBuiltTo d.depth) d us ws h := asked.imp ⟨asked.wellBuilt, Nat.le_refl _⟩
    calc (τ d us ws).exec h
      _ = (callGradientAt d.depth d us ws).exec h := agrees (asked.imp (by omega))
      _ = (callGradientAt n d us ws).exec h := (callGradientAt_agrees shallow least).symm
  rw [callGradient, depth]
  exact exec_bodyGradient_congr (callGradientAt_safe n) below
    (asks.imp ⟨asks.wellBuilt, Nat.le_of_eq depth⟩)

theorem differentiated (asks : Asks WellBuilt c args arriving g) :
    c.Differentiated args arriving g ((callGradient c args arriving).exec g) := by
  induction depth : c.depth using Nat.strong_induction_on generalizing c args arriving g with
  | _ n ih =>
    refine .intro callGradient (Asks fun d => d.depth < c.depth) ?_ fun τ => exec_bodyGradient asks
    intro d us ws h asked
    exact ih d.depth (depth ▸ asked.good) (asked.imp asked.wellBuilt) rfl

def gradientBy (ofCall : CallGradient) (cost : ValueId) (targets : List ValueId) :
    Build (List ValueId) := do
  let seed ← constantLike cost 1.0
  backpropagate ofCall [(cost, seed)] targets []

theorem exec_gradientBy (agrees : callGradient.Agrees τ (Asks WellBuilt)) (built : g.Built)
    (cost : ValueId) (targets : List ValueId) :
    (gradientBy τ cost targets).exec g = (gradient cost targets).exec g := by
  apply exec_bind_congr
  intro seed h run
  obtain ⟨growth, known⟩ := (gives_constantLike cost 1.0).of_ok run
  refine exec_backpropagate_congr callGradient_safe agrees (built.grown growth)
    (by simpa using known) ?_ targets
  intro k growth' n _ node c here called
  exact ((built.grown growth).grown growth').calls here called

theorem exec_gradient (agrees : callGradient.Agrees τ (Asks WellBuilt)) (built : g.Built)
    {n : NodeId} {node : Node Composite} (here : g.nodes[n]? = some node) (known : g.Knows arriving) :
    (node.op.gradientWith τ node.inputs node.outputs arriving).exec g =
      (node.op.gradient node.inputs node.outputs arriving).exec g := by
  refine exec_gradientWith_congr agrees built ?_ (built.ordered.known here) node.outputs known
  exact fun c called => ⟨built.calls here called, built.calls here called⟩

end Build

/-- A run that is right with all gradients of calls that are the usual ones has them by
    recursion, and nothing else. -/
theorem byDifferentiating_iff {α : Type} {run : CallGradient → Build α} {g : Arena}
    (right : ∀ τ, Build.callGradient.Agrees τ (Asks Composite.WellBuilt) →
      (run τ).exec g = (run Build.callGradient).exec g) (result : Except Error α × Arena) :
    ByDifferentiating run g result ↔ result = (run Build.callGradient).exec g := by
  have here : ByDifferentiating run g ((run Build.callGradient).exec g) :=
    ⟨Build.callGradient, _, fun _ _ _ _ asked => Build.differentiated asked, right⟩
  constructor
  · exact fun there => there.unique here
  · rintro rfl
    exact here

/-- Gradients can always be built. In a reachable graph with calls of composites for the types of
    their operands, the gradients of any value by any values exist: the recursion through calls
    ends, it ends in what `gradient` gives, and there is one floating or complex value for each
    target. So do the gradients of the operands of any node, for floating or complex gradients of
    its outputs. -/
theorem differentiation_never_fails {g : Arena} (reachable : Reachable g) (bound : g.Bound) :
    (∀ cost targets, ∃ gradients h,
      (Build.gradient cost targets).exec g = (.ok gradients, h) ∧
      (∀ result, ByDifferentiating (fun σ => Build.gradientBy σ cost targets) g result ↔
        result = (.ok gradients, h)) ∧
      gradients.length = targets.length ∧ ∀ v ∈ gradients, h.Continuous v) ∧
    ∀ (n : NodeId) node arriving, g.nodes[n]? = some node → arriving.length = node.outputs.length →
      (∀ v ∈ arriving, g.Continuous v) → ∃ gradients h,
        (node.op.gradient node.inputs node.outputs arriving).exec g = (.ok gradients, h) ∧
        (∀ result, ByDifferentiating (fun σ =>
          node.op.gradientWith σ node.inputs node.outputs arriving) g result ↔
            result = (.ok gradients, h)) ∧
        gradients.length = node.inputs.length ∧ ∀ v ∈ gradients, h.Continuous v := by
  have sound : g.Sound := ⟨reachable.built, bound⟩
  constructor
  · intro cost targets
    obtain ⟨gradients, h, run, -, exact⟩ := Build.yields_gradient_continuous sound cost targets
    refine ⟨gradients, h, run, ?_, exact⟩
    rw [← run]
    exact byDifferentiating_iff fun τ agrees =>
      Build.exec_gradientBy agrees sound.built cost targets
  · intro n node arriving here length continuous
    obtain ⟨gradients, h, run, -, exact⟩ :=
      Build.yields_operands Build.callGradient_total sound here ⟨length, continuous⟩
    refine ⟨gradients, h, run, ?_, exact⟩
    rw [← run]
    exact byDifferentiating_iff fun τ agrees => Build.exec_gradient agrees sound.built here
      fun v member => (continuous v member).known

theorem nested_bound : (Graph.nested (.float .half)).Bound := by
  intro n node c found called
  have inside : n < 2 := (Array.getElem?_eq_some_iff.mp found).1
  obtain rfl | rfl := Nat.le_one_iff_eq_zero_or_eq_one.mp (Nat.le_of_lt_succ inside)
  · obtain rfl := Option.some.inj found
    obtain rfl := Op.call.inj called
    rfl
  · obtain rfl := Option.some.inj found
    cases called

theorem nested_gradients : Reachable (.nested (.float .half)) ∧
    (Graph.nested (.float .half)).Bound ∧
    (∃ gradients h, (Build.gradient 2 [0, 1]).exec (.nested (.float .half)) = (.ok gradients, h) ∧
      gradients.length = 2 ∧ ∀ v ∈ gradients, h.Continuous v) ∧
    ∃ gradients h, ((Op.call (.negation (.float .half))).gradient [0] [1] [2]).exec
      (.nested (.float .half)) = (.ok gradients, h) ∧
      gradients.length = 1 ∧ ∀ v ∈ gradients, h.Continuous v := by
  have reachable : Reachable (.nested (.float .half)) := nested_reachable (by decide)
  obtain ⟨total, operands⟩ := differentiation_never_fails reachable nested_bound
  obtain ⟨gradients, h, run, -, exact⟩ := total 2 [0, 1]
  obtain ⟨gradients', h', run', -, exact'⟩ := operands 0
    ⟨.call (.negation (.float .half)), [0], [1]⟩ [2] rfl rfl (by simpa using ⟨by decide, rfl⟩)
  exact ⟨reachable, nested_bound, ⟨gradients, h, run, exact⟩, gradients', h', run', exact'⟩

end ScalarFusion

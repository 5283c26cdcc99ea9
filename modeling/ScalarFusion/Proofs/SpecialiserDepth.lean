import ScalarFusion.Proofs.Specialising

/-!
Adapting a composite asks a specialiser about what the body calls and about nothing else. So the
level at which a callee is adapted does not matter, and adapting is one function of its own callees.
-/
namespace ScalarFusion

/-- The specialisers do the same with good composites, at as many types as these have inputs. -/
def Specialiser.Agrees (σ σ' : Specialiser) (P : Composite → Prop) : Prop :=
  ∀ c types, P c → types.length = c.inputCount → σ c types = σ' c types

variable {P : Composite → Prop} {σ σ' : Specialiser}

theorem Composite.boundTo_congr (agrees : σ.Agrees σ' P) {c : Composite} (good : P c)
    (types : List ScalarType) : c.boundTo σ types = c.boundTo σ' types := by
  rw [boundTo, boundTo, checkArity_eq]
  split
  · next arity => rw [agrees c types good arity]
  · rfl

namespace Build

theorem placeWith_congr (agrees : σ.Agrees σ' P) {op : Op Composite}
    (good : ∀ c, op = .call c → P c) : placeWith σ op = placeWith σ' op := by
  cases op with
  | prim p => rfl
  | call c =>
    funext args g
    show (callWith σ c args >>= outputsOf).exec g = (callWith σ' c args >>= outputsOf).exec g
    rw [exec_bind, exec_bind, exec_callWith, exec_callWith,
      Composite.boundTo_congr agrees (good c rfl)]

theorem replay_congr {κ : Type} {e : Expression κ} {retype : ScalarType → ScalarType}
    {place place' : NodeId → Op κ → List ValueId → Build (List ValueId)}
    (same : ∀ entry ∈ e.nodes, place entry.1 entry.2.op = place' entry.1 entry.2.op)
    (copies : Table ValueId) : replay e retype place copies = replay e retype place' copies := by
  have steps : e.nodes.foldlM (replayNode e retype place) copies =
      e.nodes.foldlM (replayNode e retype place') copies := by
    apply foldlM_congr_mem
    intro entry member copies
    rw [replayNode, replayNode, same entry member]
  rw [replay_eq, replay_eq, steps]

theorem inlineWith_congr (agrees : σ.Agrees σ' P) {c : Composite} (good : c.graph.Calls P)
    (args : List ValueId) : inlineWith σ c args = inlineWith σ' c args := by
  rw [inlineWith, inlineWith, replay_congr]
  intro entry member
  exact placeWith_congr agrees fun d called => good (Expression.mem_nodes.mp member).2 called

end Build

namespace Expression

theorem rebuild_congr {κ : Type} {e : Expression κ} {retype : ScalarType → ScalarType}
    {place place' : NodeId → Op κ → List ValueId → Build (List ValueId)} (config : Config)
    (same : ∀ entry ∈ e.nodes, place entry.1 entry.2.op = place' entry.1 entry.2.op) :
    e.rebuild config retype place = e.rebuild config retype place' := by
  rw [rebuild, rebuild]
  simp only [Build.replay_congr same]

theorem dissolve_congr (agrees : σ.Agrees σ' P) (hereditary : ∀ c, P c → c.graph.Calls P)
    {e : Expression Composite} (good : e.graph.Calls P) (calls : List NodeId) :
    e.dissolve σ calls = e.dissolve σ' calls := by
  apply rebuild_congr
  rintro ⟨n, node⟩ member
  funext args
  have callee : ∀ c, node.op = .call c → P c := fun c called => good (mem_nodes.mp member).2 called
  cases called : node.op with
  | prim p => exact congrFun (Build.placeWith_congr agrees (by simp)) args
  | call c =>
    have fine := callee c called
    have placed : Build.placeWith σ (.call c) = Build.placeWith σ' (.call c) :=
      Build.placeWith_congr agrees fun d same => Op.call.inj same ▸ fine
    simp only [placed, Build.inlineWith_congr agrees (hereditary c fine)]

end Expression

/-- The passes see good composites only, since each pass leaves a sound copy. -/
theorem Copy.flatten_congr (adapts : σ.Sound P) (agrees : σ.Agrees σ' P)
    (hereditary : ∀ c, P c → c.graph.Calls P) (fuel : Nat) {copy : Copy}
    (good : copy.graph.Calls P) : copy.flatten σ fuel = copy.flatten σ' fuel := by
  induction fuel generalizing copy with
  | zero => rw [flatten, flatten]
  | succ fuel ih =>
    rw [flatten, flatten]
    cases success : copy.graph.expression copy.inputs copy.outputs with
    | error error => simp only [error_bind]
    | ok e =>
      have good' : e.graph.Calls P := (Graph.expression_eq success).1 ▸ good
      simp only [ok_bind, ← Expression.dissolve_congr agrees hereditary good']
      split
      · rfl
      · cases dissolved : e.dissolve σ e.dissolvable with
        | error error => simp only [error_bind]
        | ok next =>
          exact ih (Expression.dissolve_sound adapts hereditary good' dissolved).1.calls

theorem Graph.fuseWith_congr (adapts : σ.Sound P) (agrees : σ.Agrees σ' P)
    (hereditary : ∀ c, P c → c.graph.Calls P) {g : Arena} (good : g.Calls P)
    (inputs outputs : List ValueId) : g.fuseWith σ inputs outputs = g.fuseWith σ' inputs outputs := by
  rw [fuseWith, fuseWith]
  cases success : g.expression inputs.eraseDups outputs with
  | error error => simp only [error_bind]
  | ok e =>
    have good' : e.graph.Calls P := (Graph.expression_eq success).1 ▸ good
    simp only [ok_bind, ← Expression.dissolve_congr agrees hereditary good']
    cases dissolved : e.dissolve σ e.dissolvable with
    | error error => simp only [error_bind]
    | ok copy =>
      have sound := (Expression.dissolve_sound adapts hereditary good' dissolved).1
      simp only [ok_bind, Copy.flatten_congr adapts agrees hereditary _ sound.calls]

namespace Composite

theorem retypeWith_congr (adapts : σ.Sound P) (agrees : σ.Agrees σ' P)
    (hereditary : ∀ c, P c → c.graph.Calls P) {c : Composite} (good : c.graph.Calls P)
    {types : List ScalarType} (arity : types.length = c.inputCount) :
    retypeWith σ c types = retypeWith σ' c types := by
  rw [retypeWith, retypeWith]
  simp only [← Build.inlineWith_congr agrees good]
  cases run : (do
      let inputs ← Build.freshInputs c.graph c.inputs types
      let outputs ← Build.inlineWith σ c inputs
      pure (inputs, outputs) : Build (List ValueId × List ValueId)).runNew c.config with
  | error error => simp only [error_bind]
  | ok result =>
    obtain ⟨⟨inputs, outputs⟩, scratch⟩ := result
    obtain ⟨sound, -⟩ := Build.copy_sound c.graph arity (fun g news known =>
      Build.grows_inlineWith (Policy.body_keepsConstants P) adapts (Policy.body_callsGood P) good
        known) run
    exact Graph.fuseWith_congr adapts agrees hereditary sound.calls inputs outputs

theorem specialiseAt_agrees {n m : Nat} (above : n ≤ m) :
    (specialiseAt n).Agrees (specialiseAt m) (WellBuiltTo n) := by
  induction n generalizing m with
  | zero =>
    intro c types good
    exact absurd good.2 (Nat.not_le.mpr c.depth_pos)
  | succ n ih =>
    intro c types good arity
    obtain ⟨m, rfl⟩ : ∃ k, m = k + 1 := ⟨m - 1, by omega⟩
    exact retypeWith_congr (specialiseAt_sound n) (ih (by omega)) WellBuiltTo.hereditary
      good.callees arity

theorem specialise_eq {c : Composite} (good : c.WellBuilt) {types : List ScalarType}
    (arity : types.length = c.inputCount) : specialise c types = retypeWith specialise c types := by
  have above := specialiseAt_agrees (Nat.le_succ c.depth) c types ⟨good, Nat.le_refl _⟩ arity
  have agrees : (specialiseAt c.depth).Agrees specialise (WellBuiltTo c.depth) :=
    fun d types below arity =>
      (specialiseAt_agrees below.2 d types ⟨below.1, Nat.le_refl _⟩ arity).symm
  rw [specialise, above, specialiseAt]
  exact retypeWith_congr (specialiseAt_sound c.depth) agrees WellBuiltTo.hereditary
    (WellBuiltTo.hereditary c ⟨good, Nat.le_refl _⟩) arity

end Composite

end ScalarFusion

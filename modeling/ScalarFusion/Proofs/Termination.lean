import ScalarFusion.Proofs.SpecialiserDepth
import ScalarFusion.Proofs.Reaching

/-!
Fusing, calling and narrowing come to an end. Here they are given without any bound: the passes of
fusion go on until one has nothing to dissolve, and adapting a composite asks how others are adapted.
Such a run has a result only if it is finite, and the bounded functions give that result. Passes end
since each leaves fewer calls, and adapting does since it asks about less deep composites only.
-/
namespace ScalarFusion

namespace Copy

def step (σ : Specialiser) (copy : Copy) : Except Error (Option Copy) := do
  let e ← copy.graph.expression copy.inputs copy.outputs
  if e.dissolvable.isEmpty then .ok none else do
    let next ← e.dissolve σ e.dissolvable
    .ok (some next)

/-- What the passes end with, however many there are. -/
inductive Settles (σ : Specialiser) : Copy → Except Error Copy → Prop where
  | fail {copy : Copy} {err : Error} (failed : copy.step σ = .error err) :
      Settles σ copy (.error err)
  | stop {copy : Copy} (stopped : copy.step σ = .ok none) : Settles σ copy (.ok copy)
  | next {copy next : Copy} {result : Except Error Copy} (passed : copy.step σ = .ok (some next))
      (rest : Settles σ next result) : Settles σ copy result

variable {P : Composite → Prop} {σ : Specialiser} {config : Config} {types : List ScalarType}
  {count : Nat}

theorem Settles.unique {copy : Copy} {result result' : Except Error Copy}
    (left : copy.Settles σ result) (right : copy.Settles σ result') : result = result' := by
  induction left with
  | fail failed => cases right <;> simp_all
  | stop stopped => cases right <;> simp_all
  | next passed _ ih =>
    cases right with
    | fail failed => simp [passed] at failed
    | stop stopped => simp [passed] at stopped
    | next passed' rest =>
      rw [passed] at passed'
      obtain rfl := Option.some.inj (Except.ok.inj passed')
      exact ih rest

theorem Sound.callCount_lt {copy next : Copy} (sound : copy.Sound P config types count)
    (adapts : σ.Sound P) (hereditary : ∀ c, P c → c.graph.Calls P)
    (passed : copy.step σ = .ok (some next)) :
    next.Sound P config types count ∧ next.graph.callCount < copy.graph.callCount := by
  obtain ⟨e, success, rest⟩ := bind_eq_ok passed
  split at rest
  · cases rest
  · next left =>
    obtain ⟨copied, dissolved, last⟩ := bind_eq_ok rest
    obtain rfl := Option.some.inj (Except.ok.inj last)
    exact sound.pass adapts hereditary success (by simpa using left) dissolved

theorem flatten_succ (fuel : Nat) (copy : Copy) : copy.flatten σ (fuel + 1) = (do
    match ← copy.step σ with
    | none => .ok copy
    | some next => next.flatten σ fuel) := by
  rw [flatten, step]
  cases copy.graph.expression copy.inputs copy.outputs with
  | error err => rfl
  | ok e =>
    simp only [ok_bind]
    split
    · rfl
    · cases e.dissolve σ e.dissolvable <;> rfl

theorem Sound.settles (adapts : σ.Sound P) (hereditary : ∀ c, P c → c.graph.Calls P) (fuel : Nat)
    {copy : Copy} (sound : copy.Sound P config types count)
    (enough : copy.graph.callCount ≤ fuel) : copy.Settles σ (copy.flatten σ fuel) := by
  induction fuel generalizing copy with
  | zero =>
    obtain ⟨e, success⟩ := Graph.exists_expression sound.closed.inputs_of_free copy.outputs
    have settled := (flatten_sound adapts hereditary 0 sound enough rfl).2.2 e success
    refine .stop ?_
    rw [step, success, ok_bind, settled]
    rfl
  | succ fuel ih =>
    rw [flatten_succ]
    cases passed : copy.step σ with
    | error err => exact .fail passed
    | ok after =>
      cases after with
      | none => exact .stop passed
      | some next =>
        obtain ⟨sound', fewer⟩ := sound.callCount_lt adapts hereditary passed
        exact .next passed (ih sound' (by omega))

end Copy

namespace Graph

def firstCopy (σ : Specialiser) (g : Arena) (inputs outputs : List ValueId) : Except Error Copy := do
  if outputs.isEmpty then .error .noOutputs
  let e ← g.expression inputs.eraseDups outputs
  e.dissolve σ e.dissolvable

def FusesTo (σ : Specialiser) (g : Arena) (inputs outputs : List ValueId)
    (result : Except Error Composite) : Prop :=
  match g.firstCopy σ inputs outputs with
  | .error err => result = .error err
  | .ok copy => ∃ settled, copy.Settles σ settled ∧ result = (do
      let flat ← settled
      let body ← flat.graph.expression flat.inputs flat.outputs
      .ok (.mk body))

variable {P : Composite → Prop} {σ : Specialiser} {g : Arena} {inputs outputs : List ValueId}

theorem fuseWith_eq (σ : Specialiser) (g : Arena) (inputs outputs : List ValueId) :
    g.fuseWith σ inputs outputs = (do
      let copy ← g.firstCopy σ inputs outputs
      let flat ← copy.flatten σ copy.graph.callCount
      let body ← flat.graph.expression flat.inputs flat.outputs
      .ok (.mk body)) := by
  rw [fuseWith, firstCopy]
  split
  · rfl
  · simp only [bind_assoc]

theorem FusesTo.unique {result result' : Except Error Composite}
    (left : g.FusesTo σ inputs outputs result) (right : g.FusesTo σ inputs outputs result') :
    result = result' := by
  unfold FusesTo at left right
  cases first : g.firstCopy σ inputs outputs with
  | error err =>
    rw [first] at left right
    exact left.trans right.symm
  | ok copy =>
    rw [first] at left right
    obtain ⟨settled, settles, rfl⟩ := left
    obtain ⟨settled', settles', rfl⟩ := right
    rw [settles.unique settles']

theorem firstCopy_sound (adapts : σ.Sound P) (hereditary : ∀ c, P c → c.graph.Calls P)
    (good : g.Calls P) {copy : Copy} (first : g.firstCopy σ inputs outputs = .ok copy) :
    copy.Sound P g.config (inputs.eraseDups.map g.typeOf) outputs.length := by
  unfold firstCopy at first
  split at first
  · cases first
  · obtain ⟨e, success, dissolved⟩ := bind_eq_ok first
    obtain ⟨rfl, same, same'⟩ := expression_eq success
    rw [← same, ← same']
    exact (Expression.dissolve_sound adapts hereditary good dissolved).1

theorem fusesTo_fuseWith (adapts : σ.Sound P) (hereditary : ∀ c, P c → c.graph.Calls P)
    (good : g.Calls P) : g.FusesTo σ inputs outputs (g.fuseWith σ inputs outputs) := by
  rw [fuseWith_eq]
  unfold FusesTo
  cases first : g.firstCopy σ inputs outputs with
  | error err => rfl
  | ok copy =>
    have sound := firstCopy_sound adapts hereditary good first
    exact ⟨_, sound.settles adapts hereditary _ (Nat.le_refl _), rfl⟩

end Graph

namespace Composite

def scratch (σ : Specialiser) (c : Composite) (types : List ScalarType) :
    Except Error ((List ValueId × List ValueId) × Arena) :=
  (do
    let inputs ← Build.freshInputs c.graph c.inputs types
    let outputs ← Build.inlineWith σ c inputs
    pure (inputs, outputs) : Build (List ValueId × List ValueId)).runNew c.config

/-- Adapting without a bound on the passes, by given answers about other composites. -/
def RetypesTo (σ : Specialiser) (c : Composite) (types : List ScalarType)
    (result : Except Error Composite) : Prop :=
  match c.scratch σ types with
  | .error err => result = .error err
  | .ok ((inputs, outputs), scratch) => scratch.FusesTo σ inputs outputs result

/-- Adapting by recursion: the answers that matter are got in the same way. -/
inductive Adapted : Composite → List ScalarType → Except Error Composite → Prop where
  | intro {c : Composite} {types : List ScalarType} {result : Except Error Composite}
      (σ : Specialiser) (asked : Composite → List ScalarType → Prop)
      (answers : ∀ d ts, asked d ts → Adapted d ts (σ d ts))
      (enough : ∀ τ : Specialiser, (∀ d ts, asked d ts → τ d ts = σ d ts) →
        c.RetypesTo τ types result) : Adapted c types result

variable {P : Composite → Prop} {σ : Specialiser} {c : Composite} {types : List ScalarType}

theorem RetypesTo.unique {result result' : Except Error Composite}
    (left : c.RetypesTo σ types result) (right : c.RetypesTo σ types result') :
    result = result' := by
  unfold RetypesTo at left right
  cases made : c.scratch σ types with
  | error err =>
    rw [made] at left right
    exact left.trans right.symm
  | ok result =>
    rw [made] at left right
    exact Graph.FusesTo.unique left right

theorem retypesTo_retypeWith (adapts : σ.Sound P) (hereditary : ∀ c, P c → c.graph.Calls P)
    (good : c.graph.Calls P) (arity : types.length = c.inputCount) :
    c.RetypesTo σ types (retypeWith σ c types) := by
  have opened : retypeWith σ c types = c.scratch σ types >>= fun made =>
    made.2.fuseWith σ made.1.1 made.1.2 := rfl
  rw [opened]
  unfold RetypesTo
  cases made : c.scratch σ types with
  | error err => rfl
  | ok result =>
    obtain ⟨⟨inputs, outputs⟩, scratch⟩ := result
    obtain ⟨sound, -⟩ := Build.copy_sound c.graph arity (fun g news known =>
      Build.grows_inlineWith (Policy.body_keepsConstants P) adapts (Policy.body_callsGood P) good
        known) made
    exact Graph.fusesTo_fuseWith adapts hereditary sound.calls

end Composite

theorem Specialiser.exists_common {σ σ' : Specialiser}
    {asked asked' : Composite → List ScalarType → Prop}
    (agree : ∀ d ts, asked d ts → asked' d ts → σ d ts = σ' d ts) :
    ∃ τ : Specialiser, (∀ d ts, asked d ts → τ d ts = σ d ts) ∧
      ∀ d ts, asked' d ts → τ d ts = σ' d ts := by
  classical
  refine ⟨fun d ts => if asked d ts then σ d ts else σ' d ts, fun d ts here => if_pos here, ?_⟩
  intro d ts there
  by_cases here : asked d ts
  · exact (if_pos here).trans (agree d ts here there)
  · exact if_neg here

theorem Composite.Adapted.unique {c : Composite} {types : List ScalarType}
    {result result' : Except Error Composite} (left : c.Adapted types result)
    (right : c.Adapted types result') : result = result' := by
  induction left generalizing result' with
  | intro σ asked answers enough ih =>
    obtain ⟨σ', asked', answers', enough'⟩ := right
    obtain ⟨τ, first, second⟩ := Specialiser.exists_common fun d ts here there =>
      ih d ts here (answers' d ts there)
    exact (enough τ first).unique (enough' τ second)

/-- What a run that asks how composites are adapted gives by recursion. -/
def ByAdapting {α : Type} (run : Specialiser → α → Prop) (result : α) : Prop :=
  ∃ (σ : Specialiser) (asked : Composite → List ScalarType → Prop),
    (∀ d ts, asked d ts → d.Adapted ts (σ d ts)) ∧
    ∀ τ : Specialiser, (∀ d ts, asked d ts → τ d ts = σ d ts) → run τ result

theorem ByAdapting.unique {α : Type} {run : Specialiser → α → Prop}
    (functional : ∀ τ a b, run τ a → run τ b → a = b) {result result' : α}
    (left : ByAdapting run result) (right : ByAdapting run result') : result = result' := by
  obtain ⟨σ, asked, answers, enough⟩ := left
  obtain ⟨σ', asked', answers', enough'⟩ := right
  obtain ⟨τ, first, second⟩ := Specialiser.exists_common fun d ts here there =>
    (answers d ts here).unique (answers' d ts there)
  exact functional τ _ _ (enough τ first) (enough' τ second)

namespace Composite

theorem specialise_soundTo (n : Nat) : specialise.Sound (WellBuiltTo n) := by
  intro c types d good arity success
  obtain ⟨⟨wellBuilt, shallow⟩, adapts⟩ :=
    specialiseAt_sound c.depth ⟨good.1, Nat.le_refl _⟩ arity success
  exact ⟨⟨wellBuilt, Nat.le_trans shallow good.2⟩, adapts⟩

theorem sound_of_agrees {P : Composite → Prop} {σ τ : Specialiser} (agrees : σ.Agrees τ P)
    (adapts : σ.Sound P) : τ.Sound P := by
  intro c types d good arity success
  exact adapts good arity ((agrees c types good arity).trans success)

theorem WellBuilt.retypesTo {c : Composite} (good : c.WellBuilt) {types : List ScalarType}
    (arity : types.length = c.inputCount) {τ : Specialiser}
    (agree : ∀ d ts, d.WellBuilt → d.depth < c.depth → ts.length = d.inputCount →
      τ d ts = specialise d ts) :
    retypeWith τ c types = specialise c types ∧ c.RetypesTo τ types (specialise c types) := by
  obtain ⟨n, depth⟩ : ∃ n, c.depth = n + 1 := ⟨_, c.depth_eq⟩
  have callees : c.graph.Calls (WellBuiltTo n) := WellBuiltTo.callees ⟨good, Nat.le_of_eq depth⟩
  have agrees : specialise.Agrees τ (WellBuiltTo n) := by
    intro d ts below counted
    exact (agree d ts below.1 (by have := below.2; omega) counted).symm
  have same : retypeWith τ c types = specialise c types := by
    rw [specialise_eq good arity, retypeWith_congr (specialise_soundTo n) agrees
      WellBuiltTo.hereditary callees arity]
  refine ⟨same, ?_⟩
  rw [← same]
  exact retypesTo_retypeWith (sound_of_agrees agrees (specialise_soundTo n)) WellBuiltTo.hereditary
    callees arity

theorem WellBuilt.adapted {c : Composite} (good : c.WellBuilt) {types : List ScalarType}
    (arity : types.length = c.inputCount) : c.Adapted types (specialise c types) := by
  induction depth : c.depth using Nat.strong_induction_on generalizing c types with
  | _ n ih =>
    refine .intro specialise
      (fun d ts => d.WellBuilt ∧ d.depth < c.depth ∧ ts.length = d.inputCount) ?_ ?_
    · rintro d ts ⟨good', less, arity'⟩
      exact ih d.depth (depth ▸ less) good' arity' rfl
    · intro τ agree
      exact (good.retypesTo arity fun d ts good' less arity' => agree d ts ⟨good', less, arity'⟩).2

end Composite

theorem ByAdapting.intro {α : Type} {run : Specialiser → α → Prop} {result : α}
    (right : ∀ τ, Composite.specialise.Agrees τ Composite.WellBuilt →
      τ.Sound Composite.WellBuilt → run τ result) : ByAdapting run result := by
  refine ⟨Composite.specialise, fun d ts => d.WellBuilt ∧ ts.length = d.inputCount, ?_, ?_⟩
  · rintro d ts ⟨good, arity⟩
    exact good.adapted arity
  · intro τ agree
    have agrees : Composite.specialise.Agrees τ Composite.WellBuilt :=
      fun d ts good arity => (agree d ts ⟨good, arity⟩).symm
    exact right τ agrees (Composite.sound_of_agrees agrees Composite.specialise_sound)

theorem Graph.byAdapting_fuse {g : Arena} (good : g.Calls Composite.WellBuilt)
    (inputs outputs : List ValueId) :
    ByAdapting (fun σ => g.FusesTo σ inputs outputs) (g.fuse inputs outputs) := by
  refine .intro fun τ agrees adapts => ?_
  rw [fuse, fuseWith_congr Composite.specialise_sound agrees Composite.wellBuilt_hereditary good]
  exact fusesTo_fuseWith adapts Composite.wellBuilt_hereditary good

theorem Build.byAdapting_makeCall {c : Composite} (good : c.WellBuilt) (args : List ValueId)
    (g : Arena) : ByAdapting (fun σ result => (callWith σ c args).exec g = result)
      ((makeCall c args).exec g) := by
  refine .intro fun τ agrees _ => ?_
  rw [makeCall, exec_callWith, exec_callWith, Composite.boundTo_congr agrees good]

def Build.placeWidenedWith (σ : Specialiser) :
    Op (Composite × Except Error Composite) → List ValueId → Build (List ValueId)
  | .prim (.cast t), args => placeWith σ (.prim (.cast t.widen)) args
  | .prim p, args => placeWith σ (.prim p) args
  | .call (c, narrowed), args => do
    let d ← if c.hasHalf then ofExcept narrowed else pure c
    placeWith σ (.call d) args

theorem Build.placeWidenedWith_congr {σ : Specialiser}
    (agrees : Composite.specialise.Agrees σ Composite.WellBuilt)
    {op : Op (Composite × Except Error Composite)}
    (good : ∀ c narrowed, op = .call (c, narrowed) →
      c.WellBuilt ∧ ∀ d, narrowed = .ok d → d.WellBuilt) :
    placeWidened op = placeWidenedWith σ op := by
  have plain : ∀ p, placeWith Composite.specialise (.prim p) = placeWith σ (.prim p) :=
    fun p => placeWith_congr agrees (by simp)
  have placed : ∀ d, d.WellBuilt →
      placeWith Composite.specialise (.call d) = placeWith σ (.call d) :=
    fun d good => placeWith_congr agrees fun d' same => Op.call.inj same ▸ good
  funext args
  cases op with
  | prim p => cases p <;> exact congrFun (plain _) args
  | call entry =>
    obtain ⟨c, narrowed⟩ := entry
    obtain ⟨wellBuilt, narrowedGood⟩ := good c narrowed rfl
    simp only [placeWidened, placeWidenedWith]
    split
    · cases narrowed with
      | error err => rfl
      | ok d => exact congrFun (placed d (narrowedGood d rfl)) args
    · exact congrFun (placed c wellBuilt) args

theorem Expression.map_congr {ι : Type} {f f' : Composite → ι} {e : Expression Composite}
    (same : e.graph.Calls fun d => f d = f' d) : e.map f = e.map f' := by
  have nodes : (e.graph.map f).nodes = (e.graph.map f').nodes := by
    apply Array.ext
    · simp [Graph.map]
    · intro n inside _
      have inside' : n < e.graph.nodes.size := by simpa [Graph.map] using inside
      simp only [Graph.map, Array.getElem_map, Node.mk.injEq, and_true]
      cases called : e.graph.nodes[n].op with
      | prim p => rfl
      | call d => exact congrArg Op.call (same (Array.getElem?_eq_getElem inside') called)
  simp only [map, Expression.mk.injEq, and_true, Graph.map, Graph.mk.injEq, true_and]
  exact nodes

namespace Composite

def widenedCopy (σ : Specialiser) (narrowed : Composite → Except Error Composite) (c : Composite) :
    Except Error Copy :=
  (c.body.map fun d => (d, narrowed d)).rebuild c.config.widen ScalarType.widen
    fun _ op => Build.placeWidenedWith σ op

inductive Narrowed : Composite → Except Error Composite → Prop where
  | intro {c : Composite} {result : Except Error Composite}
      (narrowed : Composite → Except Error Composite)
      (callees : ∀ (n : NodeId) (node : Node Composite) (d : Composite),
        c.graph.nodes[n]? = some node → node.op = .call d → Narrowed d (narrowed d))
      (run : ByAdapting (fun σ result =>
        match c.widenedCopy σ narrowed with
        | .error err => result = .error err
        | .ok copy => copy.graph.FusesTo σ copy.inputs copy.outputs result) result) :
      Narrowed c result

theorem widenedCopy_eq {c : Composite} (good : c.WellBuilt) {τ : Specialiser}
    (agrees : specialise.Agrees τ WellBuilt) : c.widenedCopy τ narrow =
      (c.body.map fun d => (d, d.narrow)).rebuild c.config.widen ScalarType.widen
        fun _ op => Build.placeWidened op := by
  refine (Expression.rebuild_congr _ fun entry member => ?_).symm
  refine Build.placeWidenedWith_congr agrees fun d narrowed called => ?_
  obtain ⟨original, d', found, called', same⟩ := Expression.exists_callee member called
  obtain ⟨rfl, rfl⟩ := Prod.mk.inj same
  have callee : d'.WellBuilt := good.callees found called'
  exact ⟨callee, fun _ success => (narrow_wellBuilt callee success).1⟩

theorem narrowed_narrow {c : Composite} (good : c.WellBuilt) : c.Narrowed c.narrow := by
  induction good with
  | @mk e tidy callees ih =>
    have good : (mk e).WellBuilt := .mk tidy callees
    refine .intro narrow (fun n node d found called => ih found called) (.intro ?_)
    intro τ agrees adapts
    rw [widenedCopy_eq good agrees, narrow_eq]
    cases rebuilt : ((mk e).body.map fun d => (d, d.narrow)).rebuild (mk e).config.widen
        ScalarType.widen fun _ op => Build.placeWidened op with
    | error err => rfl
    | ok copy =>
      have sound := rebuild_widened_sound (fun _ _ _ found called =>
        have callee := good.callees found called
        ⟨callee, fun _ success => (narrow_wellBuilt callee success).1⟩) rebuilt
      show copy.graph.FusesTo τ copy.inputs copy.outputs (copy.graph.fuse copy.inputs copy.outputs)
      rw [Graph.fuse, Graph.fuseWith_congr specialise_sound agrees wellBuilt_hereditary sound.calls]
      exact Graph.fusesTo_fuseWith adapts wellBuilt_hereditary sound.calls

theorem Narrowed.unique {c : Composite} {result result' : Except Error Composite}
    (left : c.Narrowed result) (right : c.Narrowed result') : result = result' := by
  induction left generalizing result' with
  | @intro c result narrowed callees run ih =>
    obtain ⟨narrowed', callees', run'⟩ := right
    have same : ∀ σ, c.widenedCopy σ narrowed = c.widenedCopy σ narrowed' := by
      intro σ
      rw [widenedCopy, widenedCopy, Expression.map_congr fun n node d found called =>
        congrArg (Prod.mk d) (ih n node d found called (callees' n node d found called))]
    simp only [← same] at run'
    refine run.unique ?_ run'
    intro σ a b first second
    cases rebuilt : c.widenedCopy σ narrowed with
    | error err =>
      rw [rebuilt] at first second
      exact first.trans second.symm
    | ok copy =>
      rw [rebuilt] at first second
      exact Graph.FusesTo.unique first second

end Composite

/-- The copies that passes go through. -/
inductive Copy.Reaches (σ : Specialiser) : Copy → Copy → Prop where
  | start {copy : Copy} : Reaches σ copy copy
  | next {first copy next : Copy} (before : Reaches σ first copy)
      (passed : copy.step σ = .ok (some next)) : Reaches σ first next

theorem Copy.Reaches.sound {P : Composite → Prop} {σ : Specialiser} {config : Config}
    {types : List ScalarType} {count : Nat} (adapts : σ.Sound P)
    (hereditary : ∀ c, P c → c.graph.Calls P) {first copy : Copy} (reached : first.Reaches σ copy)
    (sound : first.Sound P config types count) : copy.Sound P config types count := by
  induction reached with
  | start => exact sound
  | next _ passed ih => exact (ih.callCount_lt adapts hereditary passed).1

theorem Graph.callCount_lt_of_step {g : Arena} (good : g.Calls Composite.WellBuilt)
    {inputs outputs : List ValueId} {first copy next : Copy}
    (begins : g.firstCopy Composite.specialise inputs outputs = .ok first)
    (reached : first.Reaches Composite.specialise copy)
    (passed : copy.step Composite.specialise = .ok (some next)) :
    next.graph.callCount < copy.graph.callCount := by
  have adapts := Composite.specialise_sound
  have hereditary := Composite.wellBuilt_hereditary
  have sound := reached.sound adapts hereditary (firstCopy_sound adapts hereditary good begins)
  exact (sound.callCount_lt adapts hereditary passed).2

/-- Fusing, calling and narrowing end: without any bound they have one result each, and the bounded
    functions give it. A pass that goes on leaves fewer calls, counted through nested bodies, and
    adapting a composite asks about less deep ones only. -/
theorem flattening_terminates {g : Arena} (reachable : Reachable g) {c : Composite}
    (obtained : Obtained c) :
    (∀ inputs outputs result, ByAdapting (fun σ => g.FusesTo σ inputs outputs) result ↔
      result = g.fuse inputs outputs) ∧
    (∀ args result, ByAdapting (fun σ made => (Build.callWith σ c args).exec g = made) result ↔
      result = (Build.makeCall c args).exec g) ∧
    (∀ result, c.Narrowed result ↔ result = c.narrow) ∧
    (∀ h : Arena, h.Calls Composite.WellBuilt → ∀ inputs outputs first copy next,
      h.firstCopy Composite.specialise inputs outputs = .ok first →
      first.Reaches Composite.specialise copy →
      copy.step Composite.specialise = .ok (some next) →
        next.graph.callCount < copy.graph.callCount) ∧
    ∀ types, types.length = c.inputCount → ∀ τ : Specialiser,
      (∀ d ts, d.depth < c.depth → τ d ts = Composite.specialise d ts) →
        Composite.retypeWith τ c types = Composite.specialise c types := by
  have built := reachable.built
  have good := obtained.wellBuilt
  -- relations without bounds have one result at most, so it is
  -- enough that the bounded functions give one
  refine ⟨?_, ?_, ?_, ?_, ?_⟩
  · intro inputs outputs result
    have fused := Graph.byAdapting_fuse built.calls inputs outputs
    constructor
    · intro run
      exact ByAdapting.unique (fun _ _ _ first second => first.unique second) run fused
    · rintro rfl
      exact fused
  · intro args result
    have called := Build.byAdapting_makeCall good args g
    constructor
    · intro run
      exact ByAdapting.unique (fun _ _ _ first second => first.symm.trans second) run called
    · rintro rfl
      exact called
  · intro result
    constructor
    · intro run
      exact run.unique (Composite.narrowed_narrow good)
    · rintro rfl
      exact Composite.narrowed_narrow good
  · intro h callees inputs outputs first copy next begins reached passed
    exact Graph.callCount_lt_of_step callees begins reached passed
  · intro types arity τ agree
    exact (good.retypesTo arity fun d ts _ less _ => agree d ts less).1

def Graph.former : Arena :=
  (Action.apply (.prim .neg) [0]).perform ((Action.newVariable (.signed .w8) (some "b")).perform
    ((Action.newVariable (.signed .w8) (some "a")).perform {}))

def Composite.former : Composite :=
  .mk ⟨.former, [0, 1], [2], [0]⟩

theorem former_obtained : Obtained .former := by
  have reachable : Reachable .former := by
    refine .perform (.perform (.perform (.empty {}) ?_ ?_) ?_ ?_) ?_ ?_
    all_goals first | decide | simp [Action.composite?, Op.callee?]
  exact .fuse reachable (by decide : Graph.former.Knows ([0, 1] ++ [2])) rfl

def Graph.ignored : Arena :=
  (Action.call .former [2, 3]).perform ((Action.apply (.prim .neg) [1]).perform
    ((Action.apply (.prim .neg) [1]).perform ((Action.call (.negation (.signed .w8)) [0]).perform
      ((Action.newVariable (.signed .w8) (some "x")).perform {}))))

theorem ignored_reachable : Reachable .ignored := by
  refine .perform (.perform (.perform (.perform (.perform (.empty {}) ?_ ?_) ?_ ?_) ?_ ?_) ?_ ?_) ?_ ?_
  case refine_4 =>
    intro c same
    obtain rfl := Option.some.inj same
    exact negation_obtained (by decide)
  case refine_10 =>
    intro c same
    obtain rfl := Option.some.inj same
    exact former_obtained
  all_goals first | decide | simp [Action.composite?, Op.callee?]

def Copy.ignored : Copy where
  graph := (Action.apply (.prim .neg) [2]).perform ((Action.apply (.prim .neg) [1]).perform
    ((Action.apply (.prim .neg) [1]).perform ((Action.call (.negation (.signed .w8)) [0]).perform
      ((Action.newVariable (.signed .w8) (some "x")).perform {}))))
  inputs := [0]
  outputs := [4]

def Copy.settled : Copy where
  graph := (Action.apply (.prim .neg) [2]).perform ((Action.apply (.prim .neg) [1]).perform
    (.negation (.signed .w8)))
  inputs := [0]
  outputs := [3]

theorem ignored_firstCopy :
    Graph.ignored.firstCopy Composite.specialise [0] [4] = .ok .ignored := by
  have success : Graph.ignored.expression [0] [4] =
    .ok ⟨.ignored, [0], [4], [0, 1, 2, 3]⟩ := rfl
  have calls : Expression.dissolvable ⟨.ignored, [0], [4], [0, 1, 2, 3]⟩ = [3] := by decide +kernel
  show (Graph.ignored.expression [0] [4] >>= fun e => e.dissolve _ e.dissolvable) = _
  rw [success, ok_bind, calls]
  rfl

theorem ignored_step : Copy.ignored.step Composite.specialise = .ok (some .settled) := by
  have success : Copy.ignored.graph.expression [0] [4] =
    .ok ⟨Copy.ignored.graph, [0], [4], [0, 1, 3]⟩ := rfl
  have calls : Expression.dissolvable ⟨Copy.ignored.graph, [0], [4], [0, 1, 3]⟩ = [0] := by
    decide +kernel
  have dissolved : Expression.dissolve Composite.specialise
    ⟨Copy.ignored.graph, [0], [4], [0, 1, 3]⟩ [0] = .ok .settled := rfl
  show (Copy.ignored.graph.expression [0] [4] >>= fun e => if e.dissolvable.isEmpty then .ok none
    else e.dissolve _ e.dissolvable >>= fun next => .ok (some next)) = _
  rw [success, ok_bind, calls, dissolved]
  rfl

theorem ignored_terminates :
    Graph.ignored.firstCopy Composite.specialise [0] [4] = .ok .ignored ∧
    Copy.ignored.step Composite.specialise = .ok (some .settled) ∧
    Copy.settled.graph.callCount < Copy.ignored.graph.callCount ∧
    ByAdapting (fun σ => Graph.ignored.FusesTo σ [0] [4]) (Graph.ignored.fuse [0] [4]) := by
  have terminates := flattening_terminates ignored_reachable former_obtained
  refine ⟨ignored_firstCopy, ignored_step, ?_, (terminates.1 [0] [4] _).mpr rfl⟩
  exact terminates.2.2.2.1 _ ignored_reachable.built.calls [0] [4] _ _ _ ignored_firstCopy .start
    ignored_step

end ScalarFusion

import ScalarFusion.Composite.Narrowing
import ScalarFusion.Proofs.Bodies

/-!
Composites are well built if their bodies are, at every depth. Fusing, adapting to other types and
narrowing make well-built composites of well-built ones; adapting goes down one level of callees at
a time, and what it makes of a composite is never deeper.
-/
namespace ScalarFusion

theorem foldl_max_le {α : Type} (f : α → Nat) {bound : Nat} (as : List α) (start : Nat)
    (below : start ≤ bound) (members : ∀ a ∈ as, f a ≤ bound) :
    as.foldl (fun d a => max d (f a)) start ≤ bound := by
  induction as generalizing start with
  | nil => exact below
  | cons a as ih =>
    exact ih _ (Nat.max_le.mpr ⟨below, members a (by simp)⟩) fun b inside =>
      members b (by simp [inside])

theorem le_foldl_max {α : Type} (f : α → Nat) (as : List α) (start : Nat) :
    start ≤ as.foldl (fun d a => max d (f a)) start ∧
      ∀ a ∈ as, f a ≤ as.foldl (fun d a => max d (f a)) start := by
  induction as generalizing start with
  | nil => simp
  | cons a as ih =>
    obtain ⟨first, rest⟩ := ih (max start (f a))
    refine ⟨Nat.le_trans (Nat.le_max_left _ _) first, ?_⟩
    rintro b (_ | ⟨_, inside⟩)
    · exact Nat.le_trans (Nat.le_max_right _ _) first
    · exact rest b inside

theorem nodup_eraseDups (vs : List ValueId) : vs.eraseDups.Nodup := by
  -- what is left of the tail is shorter, but it is not the tail
  induction length : vs.length using Nat.strong_induction_on generalizing vs with
  | _ k ih =>
    cases vs with
    | nil => exact List.nodup_nil
    | cons v vs =>
      have fewer := List.length_filter_le (fun w => !w == v) vs
      rw [List.length_cons] at length
      rw [List.eraseDups_cons, List.nodup_cons]
      exact ⟨by simp [List.mem_eraseDups], ih _ (by omega) _ rfl⟩

theorem eraseDups_of_nodup {vs : List ValueId} (nodup : vs.Nodup) : vs.eraseDups = vs := by
  induction vs with
  | nil => rfl
  | cons v vs ih =>
    obtain ⟨fresh, rest⟩ := List.nodup_cons.mp nodup
    have kept : vs.filter (fun w => !w == v) = vs := by
      rw [List.filter_eq_self]
      intro w member
      simpa using fun same : w = v => fresh (same ▸ member)
    rw [List.eraseDups_cons, kept, ih rest]

namespace Composite

inductive Everywhere (P : Expression Composite → Prop) : Composite → Prop where
  | mk {e : Expression Composite} (here : P e)
      (callees : ∀ ⦃n : NodeId⦄ ⦃node : Node Composite⦄ ⦃c : Composite⦄,
        e.graph.nodes[n]? = some node → node.op = .call c → Everywhere P c) :
      Everywhere P (.mk e)

variable {P : Expression Composite → Prop}

theorem Everywhere.body {c : Composite} (holds : c.Everywhere P) : P c.body := by
  cases holds with
  | mk here _ => exact here

theorem Everywhere.callees {c : Composite} (holds : c.Everywhere P) :
    c.graph.Calls (Everywhere P) := by
  cases holds with
  | mk _ callees => exact callees

theorem Everywhere.intro {c : Composite} (here : P c.body) (callees : c.graph.Calls (Everywhere P)) :
    c.Everywhere P := by
  obtain ⟨e⟩ := c
  exact .mk here callees

theorem depth_eq (c : Composite) : c.depth =
    c.graph.nodes.toList.foldl (fun d node => max d ((node.op.callee?.map depth).getD 0)) 0 + 1 := by
  rw [depth, fold_eq, ← depth]
  simp only [Expression.map, Graph.map, ← Array.foldl_toList, Array.toList_map, List.foldl_map]
  have callee : ∀ op : Op Composite,
      (((op.map fun d => (d, d.depth)).callee?.map Prod.snd).getD 0) =
        ((op.callee?.map depth).getD 0) := by
    intro op
    cases op <;> rfl
  simp only [callee]
  rfl

theorem depth_pos (c : Composite) : 0 < c.depth := by
  rw [depth_eq]
  exact Nat.succ_pos _

theorem depth_callee_lt {c d : Composite} {n : NodeId} {node : Node Composite}
    (found : c.graph.nodes[n]? = some node) (called : node.op = .call d) : d.depth < c.depth := by
  rw [depth_eq c]
  have member : node ∈ c.graph.nodes.toList := by
    simpa using Array.mem_of_getElem? found
  have bound := (le_foldl_max (fun node : Node Composite => (node.op.callee?.map depth).getD 0)
    c.graph.nodes.toList 0).2 node member
  have callee : ((node.op.callee?.map depth).getD 0) = d.depth := by
    rw [called]
    rfl
  omega

theorem depth_le {c : Composite} {bound : Nat}
    (callees : c.graph.Calls fun d => d.depth ≤ bound) : c.depth ≤ bound + 1 := by
  rw [depth_eq]
  apply Nat.succ_le_succ
  apply foldl_max_le (fun node : Node Composite => (node.op.callee?.map depth).getD 0)
  · exact Nat.zero_le _
  · intro node member
    obtain ⟨n, found⟩ := List.getElem?_of_mem member
    cases called : node.op with
    | prim p => simp [Op.callee?]
    | call d =>
      exact callees (by simpa using found) called

/-- Composites as fusion makes them. -/
def WellBuilt (c : Composite) : Prop :=
  c.Everywhere Expression.Tidy

def WellBuiltTo (n : Nat) (c : Composite) : Prop :=
  c.WellBuilt ∧ c.depth ≤ n

theorem WellBuiltTo.callees {n : Nat} {c : Composite} (good : c.WellBuiltTo (n + 1)) :
    c.graph.Calls (WellBuiltTo n) := by
  intro m node d found called
  refine ⟨good.1.callees found called, ?_⟩
  have := depth_callee_lt found called
  have := good.2
  omega

theorem WellBuiltTo.hereditary {n : Nat} (c : Composite) (good : c.WellBuiltTo n) :
    c.graph.Calls (WellBuiltTo n) := by
  intro m node d found called
  refine ⟨good.1.callees found called, ?_⟩
  have := depth_callee_lt found called
  have := good.2
  omega

theorem wellBuiltTo_of_callees {n : Nat} {c : Composite} (tidy : c.body.Tidy)
    (callees : c.graph.Calls (WellBuiltTo n)) : c.WellBuiltTo (n + 1) :=
  ⟨.intro tidy fun _ _ _ found called => (callees found called).1,
    depth_le fun _ _ _ found called => (callees found called).2⟩

theorem retypeWith_sound {P : Composite → Prop} {σ : Specialiser} (adapts : σ.Sound P)
    (hereditary : ∀ c, P c → c.graph.Calls P) {c d : Composite} (good : c.graph.Calls P)
    {types : List ScalarType} (arity : types.length = c.inputCount)
    (success : retypeWith σ c types = .ok d) :
    d.body.Tidy ∧ d.graph.Calls P ∧ d.config = c.config ∧ d.Adapts c types := by
  obtain ⟨⟨⟨inputs, outputs⟩, scratch⟩, run, fused⟩ := bind_eq_ok success
  obtain ⟨sound, light⟩ := Build.copy_sound c.graph arity (fun g news known =>
    Build.grows_inlineWith (Policy.body_keepsConstants P) adapts (Policy.body_callsGood P) good
      known) run
  obtain ⟨tidy, calls, config, inputTypes, outputCount, fewer⟩ :=
    Graph.fuseWith_sound adapts hereditary sound.calls fused
  refine ⟨tidy, calls, config.trans sound.config, ?_, outputCount.trans sound.outputs, ?_⟩
  · rw [inputTypes, eraseDups_of_nodup sound.closed.distinct]
    exact sound.inputTypes
  · exact Nat.le_trans (fewer sound.closed.ordered sound.known) light

theorem specialiseAt_sound (n : Nat) : (specialiseAt n).Sound (WellBuiltTo n) := by
  induction n with
  | zero =>
    intro c types d good
    exact absurd good.2 (Nat.not_le.mpr c.depth_pos)
  | succ n ih =>
    intro c types d good arity success
    obtain ⟨tidy, calls, -, adapts⟩ :=
      retypeWith_sound ih WellBuiltTo.hereditary good.callees arity success
    exact ⟨wellBuiltTo_of_callees tidy calls, adapts⟩

theorem specialise_sound : specialise.Sound WellBuilt := by
  intro c types d good arity success
  obtain ⟨wellBuilt, adapts⟩ := specialiseAt_sound c.depth ⟨good, Nat.le_refl _⟩ arity success
  exact ⟨wellBuilt.1, adapts⟩

theorem wellBuilt_hereditary (c : Composite) (good : c.WellBuilt) : c.graph.Calls WellBuilt :=
  good.callees

end Composite

theorem Graph.fuse_wellBuilt {g : Arena} (good : g.Calls Composite.WellBuilt)
    {inputs outputs : List ValueId} {c : Composite} (success : g.fuse inputs outputs = .ok c) :
    c.WellBuilt ∧ c.config = g.config ∧ c.inputTypes = inputs.eraseDups.map g.typeOf ∧
      c.outputCount = outputs.length := by
  obtain ⟨tidy, calls, config, inputTypes, outputCount, -⟩ := fuseWith_sound
    Composite.specialise_sound Composite.wellBuilt_hereditary good success
  exact ⟨.intro tidy calls, config, inputTypes, outputCount⟩

namespace Expression

theorem exists_callee {ι : Type} {f : Composite → ι} {e : Expression Composite} {n : NodeId}
    {node : Node ι} (member : (n, node) ∈ (e.map f).nodes) {x : ι} (called : node.op = .call x) :
    ∃ original d, e.graph.nodes[n]? = some original ∧ original.op = .call d ∧ f d = x := by
  obtain ⟨-, listed⟩ := mem_nodes.mp member
  obtain ⟨original, found, rfl⟩ := Option.map_eq_some_iff.mp
    ((Graph.map_node_at _ e.graph n).symm.trans listed)
  cases op : original.op with
  | prim p => simp [Node.map, op, Op.map] at called
  | call d => exact ⟨original, d, found, op, by simpa [Node.map, op, Op.map] using called⟩

end Expression

namespace Composite

theorem narrow_eq (c : Composite) : c.narrow = (do
    let copy ← (c.body.map fun d => (d, d.narrow)).rebuild c.config.widen ScalarType.widen
      fun _ op => Build.placeWidened op
    copy.graph.fuse copy.inputs copy.outputs) := by
  rw [narrow, fold_eq, ← narrow]
  rfl

theorem placeWidened_call (c : Composite) (narrowed : Except Error Composite)
    (args : List ValueId) : Build.placeWidened (.call (c, narrowed)) args =
      if c.hasHalf then
        Build.ofExcept narrowed >>= fun d => Build.placeWith specialise (.call d) args
      else Build.placeWith specialise (.call c) args := by
  simp only [Build.placeWidened]
  split <;> rfl

def widenedWeight : Op (Composite × Except Error Composite) → Nat
  | .prim _ => 0
  | .call (c, .ok d) => (Op.call c).weight + (Op.call d).weight
  | .call (c, .error _) => (Op.call c).weight

theorem placed_widened {g : Arena} {op : Op (Composite × Except Error Composite)}
    (good : ∀ c narrowed, op = .call (c, narrowed) →
      c.WellBuilt ∧ ∀ d, narrowed = .ok d → d.WellBuilt) (n : NodeId) :
    Build.Placed (.body WellBuilt) g (fun _ op => Build.placeWidened op)
      (fun _ op => widenedWeight op) n op := by
  intro h args _ known
  have allowed := Policy.body_callsGood WellBuilt
  cases op with
  | prim p =>
    have place : ∀ q : Primitive, (Build.placeWith specialise (.prim q) args).Grows
        (.body WellBuilt) h fun outs k => k.Knows outs ∧ k.callCount ≤ h.callCount + 0 :=
      fun q => Build.grows_placeWith specialise_sound allowed (by simp) known
    cases p <;> exact place _
  | call entry =>
    obtain ⟨c, narrowed⟩ := entry
    obtain ⟨wellBuilt, narrowedGood⟩ := good c narrowed rfl
    have place : ∀ d : Composite, d.WellBuilt → (Build.placeWith specialise (.call d) args).Grows
        (.body WellBuilt) h
          fun outs k => k.Knows outs ∧ k.callCount ≤ h.callCount + (Op.call d).weight := by
      intro d good
      refine Build.grows_placeWith specialise_sound allowed ?_ known
      rintro _ ⟨rfl⟩
      exact good
    show (Build.placeWidened (.call (c, narrowed)) args).Grows _ _ _
    rw [placeWidened_call]
    split
    · apply Build.grows_ofExcept_bind
      rintro d rfl
      refine (place d (narrowedGood d rfl)).weaken ?_
      rintro outs k - ⟨known, light⟩
      exact ⟨known, by simp only [widenedWeight]; omega⟩
    · refine (place c wellBuilt).weaken ?_
      rintro outs k - ⟨known, light⟩
      refine ⟨known, ?_⟩
      cases narrowed <;> simp only [widenedWeight] <;> omega

theorem rebuild_widened_sound {e : Expression Composite} {config : Config} {copy : Copy}
    (callees : e.graph.Calls fun c => c.WellBuilt ∧ ∀ d, c.narrow = .ok d → d.WellBuilt)
    (rebuilt : (e.map fun d => (d, d.narrow)).rebuild config ScalarType.widen
      (fun _ op => Build.placeWidened op) = .ok copy) :
    copy.Sound WellBuilt config (e.inputTypes.map ScalarType.widen) e.outputs.length := by
  refine (Expression.rebuild_sound (P := WellBuilt) (fun _ op => widenedWeight op)
    (fun g n node member => ?_) rebuilt).1
  refine placed_widened (fun c narrowed called => ?_) n
  obtain ⟨original, d, found, called', same⟩ := Expression.exists_callee member called
  obtain ⟨rfl, rfl⟩ := Prod.mk.inj same
  exact callees found called'

theorem narrow_wellBuilt {c d : Composite} (good : c.WellBuilt) (success : c.narrow = .ok d) :
    d.WellBuilt ∧ d.inputTypes = c.inputTypes.map ScalarType.widen ∧
      d.outputCount = c.outputCount := by
  induction good generalizing d with
  | @mk e tidy callees ih =>
    rw [narrow_eq] at success
    obtain ⟨copy, rebuilt, fused⟩ := bind_eq_ok success
    have sound := rebuild_widened_sound (fun _ _ _ found called =>
      ⟨callees found called, fun _ success => (ih found called success).1⟩) rebuilt
    obtain ⟨wellBuilt, -, inputTypes, outputCount⟩ := Graph.fuse_wellBuilt sound.calls fused
    refine ⟨wellBuilt, ?_, outputCount.trans sound.outputs⟩
    rw [inputTypes, eraseDups_of_nodup sound.closed.distinct, sound.inputTypes]
    rfl

end Composite

end ScalarFusion

import Mathlib.Algebra.GroupWithZero.Nat
import ScalarFusion.Composite.Fusion
import ScalarFusion.Proofs.Growth

/-!
What replaying adds to an arena, whether it succeeds or fails: copies of constants, applications,
and calls of composites bound to the types of their arguments.
-/
namespace ScalarFusion

def Graph.Calls (g : Arena) (P : Composite → Prop) : Prop :=
  ∀ ⦃n : NodeId⦄ ⦃node : Node Composite⦄ ⦃c : Composite⦄,
    g.nodes[n]? = some node → node.op = .call c → P c

theorem Graph.Calls.callee {P : Composite → Prop} {e : Expression Composite} (calls : e.graph.Calls P)
    {c : Composite} (member : c ∈ e.callees) : P c := by
  obtain ⟨n, node, inside, called⟩ := Expression.mem_callees.mp member
  exact calls (Expression.mem_nodes.mp inside).2 called

def Op.weight : Op Composite → Nat
  | prim _ => 0
  | call c => c.callCount + 1

theorem foldl_add_eq {α : Type} (f : α → Nat) (as : List α) (start : Nat) :
    as.foldl (fun total a => total + f a) start = start + (as.map f).sum := by
  induction as generalizing start with
  | nil => rfl
  | cons a as ih =>
    rw [List.foldl_cons, ih, List.map_cons, List.sum_cons]
    omega

theorem Graph.callCount_eq (g : Arena) :
    g.callCount = (g.nodes.toList.map fun node => node.op.weight).sum := by
  have weight : ∀ node : Node Composite,
      ((node.op.callee?.map fun c => c.callCount + 1).getD 0) = node.op.weight := by
    rintro ⟨op, _, _⟩
    cases op <;> rfl
  rw [Graph.callCount, ← Array.foldl_toList, foldl_add_eq]
  simp [weight]

@[simp]
theorem Graph.callCount_pushValue (g : Arena) (x : Value) :
    (g.pushValue x).callCount = g.callCount := by
  rw [callCount_eq, callCount_eq, pushValue_nodes]

@[simp]
theorem Graph.callCount_pushNode (g : Arena) (op : Op Composite) (inputs : List ValueId)
    (types : List ScalarType) :
    (g.pushNode op inputs types).callCount = g.callCount + op.weight := by
  simp [callCount_eq]

theorem Composite.callCount_eq (c : Composite) :
    c.callCount = (c.body.nodes.map fun entry => entry.2.op.weight).sum := by
  rw [callCount, fold_eq, ← callCount]
  simp only [Nat.add_assoc]
  rw [foldl_add_eq, Nat.zero_add, Expression.callees_map, List.map_map, Expression.callees]
  induction c.body.nodes with
  | nil => rfl
  | cons entry entries ih =>
    obtain ⟨n, op, inputs, outputs⟩ := entry
    cases op with
    | prim p => simpa [Op.callee?, Op.weight] using ih
    | call d => simpa [Op.callee?, Op.weight] using ih

def Policy.body (P : Composite → Prop) : Policy where
  leaf x := ∃ type literal name, x = ⟨type, .constant (Literal.cast literal type) name⟩
  call c types := P c ∧ types = c.inputTypes

/-- `d` has the shape of `c` over inputs of the given types, and no more calls. -/
structure Composite.Adapts (d c : Composite) (types : List ScalarType) : Prop where
  inputTypes : d.inputTypes = types
  outputCount : d.outputCount = c.outputCount
  callCount : d.callCount ≤ c.callCount

def Specialiser.Sound (σ : Specialiser) (P : Composite → Prop) : Prop :=
  ∀ ⦃c : Composite⦄ ⦃types : List ScalarType⦄ ⦃d : Composite⦄, P c →
    types.length = c.inputCount → σ c types = .ok d → P d ∧ d.Adapts c types

def Policy.CallsGood (p : Policy) (P : Composite → Prop) : Prop :=
  ∀ c, P c → p.call c c.inputTypes

def Policy.KeepsConstants (p : Policy) : Prop :=
  ∀ type literal name, p.leaf ⟨type, .constant (Literal.cast literal type) name⟩

namespace Composite

theorem checkArity_eq (c : Composite) (found : Nat) : c.checkArity found =
    if found = c.inputCount then .ok () else .error (.arity "composite" c.arity found) := by
  unfold checkArity
  simp [arity, Arity.admits]

theorem length_inputTypes (c : Composite) : c.inputTypes.length = c.inputCount := by
  simp [inputTypes, Expression.inputTypes, inputCount, inputs]

def boundTo (σ : Specialiser) (c : Composite) (types : List ScalarType) :
    Except Error Composite := do
  c.checkArity types.length
  if types = c.inputTypes then .ok c else σ c types

theorem boundTo_inputTypes (σ : Specialiser) (c : Composite) :
    c.boundTo σ c.inputTypes = .ok c := by
  simp [boundTo, checkArity_eq, length_inputTypes]

theorem boundTo_sound {σ : Specialiser} {P : Composite → Prop} (sound : σ.Sound P)
    {c d : Composite} {types : List ScalarType} (good : P c) (bound : c.boundTo σ types = .ok d) :
    P d ∧ d.Adapts c types := by
  rw [boundTo, checkArity_eq] at bound
  split at bound
  · next arity =>
    rw [ok_bind] at bound
    split at bound
    · next same =>
      obtain rfl := Except.ok.inj bound
      exact ⟨good, same.symm, rfl, Nat.le_refl _⟩
    · exact sound good arity bound
  · cases bound

end Composite

namespace Build

variable {p : Policy} {P : Composite → Prop} {σ : Specialiser} {g h : Arena}

theorem exec_callWith (σ : Specialiser) (c : Composite) (args : List ValueId) (g : Arena) :
    (callWith σ c args).exec g = match c.boundTo σ (args.map g.typeOf) with
      | .ok d => (apply (.call d) args).exec g
      | .error e => (.error e, g) := by
  rw [callWith, exec_bind, exec_ofExcept, Composite.boundTo, List.length_map]
  cases c.checkArity args.length with
  | error e => rfl
  | ok _ =>
    simp only [ok_bind]
    rw [exec_bind_of_ok (exec_get g)]
    by_cases same : args.map g.typeOf = c.inputTypes
    · simp only [if_pos same]
      rfl
    · simp only [if_neg same]
      rw [exec_bind, exec_ofExcept]
      cases σ c (args.map g.typeOf) <;> rfl

theorem exec_placeWith {op : Op Composite} {args : List ValueId} {h : Arena}
    {types : List ScalarType} (nonempty : args = [] → op = .prim .mean)
    (bound : ∀ c, op = .call c → args.map h.typeOf = c.inputTypes)
    (typed : op.outputTypes (args.map h.typeOf) h.config = .ok types) :
    (placeWith σ op args).exec h =
      (.ok (List.range' h.values.size types.length), h.pushNode op args types) := by
  have applied := exec_apply_ok nonempty typed
  cases op with
  | prim p =>
    rw [placeWith, exec_bind_of_ok applied, exec_outputsOf_pushNode]
  | call c =>
    have same := bound c rfl
    have called : (callWith σ c args).exec h = (.ok h.nodes.size, h.pushNode (.call c) args types) := by
      rw [exec_callWith, same, Composite.boundTo_inputTypes]
      exact applied
    rw [placeWith, exec_bind_of_ok called, exec_outputsOf_pushNode]

theorem grows_callWith (sound : σ.Sound P) (allowed : p.CallsGood P)
    {c : Composite} (good : P c) {args : List ValueId} (known : g.Knows args) :
    (callWith σ c args).Grows p g fun n h => n = g.nodes.size ∧
      ∃ op inputs types, h = g.pushNode op inputs types ∧ op.weight ≤ c.callCount + 1 := by
  unfold Grows
  rw [exec_callWith]
  cases bound : c.boundTo σ (args.map g.typeOf) with
  | error e => exact ⟨.refl, by simp⟩
  | ok d =>
    obtain ⟨good', adapts⟩ := Composite.boundTo_sound sound good bound
    have call : ∀ e, (Op.call d : Op Composite) = .call e → p.call e (args.map g.typeOf) := by
      rintro _ ⟨rfl⟩
      rw [← adapts.inputTypes]
      exact allowed d good'
    obtain ⟨grown, result⟩ := grows_apply known call
    refine ⟨grown, ?_⟩
    intro n found
    obtain ⟨here, types, -, same⟩ := result n found
    exact ⟨here, _, _, types, same, Nat.succ_le_succ adapts.callCount⟩

theorem grows_placeWith (sound : σ.Sound P) (allowed : p.CallsGood P)
    {op : Op Composite} (good : ∀ c, op = .call c → P c) {args : List ValueId}
    (known : g.Knows args) :
    (placeWith σ op args).Grows p g
      fun outs h => h.Knows outs ∧ h.callCount ≤ g.callCount + op.weight := by
  have outputs : ∀ n h, Growth p g h → (n = g.nodes.size ∧
      ∃ op' inputs types, h = g.pushNode op' inputs types ∧ op'.weight ≤ op.weight) →
      (outputsOf n).Grows p h
        fun outs h => h.Knows outs ∧ h.callCount ≤ g.callCount + op.weight := by
    rintro n h - ⟨here, op', inputs, types, rfl, light⟩
    refine (grows_outputs here).weaken fun outs k _ result => ⟨result.2.1, ?_⟩
    rw [result.2.2, Graph.callCount_pushNode]
    omega
  cases op with
  | prim q =>
    refine grows_bind _ ((grows_apply known (by simp)).weaken ?_) outputs
    rintro n h - ⟨here, types, -, rfl⟩
    exact ⟨here, _, _, types, rfl, Nat.le_refl _⟩
  | call c => exact grows_bind _ (grows_callWith sound allowed (good c rfl) known) outputs

def Copied (copies : Table ValueId) (g : Arena) : Prop :=
  ∀ v w : Nat, copies.get? v = some w → w < g.values.size

theorem Copied.grown {copies : Table ValueId} (copied : Copied copies g) (grown : Growth p g h) :
    Copied copies h :=
  fun v w found => Nat.lt_of_lt_of_le (copied v w found) grown.toExtends.size_le

theorem Copied.insert {copies : Table ValueId} (copied : Copied copies g) {v w : Nat}
    (known : w < g.values.size) : Copied (copies.insert v w) g := by
  intro x y found
  rcases Table.insert_cases found with ⟨-, rfl⟩ | old
  · exact known
  · exact copied x y old

theorem Copied.insert_zip {copies : Table ValueId} (copied : Copied copies g)
    {olds news : List ValueId} (known : g.Knows news) :
    Copied ((olds.zip news).foldl (fun t (old, new) => t.insert old new) copies) g := by
  induction olds generalizing news copies with
  | nil => exact copied
  | cons old olds ih =>
    cases news with
    | nil => exact copied
    | cons new news =>
      rw [Graph.knows_cons] at known
      exact ih (copied.insert known.1) known.2

structure Resolved (vs : List ValueId) (g : Arena) (result : List ValueId × Table ValueId)
    (h : Arena) : Prop where
  known : h.Knows result.1
  length : result.1.length = vs.length
  copied : Copied result.2 h
  calls : h.callCount = g.callCount

theorem grows_resolve {κ : Type} (constants : p.KeepsConstants) (source : Graph κ)
    (retype : ScalarType → ScalarType) {copies : Table ValueId} (copied : Copied copies g)
    (v : ValueId) :
    (resolve source retype copies v).Grows p g
      fun r h => r.1 < h.values.size ∧ Copied r.2 h ∧ h.callCount = g.callCount := by
  unfold resolve
  split
  · next copy found => exact grows_pure ⟨copied v copy found, copied, rfl⟩
  · split
    · next type literal name _ =>
      refine grows_bind _ (grows_newValue rfl (constants _ _ _)) ?_
      rintro copy h grown ⟨rfl, rfl⟩
      have here : g.values.size < (g.pushValue ⟨retype type,
          .constant (literal.cast (retype type)) name⟩).values.size := by simp
      exact grows_pure ⟨here, (copied.grown grown).insert here, by simp⟩
    · exact grows_throw
    · exact grows_throw

theorem grows_resolveAll {κ : Type} (constants : p.KeepsConstants) (source : Graph κ)
    (retype : ScalarType → ScalarType) (vs : List ValueId) {copies : Table ValueId}
    (copied : Copied copies g) :
    (resolveAll source retype vs copies).Grows p g (Resolved vs g) := by
  induction vs generalizing copies g with
  | nil => exact grows_pure ⟨by simp, rfl, copied, rfl⟩
  | cons v vs ih =>
    unfold resolveAll
    refine grows_bind _ (grows_resolve constants source retype copied v) ?_
    rintro ⟨copy, copies'⟩ h grown ⟨here, copied', calls⟩
    refine grows_bind _ (ih copied') ?_
    rintro ⟨rest, copies''⟩ k grown' ⟨known, length, copied'', calls'⟩
    refine grows_pure ⟨?_, by simpa using length, copied'', calls'.trans calls⟩
    rw [Graph.knows_cons]
    exact ⟨Nat.lt_of_lt_of_le here grown'.toExtends.size_le, known⟩

def replayNode {κ : Type} (e : Expression κ) (retype : ScalarType → ScalarType)
    (place : NodeId → Op κ → List ValueId → Build (List ValueId)) (copies : Table ValueId)
    (entry : NodeId × Node κ) : Build (Table ValueId) := do
  let (args, copies) ← resolveAll e.graph retype entry.2.inputs copies
  let outputs ← place entry.1 entry.2.op args
  pure ((entry.2.outputs.zip outputs).foldl (fun t (old, new) => t.insert old new) copies)

theorem replay_eq {κ : Type} (e : Expression κ) (retype : ScalarType → ScalarType)
    (place : NodeId → Op κ → List ValueId → Build (List ValueId)) (copies : Table ValueId) :
    replay e retype place copies = (do
      let copies ← e.nodes.foldlM (replayNode e retype place) copies
      let (outputs, _) ← resolveAll e.graph retype e.outputs copies
      pure outputs) := rfl

/-- What placing a node gives: known outputs, and no more calls than the node may cost. -/
def Placed {κ : Type} (p : Policy) (g : Arena)
    (place : NodeId → Op κ → List ValueId → Build (List ValueId)) (cost : NodeId → Op κ → Nat)
    (n : NodeId) (op : Op κ) : Prop :=
  ∀ h args, Growth p g h → h.Knows args → (place n op args).Grows p h
    fun outs k => k.Knows outs ∧ k.callCount ≤ h.callCount + cost n op

theorem grows_replayNodes {κ : Type} (constants : p.KeepsConstants) (e : Expression κ)
    (retype : ScalarType → ScalarType)
    (place : NodeId → Op κ → List ValueId → Build (List ValueId)) (cost : NodeId → Op κ → Nat)
    (entries : List (NodeId × Node κ))
    (placed : ∀ n node, (n, node) ∈ entries → Placed p g place cost n node.op)
    {copies : Table ValueId} (copied : Copied copies g) :
    (entries.foldlM (replayNode e retype place) copies).Grows p g fun copies h => Copied copies h ∧
      h.callCount ≤ g.callCount + (entries.map fun entry => cost entry.1 entry.2.op).sum := by
  induction entries generalizing copies g with
  | nil => exact grows_pure ⟨copied, Nat.le_refl _⟩
  | cons entry entries ih =>
    rw [List.foldlM_cons]
    refine grows_bind (fun copies h => Copied copies h ∧
      h.callCount ≤ g.callCount + cost entry.1 entry.2.op) ?_ ?_
    · refine grows_bind _ (grows_resolveAll constants e.graph retype entry.2.inputs copied) ?_
      rintro ⟨args, copies'⟩ h grown ⟨known, -, copied', calls⟩
      refine grows_bind _ (placed entry.1 entry.2 (by simp) h args grown known) ?_
      rintro outs k grown' ⟨known', calls'⟩
      exact grows_pure ⟨(copied'.grown grown').insert_zip known', by omega⟩
    · rintro copies' h grown ⟨copied', calls⟩
      refine (ih ?_ copied').weaken ?_
      · intro n node member k args grown' known
        exact placed n node (by simp [member]) k args (grown.trans grown') known
      · rintro copies'' k - ⟨copied'', calls'⟩
        refine ⟨copied'', ?_⟩
        rw [List.map_cons, List.sum_cons]
        omega

theorem grows_replay {κ : Type} (constants : p.KeepsConstants) (e : Expression κ)
    (retype : ScalarType → ScalarType)
    (place : NodeId → Op κ → List ValueId → Build (List ValueId)) (cost : NodeId → Op κ → Nat)
    (placed : ∀ n node, (n, node) ∈ e.nodes → Placed p g place cost n node.op)
    {copies : Table ValueId} (copied : Copied copies g) :
    (replay e retype place copies).Grows p g fun outs h => h.Knows outs ∧
      outs.length = e.outputs.length ∧
      h.callCount ≤ g.callCount + (e.nodes.map fun entry => cost entry.1 entry.2.op).sum := by
  rw [replay_eq]
  refine grows_bind _ (grows_replayNodes constants e retype place cost e.nodes placed copied) ?_
  rintro copies' h grown ⟨copied', calls⟩
  refine grows_bind _ (grows_resolveAll constants e.graph retype e.outputs copied') ?_
  rintro ⟨outs, copies''⟩ k grown' ⟨known, length, -, calls'⟩
  exact grows_pure ⟨known, length, by omega⟩

theorem Copied.insertNew_zip {copies : Table ValueId} (copied : Copied copies g)
    {olds news : List ValueId} (known : g.Knows news) :
    Copied ((olds.zip news).foldl (fun t (old, new) => t.insertNew old new) copies) g := by
  induction olds generalizing news copies with
  | nil => exact copied
  | cons old olds ih =>
    cases news with
    | nil => exact copied
    | cons new news =>
      obtain ⟨here, rest⟩ := (Graph.knows_cons _ _ _).mp known
      refine ih ?_ rest
      simp only [Table.insertNew]
      split
      · exact copied
      · exact copied.insert here

theorem copied_bindInputs {inputs args : List ValueId} (known : g.Knows args) :
    Copied (bindInputs inputs args) g :=
  Copied.insertNew_zip (fun v w found => by simp at found) known

theorem grows_inlineWith (constants : p.KeepsConstants) (sound : σ.Sound P)
    (allowed : p.CallsGood P) {c : Composite} (good : c.graph.Calls P) {args : List ValueId}
    (known : g.Knows args) : (inlineWith σ c args).Grows p g fun outs h => h.Knows outs ∧
      outs.length = c.outputCount ∧ h.callCount ≤ g.callCount + c.callCount := by
  unfold inlineWith
  apply grows_ofExcept_bind
  intro _ _
  rw [Composite.callCount_eq]
  apply grows_replay constants _ _ _ fun _ op => op.weight
  · intro n node member h args _ known
    apply grows_placeWith sound allowed _ known
    intro d called
    exact good (Expression.mem_nodes.mp member).2 called
  · exact copied_bindInputs known

end Build

end ScalarFusion

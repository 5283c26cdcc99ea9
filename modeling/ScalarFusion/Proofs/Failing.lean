import ScalarFusion.Proofs.Denoting
import ScalarFusion.Proofs.Retyping

/-!
What failing steps leave. Constants, applications and calls check everything before they add anything,
so that an arena is left as it was if one of them fails. Only an application that has to have one output
counts its outputs when they are already there: if it fails for their number, the node stays.
-/
namespace ScalarFusion

namespace Build

variable {α β : Type} {g : Arena}

def Atomic (g : Arena) (b : Build α) : Prop :=
  ∀ e h, b.exec g = (.error e, h) → h = g

theorem atomic_of_ok {b : Build α} {a : α} {h : Arena} (run : b.exec g = (.ok a, h)) :
    b.Atomic g := by
  intro e k failed
  rw [run] at failed
  cases failed

theorem atomic_bind_of_look {b : Build α} {f : α → Build β} (look : (b.exec g).2 = g)
    (next : ∀ a, (f a).Atomic g) : (b >>= f).Atomic g := by
  intro e h failed
  rcases run : b.exec g with ⟨outcome, k⟩
  obtain rfl : k = g := by rw [← look, run]
  cases outcome with
  | error e' =>
    rw [exec_bind, run] at failed
    exact (Prod.mk.inj failed).2.symm
  | ok a =>
    rw [exec_bind_of_ok run] at failed
    exact next a e h failed

theorem Atomic.bind_total {b : Build α} {f : α → Build β} (first : b.Atomic g)
    (total : ∀ a h, ∃ c k, (f a).exec h = (.ok c, k)) : (b >>= f).Atomic g := by
  intro e h failed
  rcases run : b.exec g with ⟨outcome, k⟩
  cases outcome with
  | error e' =>
    rw [exec_bind, run] at failed
    obtain ⟨-, rfl⟩ := Prod.mk.inj failed
    exact first e' k run
  | ok a =>
    obtain ⟨c, k', success⟩ := total a k
    rw [exec_bind_of_ok run, success] at failed
    cases failed

theorem atomic_constant (literal : Literal) (type : Option ScalarType) (name : Option String) :
    (constant literal type name).Atomic g := by
  cases type with
  | none => exact atomic_of_ok rfl
  | some t => exact atomic_bind_of_look rfl fun _ => atomic_of_ok rfl

theorem atomic_apply (op : Op Composite) (inputs : List ValueId) : (apply op inputs).Atomic g := by
  intro e h failed
  by_cases nonempty : inputs = [] → op = .prim .mean
  · rw [exec_apply nonempty] at failed
    split at failed <;> cases failed
    rfl
  · obtain ⟨rfl, operands⟩ : inputs = [] ∧ op ≠ .prim .mean := by simpa using nonempty
    rw [exec_apply_refused operands] at failed
    exact (Prod.mk.inj failed).2.symm

theorem atomic_callWith (specialise : Specialiser) (c : Composite) (args : List ValueId) :
    (callWith specialise c args).Atomic g := by
  refine atomic_bind_of_look rfl fun _ => atomic_bind_of_look rfl fun h => ?_
  have applied : ∀ bound, (apply (.call bound) args).Atomic g := fun bound => atomic_apply _ args
  dsimp only
  split
  · exact atomic_bind_of_look rfl applied
  · exact atomic_bind_of_look rfl applied

theorem atomic_call (c : Composite) (args : List ValueId) : (call c args).Atomic g :=
  (atomic_callWith Composite.specialise c args).bind_total fun _ h => ⟨_, h, rfl⟩

end Build

def Composite.RefusedLate (c : Composite) (args : List ValueId) : Prop :=
  args ≠ [] ∧ args.length = c.inputCount ∧ c.outputCount ≠ 1

theorem Op.length_eq_one {op : Op Composite} {args : List ValueId}
    (timely : ∀ c, op = .call c → ¬ c.RefusedLate args) (nonempty : args = [] → op = .prim .mean)
    {inputs types : List ScalarType} {config : Config} (length : inputs.length = args.length)
    (typed : op.outputTypes inputs config = .ok types) : types.length = 1 := by
  rw [Op.length_outputTypes typed]
  cases op with
  | prim p => rfl
  | call c =>
    obtain ⟨_, arity, -⟩ := bind_eq_ok typed
    rw [Composite.checkArity_eq, length] at arity
    by_contra several
    refine timely c rfl ⟨fun empty => ?_, ?_, several⟩
    · cases nonempty empty
    · by_contra other
      rw [if_neg other] at arity
      cases arity

namespace Build

variable {g : Arena}

theorem atomic_apply1 {op : Op Composite} {inputs : List ValueId}
    (timely : ∀ c, op = .call c → ¬ c.RefusedLate inputs) : (apply1 op inputs).Atomic g := by
  intro e h failed
  by_cases nonempty : inputs = [] → op = .prim .mean
  · cases typed : op.outputTypes (inputs.map g.typeOf) g.config with
    | error e' =>
      rw [apply1, exec_bind, exec_apply nonempty, typed] at failed
      exact (Prod.mk.inj failed).2.symm
    | ok types =>
      obtain ⟨t, rfl⟩ := List.length_eq_one_iff.mp
        (Op.length_eq_one timely nonempty (List.length_map _) typed)
      rw [exec_apply1 nonempty typed] at failed
      cases failed
  · obtain ⟨rfl, operands⟩ : inputs = [] ∧ op ≠ .prim .mean := by simpa using nonempty
    rw [apply1, exec_bind, exec_apply_refused operands] at failed
    exact (Prod.mk.inj failed).2.symm

theorem exec_apply1_refused {c : Composite} {args : List ValueId} (late : c.RefusedLate args) :
    (apply1 (.call c) args).exec g =
      (.error (.severalOutputs "composite" c.outputCount), g.pushNode (.call c) args c.outputTypes) := by
  obtain ⟨nonempty, arity, several⟩ := late
  have typed : (Op.call c).outputTypes (args.map g.typeOf) g.config = .ok c.outputTypes := by
    rw [Op.outputTypes, Composite.checkArity_eq, List.length_map, if_pos arity, ok_bind]
  have length : c.outputTypes.length = c.outputCount := List.length_map _
  rw [apply1, exec_bind_of_ok (exec_apply_ok (fun empty => absurd empty nonempty) typed),
    exec_bind_of_ok (exec_outputsOf_pushNode _ _ _ g), length]
  rcases count : c.outputCount with _ | _ | n
  · rfl
  · exact absurd count several
  · simp [List.range'_succ, Op.name]

end Build

/-- Constants, applications and calls that fail leave the arena as it was. So do applications that have
    to have one output, unless a composite is applied that takes the arguments and has another number
    of outputs: these always fail, and leave the node of the call with its outputs. -/
theorem failed_construction_leaves (g : Arena) (args : List ValueId) :
    (∀ literal type name, (Build.constant literal type name).Atomic g) ∧
    (∀ op, (Build.apply op args).Atomic g) ∧
    (∀ c, (Build.makeCall c args).Atomic g) ∧
    (∀ c, (Build.call c args).Atomic g) ∧
    (∀ op, (∀ c, op = .call c → ¬ c.RefusedLate args) → (Build.apply1 op args).Atomic g) ∧
    ∀ c, c.RefusedLate args → (Build.apply1 (.call c) args).exec g =
      (.error (.severalOutputs "composite" c.outputCount),
        g.pushNode (.call c) args c.outputTypes) :=
  ⟨Build.atomic_constant, fun op => Build.atomic_apply op args,
    fun c => Build.atomic_callWith Composite.specialise c args, fun c => Build.atomic_call c args,
    fun _ timely => Build.atomic_apply1 timely, fun _ late => Build.exec_apply1_refused late⟩

def Graph.lone : Arena :=
  (Action.newVariable (.signed .w8) (some "y")).perform {}

/-- The opposite and the square of the variable are left behind by an application that asks for one
    output. -/
theorem both_left_behind : Reachable .lone ∧ Obtained .both ∧ Composite.both.RefusedLate [0] ∧
    (Build.apply1 (.call .both) [0]).exec .lone =
      (.error (.severalOutputs "composite" 2),
        Graph.lone.pushNode (.call .both) [0] [.signed .w8, .signed .w8]) ∧
    ((Action.apply1 (.call .both) [0]).perform .lone).nodes.size = 1 ∧
    Graph.lone.nodes.size = 0 := by
  have late : Composite.both.RefusedLate [0] := ⟨by decide, rfl, by decide⟩
  have failed := (failed_construction_leaves .lone [0]).2.2.2.2.2 .both late
  refine ⟨.perform (.empty {}) (by decide) (by simp [Action.composite?]), both_obtained, late,
    failed, ?_, rfl⟩
  rw [Action.perform, failed]
  rfl

end ScalarFusion

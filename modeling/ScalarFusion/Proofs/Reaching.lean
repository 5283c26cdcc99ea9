import ScalarFusion.Proofs.Differentiating

/-!
Everything that a client can get hold of: graphs made from empty ones by public steps, successful
or not, and composites fused, narrowed or found in them. All of it is well built.
-/
namespace ScalarFusion

inductive Action where
  | newVariable (type : ScalarType) (name : Option String)
  | constant (literal : Literal) (type : Option ScalarType) (name : Option String)
  | typedConstant (literal : Literal) (type : ScalarType)
  | apply (op : Op Composite) (inputs : List ValueId)
  | apply1 (op : Op Composite) (inputs : List ValueId)
  | makeCall (c : Composite) (args : List ValueId)
  | call (c : Composite) (args : List ValueId)
  | inline (c : Composite) (args : List ValueId)
  | operandGradients (op : Op Composite) (inputs outputs arriving : List ValueId)
  | gradient (cost : ValueId) (targets : List ValueId)

namespace Action

def operands : Action → List ValueId
  | newVariable _ _ => []
  | constant _ _ _ => []
  | typedConstant _ _ => []
  | apply _ inputs => inputs
  | apply1 _ inputs => inputs
  | makeCall _ args => args
  | call _ args => args
  | inline _ args => args
  | operandGradients _ inputs outputs arriving => inputs ++ outputs ++ arriving
  | gradient cost targets => cost :: targets

def composite? : Action → Option Composite
  | newVariable _ _ => none
  | constant _ _ _ => none
  | typedConstant _ _ => none
  | apply op _ => op.callee?
  | apply1 op _ => op.callee?
  | makeCall c _ => some c
  | call c _ => some c
  | inline c _ => some c
  | operandGradients op _ _ _ => op.callee?
  | gradient _ _ => none

/-- The graph after the step. A step that fails leaves what it had already added. -/
def perform : Action → Arena → Arena
  | newVariable type name, g => ((Build.newVariable type name).exec g).2
  | constant literal type name, g => ((Build.constant literal type name).exec g).2
  | typedConstant literal type, g => ((Build.typedConstant literal type).exec g).2
  | apply op inputs, g => ((Build.apply op inputs).exec g).2
  | apply1 op inputs, g => ((Build.apply1 op inputs).exec g).2
  | makeCall c args, g => ((Build.makeCall c args).exec g).2
  | call c args, g => ((Build.call c args).exec g).2
  | inline c args, g => ((Build.inline c args).exec g).2
  | operandGradients op inputs outputs arriving, g =>
    ((op.gradient inputs outputs arriving).exec g).2
  | gradient cost targets, g => ((Build.gradient cost targets).exec g).2

end Action

inductive Item where
  | graph (g : Arena)
  | composite (c : Composite)

inductive Available : Item → Prop where
  | empty (config : Config) : Available (.graph { config })
  | perform {g : Arena} {a : Action} (graph : Available (.graph g)) (known : g.Knows a.operands)
      (composite : ∀ c, a.composite? = some c → Available (.composite c)) :
      Available (.graph (a.perform g))
  | fuse {g : Arena} {inputs outputs : List ValueId} {c : Composite} (graph : Available (.graph g))
      (known : g.Knows (inputs ++ outputs)) (fused : g.fuse inputs outputs = .ok c) :
      Available (.composite c)
  | narrow {c d : Composite} (composite : Available (.composite c)) (narrowed : c.narrow = .ok d) :
      Available (.composite d)
  | body {c : Composite} (composite : Available (.composite c)) : Available (.graph c.graph)
  | callee {g : Arena} {n : NodeId} {node : Node Composite} {c : Composite}
      (graph : Available (.graph g)) (found : g.nodes[n]? = some node) (called : node.op = .call c) :
      Available (.composite c)

def Reachable (g : Arena) : Prop :=
  Available (.graph g)

def Obtained (c : Composite) : Prop :=
  Available (.composite c)

theorem Op.callee?_eq_some {κ : Type} {op : Op κ} {c : κ} : op.callee? = some c ↔ op = .call c := by
  cases op <;> simp [Op.callee?]

theorem Action.growth {g : Arena} (built : g.Built) {a : Action} (known : g.Knows a.operands)
    (good : ∀ c, a.composite? = some c → c.WellBuilt) : Growth .client g (a.perform g) := by
  -- composites come in through calls only, and are good by hypothesis; whatever
  -- else a step builds on the way is made of values that it knows
  cases a with
  | newVariable type name => exact .leaf .refl rfl (by simp [Policy.client])
  | constant literal type name =>
    cases type with
    | none =>
      refine .leaf .refl rfl ?_
      intro _ _ same
      simp only [Source.constant.injEq] at same
      obtain ⟨rfl, rfl⟩ := same
      exact .inr rfl
    | some t =>
      have grows : (Build.constant literal (some t) name).Grows .client g fun _ _ => True := by
        apply Build.grows_ofExcept_bind
        intro checked success
        obtain rfl := Literal.cast_of_checkedCast success
        exact (Build.grows_newValue rfl (Policy.client_keepsConstants _ _ _)).weaken
          fun _ _ _ _ => trivial
      exact grows.1
  | typedConstant literal type => exact (Build.gives_typedConstant literal type).1
  | apply op inputs =>
    exact (Build.grows_apply known fun c called => good c (Op.callee?_eq_some.mpr called)).1
  | apply1 op inputs =>
    exact (Build.grows_apply1 (fun c called => good c (Op.callee?_eq_some.mpr called)) known).1
  | makeCall c args =>
    exact (Build.grows_callWith Composite.specialise_sound Policy.client_callsGood (good c rfl)
      known).1
  | call c args =>
    have grows : (Build.call c args).Grows .client g fun _ _ => True := by
      refine Build.grows_bind _ (Build.grows_callWith Composite.specialise_sound
        Policy.client_callsGood (good c rfl) known) ?_
      intro n h _ _
      exact ⟨.refl, fun _ _ => trivial⟩
    exact grows.1
  | inline c args => exact (Build.givesAll_inline (good c rfl) known).1
  | operandGradients op inputs outputs arriving =>
    have split : g.Knows inputs ∧ g.Knows outputs ∧ g.Knows arriving := by
      refine ⟨?_, ?_, ?_⟩ <;> intro v member <;> exact known v (by simp [Action.operands, member])
    exact (Build.givesAll_gradientWith Build.callGradient_safe built
      (fun c called => good c (Op.callee?_eq_some.mpr called)) split.1 split.2.1 split.2.2).1
  | gradient cost targets => exact (Build.givesAll_gradient built cost targets).1

def Item.Sound : Item → Prop
  | graph g => g.Built
  | composite c => c.WellBuilt

theorem Available.sound {item : Item} (available : Available item) : item.Sound := by
  induction available with
  | empty config => exact Graph.built_empty config
  | perform _ known _ built good => exact Graph.Built.grown built (Action.growth built known good)
  | fuse _ _ fused built => exact (Graph.fuse_wellBuilt built.calls fused).1
  | narrow _ narrowed good => exact (Composite.narrow_wellBuilt good narrowed).1
  | body _ good => exact Composite.WellBuilt.graph_built good
  | callee _ found called built => exact built.calls found called

theorem Reachable.built {g : Arena} (reachable : Reachable g) : g.Built :=
  Available.sound reachable

theorem Obtained.wellBuilt {c : Composite} (obtained : Obtained c) : c.WellBuilt :=
  Available.sound obtained

def Graph.negation (t : ScalarType) : Arena :=
  (Action.apply (.prim .neg) [0]).perform ((Action.newVariable t (some "x")).perform {})

theorem negation_reachable (t : ScalarType) : Reachable (.negation t) := by
  refine .perform (.perform (.empty {}) ?_ ?_) ?_ ?_
  · simp [Action.operands]
  · simp [Action.composite?]
  · intro v member
    obtain rfl : v = 0 := by simpa [Action.operands] using member
    exact Nat.zero_lt_one
  · simp [Action.composite?, Op.callee?]

def Composite.negation (t : ScalarType) : Composite :=
  .mk ⟨.negation t, [0], [1], [0]⟩

theorem negation_fused {t : ScalarType} (number : t ≠ .bool) :
    (Graph.negation t).fuse [0] [1] = .ok (.negation t) := by
  rcases t with _ | (_ | _ | _ | _) | (_ | _ | _ | _) | (_ | _ | _) | (_ | _)
  · exact absurd rfl number
  all_goals rfl

theorem negation_obtained {t : ScalarType} (number : t ≠ .bool) : Obtained (.negation t) := by
  refine .fuse (negation_reachable t) ?_ (negation_fused number)
  rcases t with _ | (_ | _ | _ | _) | (_ | _ | _ | _) | (_ | _ | _) | (_ | _)
  · exact absurd rfl number
  all_goals decide

def Graph.nested (t : ScalarType) : Arena :=
  (Action.apply (.prim .neg) [1]).perform ((Action.call (.negation t) [0]).perform
    ((Action.newVariable t (some "x")).perform {}))

theorem nested_reachable {t : ScalarType} (number : t ≠ .bool) : Reachable (.nested t) := by
  refine .perform (.perform (.perform (.empty {}) ?_ ?_) ?_ ?_) ?_ ?_
  · simp [Action.operands]
  · simp [Action.composite?]
  · intro v member
    obtain rfl : v = 0 := by simpa [Action.operands] using member
    exact Nat.zero_lt_one
  · intro c same
    obtain rfl := Option.some.inj same
    exact negation_obtained number
  · rcases t with _ | (_ | _ | _ | _) | (_ | _ | _ | _) | (_ | _ | _) | (_ | _)
    · exact absurd rfl number
    all_goals decide
  · simp [Action.composite?, Op.callee?]

end ScalarFusion

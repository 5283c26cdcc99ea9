import ScalarFusion.Proofs.Denoting

/-!
The literals that evaluation gives. Arguments and results of nodes are converted to the types of the
values that they are bound to, while a constant is read as it is held. Every output is therefore a
literal of its type, with one exception: a constant that was given as an unsigned integer without a
type, whose type is the smallest signed one that holds it.
-/
namespace ScalarFusion

theorem Literal.HeldAs.cast_eq_iff {a : Literal} {t : ScalarType} (held : a.HeldAs t) :
    a.cast t = a ↔ ¬ ∃ w n, t = .signed w ∧ a = .unsigned n := by
  constructor
  · rintro kept ⟨w, n, rfl, rfl⟩
    cases kept
  · intro plain
    rcases held with kept | rfl
    · exact kept
    · cases a with
      | bool b => rfl
      | signed n => exact cast_inferType_signed n
      | unsigned n =>
        simp only [inferType] at plain ⊢
        split at plain
        · next inside =>
          obtain ⟨w, type, -⟩ := smallestSigned_holds inside
          exact absurd ⟨w, n, type, rfl⟩ plain
        · next beyond =>
          rw [if_neg beyond, cast_unsigned_w64]
      | float x => rfl
      | complex z => rfl

theorem Table.entry_of_foldl_insert {α : Type} {entries : List (Nat × α)} {t : Table α} {u : Nat}
    {w : α} (entry : (entries.foldl (fun t (v, a) => t.insert v a) t).get? u = some w) :
    (u, w) ∈ entries ∨ t.get? u = some w := by
  induction entries generalizing t with
  | nil => exact .inr entry
  | cons first entries ih =>
    rcases ih entry with later | before
    · exact .inl (List.mem_cons_of_mem _ later)
    · rcases Table.insert_cases before with ⟨rfl, rfl⟩ | old
      · exact .inl (by simp)
      · exact .inr old

theorem Table.contains_foldl_insert {α : Type} (entries : List (Nat × α)) {t : Table α} {u : Nat}
    (bound : (t.get? u).isSome = true) :
    ((entries.foldl (fun t (v, a) => t.insert v a) t).get? u).isSome = true := by
  induction entries generalizing t with
  | nil => exact bound
  | cons first entries ih =>
    apply ih
    rw [Table.get?_insert]
    split
    · rfl
    · exact bound

namespace Expression

variable {e : Expression Composite} {args : List Literal} {env env' : Table Literal}

/-- All inputs have entries, the others are of outputs of nodes, and all are of their types. -/
structure Normalized (e : Expression Composite) (env : Table Literal) : Prop where
  inputs : ∀ v ∈ e.inputs, (env.get? v).isSome = true
  others : ∀ {v : ValueId} {a : Literal}, env.get? v = some a →
    v ∈ e.inputs ∨ ∃ type n k, e.graph.values[v]? = some ⟨type, .output n k⟩
  entries : ∀ {v : ValueId} {a : Literal}, env.get? v = some a → a.cast (e.graph.typeOf v) = a

theorem normalized_bindArguments (arity : args.length = e.inputs.length) :
    e.Normalized (e.bindArguments args) where
  inputs := by
    intro v member
    have inside : e.inputs.idxOf v < args.length := arity ▸ List.idxOf_lt_length_iff.mpr member
    rw [get?_bindArguments e arity, List.getElem?_eq_getElem inside]
    rfl
  others := by
    intro v a entry
    rw [get?_bindArguments e arity, Option.map_eq_some_iff] at entry
    obtain ⟨arg, given, -⟩ := entry
    have inside := (List.getElem?_eq_some_iff.mp given).1
    exact .inl (List.idxOf_lt_length_iff.mp (arity ▸ inside))
  entries := by
    intro v a entry
    rw [get?_bindArguments e arity, Option.map_eq_some_iff] at entry
    obtain ⟨arg, -, rfl⟩ := entry
    exact arg.cast_cast _

theorem cast_of_mem_results {outputs : List ValueId} {results : List Literal}
    {typeOf : ValueId → ScalarType} {v : ValueId} {a : Literal}
    (member : (v, a) ∈ outputs.zip (List.zipWith Literal.cast results (outputs.map typeOf))) :
    v ∈ outputs ∧ a.cast (typeOf v) = a := by
  obtain ⟨k, here⟩ := List.getElem?_of_mem member
  obtain ⟨output, entry⟩ := List.getElem?_zip_eq_some.mp here
  obtain ⟨result, t, -, type, converted⟩ := List.getElem?_zipWith_eq_some.mp entry
  rw [List.getElem?_map, output] at type
  have same : typeOf v = t := Option.some.inj type
  obtain rfl : result.cast t = a := converted
  rw [same]
  exact ⟨List.mem_of_getElem? output, result.cast_cast t⟩

theorem Normalized.step [Numerics] (normalized : e.Normalized env) (ordered : e.graph.Ordered)
    {n : NodeId} {node : Node Composite} (here : e.graph.nodes[n]? = some node)
    (success : e.setResults env node = .ok env') : e.Normalized env' := by
  obtain ⟨values, -, success⟩ := bind_eq_ok success
  obtain ⟨results, -, success⟩ := bind_eq_ok success
  obtain rfl := Except.ok.inj success
  constructor
  · intro v member
    exact Table.contains_foldl_insert _ (normalized.inputs v member)
  · intro v a entry
    rcases Table.entry_of_foldl_insert entry with set | before
    · obtain ⟨k, output⟩ := List.getElem?_of_mem (cast_of_mem_results set).1
      obtain ⟨type, found⟩ := ordered.produced.mpr ⟨node, here, output⟩
      exact .inr ⟨type, n, k, found⟩
    · exact normalized.others before
  · intro v a entry
    rcases Table.entry_of_foldl_insert entry with set | before
    · exact (cast_of_mem_results set).2
    · exact normalized.entries before

theorem Normalized.run [Numerics] {nodes : List (NodeId × Node Composite)}
    (normalized : e.Normalized env)
    (ordered : e.graph.Ordered) (here : ∀ entry ∈ nodes, e.graph.nodes[entry.1]? = some entry.2)
    (success : nodes.foldlM (fun env entry => e.setResults env entry.2) env = .ok env') :
    e.Normalized env' := by
  induction nodes generalizing env with
  | nil =>
    obtain rfl := Except.ok.inj success
    exact normalized
  | cons entry nodes ih =>
    rw [List.foldlM_cons] at success
    obtain ⟨middle, one, more⟩ := bind_eq_ok success
    exact ih (normalized.step ordered (here entry (by simp)) one)
      (fun entry member => here entry (by simp [member])) more

theorem Normalized.lookup_cases (normalized : e.Normalized env) {v : ValueId} {a : Literal}
    (success : e.lookup env v = .ok a) :
    env.get? v = some a ∨
      v ∉ e.inputs ∧ ∃ type name, e.graph.values[v]? = some ⟨type, .constant a name⟩ := by
  unfold lookup at success
  split at success
  · next entry => exact .inl (Except.ok.inj success ▸ entry)
  · next none =>
    refine .inr ⟨fun member => ?_, ?_⟩
    · have bound := normalized.inputs v member
      simp [none] at bound
    · split at success
      · next literal found =>
        obtain rfl := Except.ok.inj success
        obtain ⟨⟨type, source⟩, value, held⟩ := Option.bind_eq_some_iff.mp found
        cases source with
        | constant b name =>
          obtain rfl := Option.some.inj held
          exact ⟨type, name, value⟩
        | _ => cases held
      · cases success

end Expression

/-- The value is a constant that was given as an unsigned integer and has a signed type, and it is not
    bound to an argument. -/
def Graph.HeldUnsigned (g : Arena) (inputs : List ValueId) (v : ValueId) : Prop :=
  v ∉ inputs ∧ ∃ w n name, g.values[v]? = some ⟨.signed w, .constant (.unsigned n) name⟩

/-- What is looked up is of the type of its value, but for the constants held otherwise. -/
theorem Expression.Normalized.cast_lookup {e : Expression Composite} {env : Table Literal}
    (normalized : e.Normalized env) (built : e.graph.Built) {v : ValueId} {a : Literal}
    (success : e.lookup env v = .ok a) :
    (a.cast (e.graph.typeOf v)).Alike a ∧
      (a.cast (e.graph.typeOf v) = a ↔ ¬ e.graph.HeldUnsigned e.inputs v) := by
  rcases normalized.lookup_cases success with entry | ⟨beyond, type, name, found⟩
  · have kept := normalized.entries entry
    refine ⟨by rw [kept]; exact .refl a, fun _ => ?_, fun _ => kept⟩
    rintro ⟨beyond, w, n, name, found⟩
    rcases normalized.others entry with member | ⟨type, m, k, found'⟩
    · exact beyond member
    · simp [found] at found'
  · have typed : e.graph.typeOf v = type := by simp [Graph.typeOf, found]
    have held := built.held found
    rw [typed]
    refine ⟨held.alike, held.cast_eq_iff.trans (not_congr ⟨?_, ?_⟩)⟩
    · rintro ⟨w, n, rfl, rfl⟩
      exact ⟨beyond, w, n, name, found⟩
    · rintro ⟨-, w, n, name', found'⟩
      simp only [found, Option.some.injEq, Value.mk.injEq, Source.constant.injEq] at found'
      exact ⟨w, n, found'.1, found'.2.1⟩

/-- Which outputs of evaluation are literals of their types. In a graph that clients can build,
    whatever the inputs, outputs and arguments are: if evaluation succeeds, there is one literal for each
    output, no conversion tells it from the literal of the output's type, and it is that literal
    exactly if the output is not a constant that was given as an unsigned integer and has a signed
    type. Inputs, node results and all other constants are of their types. -/
theorem outputs_normalized_iff [Numerics] {g : Arena} (reachable : Reachable g)
    {inputs outputs : List ValueId}
    {e : Expression Composite} (success : g.expression inputs outputs = .ok e) {args vs : List Literal}
    (evaluated : (e.map Composite.evaluate).evaluate args = .ok vs) :
    List.Forall₂ (fun o v => (v.cast (g.typeOf o)).Alike v ∧
      (v.cast (g.typeOf o) = v ↔ ¬ g.HeldUnsigned inputs o)) outputs vs := by
  have built := reachable.built
  obtain ⟨rfl, rfl, rfl⟩ := Graph.expression_eq success
  rw [Expression.evaluate_map] at evaluated
  split at evaluated
  · next arity =>
    obtain ⟨env, run, found⟩ := bind_eq_ok evaluated
    have normalized := (Expression.normalized_bindArguments arity).run built.ordered
      (fun entry member => (Expression.mem_nodes.mp member).2) run
    exact (forall₂_of_mapM found).imp fun o v looked => normalized.cast_lookup built looked
  · cases evaluated

def Graph.leaking : Arena :=
  (Action.constant (.unsigned 5) none none).perform (.negation (.signed .w8))

theorem leaking_reachable : Reachable .leaking :=
  .perform (negation_reachable _) (by simp [Action.operands]) (by simp [Action.composite?])

theorem leaking_normalized : Reachable .leaking ∧
    ∃ e, Graph.leaking.expression [0] [0, 1, 2] = .ok e ∧
      (e.map Composite.evaluate).evaluate [.signed 300] =
        .ok [.signed 44, .signed (-44), .unsigned 5] ∧
      List.Forall₂ (fun o (v : Literal) => (v.cast (Graph.leaking.typeOf o)).Alike v ∧
        (v.cast (Graph.leaking.typeOf o) = v ↔ ¬ Graph.leaking.HeldUnsigned [0] o))
        [0, 1, 2] [.signed 44, .signed (-44), .unsigned 5] := by
  have success : Graph.leaking.expression [0] [0, 1, 2] =
      .ok ⟨.leaking, [0], [0, 1, 2], [0]⟩ := rfl
  have evaluated : ((⟨.leaking, [0], [0, 1, 2], [0]⟩ : Expression Composite).map
      Composite.evaluate).evaluate [.signed 300] =
        .ok [.signed 44, .signed (-44), .unsigned 5] := by
    rw [Expression.evaluate_map]
    rfl
  exact ⟨leaking_reachable, _, success, evaluated,
    outputs_normalized_iff leaking_reachable success evaluated⟩

/-- An output of a signed type that is an unsigned literal. -/
theorem leaking_unsigned :
    Graph.leaking.typeOf 2 = .signed .w8 ∧
    ((⟨.leaking, [], [2], []⟩ : Expression Composite).map Composite.evaluate).evaluate [] =
      .ok [.unsigned 5] ∧
    (Literal.unsigned 5).cast (.signed .w8) = .signed 5 := by
  refine ⟨rfl, ?_, by decide +kernel⟩
  rw [Expression.evaluate_map]
  rfl

end ScalarFusion

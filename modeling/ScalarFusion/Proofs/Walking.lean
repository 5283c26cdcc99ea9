import ScalarFusion.Proofs.Building

/-!
The order of an expression. `Walks` describes the walk without its table of entered nodes: a node
is left after everything that its operands need. In an ordered graph this is what `expression`
computes, so every fact about orders is an induction on `Walks`.
-/
namespace ScalarFusion

@[simp]
theorem Table.contains_empty {α : Type} (i : Nat) : (Table.empty : Table α).contains i = false := by
  simp [Table.contains]

@[simp]
theorem Table.contains_insert {α : Type} (t : Table α) (i j : Nat) (a : α) :
    (t.insert i a).contains j = true ↔ i = j ∨ t.contains j = true := by
  unfold Table.contains
  rw [Table.get?_insert]
  split <;> simp_all

theorem Table.contains_insertAll (vs : List ValueId) (t : Table Unit) (u : ValueId) :
    (vs.foldl (fun t v => t.insert v ()) t).contains u = true ↔ u ∈ vs ∨ t.contains u = true := by
  induction vs generalizing t with
  | nil => simp
  | cons v vs ih =>
    rw [List.foldl_cons, ih, Table.contains_insert, List.mem_cons]
    constructor
    · rintro (member | rfl | old)
      · exact .inl (.inr member)
      · exact .inl (.inl rfl)
      · exact .inr old
    · rintro ((rfl | member) | old)
      · exact .inr (.inl rfl)
      · exact .inl member
      · exact .inr (.inr old)

namespace Graph

variable {κ : Type}

/-- A value that needs no node besides those of `done`. -/
inductive Supplied (g : Graph κ) (inputs : List ValueId) (done : List NodeId) (v : ValueId) :
    Prop where
  | input (member : v ∈ inputs)
  | constant {type : ScalarType} {literal : Literal} {name : Option String}
      (found : g.values[v]? = some ⟨type, .constant literal name⟩)
  | output {type : ScalarType} {n : NodeId} {k : Nat}
      (found : g.values[v]? = some ⟨type, .output n k⟩) (member : n ∈ done)

theorem Supplied.mono {g : Graph κ} {inputs : List ValueId} {done more : List NodeId}
    {v : ValueId} (supplied : g.Supplied inputs done v) (subset : ∀ n ∈ done, n ∈ more) :
    g.Supplied inputs more v := by
  cases supplied with
  | input member => exact .input member
  | constant found => exact .constant found
  | output found member => exact .output found (subset _ member)

theorem Supplied.mem {g : Graph κ} {inputs : List ValueId} {done : List NodeId} {v : ValueId}
    (supplied : g.Supplied inputs done v) (beyond : v ∉ inputs) {type : ScalarType} {n : NodeId}
    {k : Nat} (found : g.values[v]? = some ⟨type, .output n k⟩) : n ∈ done := by
  cases supplied with
  | input member => exact absurd member beyond
  | constant found' => simp [found] at found'
  | output found' member =>
    simp only [found, Option.some.injEq, Value.mk.injEq, Source.output.injEq] at found'
    exact found'.2.1 ▸ member

/-- Visiting `vs` one after another, with the nodes of `done` left before, leaves `done'`. -/
inductive Walks (g : Graph κ) (inputs : List ValueId) :
    List ValueId → List NodeId → List NodeId → Prop where
  | nil {done : List NodeId} : Walks g inputs [] done done
  | skip {v : ValueId} {vs : List ValueId} {done done' : List NodeId}
      (supplied : g.Supplied inputs done v) (rest : Walks g inputs vs done done') :
      Walks g inputs (v :: vs) done done'
  | enter {v : ValueId} {vs : List ValueId} {done inner done' : List NodeId} {type : ScalarType}
      {n : NodeId} {k : Nat} {node : Node κ} (beyond : v ∉ inputs)
      (found : g.values[v]? = some ⟨type, .output n k⟩) (fresh : n ∉ done)
      (here : g.nodes[n]? = some node) (operands : Walks g inputs node.inputs done inner)
      (unmet : n ∉ inner) (rest : Walks g inputs vs (inner ++ [n]) done') :
      Walks g inputs (v :: vs) done done'

/-- Every node of the order exists, comes once and after what it needs. -/
inductive Scheduled (g : Graph κ) (inputs : List ValueId) : List NodeId → Prop where
  | nil : Scheduled g inputs []
  | snoc {done : List NodeId} {n : NodeId} {node : Node κ} (before : Scheduled g inputs done)
      (fresh : n ∉ done) (here : g.nodes[n]? = some node)
      (operands : ∀ v ∈ node.inputs, g.Supplied inputs done v) : Scheduled g inputs (done ++ [n])

namespace Walks

variable {g : Graph κ} {inputs vs : List ValueId} {done done' : List NodeId}

theorem grows (walk : Walks g inputs vs done done') : ∃ new, done' = done ++ new := by
  induction walk with
  | nil => exact ⟨[], by simp⟩
  | skip _ _ ih => exact ih
  | @enter _ _ _ _ _ _ n _ _ _ _ _ _ _ _ _ ihOperands ihRest =>
    obtain ⟨first, rfl⟩ := ihOperands
    obtain ⟨second, rfl⟩ := ihRest
    exact ⟨first ++ [n] ++ second, by simp⟩

theorem subset (walk : Walks g inputs vs done done') : ∀ n ∈ done, n ∈ done' := by
  obtain ⟨new, rfl⟩ := walk.grows
  intro n member
  simp [member]

theorem supplied (walk : Walks g inputs vs done done') :
    ∀ v ∈ vs, g.Supplied inputs done' v := by
  induction walk with
  | nil => simp
  | skip supplied rest ih =>
    rintro v (_ | ⟨_, member⟩)
    · exact supplied.mono rest.subset
    · exact ih v member
  | enter _ found _ _ _ _ rest _ ihRest =>
    rintro v (_ | ⟨_, member⟩)
    · exact .output found (rest.subset _ (by simp))
    · exact ihRest v member

theorem scheduled (walk : Walks g inputs vs done done') (start : g.Scheduled inputs done) :
    g.Scheduled inputs done' := by
  induction walk with
  | nil => exact start
  | skip _ _ ih => exact ih start
  | enter _ _ _ here operands unmet _ ihOperands ihRest =>
    exact ihRest (.snoc (ihOperands start) unmet here operands.supplied)

theorem unique (walk : Walks g inputs vs done done') {other : List NodeId}
    (walk' : Walks g inputs vs done other) : done' = other := by
  induction walk generalizing other with
  | nil =>
    cases walk'
    rfl
  | skip supplied _ ih =>
    cases walk' with
    | skip _ rest' => exact ih rest'
    | enter beyond found fresh => exact absurd (supplied.mem beyond found) fresh
  | enter beyond found fresh here _ _ _ ihOperands ihRest =>
    cases walk' with
    | skip supplied' => exact absurd (supplied'.mem beyond found) fresh
    | enter _ found' _ here' operands' _ rest' =>
      simp only [found, Option.some.injEq, Value.mk.injEq, Source.output.injEq] at found'
      obtain ⟨-, rfl, -⟩ := found'
      obtain rfl := Option.some.inj (here.symm.trans here')
      obtain rfl := ihOperands operands'
      exact ihRest rest'

end Walks

namespace Scheduled

variable {g : Graph κ} {inputs : List ValueId} {order : List NodeId}

theorem nodup (scheduled : g.Scheduled inputs order) : order.Nodup := by
  induction scheduled with
  | nil => exact List.nodup_nil
  | snoc _ fresh _ _ ih =>
    rw [List.nodup_append]
    refine ⟨ih, by simp, ?_⟩
    rintro m member _ (_ | ⟨_, ⟨⟩⟩) rfl
    exact fresh member

theorem exists_node (scheduled : g.Scheduled inputs order) {n : NodeId} (member : n ∈ order) :
    ∃ node, g.nodes[n]? = some node := by
  induction scheduled with
  | nil => cases member
  | snoc _ _ here _ ih =>
    rcases List.mem_append.mp member with old | new
    · exact ih old
    · obtain rfl := List.mem_singleton.mp new
      exact ⟨_, here⟩

end Scheduled

/-- What holds of a walk while the values `vs` are visited: nodes that were entered are left, or
    are below every one of `vs`. -/
structure Settled (g : Graph κ) (vs : List ValueId) (w : Walk) : Prop where
  left : ∀ n ∈ w.left, w.entered.contains n = true
  entered : ∀ n : NodeId, w.entered.contains n = true → n ∈ w.left ∨
    ∀ node : Node κ, g.nodes[n]? = some node → ∀ v o : Nat, v ∈ vs → o ∈ node.outputs → v < o

/-- The part of a walk between two of its states. -/
structure Onward (w w' : Walk) : Prop where
  entered : ∀ n : NodeId, w.entered.contains n = true → w'.entered.contains n = true
  finished : ∀ n : NodeId, w'.entered.contains n = true → w.entered.contains n = true ∨ n ∈ w'.left
  left : ∀ n ∈ w'.left, w'.entered.contains n = true
  fresh : ∀ n ∈ w'.left, n ∈ w.left ∨ w.entered.contains n = false

theorem Onward.refl {w : Walk} (tidy : ∀ n ∈ w.left, w.entered.contains n = true) : Onward w w :=
  ⟨fun _ => id, fun _ => .inl, tidy, fun _ => .inl⟩

theorem Onward.trans {w w' w'' : Walk} (first : Onward w w') (second : Onward w' w'')
    (kept : ∀ n ∈ w'.left, n ∈ w''.left) : Onward w w'' := by
  refine ⟨fun n e => second.entered n (first.entered n e), ?_, second.left, ?_⟩
  · intro n e
    rcases second.finished n e with e' | l
    · exact (first.finished n e').imp_right (kept n)
    · exact .inr l
  · intro n l
    rcases second.fresh n l with l' | unmet
    · exact first.fresh n l'
    · refine .inr (Bool.eq_false_iff.mpr ?_)
      intro e
      simp [first.entered n e] at unmet

theorem Settled.onward {g : Graph κ} {vs us : List ValueId} {w w' : Walk}
    (settled : g.Settled vs w) (part : Onward w w') (kept : ∀ n ∈ w.left, n ∈ w'.left)
    (fewer : ∀ v ∈ us, v ∈ vs) : g.Settled us w' := by
  refine ⟨part.left, ?_⟩
  intro n e
  rcases part.finished n e with e' | l
  · rcases settled.entered n e' with l | below
    · exact .inl (kept n l)
    · exact .inr fun node here v o member => below node here v o (fewer v member)
  · exact .inl l

def Visited (g : Graph κ) (inputs : List ValueId) (v : ValueId) (w w' : Walk) : Prop :=
  Onward w w' ∧ (∀ n ∈ w.left, n ∈ w'.left) ∧
    ∀ vs done, Walks g inputs vs w'.left.toList done → Walks g inputs (v :: vs) w.left.toList done

theorem walks_foldlM {g : Graph κ} {inputs vs : List ValueId}
    {step : Walk → ValueId → Except Error Walk}
    (one : ∀ v ∈ vs, ∀ w w', g.Settled [v] w → step w v = .ok w' → g.Visited inputs v w w')
    {w w' : Walk} (settled : g.Settled vs w) (success : vs.foldlM step w = .ok w') :
    Onward w w' ∧ (∀ n ∈ w.left, n ∈ w'.left) ∧
      Walks g inputs vs w.left.toList w'.left.toList := by
  induction vs generalizing w with
  | nil =>
    obtain rfl := Except.ok.inj success
    exact ⟨.refl settled.left, fun _ => id, .nil⟩
  | cons v vs ih =>
    rw [List.foldlM_cons] at success
    obtain ⟨middle, first, rest⟩ := bind_eq_ok success
    have part : g.Settled [v] w := settled.onward (.refl settled.left) (fun _ => id) (by simp)
    obtain ⟨onward, kept, walk⟩ := one v (by simp) w middle part first
    have settled' : g.Settled vs middle := settled.onward onward kept fun u member => by
      simp [member]
    obtain ⟨onward', kept', walk'⟩ := ih (fun u member => one u (by simp [member])) settled' rest
    exact ⟨onward.trans onward' kept', fun n member => kept' n (kept n member), walk _ _ walk'⟩

theorem visited_of_supplied {g : Graph κ} {inputs vs : List ValueId} {v : ValueId} {w : Walk}
    (settled : g.Settled vs w) (supplied : g.Supplied inputs w.left.toList v) :
    g.Visited inputs v w w :=
  ⟨.refl settled.left, fun _ => id, fun _ _ rest => .skip supplied rest⟩

/-- Entering a node keeps the walk settled for its operands, which are older than its outputs. -/
theorem settled_enter {g : Graph κ} (ordered : g.Ordered) {v : Nat} {w : Walk}
    (settled : g.Settled [v] w) {n : NodeId} {node : Node κ} (here : g.nodes[n]? = some node)
    (output : v ∈ node.outputs) :
    g.Settled node.inputs { w with entered := w.entered.insert n () } := by
  refine ⟨fun m left => by simp [settled.left m left], ?_⟩
  intro m entered
  rcases (Table.contains_insert _ _ _ _).mp entered with rfl | old
  · refine .inr fun node' here' u o member output' => ?_
    obtain rfl := Option.some.inj (here.symm.trans here')
    exact ordered.before here u o member output'
  · refine (settled.entered m old).imp_right fun below node' here' u o member output' => ?_
    exact Nat.lt_trans (ordered.before here u v member output)
      (below node' here' v o (by simp) output')

theorem visited_of_entered {g : Graph κ} (ordered : g.Ordered) {inputs : List ValueId} {fuel : Nat}
    (deeper : ∀ v : Nat, v < fuel → v < g.values.size → ∀ w w', g.Settled [v] w →
      g.visit inputs fuel v w = .ok w' → g.Visited inputs v w w')
    {v : Nat} (inside : v < fuel + 1) {w inner : Walk} (settled : g.Settled [v] w)
    (beyond : v ∉ inputs) {type : ScalarType} {n : NodeId} {k : Nat}
    (found : g.values[v]? = some ⟨type, .output n k⟩) (unentered : w.entered.contains n = false)
    {node : Node κ} (here : g.nodes[n]? = some node) (output : v ∈ node.outputs)
    (run : node.inputs.foldlM (fun w u => g.visit inputs fuel u w)
      { w with entered := w.entered.insert n () } = .ok inner) :
    g.Visited inputs v w { inner with left := inner.left.push n } := by
  have older : ∀ u : Nat, u ∈ node.inputs → u < fuel := fun u member => by
    have := ordered.before here u v member output
    omega
  obtain ⟨onward, kept, walk⟩ := walks_foldlM
    (fun u member w w' settled' success =>
      deeper u (older u member) (ordered.known here u member) w w' settled' success)
    (settled_enter ordered settled here output) run
  -- a node is left once at most: it was not entered before,
  -- and the walk inside cannot enter it again
  have notLeft : n ∉ w.left := fun member => by simp [settled.left n member] at unentered
  have unmet : n ∉ inner.left := fun member => by
    rcases onward.fresh n member with old | fresh
    · exact notLeft old
    · simp [Bool.eq_false_iff] at fresh
  refine ⟨⟨?_, ?_, ?_, ?_⟩, ?_, ?_⟩
  · exact fun m entered => onward.entered m (by simp [entered])
  · intro m entered
    rcases onward.finished m entered with old | left
    · rcases (Table.contains_insert _ _ _ _).mp old with rfl | old
      · exact .inr (by simp)
      · exact .inl old
    · exact .inr (by simp [left])
  · intro m left
    rcases Array.mem_push.mp left with old | rfl
    · exact onward.left m old
    · exact onward.entered m (by simp)
  · intro m left
    rcases Array.mem_push.mp left with old | rfl
    · rcases onward.fresh m old with old | fresh
      · exact .inl old
      · refine .inr (Bool.eq_false_iff.mpr fun entered => ?_)
        simp [Bool.eq_false_iff, entered] at fresh
    · exact .inr unentered
  · exact fun m left => by simp [kept m left]
  · intro vs done rest
    refine .enter beyond found (by simpa using notLeft) here walk (by simpa using unmet) ?_
    simpa using rest

theorem visit_walks {g : Graph κ} (ordered : g.Ordered) (inputs : List ValueId) (fuel : Nat) :
    ∀ v : Nat, v < fuel → v < g.values.size → ∀ w w', g.Settled [v] w →
      g.visit inputs fuel v w = .ok w' → g.Visited inputs v w w' := by
  induction fuel with
  | zero => exact fun v inside => absurd inside (Nat.not_lt_zero v)
  | succ fuel ih =>
    intro v inside known w w' settled success
    rw [visit] at success
    split at success
    · next member =>
      obtain rfl := Except.ok.inj success
      exact visited_of_supplied settled (.input (by simpa using member))
    · next beyond =>
      rw [Array.getElem?_eq_getElem known] at success
      simp only at success
      have found : g.values[v]? = some g.values[v] := Array.getElem?_eq_getElem known
      generalize g.values[v] = x at success found
      obtain ⟨type, source⟩ := x
      cases source with
      | free name => cases success
      | constant literal name =>
        obtain rfl := Except.ok.inj success
        exact visited_of_supplied settled (.constant found)
      | output n k =>
        obtain ⟨node, here, out⟩ := ordered.produced.mp ⟨type, found⟩
        have output := List.mem_of_getElem? out
        simp only at success
        split at success
        · next entered =>
          obtain rfl := Except.ok.inj success
          -- an entered node that was not left would be one that
          -- is being visited, and these are younger
          rcases settled.entered n entered with left | below
          · exact visited_of_supplied settled (.output found (by simpa using left))
          · exact absurd (below node here v v (by simp) output) (Nat.lt_irrefl v)
        · next unentered =>
          simp only [here] at success
          obtain ⟨inner, run, final⟩ := bind_eq_ok success
          obtain rfl := Except.ok.inj final
          exact visited_of_entered ordered ih inside settled (by simpa using beyond) found
            (by simpa using unentered) here output run

theorem expression_eq {g : Graph κ} {inputs outputs : List ValueId} {e : Expression κ}
    (success : g.expression inputs outputs = .ok e) :
    e.graph = g ∧ e.inputs = inputs ∧ e.outputs = outputs := by
  obtain ⟨w, -, final⟩ := bind_eq_ok success
  obtain rfl := Except.ok.inj final
  exact ⟨rfl, rfl, rfl⟩

theorem walks_of_expression {g : Graph κ} (ordered : g.Ordered) {inputs outputs : List ValueId}
    (known : g.Knows outputs) {e : Expression κ} (success : g.expression inputs outputs = .ok e) :
    Walks g inputs outputs [] e.order := by
  obtain ⟨w, run, final⟩ := bind_eq_ok success
  obtain rfl := Except.ok.inj final
  have start : g.Settled outputs {} := by
    refine ⟨by simp, fun n entered => ?_⟩
    simp [Table.contains, Table.get?] at entered
  exact (walks_foldlM (fun v member w w' => visit_walks ordered inputs (v + 1) v
    (Nat.lt_succ_self v) (known v member) w w') start run).2.2

theorem exists_foldlM {α β : Type} {step : β → α → Except Error β}
    (one : ∀ b a, ∃ b', step b a = .ok b') (as : List α) (b : β) :
    ∃ b', as.foldlM step b = .ok b' := by
  induction as generalizing b with
  | nil => exact ⟨b, rfl⟩
  | cons a as ih =>
    obtain ⟨middle, first⟩ := one b a
    rw [List.foldlM_cons, first]
    exact ih middle

theorem exists_visit {g : Graph κ} {inputs : List ValueId}
    (closed : ∀ (v : ValueId) type name, g.values[v]? = some ⟨type, .free name⟩ → v ∈ inputs)
    (fuel : Nat) (v : ValueId) (w : Walk) : ∃ w', g.visit inputs fuel v w = .ok w' := by
  induction fuel generalizing v w with
  | zero => exact ⟨w, rfl⟩
  | succ fuel ih =>
    rw [visit]
    split
    · exact ⟨w, rfl⟩
    · next beyond =>
      split
      · exact ⟨w, rfl⟩
      · next value found =>
        obtain ⟨type, source⟩ := value
        cases source with
        | constant => exact ⟨w, rfl⟩
        | free name => exact absurd (closed v type name found) (by simpa using beyond)
        | output n k =>
          simp only
          split
          · exact ⟨w, rfl⟩
          · split
            · exact ⟨w, rfl⟩
            · next node _ =>
              obtain ⟨inner, run⟩ := exists_foldlM (fun w u => ih u w) node.inputs
                { w with entered := w.entered.insert n () }
              rw [run]
              exact ⟨_, rfl⟩

theorem exists_expression {g : Graph κ} {inputs : List ValueId}
    (closed : ∀ (v : ValueId) type name, g.values[v]? = some ⟨type, .free name⟩ → v ∈ inputs)
    (outputs : List ValueId) : ∃ e, g.expression inputs outputs = .ok e := by
  obtain ⟨w, run⟩ := exists_foldlM (fun w v => exists_visit closed (v + 1) v w) outputs {}
  exact ⟨_, by rw [expression, run]; rfl⟩

end Graph

end ScalarFusion

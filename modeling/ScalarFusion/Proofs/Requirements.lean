import ScalarFusion.Proofs.Ancestry
import ScalarFusion.Proofs.Reaching

/-!
What the walk of an expression finds. It stops at the first required variable that is no input and
else leaves exactly the nodes that are required, which are those that the search of `ancestors`
finds. A loop that keeps its own stack of tasks takes the same walk.
-/
namespace ScalarFusion

namespace Graph

variable {κ : Type} {g : Graph κ} {inputs outputs : List ValueId}

/-- The values that are reached backward from the outputs. Inputs are reached and not passed. -/
inductive Requires (g : Graph κ) (inputs outputs : List ValueId) : ValueId → Prop where
  | output {v : ValueId} (member : v ∈ outputs) : Requires g inputs outputs v
  | operand {v u : ValueId} {type : ScalarType} {n : NodeId} {k : Nat} {node : Node κ}
      (user : Requires g inputs outputs v) (beyond : v ∉ inputs)
      (found : g.values[v]? = some ⟨type, .output n k⟩) (here : g.nodes[n]? = some node)
      (member : u ∈ node.inputs) : Requires g inputs outputs u

def Requisite (g : Graph κ) (inputs outputs : List ValueId) (n : NodeId) : Prop :=
  ∃ v type k, g.Requires inputs outputs v ∧ v ∉ inputs ∧
    g.values[v]? = some ⟨type, .output n k⟩

/-- Visiting `vs` one after another, with the nodes of `done` left before, stops at the variable
    `u`, the first one met that is no input. -/
inductive Stops (g : Graph κ) (inputs : List ValueId) :
    List ValueId → List NodeId → ValueId → Prop where
  | here {v : ValueId} {vs : List ValueId} {done : List NodeId} {type : ScalarType}
      {name : Option String} (beyond : v ∉ inputs)
      (found : g.values[v]? = some ⟨type, .free name⟩) : Stops g inputs (v :: vs) done v
  | inside {v u : ValueId} {vs : List ValueId} {done : List NodeId} {type : ScalarType}
      {n : NodeId} {k : Nat} {node : Node κ} (beyond : v ∉ inputs)
      (found : g.values[v]? = some ⟨type, .output n k⟩) (fresh : n ∉ done)
      (here : g.nodes[n]? = some node) (operands : Stops g inputs node.inputs done u) :
      Stops g inputs (v :: vs) done u
  | later {v u : ValueId} {vs : List ValueId} {done middle : List NodeId}
      (first : g.Walks inputs [v] done middle) (rest : Stops g inputs vs middle u) :
      Stops g inputs (v :: vs) done u

theorem Supplied.not_free {done : List NodeId} {v : ValueId}
    (supplied : g.Supplied inputs done v) (beyond : v ∉ inputs) {type : ScalarType}
    {name : Option String} (found : g.values[v]? = some ⟨type, .free name⟩) : False := by
  cases supplied with
  | input member => exact beyond member
  | constant found' => simp [found] at found'
  | output found' _ => simp [found] at found'

theorem Walks.head {v : ValueId} {vs : List ValueId} {done done' : List NodeId}
    (walk : g.Walks inputs (v :: vs) done done') :
    ∃ middle, g.Walks inputs [v] done middle ∧ g.Walks inputs vs middle done' := by
  cases walk with
  | skip supplied rest => exact ⟨_, .skip supplied .nil, rest⟩
  | enter beyond found fresh here operands unmet rest =>
    exact ⟨_, .enter beyond found fresh here operands unmet .nil, rest⟩

theorem Walks.requisite {vs : List ValueId} {done done' : List NodeId}
    (walk : g.Walks inputs vs done done') (required : ∀ v ∈ vs, g.Requires inputs outputs v) :
    ∀ n ∈ done', n ∈ done ∨ g.Requisite inputs outputs n := by
  induction walk with
  | nil => exact fun n member => .inl member
  | skip _ _ ih => exact ih fun v member => required v (List.mem_cons_of_mem _ member)
  | @enter v vs done inner done' type m k node beyond found _ here _ _ _ ihOperands ihRest =>
    have top : g.Requires inputs outputs v := required v List.mem_cons_self
    have operands := ihOperands fun u member => .operand top beyond found here member
    intro n member
    rcases ihRest (fun u member => required u (List.mem_cons_of_mem _ member)) n member with
      old | new
    · rcases List.mem_append.mp old with old | last
      · exact operands n old
      · obtain rfl := List.mem_singleton.mp last
        exact .inr ⟨v, type, k, top, beyond, found⟩
    · exact .inr new

theorem Requires.supplied {order : List NodeId} {v : ValueId}
    (required : g.Requires inputs outputs v)
    (ends : ∀ o ∈ outputs, g.Supplied inputs order o)
    (operands : ∀ n ∈ order, ∀ node, g.nodes[n]? = some node →
      ∀ u ∈ node.inputs, g.Supplied inputs order u) : g.Supplied inputs order v := by
  induction required with
  | output member => exact ends _ member
  | operand _ beyond found here member ih =>
    exact operands _ (ih.mem beyond found) _ here _ member

theorem Scheduled.before {order : List NodeId} (scheduled : g.Scheduled inputs order)
    {first rest : List NodeId} {n : NodeId} (split : order = first ++ n :: rest)
    {node : Node κ} (here : g.nodes[n]? = some node) :
    ∀ v ∈ node.inputs, g.Supplied inputs first v := by
  induction scheduled generalizing rest with
  | nil => simp at split
  | @snoc done m last _ _ there operands ih =>
    rcases List.eq_nil_or_concat' rest with rfl | ⟨rest', end', rfl⟩
    · obtain ⟨rfl, same⟩ := List.append_inj' split rfl
      obtain rfl := List.head_eq_of_cons_eq same
      obtain rfl := Option.some.inj (here.symm.trans there)
      exact operands
    · rw [← List.cons_append, ← List.append_assoc] at split
      exact ih (List.append_inj' split rfl).1

theorem Scheduled.operands {order : List NodeId} (scheduled : g.Scheduled inputs order) {n : NodeId}
    (member : n ∈ order) {node : Node κ} (here : g.nodes[n]? = some node) :
    ∀ v ∈ node.inputs, g.Supplied inputs order v := by
  obtain ⟨first, rest, split⟩ := List.append_of_mem member
  intro v input
  exact (scheduled.before split here v input).mono fun m member => by simp [split, member]

theorem Walks.supplied_of_requires {order : List NodeId} (walk : g.Walks inputs outputs [] order)
    {v : ValueId} (required : g.Requires inputs outputs v) : g.Supplied inputs order v :=
  required.supplied walk.supplied fun _ member _ here =>
    (walk.scheduled .nil).operands member here

theorem Walks.mem_iff {order : List NodeId} (walk : g.Walks inputs outputs [] order) {n : NodeId} :
    n ∈ order ↔ g.Requisite inputs outputs n := by
  constructor
  · intro member
    exact (walk.requisite (fun _ => .output) n member).resolve_left List.not_mem_nil
  · rintro ⟨v, type, k, required, beyond, found⟩
    exact (walk.supplied_of_requires required).mem beyond found

theorem mem_ancestors_iff (ordered : g.Ordered) (inputs outputs : List ValueId) {n : NodeId} :
    n ∈ g.ancestors outputs inputs ↔ g.Requisite inputs outputs n := by
  constructor
  · -- the users of a node come after it, so the induction goes from the last node down
    intro member
    induction rank : g.nodes.size - n using Nat.strongRecOn generalizing n with
    | ind _ ih =>
      obtain ⟨node, o, here, output, beyond, reached⟩ :=
        (mem_ancestors ordered outputs inputs).mp member
      obtain ⟨k, at_k⟩ := List.getElem?_of_mem output
      obtain ⟨type, found⟩ := ordered.produced.mpr ⟨node, here, at_k⟩
      refine ⟨o, type, k, ?_, beyond, found⟩
      rcases reached with given | ⟨m, above, user, there, input⟩
      · exact .output given
      · have later := ordered.layered here there o output input
        have inside := (Array.getElem?_eq_some_iff.mp here).1
        obtain ⟨v, t, j, required, beyond', found'⟩ :=
          ih _ (rank ▸ Nat.sub_lt_sub_left inside later) above rfl
        exact .operand required beyond' found' there input
  · rintro ⟨v, type, k, required, beyond, found⟩
    have met : ∀ {v : ValueId} {type : ScalarType} {m : NodeId} {k : Nat},
        g.Reached outputs (g.ancestors outputs inputs) v → v ∉ inputs →
        g.values[v]? = some ⟨type, .output m k⟩ → m ∈ g.ancestors outputs inputs := by
      intro v type m k reached beyond found
      obtain ⟨node, here, out⟩ := ordered.produced.mp ⟨type, found⟩
      exact (mem_ancestors ordered outputs inputs).mpr
        ⟨node, v, here, List.mem_of_getElem? out, beyond, reached⟩
    refine met ?_ beyond found
    clear beyond found
    induction required with
    | output member => exact .inl member
    | operand _ beyond found here member ih =>
      exact .inr ⟨_, met ih beyond found, _, here, member⟩

namespace Stops

variable {vs : List ValueId} {done done' : List NodeId} {u : ValueId}

theorem not_walks (stops : g.Stops inputs vs done u) : ¬ g.Walks inputs vs done done' := by
  induction stops generalizing done' with
  | here beyond found =>
    intro walk
    exact (walk.supplied _ List.mem_cons_self).not_free beyond found
  | inside beyond found fresh here _ ih =>
    intro walk
    cases walk with
    | skip supplied _ => exact fresh (supplied.mem beyond found)
    | enter _ found' _ here' operands _ _ =>
      simp only [found, Option.some.injEq, Value.mk.injEq, Source.output.injEq] at found'
      obtain ⟨-, rfl, -⟩ := found'
      obtain rfl := Option.some.inj (here.symm.trans here')
      exact ih operands
  | later first _ ih =>
    intro walk
    obtain ⟨middle, first', rest⟩ := walk.head
    obtain rfl := first.unique first'
    exact ih rest

theorem unique (stops : g.Stops inputs vs done u) {u' : ValueId}
    (stops' : g.Stops inputs vs done u') : u = u' := by
  induction stops with
  | here beyond found =>
    cases stops' with
    | here => rfl
    | inside _ found' => simp [found] at found'
    | later first => exact ((first.supplied _ List.mem_cons_self).not_free beyond found).elim
  | inside beyond found fresh here operands ih =>
    cases stops' with
    | here _ found' => simp [found] at found'
    | inside _ found' _ here' operands' =>
      simp only [found, Option.some.injEq, Value.mk.injEq, Source.output.injEq] at found'
      obtain ⟨-, rfl, -⟩ := found'
      obtain rfl := Option.some.inj (here.symm.trans here')
      exact ih operands'
    | later first =>
      have alone : g.Stops inputs [_] _ _ := .inside beyond found fresh here operands
      exact absurd first alone.not_walks
  | later first _ ih =>
    cases stops' with
    | here beyond found =>
      exact ((first.supplied _ List.mem_cons_self).not_free beyond found).elim
    | inside beyond found fresh here operands =>
      have alone : g.Stops inputs [_] _ _ := .inside beyond found fresh here operands
      exact absurd first alone.not_walks
    | later first' rest' =>
      obtain rfl := first.unique first'
      exact ih rest'

theorem required (stops : g.Stops inputs vs done u)
    (roots : ∀ v ∈ vs, g.Requires inputs outputs v) :
    g.Requires inputs outputs u ∧ u ∉ inputs ∧
      ∃ type name, g.values[u]? = some ⟨type, .free name⟩ := by
  induction stops with
  | here beyond found => exact ⟨roots _ List.mem_cons_self, beyond, _, _, found⟩
  | inside beyond found _ here _ ih =>
    exact ih fun _ member => .operand (roots _ List.mem_cons_self) beyond found here member
  | later _ _ ih => exact ih fun v member => roots v (List.mem_cons_of_mem _ member)

end Stops

def Fails (g : Graph κ) (inputs vs : List ValueId) (w : Walk) (error : Error) : Prop :=
  ∃ u type name, g.Stops inputs vs w.left.toList u ∧
    g.values[u]? = some ⟨type, .free name⟩ ∧ error = .missingInput name type

theorem fails_foldlM {vs : List ValueId} {step : Walk → ValueId → Except Error Walk}
    (one : ∀ v ∈ vs, ∀ w w', g.Settled [v] w → step w v = .ok w' → g.Visited inputs v w w')
    (stop : ∀ v ∈ vs, ∀ w error, g.Settled [v] w → step w v = .error error →
      g.Fails inputs [v] w error)
    {w : Walk} {error : Error} (settled : g.Settled vs w)
    (failure : vs.foldlM step w = .error error) : g.Fails inputs vs w error := by
  induction vs generalizing w with
  | nil => cases failure
  | cons v vs ih =>
    have part : g.Settled [v] w := settled.onward (.refl settled.left) (fun _ => id) (by simp)
    rw [List.foldlM_cons] at failure
    cases first : step w v with
    | error _ =>
      rw [first] at failure
      obtain rfl := Except.error.inj failure
      obtain ⟨u, type, name, stops, found, text⟩ := stop v (by simp) w _ part first
      refine ⟨u, type, name, ?_, found, text⟩
      cases stops with
      | here beyond found => exact .here beyond found
      | inside beyond found fresh here operands => exact .inside beyond found fresh here operands
      | later _ rest => cases rest
    | ok middle =>
      rw [first, ok_bind] at failure
      obtain ⟨onward, kept, walk⟩ := one v (by simp) w middle part first
      have settled' : g.Settled vs middle := settled.onward onward kept fun u member => by
        simp [member]
      obtain ⟨u, type, name, stops, found, text⟩ := ih (fun u member => one u (by simp [member]))
        (fun u member => stop u (by simp [member])) settled' failure
      exact ⟨u, type, name, .later (walk [] _ .nil) stops, found, text⟩

theorem visit_fails (ordered : g.Ordered) (inputs : List ValueId) (fuel : Nat) :
    ∀ v : Nat, v < fuel → v < g.values.size → ∀ w error, g.Settled [v] w →
      g.visit inputs fuel v w = .error error → g.Fails inputs [v] w error := by
  induction fuel with
  | zero => exact fun v inside => absurd inside (Nat.not_lt_zero v)
  | succ fuel ih =>
    intro v inside known w error settled failure
    have found : g.values[v]? = some g.values[v] := Array.getElem?_eq_getElem known
    generalize g.values[v] = x at found
    obtain ⟨type, source⟩ := x
    rw [visit, found] at failure
    split at failure
    · cases failure
    · next beyond =>
      have beyond : v ∉ inputs := by simpa using beyond
      cases source with
      | constant literal name => cases failure
      | free name =>
        exact ⟨v, type, name, .here beyond found, found, (Except.error.inj failure).symm⟩
      | output n k =>
        obtain ⟨node, here, out⟩ := ordered.produced.mp ⟨type, found⟩
        have output := List.mem_of_getElem? out
        simp only [here] at failure
        split at failure
        · cases failure
        · next unentered =>
          have fresh : n ∉ w.left.toList := fun member => by
            simp [settled.left n (by simpa using member)] at unentered
          cases run : node.inputs.foldlM (fun w u => g.visit inputs fuel u w)
              { w with entered := w.entered.insert n () } with
          | ok inner => simp [run] at failure
          | error error' =>
            rw [run] at failure
            obtain rfl := Except.error.inj failure
            have older : ∀ u : Nat, u ∈ node.inputs → u < fuel := fun u member => by
              have := ordered.before here u v member output
              omega
            obtain ⟨u, t, name, stops, found', text⟩ := fails_foldlM
              (fun u member => visit_walks ordered inputs fuel u (older u member)
                (ordered.known here u member))
              (fun u member => ih u (older u member) (ordered.known here u member))
              (settled_enter ordered settled here output) run
            exact ⟨u, t, name, .inside beyond found fresh here stops, found', text⟩

theorem fails_of_expression (ordered : g.Ordered) (known : g.Knows outputs) {error : Error}
    (failure : g.expression inputs outputs = .error error) :
    g.Fails inputs outputs {} error := by
  have start : g.Settled outputs {} := by
    refine ⟨by simp, fun n entered => ?_⟩
    simp [Table.contains, Table.get?] at entered
  refine fails_foldlM
    (fun v member => visit_walks ordered inputs (v + 1) v (Nat.lt_succ_self v) (known v member))
    (fun v member => visit_fails ordered inputs (v + 1) v (Nat.lt_succ_self v) (known v member))
    start ?_
  cases run : outputs.foldlM (fun w v => g.visit inputs (v + 1) v w) {} with
  | error error' =>
    rw [expression, run] at failure
    exact congrArg Except.error (Except.error.inj failure)
  | ok w =>
    rw [expression, run] at failure
    cases failure

/-- The order places the producers of a node's operands before it, except those of inputs. -/
def ProducersFirst (g : Graph κ) (inputs : List ValueId) (order : List NodeId) : Prop :=
  ∀ first n rest, order = first ++ n :: rest → ∀ node, g.nodes[n]? = some node →
    ∀ v ∈ node.inputs, v ∉ inputs → ∀ type m k, g.values[v]? = some ⟨type, .output m k⟩ →
      m ∈ first

theorem Scheduled.producersFirst {order : List NodeId} (scheduled : g.Scheduled inputs order) :
    g.ProducersFirst inputs order := by
  intro first n rest split node here v member beyond type m k found
  exact (scheduled.before split here v member).mem beyond found

theorem expression_eq_error_iff (ordered : g.Ordered) (known : g.Knows outputs) {error : Error} :
    g.expression inputs outputs = .error error ↔ g.Fails inputs outputs {} error := by
  refine ⟨fails_of_expression ordered known, ?_⟩
  rintro ⟨u, type, name, stops, found, rfl⟩
  cases result : g.expression inputs outputs with
  | ok e => exact absurd (walks_of_expression ordered known result) stops.not_walks
  | error error' =>
    obtain ⟨u', type', name', stops', found', rfl⟩ := fails_of_expression ordered known result
    obtain rfl := stops.unique stops'
    simp only [found, Option.some.injEq, Value.mk.injEq, Source.free.injEq] at found'
    obtain ⟨rfl, rfl⟩ := found'
    rfl

theorem expression_fails_iff (ordered : g.Ordered) (known : g.Knows outputs) :
    (∃ error, g.expression inputs outputs = .error error) ↔
      ∃ v type name, g.Requires inputs outputs v ∧ v ∉ inputs ∧
        g.values[v]? = some ⟨type, .free name⟩ := by
  constructor
  · rintro ⟨error, failure⟩
    obtain ⟨u, type, name, stops, found, -⟩ := fails_of_expression ordered known failure
    obtain ⟨required, beyond, -⟩ := stops.required fun _ => .output
    exact ⟨u, type, name, required, beyond, found⟩
  · rintro ⟨v, type, name, required, beyond, found⟩
    cases result : g.expression inputs outputs with
    | error error => exact ⟨error, rfl⟩
    | ok e =>
      have walk := walks_of_expression ordered known result
      exact ((walk.supplied_of_requires required).not_free beyond found).elim

inductive Task where
  | visit (v : ValueId)
  | leave (n : NodeId)

def unentered (g : Graph κ) (w : Walk) : List NodeId :=
  (List.range g.nodes.size).filter fun n => !w.entered.contains n

theorem length_unentered_enter {w : Walk} {n : NodeId} (fresh : ¬ w.entered.contains n = true)
    {node : Node κ} (here : g.nodes[n]? = some node) :
    (g.unentered { w with entered := w.entered.insert n () }).length <
      (g.unentered w).length := by
  have inside := (Array.getElem?_eq_some_iff.mp here).1
  have fewer : g.unentered { w with entered := w.entered.insert n () } =
      (g.unentered w).filter (· != n) := by
    rw [unentered, unentered, List.filter_filter]
    refine List.filter_congr fun m _ => ?_
    by_cases same : n = m
    · simp [same, (Table.contains_insert w.entered m m ()).mpr (.inl rfl)]
    · have kept : (w.entered.insert n ()).contains m = w.entered.contains m := by
        rw [Bool.eq_iff_iff, Table.contains_insert]
        simp [same]
      simp [kept, Ne.symm same]
  rw [fewer]
  refine List.length_filter_lt_length_iff_exists.mpr ⟨n, ?_, by simp⟩
  exact List.mem_filter.mpr ⟨List.mem_range.mpr inside, by simp [fresh]⟩

/-- Performs the tasks of a stack. A node is marked when it is entered; its operands are then
    visited from left to right, and after them it is left. -/
def work (g : Graph κ) (inputs : List ValueId) : List Task → Walk → Except Error Walk
  | [], w => .ok w
  | .leave n :: tasks, w => g.work inputs tasks { w with left := w.left.push n }
  | .visit v :: tasks, w =>
    if inputs.contains v then g.work inputs tasks w else
      match g.values[v]? with
      | none => g.work inputs tasks w
      | some value =>
        match value.source with
        | .constant _ _ => g.work inputs tasks w
        | .free name => .error (.missingInput name value.type)
        | .output n _ =>
          if _ : w.entered.contains n then g.work inputs tasks w else
            match here : g.nodes[n]? with
            | none => g.work inputs tasks w
            | some node =>
              g.work inputs (node.inputs.map .visit ++ .leave n :: tasks)
                { w with entered := w.entered.insert n () }
termination_by tasks w => ((g.unentered w).length, tasks.length)
decreasing_by
  all_goals first
    | exact .right _ (Nat.lt_succ_self _)
    | exact .left _ _ (length_unentered_enter (by assumption) here)

def collect (g : Graph κ) (inputs outputs : List ValueId) : Except Error (Expression κ) := do
  let w ← outputs.foldlM (fun w v => g.work inputs [.visit v] w) {}
  .ok { graph := g, inputs, outputs, order := w.left.toList }

theorem work_visits {fuel : Nat} {us : List ValueId}
    (one : ∀ u ∈ us, ∀ tasks w, g.work inputs (.visit u :: tasks) w =
      (g.visit inputs fuel u w >>= g.work inputs tasks)) (tasks : List Task) (w : Walk) :
    g.work inputs (us.map .visit ++ tasks) w =
      (us.foldlM (fun w u => g.visit inputs fuel u w) w >>= g.work inputs tasks) := by
  induction us generalizing w with
  | nil => rfl
  | cons u us ih =>
    rw [List.map_cons, List.cons_append, one u List.mem_cons_self, List.foldlM_cons]
    cases g.visit inputs fuel u w with
    | error error => rfl
    | ok middle => exact ih (fun v member => one v (List.mem_cons_of_mem u member)) middle

theorem work_visit (ordered : g.Ordered) {fuel : Nat} {v : Nat} (inside : v < fuel)
    (tasks : List Task) (w : Walk) :
    g.work inputs (.visit v :: tasks) w = (g.visit inputs fuel v w >>= g.work inputs tasks) := by
  induction fuel generalizing v tasks w with
  | zero => exact absurd inside (Nat.not_lt_zero v)
  | succ fuel ih =>
    rw [work, visit]
    split
    · rfl
    · cases found : g.values[v]? with
      | none => rfl
      | some value =>
        obtain ⟨type, source⟩ := value
        cases source with
        | constant literal name => rfl
        | free name => rfl
        | output n k =>
          simp only
          split
          · rfl
          · obtain ⟨node, here, out⟩ := ordered.produced.mp ⟨type, found⟩
            have older : ∀ u : Nat, u ∈ node.inputs → u < fuel := fun u member => by
              have := ordered.before here u v member (List.mem_of_getElem? out)
              omega
            split
            · next none_at => simp [here] at none_at
            · next node' here' =>
              obtain rfl := Option.some.inj (here.symm.trans here')
              -- the operands are visited by the induction, and the
              -- task that leaves the node comes after them
              rw [work_visits fun u member tasks w => ih (older u member) tasks w, here]
              simp only [bind_assoc]
              refine congrArg _ (funext fun inner => ?_)
              rw [work]
              rfl

theorem collect_eq_expression (ordered : g.Ordered) (inputs outputs : List ValueId) :
    g.collect inputs outputs = g.expression inputs outputs := by
  have step : (fun w v => g.work inputs [.visit v] w) =
      fun (w : Walk) (v : ValueId) => g.visit inputs (v + 1) v w := by
    funext w v
    rw [work_visit ordered (Nat.lt_succ_self v)]
    cases g.visit inputs (v + 1) v w with
    | error error => rfl
    | ok w' => rw [ok_bind, work]
  rw [collect, expression, step]

end Graph

/-- Collecting an expression is exact, with a stack of tasks as by recursion. It fails if and only
    if a variable is required that is no input, and names the first one that the walk meets.
    Otherwise the order is what the walk leaves: every ancestor of the outputs once, and after the
    producers of its operands. -/
theorem expression_exact {g : Arena} (reachable : Reachable g) (inputs : List ValueId)
    {outputs : List ValueId} (known : g.Knows outputs) :
    g.collect inputs outputs = g.expression inputs outputs ∧
    ((∃ error, g.expression inputs outputs = .error error) ↔
      ∃ v type name, g.Requires inputs outputs v ∧ v ∉ inputs ∧
        g.values[v]? = some ⟨type, .free name⟩) ∧
    (∀ error, g.expression inputs outputs = .error error ↔
      ∃ v type name, g.Stops inputs outputs [] v ∧ g.values[v]? = some ⟨type, .free name⟩ ∧
        error = .missingInput name type) ∧
    ∀ e, g.expression inputs outputs = .ok e →
      e.order.Nodup ∧ (∀ order, g.Walks inputs outputs [] order ↔ order = e.order) ∧
      (∀ n, n ∈ e.order ↔ n ∈ g.ancestors outputs inputs) ∧ g.ProducersFirst inputs e.order := by
  have ordered := reachable.built.ordered
  refine ⟨Graph.collect_eq_expression ordered inputs outputs,
    Graph.expression_fails_iff ordered known,
    fun _ => Graph.expression_eq_error_iff ordered known, ?_⟩
  intro e success
  have walk := Graph.walks_of_expression ordered known success
  have scheduled := walk.scheduled .nil
  refine ⟨scheduled.nodup, ?_, ?_, scheduled.producersFirst⟩
  · intro order
    constructor
    · exact fun other => other.unique walk
    · rintro rfl
      exact walk
  · intro n
    rw [walk.mem_iff, Graph.mem_ancestors_iff ordered]

theorem nested_collected : Reachable (.nested (.float .double)) ∧
    (Graph.nested (.float .double)).Knows [2] ∧
    (Graph.nested (.float .double)).collect [] [2] =
      .error (.missingInput (some "x") (.float .double)) ∧
    (Graph.nested (.float .double)).Stops [] [2] [] 0 ∧
    ∃ e, (Graph.nested (.float .double)).collect [0] [2] = .ok e ∧ e.order = [0, 1] ∧
      (Graph.nested (.float .double)).Walks [0] [2] [] [0, 1] ∧
      ∀ n, n ∈ [0, 1] ↔ n ∈ (Graph.nested (.float .double)).ancestors [2] [0] := by
  have reachable : Reachable (.nested (.float .double)) := nested_reachable (by decide)
  have known : (Graph.nested (.float .double)).Knows [2] := by decide
  obtain ⟨same, -, refused, -⟩ := expression_exact reachable [] known
  obtain ⟨same', -, -, collected⟩ := expression_exact reachable [0] known
  have failure : (Graph.nested (.float .double)).expression [] [2] =
    .error (.missingInput (some "x") (.float .double)) := rfl
  obtain ⟨e, success, order⟩ : ∃ e, (Graph.nested (.float .double)).expression [0] [2] = .ok e ∧
    e.order = [0, 1] := ⟨_, rfl, rfl⟩
  obtain ⟨-, walks, members, -⟩ := collected e success
  refine ⟨reachable, known, same.trans failure, ?_, e, same'.trans success, order,
    (walks _).mpr order.symm, order ▸ members⟩
  obtain ⟨v, type, name, stops, found, -⟩ := (refused _).mp failure
  have inside := (Array.getElem?_eq_some_iff.mp found).1
  match v, inside with
  | 0, _ => exact stops
  | 1, _ | 2, _ => cases found

end ScalarFusion

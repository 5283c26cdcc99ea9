import Mathlib.Data.Finset.Card
import Mathlib.Data.List.Nodup
import ScalarFusion.CModule

/-!
Runs of the kernel cache. Builders act on a world, which stands for all that they can do besides
giving a result. Between two requests every cell is full and holds what the first request for its
key built, so the cells are the history of the run without its repetitions.
-/
namespace ScalarFusion

namespace KernelCache

variable {σ ε : Type}

structure Request (σ ε : Type) where
  composite : Composite
  build : Composite → StateM σ (Except ε CModule)

namespace Request

def key (r : Request σ ε) : String :=
  r.composite.key

def outcome (r : Request σ ε) (world : σ) : Except ε CModule × σ :=
  (r.build r.composite).run world

def serve (r : Request σ ε) (cache : KernelCache ε) (world : σ) : Answer ε × σ :=
  (cache.fetchM r.composite r.build).run world

/-- A builder without effects: the request is what `fetch` does, in any world. -/
theorem serve_pure (c : Composite) (build : Composite → Except ε CModule) (cache : KernelCache ε)
    (world : σ) :
    (⟨c, fun c => pure (build c)⟩ : Request σ ε).serve cache world = (cache.fetch c build, world) := by
  simp only [serve, fetch, fetchM]
  split <;> rfl

end Request

def step (state : KernelCache ε × σ) (r : Request σ ε) : KernelCache ε × σ :=
  ((r.serve state.1 state.2).1.cache, (r.serve state.1 state.2).2)

def after (world : σ) (requests : List (Request σ ε)) : KernelCache ε × σ :=
  requests.foldl step ({}, world)

def answer (world : σ) (requests : List (Request σ ε)) (i : Fin requests.length) : Answer ε :=
  (requests[i].serve (after world (requests.take i)).1 (after world (requests.take i)).2).1

/-- What the builder of one request of a run gives there, be it run or not, and the world that it
    leaves. -/
def outcomeAt (world : σ) (requests : List (Request σ ε)) (i : Fin requests.length) :
    Except ε CModule × σ :=
  requests[i].outcome (after world (requests.take i)).2

def visits (state : KernelCache ε × σ) : List (Request σ ε) → List (String × Except ε CModule)
  | [] => []
  | r :: rest => (r.key, (r.outcome state.2).1) :: visits (step state r) rest

theorem visits_append (state : KernelCache ε × σ) (past rest : List (Request σ ε)) :
    visits state (past ++ rest) = visits state past ++ visits (past.foldl step state) rest := by
  induction past generalizing state with
  | nil => rfl
  | cons r past ih => rw [List.cons_append, visits, ih]; rfl

theorem getElem?_visits (state : KernelCache ε × σ) (requests : List (Request σ ε)) (i : Nat) :
    (visits state requests)[i]? = (requests[i]?).map fun r =>
      (r.key, (r.outcome ((requests.take i).foldl step state).2).1) := by
  induction requests generalizing state i with
  | nil => rfl
  | cons r rest ih =>
    cases i with
    | zero => rfl
    | succ i =>
      rw [visits, List.getElem?_cons_succ, ih]
      rfl

theorem keys_visits (state : KernelCache ε × σ) (requests : List (Request σ ε)) :
    (visits state requests).map Prod.fst = requests.map Request.key := by
  induction requests generalizing state with
  | nil => rfl
  | cons r rest ih => rw [visits, List.map_cons, List.map_cons, ih]

def first? (past : List (String × Except ε CModule)) (key : String) : Option (Except ε CModule) :=
  (past.find? fun visit => visit.1 == key).map Prod.snd

theorem first?_snoc (past : List (String × Except ε CModule)) (visit : String × Except ε CModule)
    (key : String) :
    first? (past ++ [visit]) key =
      (first? past key).or (if visit.1 = key then some visit.2 else none) := by
  unfold first?
  rw [List.find?_append]
  cases past.find? fun visit => visit.1 == key with
  | some s => rfl
  | none => by_cases same : visit.1 = key <;> simp [same]

theorem mem_keys_iff {cells : List (String × Option (Except ε CModule))} {key : String} :
    key ∈ cells.map Prod.fst ↔ (cells.lookup key).isSome := by
  induction cells with
  | nil => simp
  | cons entry cells ih =>
    obtain ⟨k, held⟩ := entry
    by_cases same : key = k
    · simp [same]
    · rw [List.map_cons, List.mem_cons, List.lookup_cons, beq_eq_false_iff_ne.mpr same, ih]
      simp [same]

theorem cell?_reserve (cache : KernelCache ε) (key k : String) :
    (cache.reserve key).cell? k = (cache.cell? k).or (if k = key then some none else none) := by
  unfold reserve
  split
  · next held found => by_cases same : k = key <;> simp [same, found]
  · unfold cell?
    rw [List.lookup_append]
    by_cases same : k = key
    · simp [same]
    · simp [List.lookup_cons, beq_eq_false_iff_ne.mpr same, same]

theorem nodup_reserve {cache : KernelCache ε} (keys : (cache.cells.map Prod.fst).Nodup)
    (key : String) : ((cache.reserve key).cells.map Prod.fst).Nodup := by
  unfold reserve
  split
  · exact keys
  · next absent =>
    have fresh : key ∉ cache.cells.map Prod.fst := by
      rw [mem_keys_iff, show cache.cells.lookup key = none from absent]
      simp
    rw [List.map_append, List.map_singleton, ← List.concat_eq_append]
    exact keys.concat fresh

theorem cell?_fill (cache : KernelCache ε) (key : String) (result : Except ε CModule) (k : String) :
    (cache.fill key result).cell? k =
      (cache.cell? k).map fun held => if k = key then some (held.getD result) else held := by
  unfold fill cell?
  induction cache.cells with
  | nil => rfl
  | cons entry cells ih =>
    obtain ⟨k', held⟩ := entry
    by_cases same : k = k'
    · subst same
      simp
    · simp only [List.map_cons, List.lookup_cons, beq_eq_false_iff_ne.mpr same, ih]

theorem keys_fill (cache : KernelCache ε) (key : String) (result : Except ε CModule) :
    (cache.fill key result).cells.map Prod.fst = cache.cells.map Prod.fst := by
  simp [fill, Function.comp_def]

/-- A full cell for each key of the past, with the result of its first visit. -/
structure Records (past : List (String × Except ε CModule)) (cache : KernelCache ε) : Prop where
  cell : ∀ key, cache.cell? key = (first? past key).map some
  keys : (cache.cells.map Prod.fst).Nodup

theorem records_empty : Records (ε := ε) [] {} :=
  ⟨fun _ => rfl, List.nodup_nil⟩

namespace Records

variable {past : List (String × Except ε CModule)} {cache : KernelCache ε}

theorem serve_of_some (records : Records past cache) {r : Request σ ε} {result : Except ε CModule}
    (seen : first? past r.key = some result) (world : σ) :
    r.serve cache world = (⟨result, false, cache⟩, world) := by
  have cell : cache.cell? r.composite.key = some (some result) := by
    rw [records.cell, show first? past r.composite.key = some result from seen]
    rfl
  have kept : cache.reserve r.composite.key = cache := by
    simp only [reserve, cell]
  simp only [Request.serve, fetchM, kept, get?, cell, Option.join_some]
  rfl

theorem serve_of_none (records : Records past cache) {r : Request σ ε}
    (new : first? past r.key = none) (world : σ) : r.serve cache world =
      (⟨(r.outcome world).1, true, (cache.reserve r.key).fill r.key (r.outcome world).1⟩,
        (r.outcome world).2) := by
  have reserved : (cache.reserve r.key).cell? r.key = some none := by
    simp [cell?_reserve, records.cell, new]
  have filled : ((cache.reserve r.key).fill r.key (r.outcome world).1).cell? r.key =
      some (some (r.outcome world).1) := by
    simp [cell?_fill, reserved]
  have run : r.serve cache world =
      (⟨(((cache.reserve r.key).fill r.key (r.outcome world).1).get? r.key).getD (r.outcome world).1,
        true, (cache.reserve r.key).fill r.key (r.outcome world).1⟩, (r.outcome world).2) := by
    simp only [Request.serve, fetchM, get?, show (cache.reserve r.composite.key).cell?
      r.composite.key = some none from reserved, Option.join_some]
    rfl
  rw [run, get?, filled]
  rfl

theorem snoc (records : Records past cache) (r : Request σ ε) (world : σ) :
    Records (past ++ [(r.key, (r.outcome world).1)]) (r.serve cache world).1.cache := by
  cases seen : first? past r.key with
  | some result =>
    rw [records.serve_of_some seen]
    refine ⟨fun key => ?_, records.keys⟩
    rw [records.cell, first?_snoc]
    by_cases same : r.key = key
    · rw [← same, seen, Option.some_or]
    · rw [if_neg same, Option.or_none]
  | none =>
    rw [records.serve_of_none seen]
    refine ⟨fun key => ?_, ?_⟩
    · -- the cell is reserved empty and then filled; the other cells are not touched
      rw [cell?_fill, cell?_reserve, records.cell, first?_snoc]
      by_cases same : r.key = key
      · simp [← same, seen]
      · have other : ¬ key = r.key := Ne.symm same
        simp only [if_neg same, if_neg other, Option.or_none, Option.map_map]
        rfl
    · rw [keys_fill]
      exact nodup_reserve records.keys r.key

theorem size_eq (records : Records past cache) :
    cache.size = (past.map Prod.fst).toFinset.card := by
  have keys : (cache.cells.map Prod.fst).toFinset = (past.map Prod.fst).toFinset := by
    ext key
    rw [List.mem_toFinset, List.mem_toFinset, mem_keys_iff,
      show cache.cells.lookup key = _ from records.cell key, Option.isSome_map, first?,
      Option.isSome_map, List.find?_isSome, List.mem_map]
    simp
  rw [← keys, List.toFinset_card_of_nodup records.keys, List.length_map, size]

end Records

theorem records_after (world : σ) (requests : List (Request σ ε)) :
    Records (visits ({}, world) requests) (after world requests).1 := by
  induction requests using List.reverseRecOn with
  | nil => exact records_empty
  | append_singleton past r ih =>
    rw [visits_append, after, List.foldl_append]
    exact ih.snoc r (after world past).2

theorem first?_eq_none_iff {past : List (String × Except ε CModule)} {key : String} :
    first? past key = none ↔ key ∉ past.map Prod.fst := by
  simp only [first?, Option.map_eq_none_iff, List.find?_eq_none, beq_iff_eq, List.mem_map, not_exists,
    not_and]

theorem first?_take_eq_none_iff (world : σ) (requests : List (Request σ ε))
    (i : Fin requests.length) :
    first? (visits ({}, world) (requests.take i)) requests[i].key = none ↔
      ∀ j < i, requests[j].key ≠ requests[i].key := by
  rw [first?_eq_none_iff, keys_visits, List.mem_map]
  constructor
  · intro fresh j before same
    exact fresh ⟨_, List.mem_take_iff_getElem.mpr ⟨j, by omega, rfl⟩, same⟩
  · rintro fresh ⟨r, member, same⟩
    obtain ⟨j, inside, rfl⟩ := List.mem_take_iff_getElem.mp member
    exact fresh ⟨j, by omega⟩ (Fin.mk_lt_of_lt_val (by omega)) same

theorem getElem?_visits_take (world : σ) (requests : List (Request σ ε)) {i j : Nat} (before : j < i)
    (inside : j < requests.length) : (visits ({}, world) (requests.take i))[j]? =
      some (requests[j].key, (outcomeAt world requests ⟨j, inside⟩).1) := by
  rw [getElem?_visits, List.getElem?_take_of_lt before, List.getElem?_eq_getElem inside,
    List.take_take, Nat.min_eq_left (Nat.le_of_lt before)]
  rfl

theorem exists_first {world : σ} {requests : List (Request σ ε)} {i : Fin requests.length}
    {result : Except ε CModule}
    (seen : first? (visits ({}, world) (requests.take i)) requests[i].key = some result) :
    ∃ j < i, requests[j].key = requests[i].key ∧ (∀ k < j, requests[k].key ≠ requests[i].key) ∧
      (outcomeAt world requests j).1 = result := by
  obtain ⟨visit, found, built⟩ := Option.map_eq_some_iff.mp seen
  obtain ⟨same, j, inside, here, least⟩ := List.find?_eq_some_iff_getElem.mp found
  have before : j < i := by
    rw [← List.length_map Prod.fst, keys_visits, List.length_map, List.length_take] at inside
    omega
  have visited : ∀ (k : Nat) (earlier : k ≤ j), (visits ({}, world) (requests.take i))[k] =
      (requests[k].key, (outcomeAt world requests ⟨k, by omega⟩).1) := by
    intro k earlier
    exact Option.some.inj ((List.getElem?_eq_getElem _).symm.trans
      (getElem?_visits_take world requests (by omega) (by omega)))
  rw [← here, visited j (Nat.le_refl j)] at same built
  refine ⟨⟨j, by omega⟩, before, by simpa using same, fun k earlier => ?_, built⟩
  have other := least k earlier
  rw [visited k (Nat.le_of_lt earlier)] at other
  simpa using other

theorem answer_of_none {world : σ} {requests : List (Request σ ε)} {i : Fin requests.length}
    (new : first? (visits ({}, world) (requests.take i)) requests[i].key = none) :
    (answer world requests i).built = true ∧
      (answer world requests i).result = (outcomeAt world requests i).1 := by
  unfold answer
  rw [(records_after world _).serve_of_none new]
  exact ⟨rfl, rfl⟩

theorem after_take_succ (world : σ) (requests : List (Request σ ε)) (i : Fin requests.length) :
    after world (requests.take (i + 1)) = step (after world (requests.take i)) requests[i] := by
  rw [List.take_succ_eq_append_getElem i.isLt, after, List.foldl_append]
  rfl

/-- The cache over a whole run. A request runs its builder exactly if no request before it had its
    key, and else leaves the world as it was; every request is answered with what the first one of
    its key built, be it a module or a failure; and there is one cell for each key. -/
theorem each_key_built_once (world : σ) (requests : List (Request σ ε)) :
    (∀ i, (answer world requests i).built = true ↔ ∀ j < i, requests[j].key ≠ requests[i].key) ∧
    (∀ i : Fin requests.length, (after world (requests.take (i + 1))).2 =
      if (answer world requests i).built then (outcomeAt world requests i).2
      else (after world (requests.take i)).2) ∧
    (∀ i, ∃ j ≤ i, requests[j].key = requests[i].key ∧
      (∀ k < j, requests[k].key ≠ requests[i].key) ∧
      (answer world requests j).result = (outcomeAt world requests j).1 ∧
      (answer world requests i).result = (outcomeAt world requests j).1) ∧
    (after world requests).1.size = (requests.map Request.key).toFinset.card := by
  refine ⟨fun i => ?_, fun i => ?_, fun i => ?_, ?_⟩
  · rw [← first?_take_eq_none_iff world]
    cases seen : first? (visits ({}, world) (requests.take i)) requests[i].key with
    | none => simp [(answer_of_none seen).1]
    | some result =>
      unfold answer
      rw [(records_after world _).serve_of_some seen]
      simp
  · rw [after_take_succ, step, answer]
    cases seen : first? (visits ({}, world) (requests.take i)) requests[i].key with
    | none =>
      rw [(records_after world _).serve_of_none seen]
      rfl
    | some result =>
      rw [(records_after world _).serve_of_some seen]
      rfl
  · cases seen : first? (visits ({}, world) (requests.take i)) requests[i].key with
    | none =>
      have result := (answer_of_none seen).2
      exact ⟨i, Nat.le_refl _, rfl, (first?_take_eq_none_iff world requests i).mp seen, result, result⟩
    | some result =>
      have served : (answer world requests i).result = result := by
        unfold answer
        rw [(records_after world _).serve_of_some seen]
      obtain ⟨j, before, same, least, rfl⟩ := exists_first seen
      refine ⟨j, Nat.le_of_lt before, same, least, ?_, served⟩
      rw [← same] at least
      exact (answer_of_none ((first?_take_eq_none_iff world requests j).mpr least)).2
  · rw [(records_after world requests).size_eq, keys_visits]

end KernelCache

end ScalarFusion

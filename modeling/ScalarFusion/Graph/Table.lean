/-!
Finite maps from ids to entries, stored densely.
-/
namespace ScalarFusion

structure Table (α : Type) where
  cells : Array (Option α) := #[]

namespace Table

variable {α : Type}

def empty : Table α := {}

def get? (t : Table α) (i : Nat) : Option α :=
  (t.cells[i]?).join

def contains (t : Table α) (i : Nat) : Bool :=
  (t.get? i).isSome

def insert (t : Table α) (i : Nat) (a : α) : Table α :=
  if i < t.cells.size then ⟨t.cells.setIfInBounds i (some a)⟩
  else ⟨(t.cells ++ Array.replicate (i - t.cells.size) none).push (some a)⟩

def insertNew (t : Table α) (i : Nat) (a : α) : Table α :=
  if t.contains i then t else t.insert i a

@[simp]
theorem get?_empty (i : Nat) : (empty : Table α).get? i = none := by
  simp [empty, get?]

@[simp]
theorem get?_insert (t : Table α) (i j : Nat) (a : α) :
    (t.insert i a).get? j = if i = j then some a else t.get? j := by
  unfold insert get?
  split
  · next inside =>
    rw [Array.getElem?_setIfInBounds]
    split <;> simp
  · next outside =>
    rw [Array.getElem?_push]
    have size : (t.cells ++ Array.replicate (i - t.cells.size) none).size = i := by
      simp; omega
    rw [size]
    by_cases same : i = j
    · simp [same]
    · rw [if_neg (Ne.symm same), if_neg same, Array.getElem?_append]
      split
      · rfl
      · next beyond =>
        have none_at : t.cells[j]? = none := by simp; omega
        rw [none_at, Array.getElem?_replicate]
        split <;> rfl

theorem insert_cases {t : Table α} {i j : Nat} {a b : α} (entry : (t.insert i a).get? j = some b) :
    (j = i ∧ b = a) ∨ t.get? j = some b := by
  rw [get?_insert] at entry
  split at entry
  · next same => exact .inl ⟨same.symm, (Option.some.inj entry).symm⟩
  · exact .inr entry

end Table

end ScalarFusion

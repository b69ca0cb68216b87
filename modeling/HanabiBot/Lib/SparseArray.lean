import Mathlib

/-!
# Arrays with holes

A JavaScript array is a length together with a partial function from indices:
reading a hole or an index past the end gives `undefined`, and writing past the
end grows the array.  `SparseArray` is that data type with the two operations
programs use on it, `get` and `set`, and `toList`, the array read from index
`0` up to its length.

* `get_set_self`, `get_set_of_ne` — reading back what was written;
* `Bounded` — no entry lies at or past the length; `set` keeps it (`Bounded.set`).
-/

/-- A length and, for every index, the entry there if the array has one. -/
structure SparseArray (α : Type*) where
  /-- The `length` property. -/
  length : ℕ
  /-- The entry at an index, `none` for a hole or past the end. -/
  get : ℕ → Option α

namespace SparseArray

variable {α : Type*}

/-- The array `[]`. -/
def empty : SparseArray α := ⟨0, fun _ => none⟩

/-- `a[i] = x`. -/
def set (a : SparseArray α) (i : ℕ) (x : α) : SparseArray α :=
  ⟨max a.length (i + 1), Function.update a.get i (some x)⟩

/-- The entries from index `0` up to the length, holes included. -/
def toList (a : SparseArray α) : List (Option α) := (List.range a.length).map a.get

@[simp] theorem get_empty (i : ℕ) : (empty : SparseArray α).get i = none := rfl

@[simp] theorem get_set_self (a : SparseArray α) (i : ℕ) (x : α) : (a.set i x).get i = some x := by
  simp [set]

theorem get_set_of_ne (a : SparseArray α) {i j : ℕ} (h : j ≠ i) (x : α) :
    (a.set i x).get j = a.get j := by
  simp [set, h]

theorem get_set (a : SparseArray α) (i j : ℕ) (x : α) :
    (a.set i x).get j = if j = i then some x else a.get j := by
  by_cases h : j = i
  · subst h; simp
  · rw [get_set_of_ne a h, if_neg h]

@[simp] theorem length_set (a : SparseArray α) (i : ℕ) (x : α) :
    (a.set i x).length = max a.length (i + 1) := rfl

/-- `a[i] = f(a[i])`, where the array has an entry. -/
def modify (a : SparseArray α) (i : ℕ) (f : α → α) : SparseArray α :=
  match a.get i with
  | some x => a.set i (f x)
  | none => a

@[simp] theorem get_modify_self (a : SparseArray α) (i : ℕ) (f : α → α) :
    (a.modify i f).get i = (a.get i).map f := by
  unfold modify
  cases h : a.get i with
  | none => simp [h]
  | some x => simp

theorem get_modify_of_ne (a : SparseArray α) {i j : ℕ} (h : j ≠ i) (f : α → α) :
    (a.modify i f).get j = a.get j := by
  unfold modify
  cases a.get i with
  | none => rfl
  | some x => exact get_set_of_ne a h (f x)

/-- No entry is defined at or past the length. -/
def Bounded (a : SparseArray α) : Prop := ∀ i, a.length ≤ i → a.get i = none

theorem bounded_empty : (empty : SparseArray α).Bounded := fun _ _ => rfl

theorem Bounded.set {a : SparseArray α} (h : a.Bounded) (i : ℕ) (x : α) :
    (a.set i x).Bounded := by
  intro j hj
  rw [length_set] at hj
  rw [get_set_of_ne a (by omega), h j (by omega)]

end SparseArray

import Mathlib.Data.List.Basic

/-!
# Machinery/Slice — slices of an array with room behind them

A slice shows a stretch of its backing array; what stands behind the stretch is spare room.
Appending overwrites the spare room while there is enough of it and moves to a larger array
otherwise, whose room is up to the allocator (`room`).  What a slice shows afterwards does not
depend on which of the two happened.
-/

/-- A slice: the elements it shows and the rest of its array. -/
structure Slice (α : Type*) where
  elems : List α
  spare : List α

namespace Slice

variable {α : Type*}

/-- A new array of `n` equal elements, shown whole. -/
def make (n : ℕ) (a : α) : Slice α := ⟨List.replicate n a, []⟩

/-- Append, in place or in a new array. -/
def append (room : ℕ → List α) (s : Slice α) (xs : List α) : Slice α :=
  if xs.length ≤ s.spare.length then ⟨s.elems ++ xs, s.spare.drop xs.length⟩
  else ⟨s.elems ++ xs, room (s.elems.length + xs.length)⟩

/-- The slice of the same array that shows `k` elements; the array must have them. -/
def reslice (s : Slice α) (k : ℕ) : Option (Slice α) :=
  if k ≤ s.elems.length + s.spare.length then
    some ⟨(s.elems ++ s.spare).take k, (s.elems ++ s.spare).drop k⟩
  else none

/-- Assignment to an element; the index must be in range. -/
def set (s : Slice α) (k : ℕ) (a : α) : Option (Slice α) :=
  if k < s.elems.length then some ⟨s.elems.set k a, s.spare⟩ else none

/-- What `dst` shows after `copy(dst, src)`: its length stays. -/
def copyInto (dst src : List α) : List α := src.take dst.length ++ dst.drop src.length

theorem copyInto_append {dst src : List α} (h : src.length = dst.length) (more : List α) :
    copyInto dst (src ++ more) = src := by
  rw [copyInto, List.take_append_of_le_length (Nat.le_of_eq h.symm), ← h, List.take_length,
    List.drop_of_length_le (by rw [List.length_append, ← h]; omega), List.append_nil]

@[simp] theorem elems_append (room : ℕ → List α) (s : Slice α) (xs : List α) :
    (s.append room xs).elems = s.elems ++ xs := by
  unfold append
  split <;> rfl

/-- A shorter slice always exists, and shows the first elements. -/
theorem exists_reslice {s : Slice α} {k : ℕ} (h : k ≤ s.elems.length) :
    ∃ s', s.reslice k = some s' ∧ s'.elems = s.elems.take k :=
  ⟨_, if_pos (Nat.le_add_right_of_le h), List.take_append_of_le_length h⟩

theorem set_append_cons (done todo : List α) (a b : α) (spare : List α) :
    set ⟨done ++ b :: todo, spare⟩ done.length a = some ⟨done ++ a :: todo, spare⟩ := by
  simp [set]

end Slice

import Mathlib.Data.List.Basic
import Mathlib.Logic.Function.Basic

/-!
# Filled prefixes of an array

A C array is a function from indices to cells. A loop that stores one cell
after another builds the list `Buf.taken f n` of its first `n` cells.
-/

namespace Buf

variable {α : Type*}

/-- The first `n` cells of the array `f`. -/
def taken (f : Nat → α) (n : Nat) : List α := (List.range n).map f

@[simp] theorem taken_zero (f : Nat → α) : taken f 0 = [] := rfl

@[simp] theorem taken_length (f : Nat → α) (n : Nat) : (taken f n).length = n := by
  simp [taken]

theorem taken_succ (f : Nat → α) (n : Nat) : taken f (n + 1) = taken f n ++ [f n] := by
  simp [taken, List.range_succ]

/-- Cells behind the prefix do not show in it. -/
theorem taken_update_of_le (f : Nat → α) (c : α) {n i : Nat} (h : n ≤ i) :
    taken (Function.update f i c) n = taken f n := by
  refine List.map_congr_left fun j hj => ?_
  have hlt : j < n := List.mem_range.mp hj
  exact Function.update_of_ne (by omega) _ _

/-- Storing the next cell appends it. -/
theorem taken_update (f : Nat → α) (n : Nat) (c : α) :
    taken (Function.update f n c) (n + 1) = taken f n ++ [c] := by
  rw [taken_succ, taken_update_of_le f c (Nat.le_refl n), Function.update_self]

theorem taken_add (f : Nat → α) (m n : Nat) :
    taken f (m + n) = taken f m ++ taken (fun i => f (m + i)) n := by
  induction n with
  | zero => simp
  | succ n ih => rw [← Nat.add_assoc, taken_succ, ih, taken_succ, List.append_assoc]

theorem getElem?_taken (f : Nat → α) {n i : Nat} (h : i < n) : (taken f n)[i]? = some (f i) := by
  simp [taken, h]

/-- The array that holds the list `l`, and `d` behind it. -/
def ofList (l : List α) (d : α) : Nat → α := fun i => l.getD i d

theorem taken_ofList (l : List α) (d : α) : taken (ofList l d) l.length = l := by
  apply List.ext_getElem
  · simp
  · intro i h1 h2
    simp [taken, ofList, h2]

end Buf

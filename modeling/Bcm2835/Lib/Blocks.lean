import Bcm2835.Lib.Mem
import Bcm2835.Lib.Bytes

/-!
# Blocks of memory

What a `memmove` and a `memset` make of a memory, and how they come about a byte or a
word at a time, from either end.
-/

namespace Mem

/-- The `n` bytes at `src` are moved to `dst`. -/
def move (m : Memory) (dst src n : Nat) : Memory := fun x =>
  if dst ≤ x ∧ x < dst + n then m (src + (x - dst)) else m x

/-- The `n` bytes at `dst` are set. -/
def fill (m : Memory) (dst n : Nat) (v : UInt8) : Memory := fun x =>
  if dst ≤ x ∧ x < dst + n then v else m x

variable {m : Memory} {dst src n i : Nat} {v : UInt8}

theorem move_at (hi : i < n) : move m dst src n (dst + i) = m (src + i) := by
  rw [move, if_pos (by omega), Nat.add_sub_cancel_left]

theorem move_outside {x : Nat} (hx : x < dst ∨ dst + n ≤ x) : move m dst src n x = m x :=
  if_neg (by omega)

theorem fill_at (hi : i < n) : fill m dst n v (dst + i) = v := if_pos (by omega)

theorem fill_outside {x : Nat} (hx : x < dst ∨ dst + n ≤ x) : fill m dst n v x = m x :=
  if_neg (by omega)

@[simp] theorem move_zero : move m dst src 0 = m := by
  funext x
  exact move_outside (by omega)

@[simp] theorem fill_zero : fill m dst 0 v = m := by
  funext x
  exact fill_outside (by omega)

/-- Upwards, the next byte is still as it was if the destination has not run into it. -/
theorem move_up (hsafe : dst ≤ src ∨ src + n ≤ dst) (hi : i < n) :
    Function.update (move m dst src i) (dst + i) (move m dst src i (src + i)) =
      move m dst src (i + 1) := by
  rw [move_outside (show src + i < dst ∨ dst + i ≤ src + i by omega)]
  funext x
  by_cases hx : x = dst + i
  · subst hx
    rw [Function.update_self, move_at (Nat.lt_succ_self i)]
  · rw [Function.update_of_ne hx]
    by_cases hin : dst ≤ x ∧ x < dst + i
    · obtain ⟨j, rfl⟩ := Nat.exists_eq_add_of_le hin.1
      rw [move_at (show j < i by omega), move_at (show j < i + 1 by omega)]
    · rw [move_outside (by omega), move_outside (by omega)]

/-- Downwards, the next byte is still as it was if the destination lies behind the source. -/
theorem move_down (hsafe : src ≤ dst) :
    Function.update (move m (dst + 1) (src + 1) n) dst (move m (dst + 1) (src + 1) n src) =
      move m dst src (n + 1) := by
  rw [move_outside (show src < dst + 1 ∨ dst + 1 + n ≤ src by omega)]
  funext x
  by_cases hx : x = dst
  · subst hx
    rw [Function.update_self]
    exact (move_at (i := 0) (Nat.succ_pos n)).symm
  · rw [Function.update_of_ne hx]
    by_cases hin : dst + 1 ≤ x ∧ x < dst + 1 + n
    · obtain ⟨j, rfl⟩ := Nat.exists_eq_add_of_le hin.1
      rw [move_at (show j < n by omega), Nat.add_assoc, Nat.add_assoc,
        move_at (show 1 + j < n + 1 by omega)]
    · rw [move_outside (by omega), move_outside (by omega)]

theorem fill_byte : Function.update (fill m dst n v) (dst + n) v = fill m dst (n + 1) v := by
  funext x
  by_cases hx : x = dst + n
  · subst hx
    rw [Function.update_self, fill_at (Nat.lt_succ_self n)]
  · rw [Function.update_of_ne hx]
    by_cases hin : dst ≤ x ∧ x < dst + n
    · obtain ⟨j, rfl⟩ := Nat.exists_eq_add_of_le hin.1
      rw [fill_at (show j < n by omega), fill_at (show j < n + 1 by omega)]
    · rw [fill_outside (by omega), fill_outside (by omega)]

/-- Equal bytes behind each other. -/
theorem fill_bytes {N : Nat} (k : Nat) (hfit : dst + n + k ≤ N) :
    write N (fill m dst n v) (dst + n) (List.replicate k v) = fill m dst (n + k) v := by
  funext x
  by_cases hin : dst + n ≤ x ∧ x < dst + n + k
  · obtain ⟨j, rfl⟩ := Nat.exists_eq_add_of_le hin.1
    rw [write_getElem _ (by simpa using hfit) (show j < (List.replicate k v).length by simp; omega),
      List.getElem_replicate, Nat.add_assoc, fill_at (by omega)]
  · rw [write_of_outside _ (by simpa using hfit) (by rw [List.length_replicate]; omega)]
    by_cases hin' : dst ≤ x ∧ x < dst + n
    · obtain ⟨j, rfl⟩ := Nat.exists_eq_add_of_le hin'.1
      rw [fill_at (show j < n by omega), fill_at (show j < n + k by omega)]
    · rw [fill_outside (by omega), fill_outside (by omega)]

end Mem

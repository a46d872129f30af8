import Bcm2835.Lib.Mem

/-!
# Bytes moved one after the other

`moves dst src n m` copies `n` bytes in order, the `k`-th from address `src k`
to address `dst k`. A byte that an earlier move has stored is read as stored;
where no source is a destination the order does not show (`moves_at`).
-/

namespace Mem

/-- Moves `n` bytes, the `k`-th from `src k` to `dst k`. -/
def moves (dst src : Nat → Nat) : Nat → Memory → Memory
  | 0, m => m
  | n + 1, m => Function.update (moves dst src n m) (dst n) (moves dst src n m (src n))

variable {dst src : Nat → Nat} {n : Nat}

@[simp] theorem moves_zero (dst src : Nat → Nat) (m : Memory) : moves dst src 0 m = m := rfl

theorem moves_one (dst src : Nat → Nat) (m : Memory) :
    moves dst src 1 m = Function.update m (dst 0) (m (src 0)) := rfl

/-- Only destinations change. -/
theorem moves_of_ne {m : Memory} {a : Nat} (h : ∀ k < n, a ≠ dst k) : moves dst src n m a = m a := by
  induction n with
  | zero => rfl
  | succ n ih =>
      rw [moves, Function.update_of_ne (h n (Nat.lt_succ_self n))]
      exact ih fun k hk => h k (Nat.lt_succ_of_lt hk)

/-- A destination that no source reads and no other move stores to holds the
byte of its source. -/
theorem moves_at {d s : Nat → Nat} {m : Memory} (hinj : ∀ j < n, ∀ k < n, d j = d k → j = k)
    (hapart : ∀ j < n, ∀ k < n, s j ≠ d k) {k : Nat} (hk : k < n) :
    moves d s n m (d k) = m (s k) := by
  induction n with
  | zero => omega
  | succ n ih =>
      rw [moves]
      rcases Nat.lt_succ_iff_lt_or_eq.mp hk with hlt | rfl
      · have hne : d k ≠ d n := fun h => by
          have := hinj k hk n (Nat.lt_succ_self n) h
          omega
        rw [Function.update_of_ne hne]
        exact ih (fun i hi j hj => hinj i (by omega) j (by omega))
          (fun i hi j hj => hapart i (by omega) j (by omega)) hlt
      · rw [Function.update_self]
        exact moves_of_ne fun j hj => hapart k hk j (by omega)

theorem moves_congr {dst' src' : Nat → Nat} (m : Memory) (hdst : ∀ k < n, dst k = dst' k)
    (hsrc : ∀ k < n, src k = src' k) : moves dst src n m = moves dst' src' n m := by
  induction n with
  | zero => rfl
  | succ n ih =>
      rw [moves, moves, ih (fun k hk => hdst k (by omega)) (fun k hk => hsrc k (by omega)),
        hdst n (Nat.lt_succ_self n), hsrc n (Nat.lt_succ_self n)]

end Mem

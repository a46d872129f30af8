import Mathlib.Data.List.Basic

/-!
# Loops that go through memory by a fixed stride

`sweep f inc a stop s` is `while (a < stop) { s = f(a, s); a += inc; }`, which
ends with the pair of `a` and `s`. Two sweeps that differ in one turn only end
in related states if that turn relates any state to itself and all the later
ones keep the relation (`sweep_apart`).
-/

namespace Sweep

variable {σ : Type*}

/-- The number of turns. -/
def turns (inc a stop : Nat) : Nat := (stop - a + (inc - 1)) / inc

def sweep (f : Nat → σ → σ) (inc a stop : Nat) (s : σ) : Nat × σ :=
  (a + inc * turns inc a stop,
    (List.range (turns inc a stop)).foldl (fun s k => f (a + inc * k) s) s)

/-- Each turn starts before the end. -/
theorem turn_lt {inc a stop k : Nat} (hinc : 0 < inc) (hk : k < turns inc a stop) :
    a + inc * k < stop := by
  have hle : (k + 1) * inc ≤ stop - a + (inc - 1) := (Nat.le_div_iff_mul_le hinc).mp hk
  rw [Nat.mul_comm, Nat.mul_succ] at hle
  omega

theorem turns_mul {inc : Nat} (hinc : 0 < inc) (a n : Nat) : turns inc a (a + inc * n) = n := by
  rw [turns, Nat.add_sub_cancel_left, Nat.mul_add_div hinc,
    Nat.div_eq_of_lt (Nat.sub_lt hinc Nat.one_pos), Nat.add_zero]

/-- From an end that is a whole number of strides away, the loop ends there. -/
theorem sweep_end {inc a n : Nat} (hinc : 0 < inc) (f : Nat → σ → σ) (s : σ) :
    (sweep f inc a (a + inc * n) s).1 = a + inc * n := by rw [sweep, turns_mul hinc]

/-- No turn. -/
theorem sweep_zero {inc a : Nat} (hinc : 0 < inc) (f : Nat → σ → σ) (s : σ) :
    (sweep f inc a (a + inc * 0) s).2 = s := by
  simp only [sweep, turns_mul hinc]
  rfl

/-- The last turn. -/
theorem sweep_succ {inc a n : Nat} (hinc : 0 < inc) (f : Nat → σ → σ) (s : σ) :
    (sweep f inc a (a + inc * (n + 1)) s).2 =
      f (a + inc * n) (sweep f inc a (a + inc * n) s).2 := by
  simp only [sweep, turns_mul hinc]
  rw [List.range_succ, List.foldl_append, List.foldl_cons, List.foldl_nil]

theorem foldl_congr {α : Type*} {f g : σ → α → σ} {l : List α} (h : ∀ k ∈ l, ∀ s, f s k = g s k)
    (s : σ) : l.foldl f s = l.foldl g s := by
  induction l generalizing s with
  | nil => rfl
  | cons k l ih =>
      rw [List.foldl_cons, List.foldl_cons, h k List.mem_cons_self]
      exact ih (fun k hk => h k (List.mem_cons_of_mem _ hk)) _

/-- The turns at all addresses before the end decide the result. -/
theorem sweep_congr {f g : Nat → σ → σ} {inc a stop : Nat} (hinc : 0 < inc)
    (h : ∀ k, a + inc * k < stop → ∀ s, f (a + inc * k) s = g (a + inc * k) s) (s : σ) :
    sweep f inc a stop s = sweep g inc a stop s := by
  refine Prod.ext rfl ?_
  exact foldl_congr (fun k hk s => h k (turn_lt hinc (List.mem_range.mp hk)) s) s

/-- A relation that all turns keep. -/
theorem sweep_rel {R : σ → σ → Prop} {f g : Nat → σ → σ} {inc a stop : Nat} (hinc : 0 < inc)
    (hkeep : ∀ k, a + inc * k < stop → ∀ s t, R s t → R (f (a + inc * k) s) (g (a + inc * k) t))
    {s t : σ} (h : R s t) : R (sweep f inc a stop s).2 (sweep g inc a stop t).2 := by
  have hfold : ∀ l : List Nat, (∀ k ∈ l, a + inc * k < stop) → ∀ s t, R s t →
      R (l.foldl (fun s k => f (a + inc * k) s) s) (l.foldl (fun s k => g (a + inc * k) s) t) := by
    intro l
    induction l with
    | nil => exact fun _ s t h => h
    | cons k l ih =>
        intro hl s t h
        exact ih (fun k hk => hl k (List.mem_cons_of_mem _ hk)) _ _
          (hkeep k (hl k List.mem_cons_self) s t h)
  exact hfold _ (fun k hk => turn_lt hinc (List.mem_range.mp hk)) s t h

/-- Two loops that differ in turn `d` only. -/
theorem sweep_apart {R : σ → σ → Prop} {f g : Nat → σ → σ} {inc a stop d : Nat} (hinc : 0 < inc)
    (hd : a + inc * d < stop)
    (hsame : ∀ k, k ≠ d → a + inc * k < stop → ∀ s, f (a + inc * k) s = g (a + inc * k) s)
    (hkeep : ∀ k s t, R s t → R (f (a + inc * k) s) (f (a + inc * k) t))
    (happart : ∀ s, R (f (a + inc * d) s) (g (a + inc * d) s)) (s : σ) :
    R (sweep f inc a stop s).2 (sweep g inc a stop s).2 := by
  have hlt : d < turns inc a stop := by
    rw [turns, Nat.lt_iff_add_one_le, Nat.le_div_iff_mul_le hinc, Nat.mul_comm, Nat.mul_succ]
    omega
  -- the turns before `d`, turn `d`, and those after it
  obtain ⟨n, hn⟩ := Nat.exists_eq_add_of_lt hlt
  have hsplit : List.range (turns inc a stop) =
      List.range d ++ d :: (List.range n).map (fun k => d + 1 + k) := by
    rw [hn, Nat.add_right_comm, List.range_add, List.range_succ, List.append_assoc]
    rfl
  have hbefore : ∀ s, (List.range d).foldl (fun s k => f (a + inc * k) s) s =
      (List.range d).foldl (fun s k => g (a + inc * k) s) s := by
    refine foldl_congr fun k hk => ?_
    have hkd := List.mem_range.mp hk
    exact hsame k (Nat.ne_of_lt hkd) (turn_lt hinc (Nat.lt_trans hkd hlt))
  have hafter : ∀ l : List Nat, (∀ k ∈ l, k ≠ d ∧ k < turns inc a stop) → ∀ s t, R s t →
      R (l.foldl (fun s k => f (a + inc * k) s) s) (l.foldl (fun s k => g (a + inc * k) s) t) := by
    intro l
    induction l with
    | nil => exact fun _ s t h => h
    | cons k l ih =>
        intro hl s t h
        obtain ⟨hk, hk'⟩ := hl k List.mem_cons_self
        have hR := hkeep k s t h
        rw [hsame k hk (turn_lt hinc hk') t] at hR
        exact ih (fun k hk => hl k (List.mem_cons_of_mem _ hk)) _ _ hR
  simp only [sweep, hsplit, List.foldl_append, List.foldl_cons, hbefore]
  apply hafter
  · intro k hk
    obtain ⟨i, hi, rfl⟩ := List.mem_map.mp hk
    have hin := List.mem_range.mp hi
    omega
  · exact happart _

end Sweep

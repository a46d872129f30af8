import Mathlib.Data.UInt

/-!
# The system timer (`systmr.c`)

The timer is a 64-bit counter of microseconds that the processor reads in two words, one
register after the other, while it runs on. `systmr_read_raw` reads high, low, high until
the two high words agree. A schedule says where the counter is at each register read.
-/

namespace Bcm2835

/-! ## The registers -/

/-- `chi` when the counter has made `t` ticks. -/
def chi (t : Nat) : UInt32 := .ofNat (t / 2 ^ 32)

/-- `clo` when the counter has made `t` ticks. -/
def clo (t : Nat) : UInt32 := .ofNat t

/-- The ticks at each of the register reads, less than 2^32 from one to the next. -/
def Advances (ticks : Nat → Nat) : Prop :=
  ∀ i, ticks i ≤ ticks (i + 1) ∧ ticks (i + 1) < ticks i + 2 ^ 32

/-! ## The loop -/

/-- The loop, at most `n` times round, with the `i`-th register read as its next one. The
high word that did not agree is the first one of the next round. -/
def readLoop (ticks : Nat → Nat) : Nat → Nat → UInt32 → Option (UInt64 × Nat)
  | 0, _, _ => none
  | n + 1, i, hi =>
      if chi (ticks (i + 1)) ≠ hi then readLoop ticks n (i + 2) (chi (ticks (i + 1)))
      else some (hi.toUInt64 <<< 32 ||| (clo (ticks i)).toUInt64, i + 2)

/-- A call whose first register read is the `i`-th: its value, and the next read after it. -/
def systmr_read_raw (ticks : Nat → Nat) (n i : Nat) : Option (UInt64 × Nat) :=
  readLoop ticks n (i + 1) (chi (ticks i))

/-- Calls one after the other, from the `i`-th register read on and before the `e`-th, and
their values. -/
inductive Calls (ticks : Nat → Nat) : Nat → List UInt64 → Nat → Prop
  | nil {i e : Nat} : i ≤ e → Calls ticks i [] e
  | cons {n i j k e : Nat} {v : UInt64} {vs : List UInt64} :
      i ≤ j → systmr_read_raw ticks n j = some (v, k) → Calls ticks k vs e →
        Calls ticks i (v :: vs) e

/-! ## One value -/

theorem chi_toNat (t : Nat) : (chi t).toNat = t / 2 ^ 32 % 2 ^ 32 := UInt32.toNat_ofNat'

theorem clo_toNat (t : Nat) : (clo t).toNat = t % 2 ^ 32 := UInt32.toNat_ofNat'

theorem joined_toNat (hi lo : UInt32) :
    (hi.toUInt64 <<< 32 ||| lo.toUInt64).toNat = hi.toNat * 2 ^ 32 + lo.toNat := by
  have hhi := hi.toNat_lt
  have hlo := lo.toNat_lt
  rw [UInt64.toNat_or, UInt64.toNat_shiftLeft, UInt32.toNat_toUInt64, UInt32.toNat_toUInt64]
  show hi.toNat <<< 32 % 2 ^ 64 ||| lo.toNat = _
  rw [Nat.shiftLeft_eq, Nat.mod_eq_of_lt (by omega), ← Nat.shiftLeft_eq,
    ← Nat.shiftLeft_add_eq_or_of_lt hlo, Nat.shiftLeft_eq]

/-- Two equal high words less than 2^33 ticks apart: no carry came between them. -/
theorem high_of_agree {a b c : Nat} (hab : a ≤ b) (hbc : b ≤ c) (hc : c < a + 2 ^ 33)
    (h : chi c = chi a) : b / 2 ^ 32 % 2 ^ 32 = (chi a).toNat := by
  have heq : c / 2 ^ 32 % 2 ^ 32 = a / 2 ^ 32 % 2 ^ 32 := by
    rw [← chi_toNat, ← chi_toNat, h]
  rw [chi_toNat]
  omega

variable {ticks : Nat → Nat}

theorem Advances.mono (h : Advances ticks) {i j : Nat} (hij : i ≤ j) : ticks i ≤ ticks j :=
  monotone_nat_of_le_succ (fun k => (h k).1) hij

/-- The value is the counter at the low read of the last round. -/
theorem read_raw_instant (h : Advances ticks) {n i j : Nat} {v : UInt64}
    (hv : systmr_read_raw ticks n i = some (v, j)) :
    ∃ k, i < k ∧ k + 1 < j ∧ v.toNat = ticks k % 2 ^ 64 := by
  unfold systmr_read_raw at hv
  induction n generalizing i with
  | zero => cases hv
  | succ n ih =>
      unfold readLoop at hv
      split at hv
      · obtain ⟨k, hik, hkj, hk⟩ := ih hv
        exact ⟨k, by omega, hkj, hk⟩
      · rename_i hagree
        obtain ⟨rfl, rfl⟩ := Prod.mk.inj (Option.some.inj hv)
        refine ⟨i + 1, by omega, by omega, ?_⟩
        have hhigh := high_of_agree (h i).1 (h (i + 1)).1 (by
          have h0 := h i
          have h1 := h (i + 1)
          omega) (not_not.mp hagree)
        rw [joined_toNat, clo_toNat, ← hhigh]
        omega

/-! ## Calls in sequence -/

/-- The values are those of the counter at instants that follow each other. -/
theorem Calls.instants (h : Advances ticks) {i e : Nat} {vs : List UInt64} (hc : Calls ticks i vs e) :
    i ≤ e ∧ ∃ ks : List Nat, vs.map (·.toNat) = ks.map (ticks · % 2 ^ 64) ∧
      ks.Pairwise (· < ·) ∧ ∀ k ∈ ks, i < k ∧ k < e := by
  induction hc with
  | nil hie => exact ⟨hie, [], rfl, .nil, nofun⟩
  | cons hij hv _ ih =>
      obtain ⟨hke, ks, hvals, hsorted, hin⟩ := ih
      obtain ⟨k, hjk, hkk, hval⟩ := read_raw_instant h hv
      refine ⟨by omega, k :: ks, ?_, ?_, ?_⟩
      · rw [List.map_cons, List.map_cons, hval, hvals]
      · refine List.pairwise_cons.mpr ⟨fun l hl => ?_, hsorted⟩
        have := (hin l hl).1
        omega
      · intro l hl
        obtain rfl | hl := List.mem_cons.mp hl
        · omega
        · have := hin l hl
          omega

/-- Every value returned is one the counter had during the call; while the 64 bits of the
counter have not overflowed, the values of successive calls do not decrease. -/
theorem systmr_read_raw_untorn (h : Advances ticks) :
    (∀ n i v j, systmr_read_raw ticks n i = some (v, j) →
      ∃ k, i < k ∧ k + 1 < j ∧ v.toNat = ticks k % 2 ^ 64) ∧
    ∀ i vs e, Calls ticks i vs e → ticks e < 2 ^ 64 → vs.Pairwise (· ≤ ·) := by
  refine ⟨fun n i v j => read_raw_instant h, fun i vs e hc hlt => ?_⟩
  obtain ⟨_, ks, hvals, hsorted, hin⟩ := hc.instants h
  have hmap : (vs.map (·.toNat)).Pairwise (· ≤ ·) := by
    rw [hvals, List.pairwise_map]
    refine hsorted.imp_of_mem fun {a b} ha hb hab => ?_
    have hae := h.mono (Nat.le_of_lt (hin a ha).2)
    have hbe := h.mono (Nat.le_of_lt (hin b hb).2)
    rw [Nat.mod_eq_of_lt (by omega), Nat.mod_eq_of_lt (by omega)]
    exact h.mono (Nat.le_of_lt hab)
  exact (List.pairwise_map.mp hmap).imp fun hab => UInt64.le_iff_toNat_le.mpr hab

/-- Two rounds are enough when the counter advances by less than 2^32 in five reads. -/
theorem systmr_read_raw_returns (h : Advances ticks) {i : Nat} (hslow : ticks (i + 4) < ticks i + 2 ^ 32) :
    ∃ v j, systmr_read_raw ticks 2 i = some (v, j) := by
  unfold systmr_read_raw readLoop
  split
  · rename_i hfirst
    unfold readLoop
    split
    · rename_i hsecond
      have h02 := h.mono (show i ≤ i + 2 by omega)
      have h24 := h.mono (show i + 2 ≤ i + 4 by omega)
      -- a carry between the first two high words leaves none for the next two
      have hne : ticks (i + 2) / 2 ^ 32 ≠ ticks i / 2 ^ 32 := fun heq =>
        hfirst (show UInt32.ofNat _ = UInt32.ofNat _ by rw [heq])
      have heq : ticks (i + 4) / 2 ^ 32 = ticks (i + 2) / 2 ^ 32 := by omega
      exact absurd (show UInt32.ofNat _ = UInt32.ofNat _ by rw [heq]) hsecond
    · exact ⟨_, _, rfl⟩
  · exact ⟨_, _, rfl⟩

/-- The low word wraps between the first two high reads. -/
def wrapping (k : Nat) : Nat := 0xfffffffd + 2 * k

theorem systmr_read_raw_untorn_wrapping :
    (∃ k, 0 < k ∧ k + 1 < 5 ∧ (0x100000003 : UInt64).toNat = wrapping k % 2 ^ 64) ∧
      ([0x100000003, 0x100000009] : List UInt64).Pairwise (· ≤ ·) := by
  have hs : Advances wrapping := fun i => by
    unfold wrapping
    omega
  obtain ⟨h1, h2⟩ := systmr_read_raw_untorn hs
  have hfirst : systmr_read_raw wrapping 2 0 = some (0x100000003, 5) := by decide
  have hsecond : systmr_read_raw wrapping 1 5 = some (0x100000009, 8) := by decide
  exact ⟨h1 2 0 _ 5 hfirst, h2 0 _ 8 (.cons (Nat.le_refl 0) hfirst
    (.cons (Nat.le_refl 5) hsecond (.nil (Nat.le_refl 8)))) (by decide)⟩

end Bcm2835

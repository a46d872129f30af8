import Mathlib.Data.List.GetD
import Mathlib.Data.BitVec

/-!
# Cyclic redundancy checks

A reflected register of `w` bits takes a message bit by bit, the low bit first. The
register is linear in its state and the message (`feed_xor`), and for a polynomial with
its high bit set the state that `w` bits bring to zero is the one that spells them
(`feed_eq_zero_iff`). So no error pattern within `w` bits in a row goes unnoticed
(`burst_ne_zero`).
-/

namespace Crc

variable {w : Nat}

/-- A bit in the low place. -/
def bit (b : Bool) : BitVec w := if b then 1#w else 0#w

/-- The register moves down by one bit. -/
def step (P s : BitVec w) : BitVec w := if s.getLsbD 0 then s >>> 1 ^^^ P else s >>> 1

/-- The register after the bits of a message. -/
def feed (P s : BitVec w) : List Bool → BitVec w
  | [] => s
  | b :: p => feed P (step P (s ^^^ bit b)) p

variable {P s t : BitVec w} {p q : List Bool} {n : Nat}

theorem bit_getLsbD (b : Bool) (i : Nat) (hw : 0 < w) :
    (bit b : BitVec w).getLsbD i = (decide (i = 0) && b) := by
  cases b
  · simp [bit]
  · simp [bit, BitVec.getLsbD_one, hw]

theorem bit_xor (a b : Bool) : (bit (a ^^ b) : BitVec w) = bit a ^^^ bit b := by
  cases a <;> cases b <;> simp [bit]

/-! ## Linearity -/

theorem xor_cancel_right (a b c : BitVec w) : a ^^^ c ^^^ (b ^^^ c) = a ^^^ b := by
  rw [BitVec.xor_comm b c, BitVec.xor_assoc, ← BitVec.xor_assoc c c b, BitVec.xor_self,
    BitVec.zero_xor]

theorem step_xor (P a b : BitVec w) : step P (a ^^^ b) = step P a ^^^ step P b := by
  unfold step
  rw [BitVec.getLsbD_xor, BitVec.ushiftRight_xor_distrib]
  cases a.getLsbD 0 <;> cases b.getLsbD 0
  · rfl
  · exact BitVec.xor_assoc _ _ _
  · show a >>> 1 ^^^ b >>> 1 ^^^ P = a >>> 1 ^^^ P ^^^ b >>> 1
    rw [BitVec.xor_assoc, BitVec.xor_comm _ P, ← BitVec.xor_assoc]
  · exact (xor_cancel_right _ _ P).symm

theorem feed_append : feed P s (p ++ q) = feed P (feed P s p) q := by
  induction p generalizing s with
  | nil => rfl
  | cons b p ih => exact ih

/-- The registers of two messages of the same length, and of their difference. -/
theorem feed_xor (h : p.length = q.length) :
    feed P (s ^^^ t) (List.zipWith (· ^^ ·) p q) = feed P s p ^^^ feed P t q := by
  induction p generalizing q s t with
  | nil =>
      rw [List.eq_nil_of_length_eq_zero h.symm]
      rfl
  | cons a p ih =>
      cases q with
      | nil => cases h
      | cons b q =>
          rw [List.zipWith_cons_cons, feed, feed, feed, bit_xor, ← ih (Nat.succ.inj h), ← step_xor]
          congr 2
          rw [BitVec.xor_assoc, BitVec.xor_assoc, ← BitVec.xor_assoc t, BitVec.xor_comm t,
            BitVec.xor_assoc]

theorem feed_zero : feed P 0#w (List.replicate n false) = 0#w := by
  induction n with
  | zero => rfl
  | succ n ih =>
      rw [List.replicate_succ, feed]
      have hstep : step P (0#w ^^^ bit false) = 0#w := by simp [step, bit]
      rw [hstep, ih]

/-- A register with `n` low zeros only moves down. -/
theorem feed_shift (h : ∀ i < n, s.getLsbD i = false) : feed P s (List.replicate n false) = s >>> n := by
  induction n generalizing s with
  | zero => exact (BitVec.ushiftRight_zero s).symm
  | succ n ih =>
      have hstep : step P (s ^^^ bit false) = s >>> 1 := by
        simp [step, bit, h 0 (Nat.succ_pos n)]
      rw [List.replicate_succ, feed, hstep, ih, ← BitVec.shiftRight_add, Nat.add_comm]
      intro i hi
      rw [BitVec.getLsbD_ushiftRight, Nat.add_comm]
      exact h _ (Nat.succ_lt_succ hi)

/-! ## Bursts -/

/-- The state that a step brings to `t`, a state without its high bit, is `t` moved up. -/
theorem step_getLsbD (hP : P.getLsbD (w - 1) = true) (h : (step P s).getLsbD (w - 1) = false) :
    s.getLsbD 0 = false ∧ ∀ i, (step P s).getLsbD i = s.getLsbD (i + 1) := by
  unfold step at h ⊢
  have hw : w - 1 < w := BitVec.lt_of_getLsbD hP
  cases h0 : s.getLsbD 0
  · refine ⟨rfl, fun i => ?_⟩
    rw [if_neg Bool.false_ne_true, BitVec.getLsbD_ushiftRight, Nat.add_comm]
  · rw [h0, if_pos rfl, BitVec.getLsbD_xor, BitVec.getLsbD_ushiftRight, hP,
      BitVec.getLsbD_of_ge s _ (by omega)] at h
    cases h

theorem feed_zeros_eq_zero (hP : P.getLsbD (w - 1) = true)
    (h : feed P s (List.replicate n false) = 0#w) : s = 0#w := by
  induction n generalizing s with
  | zero => exact h
  | succ n ih =>
      rw [List.replicate_succ, feed, show s ^^^ bit false = s from BitVec.xor_zero] at h
      have hstep := ih h
      obtain ⟨h0, hbits⟩ := step_getLsbD hP (s := s) (by rw [hstep, BitVec.getLsbD_zero])
      apply BitVec.eq_of_getLsbD_eq
      intro i _
      rw [BitVec.getLsbD_zero]
      cases i with
      | zero => exact h0
      | succ i => rw [← hbits, hstep, BitVec.getLsbD_zero]

/-- As many bits as the register has bring it to zero exactly if they are its own. -/
theorem feed_eq_zero_iff (hP : P.getLsbD (w - 1) = true) (hp : p.length ≤ w) :
    feed P s p = 0#w ↔ ∀ i, s.getLsbD i = p.getD i false := by
  induction p generalizing s with
  | nil =>
      refine ⟨fun h i => ?_, fun h => BitVec.eq_of_getLsbD_eq fun i _ => ?_⟩
      · show s.getLsbD i = false
        rw [show s = 0#w from h, BitVec.getLsbD_zero]
      · rw [BitVec.getLsbD_zero]
        exact h i
  | cons b p ih =>
      have hw : 0 < w := Nat.lt_of_lt_of_le (Nat.succ_pos _) hp
      rw [feed, ih (Nat.le_of_succ_le hp)]
      have hbits : ∀ i, (s ^^^ bit b).getLsbD (i + 1) = s.getLsbD (i + 1) := by
        intro i
        rw [BitVec.getLsbD_xor, bit_getLsbD _ _ hw]
        simp
      have hlow : (s ^^^ bit b).getLsbD 0 = (s.getLsbD 0 ^^ b) := by
        rw [BitVec.getLsbD_xor, bit_getLsbD _ _ hw]
        simp
      constructor
      · intro h i
        have hhigh : (step P (s ^^^ bit b)).getLsbD (w - 1) = false := by
          rw [h, List.getD_eq_default _ _ (Nat.le_sub_one_of_lt hp)]
        obtain ⟨h0, hstep⟩ := step_getLsbD hP hhigh
        cases i with
        | zero =>
            rw [hlow] at h0
            exact bne_eq_false_iff_eq.mp h0
        | succ i => rw [← hbits, ← hstep, h, List.getD_cons_succ]
      · intro h i
        have h0 : (s ^^^ bit b).getLsbD 0 = false := by
          rw [hlow, h 0, List.getD_cons_zero, Bool.xor_self]
        unfold step
        rw [h0, if_neg Bool.false_ne_true, BitVec.getLsbD_ushiftRight, Nat.add_comm, hbits, h,
          List.getD_cons_succ]

/-- Bits may be put in the register instead of being fed to it. -/
theorem feed_load (hP : P.getLsbD (w - 1) = true) (hp : p.length ≤ w)
    (ht : ∀ i, t.getLsbD i = p.getD i false) :
    feed P s p = feed P (s ^^^ t) (List.replicate p.length false) := by
  have hsame : List.zipWith (· ^^ ·) (List.replicate p.length false) p = p := by
    apply List.ext_getElem
    · simp
    · intro i _ _
      simp
  have hxor : feed P (s ^^^ t ^^^ t) p =
      feed P (s ^^^ t) (List.replicate p.length false) ^^^ feed P t p := by
    rw [← feed_xor (List.length_replicate), hsame]
  rw [(feed_eq_zero_iff hP hp).mpr ht, BitVec.xor_zero, BitVec.xor_assoc, BitVec.xor_self,
    BitVec.xor_zero] at hxor
  exact hxor

/-- The set bits of `e` lie within `w` in a row. -/
def Burst (w : Nat) (e : List Bool) : Prop :=
  true ∈ e ∧ ∃ k, ∀ i < e.length, e.getD i false = true → k ≤ i ∧ i < k + w

/-- A burst is some zeros, at most `w` bits, and again zeros. -/
theorem Burst.split {e : List Bool} (h : Burst w e) :
    ∃ a p c, e = List.replicate a false ++ (p ++ List.replicate c false) ∧ p.length ≤ w ∧ true ∈ p := by
  obtain ⟨hmem, k, hk⟩ := h
  have hout : ∀ i < e.length, ¬(k ≤ i ∧ i < k + w) → e.getD i false = false := by
    intro i hi hin
    cases hb : e.getD i false
    · rfl
    · exact absurd (hk i hi hb) hin
  have hfront : e.take k = List.replicate (e.take k).length false := by
    refine List.eq_replicate_of_mem fun b hb => ?_
    obtain ⟨i, hi, rfl⟩ := List.getElem_of_mem hb
    rw [List.length_take] at hi
    rw [List.getElem_take, ← List.getD_eq_getElem _ false]
    exact hout i (by omega) (by omega)
  have hback : (e.drop k).drop w = List.replicate ((e.drop k).drop w).length false := by
    refine List.eq_replicate_of_mem fun b hb => ?_
    obtain ⟨i, hi, rfl⟩ := List.getElem_of_mem hb
    rw [List.length_drop, List.length_drop] at hi
    rw [List.getElem_drop, List.getElem_drop, ← List.getD_eq_getElem _ false]
    exact hout _ (by omega) (by omega)
  refine ⟨(e.take k).length, (e.drop k).take w, ((e.drop k).drop w).length, ?_,
    List.length_take_le _ _, ?_⟩
  · rw [← hfront, ← hback, List.take_append_drop, List.take_append_drop]
  · rw [← List.take_append_drop k e, ← List.take_append_drop w (e.drop k), hfront, hback] at hmem
    simpa using hmem

/-- An error within `w` bits leaves a register that started at zero different from zero. -/
theorem burst_ne_zero (hP : P.getLsbD (w - 1) = true) {e : List Bool} (h : Burst w e) :
    feed P 0#w e ≠ 0#w := by
  obtain ⟨a, p, c, rfl, hp, hmem⟩ := h.split
  intro hzero
  rw [feed_append, feed_zero, feed_append] at hzero
  have hback := feed_zeros_eq_zero hP hzero
  obtain ⟨i, hi, hbit⟩ := List.getElem_of_mem hmem
  have hp0 := (feed_eq_zero_iff hP hp).mp hback i
  rw [BitVec.getLsbD_zero, List.getD_eq_getElem _ _ hi, hbit] at hp0
  cases hp0

end Crc

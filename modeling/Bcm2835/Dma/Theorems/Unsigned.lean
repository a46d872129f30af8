import Bcm2835.Dma.CmpRuns
import Bcm2835.Dma.Start

/-!
# Unsigned comparison and equality

`Geu`, `Ltu`, `Equ` and `Neq` for operands of any width and all flags. The truth
tables of `geu` have one wrong entry: asked for 4 and not inverted, `Geu` answers 1
where it should answer 4.
-/

namespace Bcm2835.Dma

open Mem Digits EmitCtx

/-! ## States -/

/-- The borrow of the lookups of `geu`. -/
theorem geu_next_eq {i j l : Nat} (hi : i < 256) (hj : j < 256) (hl : l < 2) :
    geu_next i j l = HYPER_GEU + if i < j + l then 1 else 0 := by
  rw [geu_next, Nat.shiftRight_eq_div_pow]
  by_cases h : i < j + l
  · rw [if_pos h, if_pos]
    omega
  · rw [if_neg h, if_neg]
    · rfl
    · omega

theorem geu_selectors : Selectors geu_next HYPER_GEU 2 HYPER_GEU where
  start := by decide
  next i hi j hj l hl := by
    rw [geu_next_eq hi hj hl]
    split <;> omega
  fits := by decide

/-- Behind the low bytes the state says which operand is smaller there. -/
theorem geu_states (m : Memory) (lhs rhs : Nat) (t : Nat) :
    states geu_next HYPER_GEU HYPER_GEU m lhs rhs (fun t => 2 + t - 2) t =
      HYPER_GEU + if num m lhs t < num m rhs t then 1 else 0 := by
  induction t with
  | zero => rfl
  | succ t ih =>
      have hlt : num m lhs (t + 1) < num m rhs (t + 1) ↔ (m (lhs + t)).toNat < (m (rhs + t)).toNat ∨
          (m (lhs + t)).toNat = (m (rhs + t)).toNat ∧ num m lhs t < num m rhs t :=
        value_lt_succ _ _ t
      rw [states, ih, Nat.add_sub_cancel_left, Nat.add_sub_cancel_left,
        geu_next_eq (UInt8.toNat_lt _) (UInt8.toNat_lt _) (by split <;> omega)]
      refine congrArg (HYPER_GEU + ·) ?_
      by_cases hlow : num m lhs t < num m rhs t
      · rw [if_pos hlow]
        refine if_congr ?_ rfl rfl
        rw [hlt]
        omega
      · rw [if_neg hlow]
        refine if_congr ?_ rfl rfl
        rw [hlt]
        omega

theorem equ_selectors : Selectors equ_next HYPER_EQU 2 (HYPER_EQU + 1) where
  start := by decide
  next i _ j _ l _ := by
    rw [equ_next]
    split <;> omega
  fits := by decide

/-- Behind the low bytes the state says whether the operands agree there. -/
theorem equ_states (m : Memory) (lhs rhs : Nat) (t : Nat) :
    states equ_next HYPER_EQU (HYPER_EQU + 1) m lhs rhs (fun t => 2 + t - 2) t =
      HYPER_EQU + if ∀ i < t, m (lhs + i) = m (rhs + i) then 1 else 0 := by
  induction t with
  | zero => rfl
  | succ t ih =>
      rw [states, ih, Nat.add_sub_cancel_left, Nat.add_sub_cancel_left, equ_next]
      have hall : (∀ i < t + 1, m (lhs + i) = m (rhs + i)) ↔
          (m (lhs + t)).toNat = (m (rhs + t)).toNat ∧ ∀ i < t, m (lhs + i) = m (rhs + i) := by
        rw [UInt8.toNat_inj]
        exact Nat.forall_lt_succ_right'.trans and_comm
      by_cases hlow : ∀ i < t, m (lhs + i) = m (rhs + i)
      · by_cases htop : (m (lhs + t)).toNat = (m (rhs + t)).toNat
        · rw [if_pos hlow, if_pos ⟨htop, one_ne_zero⟩, if_pos (hall.mpr ⟨htop, hlow⟩)]
        · rw [if_neg fun h => htop h.1, if_neg fun h => htop (hall.mp h).1]
          rfl
      · rw [if_neg hlow, if_neg fun h => h.2 rfl, if_neg fun h => hlow (hall.mp h).2]
        rfl

/-- Numbers of two bytes, 0x0104 and 0x0204. -/
def samplePair : List (Nat × UInt8) :=
  [(0x40200000, 0x04), (0x40200001, 0x01), (0x40200010, 0x04), (0x40200011, 0x02)]

/-! ## Answers -/

section

variable (E : Engine) (L : Layout) {ctx : EmitCtx} {w ret8 lhs rhs : Nat} (flags : Nat)

/-- A chain of lookups from the lowest byte up, whose last state is `row` or
`row + 1` as `p` says. -/
theorem compare_computes {row start b0 b1 : Nat} {next : Nat → Nat → Nat → Nat}
    {p : Memory → Prop} [∀ m, Decidable (p m)] {post : Memory → Memory → Prop}
    (hw : 1 ≤ w) (hw' : w ≤ 0x4000) (hroom : ctx.Room (w + 3))
    (ho : Placement ⟨ctx.label, 32 * (w + 3)⟩ L.compareTables ⟨ret8, 1⟩ [⟨lhs, w⟩, ⟨rhs, w⟩])
    (hsel : Selectors next row 2 start) (hb0 : b0 ≤ 1) (hb1 : b1 ≤ 1)
    (hstates : ∀ m, states next row start m lhs rhs (fun t => 2 + t - 2) w =
      row + if p m then 1 else 0)
    (hpost : ∀ m m', (m' ret8).toNat = truthEntry flags b0 b1 (if p m then 1 else 0) → post m m') :
    Computes E ctx (compare L start ctx w ret8 lhs rhs flags) (Region.Any L.compareTables)
      (Has · (init_compare L row 2 next ++ SET_TRUTH_TABLES L row b0 b1)) post := by
  have hlabel := hroom.label_lt
  have hpos : 0 < ctx.label := by
    show 0 < ctx.p + BUS_DRAM_BASE
    exact Nat.add_pos_right _ (by decide)
  have hfits : ctx.label + 32 * (w + 3) ≤ 2 ^ 32 := by omega
  have hstart : start < 256 := by
    have := hsel.start
    have := hsel.fits
    omega
  refine Compare.computes E L
    (C := compareChain L.hyper.start start (truthTable L flags + BUS_DRAM_BASE) ctx.label w ret8
      lhs rhs 0 hpos hfits)
    (compareChain_compare hw ho) hroom rfl rfl (compare_eq L hroom hw hw' hstart) ho hsel ?_ ?_
  · intro x hx
    have := hsel.fits
    exact mem_truthTables (by omega) hx
  · intro m m' hhas hret
    refine hpost m m' ?_
    rw [hret, hstates m]
    exact hhas.of_append_right.truth hb0 hb1 flags (by split <;> omega)

/-- The entries for `equ` answer whether the state is the higher one. -/
theorem truthEntry_equ (p : Prop) [Decidable p] :
    truthEntry flags 0 1 (if p then 1 else 0) = answer flags p := by
  by_cases hx4 : flags &&& ICF_X4 = 0 <;> by_cases hinv : flags &&& ICF_INV = 0 <;>
    by_cases hp : p <;> simp [truthEntry, answer, hx4, hinv, hp]

/-- The entries for `geu` answer whether the state is the lower one, but for the
one that should be 4 in the table that is not inverted. -/
theorem truthEntry_geu (p : Prop) [Decidable p] :
    truthEntry flags 1 0 (if p then 1 else 0) = answer flags (¬ p) ↔
      ¬ (flags &&& ICF_X4 ≠ 0 ∧ flags &&& ICF_INV = 0 ∧ ¬ p) := by
  by_cases hx4 : flags &&& ICF_X4 = 0 <;> by_cases hinv : flags &&& ICF_INV = 0 <;>
    by_cases hp : p <;> simp [truthEntry, answer, hx4, hinv, hp]

/-- What `Geu` leaves, right or wrong. -/
theorem Geu_computes
    (hw : 1 ≤ w) (hw' : w ≤ 0x4000) (hroom : ctx.Room (w + 3))
    (ho : Placement ⟨ctx.label, 32 * (w + 3)⟩ L.compareTables ⟨ret8, 1⟩ [⟨lhs, w⟩, ⟨rhs, w⟩]) :
    Computes E ctx (Geu L ctx w ret8 lhs rhs flags) (Region.Any L.compareTables) (Has · (init_geu L))
      (fun m m' => (m' ret8).toNat = answer flags (num m rhs w ≤ num m lhs w) ↔
        ¬ (flags &&& ICF_X4 ≠ 0 ∧ flags &&& ICF_INV = 0 ∧ num m rhs w ≤ num m lhs w)) := by
  refine compare_computes E L flags (p := fun m => num m lhs w < num m rhs w) hw hw' hroom ho
    geu_selectors (by decide) (by decide) (fun m => geu_states m lhs rhs w) fun m m' hret => ?_
  have hentry := truthEntry_geu flags (num m lhs w < num m rhs w)
  rw [← hret] at hentry
  simpa only [Nat.not_lt] using hentry

/-- `Geu` and `Ltu` answer right but for one polarity: where the answer is "yes, lhs
is at least rhs" and it should be 4. -/
theorem geu_ltu_computes
    (hw : 1 ≤ w) (hw' : w ≤ 0x4000) (hroom : ctx.Room (w + 3))
    (ho : Placement ⟨ctx.label, 32 * (w + 3)⟩ L.compareTables ⟨ret8, 1⟩ [⟨lhs, w⟩, ⟨rhs, w⟩]) :
    Computes E ctx (Geu L ctx w ret8 lhs rhs flags) (Region.Any L.compareTables) (Has · (init_geu L))
      (fun m m' => (m' ret8).toNat = answer flags (num m rhs w ≤ num m lhs w) ↔
        ¬ (flags &&& ICF_X4 ≠ 0 ∧ flags &&& ICF_INV = 0 ∧ num m rhs w ≤ num m lhs w)) ∧
    Computes E ctx (Ltu L ctx w ret8 lhs rhs flags) (Region.Any L.compareTables) (Has · (init_geu L))
      (fun m m' => (m' ret8).toNat = answer flags (num m lhs w < num m rhs w) ↔
        ¬ (flags &&& ICF_X4 ≠ 0 ∧ flags &&& ICF_INV ≠ 0 ∧ num m rhs w ≤ num m lhs w)) := by
  refine ⟨Geu_computes E L flags hw hw' hroom ho, ?_⟩
  have hltu := Geu_computes E L (flags ^^^ ICF_INV) hw hw' hroom ho
  simp only [answer_inv, Nat.not_le, ne_eq, inv_x4, inv_inv] at hltu
  exact hltu

/-- `Geu` and `Ltu` of 0x0104 and 0x0204, with 4 asked for and not inverted. -/
theorem geu_ltu_computes_sample :
    (∃ m', Halts Engine.sample
        (program Layout.sample EmitCtx.sample
          (Geu Layout.sample EmitCtx.sample 2 0x40200020 0x40200000 0x40200010 ICF_X4) samplePair)
        EmitCtx.sample.label m' ∧ (m' 0x40200020).toNat = 0) ∧
    ∃ m', Halts Engine.sample
        (program Layout.sample EmitCtx.sample
          (Ltu Layout.sample EmitCtx.sample 2 0x40200020 0x40200000 0x40200010 ICF_X4) samplePair)
        EmitCtx.sample.label m' ∧ (m' 0x40200020).toNat = 4 := by
  have h := @geu_ltu_computes Engine.sample Layout.sample EmitCtx.sample 2 0x40200020 0x40200000
    0x40200010 ICF_X4 (by decide) (by decide)
    (EmitCtx.sample_room (by decide)) (by decide +kernel)
  constructor
  · obtain ⟨m', hhalts, hanswer⟩ := h.1.on_program Layout.sample samplePair 5
      (fun m hm => hm.init _ (by simp [initializers])) (by decide +kernel) (by decide +kernel)
      (by decide +kernel) (by decide +kernel)
    exact ⟨m', hhalts, (hanswer.mpr (by decide +kernel)).trans (by decide +kernel)⟩
  · obtain ⟨m', hhalts, hanswer⟩ := h.2.on_program Layout.sample samplePair 5
      (fun m hm => hm.init _ (by simp [initializers])) (by decide +kernel) (by decide +kernel)
      (by decide +kernel) (by decide +kernel)
    exact ⟨m', hhalts, (hanswer.mpr (by decide +kernel)).trans (by decide +kernel)⟩

/-- `Geu` of 4 and 4, with 4 asked for and not inverted: it answers 1. -/
theorem geu_answers_one : ∃ m m', Filled Layout.sample m ∧
    Loaded (closed (Geu Layout.sample EmitCtx.sample 1 0x40200020 0x40200000 0x40200010 ICF_X4))
      EmitCtx.sample.p m ∧
    Halts Engine.sample m EmitCtx.sample.label m' ∧ num m 0x40200010 1 ≤ num m 0x40200000 1 ∧
    answer ICF_X4 (num m 0x40200010 1 ≤ num m 0x40200000 1) = 4 ∧ m' 0x40200020 = 1 := by
  refine ⟨program Layout.sample EmitCtx.sample
      (Geu Layout.sample EmitCtx.sample 1 0x40200020 0x40200000 0x40200010 ICF_X4) samplePair,
    (after Engine.sample 4 ⟨EmitCtx.sample.label, program Layout.sample EmitCtx.sample
      (Geu Layout.sample EmitCtx.sample 1 0x40200020 0x40200000 0x40200010 ICF_X4) samplePair⟩).mem,
    load_filled Layout.sample (by decide +kernel) (by decide +kernel),
    load_loaded (n := 4) (by decide +kernel) (by decide +kernel) _,
    halts_of_conblk 4 (by decide +kernel), by decide +kernel, by decide +kernel, by decide +kernel⟩

/-- `Equ` and `Neq` answer right, whatever bytes differ. -/
theorem equ_neq_computes
    (hw : 1 ≤ w) (hw' : w ≤ 0x4000) (hroom : ctx.Room (w + 3))
    (ho : Placement ⟨ctx.label, 32 * (w + 3)⟩ L.compareTables ⟨ret8, 1⟩ [⟨lhs, w⟩, ⟨rhs, w⟩]) :
    Computes E ctx (Equ L ctx w ret8 lhs rhs flags) (Region.Any L.compareTables) (Has · (init_equ L))
      (fun m m' => (m' ret8).toNat = answer flags (∀ i < w, m (lhs + i) = m (rhs + i))) ∧
    Computes E ctx (Neq L ctx w ret8 lhs rhs flags) (Region.Any L.compareTables) (Has · (init_equ L))
      (fun m m' => (m' ret8).toNat = answer flags (∃ i < w, m (lhs + i) ≠ m (rhs + i))) := by
  have hequ : ∀ flags, Computes E ctx (Equ L ctx w ret8 lhs rhs flags)
      (Region.Any L.compareTables) (Has · (init_equ L))
      (fun m m' => (m' ret8).toNat = answer flags (∀ i < w, m (lhs + i) = m (rhs + i))) := by
    intro flags
    refine compare_computes E L flags (p := fun m => ∀ i < w, m (lhs + i) = m (rhs + i)) hw hw' hroom
      ho equ_selectors (by decide) (by decide) (fun m => equ_states m lhs rhs w) fun m m' hret => ?_
    rw [hret, truthEntry_equ]
  refine ⟨hequ flags, ?_⟩
  have hneq := hequ (flags ^^^ ICF_INV)
  have hnot : ∀ m : Memory, answer flags (¬ ∀ i < w, m (lhs + i) = m (rhs + i)) =
      answer flags (∃ i < w, m (lhs + i) ≠ m (rhs + i)) := by
    intro m
    have hiff : (¬ ∀ i < w, m (lhs + i) = m (rhs + i)) ↔ ∃ i < w, m (lhs + i) ≠ m (rhs + i) := by
      simp only [not_forall, exists_prop, ne_eq]
    simp only [answer, hiff]
  simp only [answer_inv, hnot] at hneq
  exact hneq

/-- `Equ` and `Neq` of 0x0104 and 0x0204, with 4 asked for. -/
theorem equ_neq_computes_sample :
    (∃ m', Halts Engine.sample
        (program Layout.sample EmitCtx.sample
          (Equ Layout.sample EmitCtx.sample 2 0x40200020 0x40200000 0x40200010 ICF_X4) samplePair)
        EmitCtx.sample.label m' ∧ (m' 0x40200020).toNat = 0) ∧
    ∃ m', Halts Engine.sample
        (program Layout.sample EmitCtx.sample
          (Neq Layout.sample EmitCtx.sample 2 0x40200020 0x40200000 0x40200010 ICF_X4) samplePair)
        EmitCtx.sample.label m' ∧ (m' 0x40200020).toNat = 4 := by
  have h := @equ_neq_computes Engine.sample Layout.sample EmitCtx.sample 2 0x40200020 0x40200000
    0x40200010 ICF_X4 (by decide) (by decide)
    (EmitCtx.sample_room (by decide)) (by decide +kernel)
  constructor
  · obtain ⟨m', hhalts, hanswer⟩ := h.1.on_program Layout.sample samplePair 5
      (fun m hm => hm.init _ (by simp [initializers])) (by decide +kernel) (by decide +kernel)
      (by decide +kernel) (by decide +kernel)
    exact ⟨m', hhalts, hanswer.trans (by decide +kernel)⟩
  · obtain ⟨m', hhalts, hanswer⟩ := h.2.on_program Layout.sample samplePair 5
      (fun m hm => hm.init _ (by simp [initializers])) (by decide +kernel) (by decide +kernel)
      (by decide +kernel) (by decide +kernel)
    exact ⟨m', hhalts, hanswer.trans (by decide +kernel)⟩

end

end Bcm2835.Dma

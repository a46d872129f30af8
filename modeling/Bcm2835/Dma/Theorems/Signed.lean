import Bcm2835.Dma.CmpRuns
import Bcm2835.Dma.Start

/-!
# Signed comparison

`Ges` runs its lookups from the most to the least significant byte: the first
compares signed bytes, and the others decide only while the operands are equal.
-/

namespace Bcm2835.Dma

open Mem Digits EmitCtx

/-- The number in the `n` bytes at `a`, in two's complement. -/
def snum (m : Memory) (a n : Nat) : Int := signed (fun i => m (a + i)) n

/-! ## States -/

theorem ges_selectors : Selectors ges_next HYPER_GES 4 HYPER_GES where
  start := by decide
  next i _ j _ l _ := by
    have hhigh := ges_order_range (Int.bmod i 256) (Int.bmod j 256)
    have hequ := ges_order_range i j
    unfold ges_next
    split
    · omega
    split <;> omega
  fits := by decide

/-- An order already decided stays, and an open one is that of the next digits. -/
theorem ges_next_order {i j : Nat} (hi : i < 256) (hj : j < 256) (x y : Int) :
    ges_next i j (ges_order x y - HYPER_GES) = ges_order (i + 256 * x) (j + 256 * y) := by
  rcases lt_trichotomy x y with h | rfl | h
  · have hlow : ges_order x y = GES_FALSE := if_pos h
    rw [hlow, show ges_next i j (GES_FALSE - HYPER_GES) = GES_FALSE from rfl]
    exact (if_pos (by omega)).symm
  · have hopen : ges_order x x = GES_EQU := by
      rw [ges_order, if_neg (lt_irrefl x), if_neg (lt_irrefl x)]
    rw [hopen, show ges_next i j (GES_EQU - HYPER_GES) = ges_order i j from rfl]
    unfold ges_order
    refine if_congr (by omega) rfl (if_congr (by omega) rfl rfl)
  · have hhigh : ges_order x y = GES_TRUE := by rw [ges_order, if_neg (by omega), if_pos h]
    rw [hhigh, show ges_next i j (GES_TRUE - HYPER_GES) = GES_TRUE from rfl]
    rw [ges_order, if_neg (by omega), if_pos (by omega)]

/-- Behind the `t` highest bytes the state is their order. -/
theorem ges_states (m : Memory) (lhs rhs : Nat) {w t : Nat} (ht : 1 ≤ t) (htw : t ≤ w) :
    states ges_next HYPER_GES HYPER_GES m lhs rhs (fun t => gesOrder w t - 2) t =
      ges_order (snum m (lhs + (w - t)) t) (snum m (rhs + (w - t)) t) := by
  induction t, ht using Nat.le_induction with
  | base =>
      have hidx : gesOrder w 0 - 2 = w - 1 := by rw [gesOrder_of_lt htw]; omega
      have hfirst : ∀ i j : Nat, ges_next i j (HYPER_GES - HYPER_GES) =
          ges_order (Int.bmod i 256) (Int.bmod j 256) := fun i j => if_pos (by decide)
      rw [states, states, hidx, hfirst, snum, snum, signed_one, signed_one, Nat.add_zero,
        Nat.add_zero]
  | succ t ht ih =>
      have hidx : gesOrder w t - 2 = w - (t + 1) := by rw [gesOrder_of_lt htw]; omega
      have hbyte : ∀ a i, a + (w - (t + 1)) + (i + 1) = a + (w - t) + i := fun a i => by omega
      have htop : ∀ a, snum m (a + (w - (t + 1))) (t + 1) =
          (m (a + (w - (t + 1)))).toNat + 256 * snum m (a + (w - t)) t := by
        intro a
        rw [snum, signed_succ _ ht]
        simp only [hbyte]
        rfl
      rw [states, ih (by omega), hidx, htop, htop]
      exact ges_next_order (UInt8.toNat_lt _) (UInt8.toNat_lt _) _ _

/-! ## Answers -/

theorem mem_ges_truths {L : Layout} {x : Nat × UInt8} (hx : x ∈ ges_truths L) :
    Region.Any L.compareTables x.1 := by
  have hin : ∀ {array i : Nat} {v : Int}, onBus array (2 ^ 8) ∈ L.compareTables → i < 256 →
      Region.Any L.compareTables (put array i v).1 := fun {array i v} hmem hi =>
    ⟨_, hmem, Nat.le_add_right _ _, Nat.add_lt_add_left hi _⟩
  simp only [ges_truths, List.mem_cons, List.not_mem_nil, or_false] at hx
  rcases hx with rfl | rfl | rfl | rfl | rfl | rfl | rfl | rfl | rfl | rfl | rfl | rfl | rfl | rfl |
    rfl | rfl <;> exact hin (by simp [Layout.compareTables]) (by decide)

/-- The truth tables answer for every order. -/
theorem Has.ges_truth {L : Layout} {m : Memory} (h : Has m (ges_truths L)) (flags : Nat) (i j : Int) :
    (m (truthTable L flags + BUS_DRAM_BASE + ges_order i j)).toNat = answer flags (j ≤ i) := by
  have hget : ∀ {array k x : Nat}, put array k (x : Int) ∈ ges_truths L → x < 256 →
      (m (array + BUS_DRAM_BASE + k)).toNat = x := by
    intro array k x hmem hx
    rw [h.entry hmem, Nat.mod_eq_of_lt hx]
  by_cases hle : j ≤ i
  · have horder : ges_order i j = GES_EQU ∨ ges_order i j = GES_TRUE := by
      unfold ges_order
      rw [if_neg (by omega)]
      split
      · exact .inr rfl
      · exact .inl rfl
    rcases horder with horder | horder <;> by_cases hx4 : flags &&& ICF_X4 = 0 <;>
      by_cases hinv : flags &&& ICF_INV = 0 <;>
      simp only [truthTable, answer, horder, hle, hx4, hinv, ne_eq, not_true_eq_false,
        not_false_eq_true, if_true, if_false, iff_false] <;>
      exact hget (by simp [ges_truths]) (by decide)
  · have horder : ges_order i j = GES_FALSE := if_pos (by omega)
    by_cases hx4 : flags &&& ICF_X4 = 0 <;> by_cases hinv : flags &&& ICF_INV = 0 <;>
      simp only [truthTable, answer, horder, hle, hx4, hinv, ne_eq, not_true_eq_false,
        not_false_eq_true, if_true, if_false, iff_true] <;>
      exact hget (by simp [ges_truths]) (by decide)

section

variable (E : Engine) (L : Layout) {ctx : EmitCtx} {w ret8 lhs rhs : Nat} (flags : Nat)

theorem Ges_computes
    (hw : 1 ≤ w) (hw' : w ≤ 0x4000) (hroom : ctx.Room (w + 3))
    (ho : Placement ⟨ctx.label, 32 * (w + 3)⟩ L.compareTables ⟨ret8, 1⟩ [⟨lhs, w⟩, ⟨rhs, w⟩]) :
    Computes E ctx (Ges L ctx w ret8 lhs rhs flags) (Region.Any L.compareTables) (Has · (init_ges L))
      (fun m m' => (m' ret8).toNat = answer flags (snum m rhs w ≤ snum m lhs w)) := by
  have hlabel := hroom.label_lt
  have hpos : 0 < ctx.label := by
    show 0 < ctx.p + BUS_DRAM_BASE
    exact Nat.add_pos_right _ (by decide)
  have hfits : ctx.label + 32 * (w + 3) ≤ 2 ^ 32 := by omega
  have hl : lhs + w ≤ 2 ^ 32 := ho.input_fits ⟨lhs, w⟩ (by simp)
  have hr : rhs + w ≤ 2 ^ 32 := ho.input_fits ⟨rhs, w⟩ (by simp)
  refine Compare.computes E L
    (C := gesChain L.hyper.start (truthTable L flags + BUS_DRAM_BASE) ctx.label w ret8
      lhs rhs 0 hpos hfits)
    (gesChain_compare hw ho) hroom rfl rfl (Ges_eq L hroom hw hw' (by omega) (by omega)) ho
    ges_selectors (fun x hx => mem_ges_truths hx) ?_
  intro m m' hhas hret
  rw [hret, ges_states m lhs rhs hw (Nat.le_refl w), Nat.sub_self]
  exact hhas.of_append_right.ges_truth flags _ _

/-- The blocks run in order, whatever is emitted behind them: the gathers, the
lookups from the highest byte down, the truth table and the block behind it. -/
theorem Ges_order
    (hw : 1 ≤ w) (hw' : w ≤ 0x4000) (hroom : ctx.Room (w + 3))
    (ho : Placement ⟨ctx.label, 32 * (w + 3)⟩ L.compareTables ⟨ret8, 1⟩ [⟨lhs, w⟩, ⟨rhs, w⟩]) :
    ∃ ctx₁, Ges L ctx w ret8 lhs rhs flags = some ctx₁ ∧
    ∀ m, Loaded ctx₁ ctx.p m → Has m (init_ges L) →
      (∀ t < w, (after E (2 + t) ⟨ctx.label, m⟩).conblk_ad = ctx.label + 32 * (2 + (w - 1 - t))) ∧
      (after E (2 + w) ⟨ctx.label, m⟩).conblk_ad = ctx.label + 32 * (2 + w) ∧
      (after E (2 + w + 1) ⟨ctx.label, m⟩).conblk_ad = ctx₁.label := by
  have hlabel := hroom.label_lt
  have hpos : 0 < ctx.label := by
    show 0 < ctx.p + BUS_DRAM_BASE
    exact Nat.add_pos_right _ (by decide)
  have hfits : ctx.label + 32 * (w + 3) ≤ 2 ^ 32 := by omega
  have hl : lhs + w ≤ 2 ^ 32 := ho.input_fits ⟨lhs, w⟩ (by simp)
  have hr : rhs + w ≤ 2 ^ 32 := ho.input_fits ⟨rhs, w⟩ (by simp)
  refine ⟨_, Ges_eq L hroom hw hw' (by omega) (by omega), fun m hload hhas => ?_⟩
  generalize hC : gesChain L.hyper.start (truthTable L flags + BUS_DRAM_BASE) ctx.label w ret8
      lhs rhs (ctx.label + 32 * (w + 3)) hpos hfits = C
  have hn : C.n = w + 3 := by rw [← hC]; rfl
  have hz : C.z = ctx.label := by rw [← hC]; rfl
  have hin : C.In m := by
    rw [← hC]
    refine .of_open rfl (fun k hk => ?_) hload
    obtain rfl : k = w + 2 := Nat.succ.inj hk
    exact congrArg Cblk.next_cb (gesBlock_truth L.hyper.start _ ctx.label ret8 lhs rhs w)
  have hcompare : Compare C (gesOrder w) w lhs rhs ret8 L.hyper.start HYPER_GES
      (truthTable L flags + BUS_DRAM_BASE) := by
    rw [← hC]
    exact gesChain_compare hw ho
  obtain ⟨m', hrun, _, _, htrace⟩ :=
    hcompare.run_states (E := E) hz ho ges_selectors hhas.of_append_left hin
  rw [hz] at hrun htrace
  refine ⟨fun t ht => ?_, ?_, ?_⟩
  · rw [htrace t (by omega), Chain.pc_of_lt (by rw [gesOrder_of_lt ht]; omega), hz,
      gesOrder_of_lt ht]
    omega
  · rw [htrace w (Nat.le_refl w), hcompare.last, Chain.pc_of_lt (by omega), hz]
    omega
  · rw [show 2 + w + 1 = w + 3 by omega, hrun, ← hC]
    show ctx.label + 32 * (w + 3) = (ctx.fill _ (w + 3)).p + BUS_DRAM_BASE
    rw [fill_p, label]
    omega

/-- `Ges` and `Lts` answer right, and the lookups of `Ges` run once each, from the
highest byte down, before the truth table and the block emitted behind it. -/
theorem ges_lts_computes
    (hw : 1 ≤ w) (hw' : w ≤ 0x4000) (hroom : ctx.Room (w + 3))
    (ho : Placement ⟨ctx.label, 32 * (w + 3)⟩ L.compareTables ⟨ret8, 1⟩ [⟨lhs, w⟩, ⟨rhs, w⟩]) :
    Computes E ctx (Ges L ctx w ret8 lhs rhs flags) (Region.Any L.compareTables) (Has · (init_ges L))
      (fun m m' => (m' ret8).toNat = answer flags (snum m rhs w ≤ snum m lhs w)) ∧
    Computes E ctx (Lts L ctx w ret8 lhs rhs flags) (Region.Any L.compareTables) (Has · (init_ges L))
      (fun m m' => (m' ret8).toNat = answer flags (snum m lhs w < snum m rhs w)) ∧
    ∃ ctx₁, Ges L ctx w ret8 lhs rhs flags = some ctx₁ ∧
      ∀ m, Loaded ctx₁ ctx.p m → Has m (init_ges L) →
        (∀ t < w, (after E (2 + t) ⟨ctx.label, m⟩).conblk_ad = ctx.label + 32 * (2 + (w - 1 - t))) ∧
        (after E (2 + w) ⟨ctx.label, m⟩).conblk_ad = ctx.label + 32 * (2 + w) ∧
        (after E (2 + w + 1) ⟨ctx.label, m⟩).conblk_ad = ctx₁.label := by
  refine ⟨Ges_computes E L flags hw hw' hroom ho, ?_, Ges_order E L flags hw hw' hroom ho⟩
  have hlts := Ges_computes E L (flags ^^^ ICF_INV) hw hw' hroom ho
  simp only [answer_inv, Int.not_le] at hlts
  exact hlts

end

/-- The numbers -2 and 1, of two bytes each. -/
def sampleSigns : List (Nat × UInt8) :=
  [(0x40200000, 0xfe), (0x40200001, 0xff), (0x40200010, 0x01), (0x40200011, 0x00)]

/-- -2 is less than 1, and the lookup of the lower byte is the second to run. -/
theorem ges_lts_computes_sample :
    (∃ m', Halts Engine.sample
        (program Layout.sample EmitCtx.sample
          (Ges Layout.sample EmitCtx.sample 2 0x40200020 0x40200000 0x40200010 0) sampleSigns)
        EmitCtx.sample.label m' ∧ (m' 0x40200020).toNat = 0) ∧
    (∃ m', Halts Engine.sample
        (program Layout.sample EmitCtx.sample
          (Lts Layout.sample EmitCtx.sample 2 0x40200020 0x40200000 0x40200010 0) sampleSigns)
        EmitCtx.sample.label m' ∧ (m' 0x40200020).toNat = 1) ∧
    (after Engine.sample 3 ⟨EmitCtx.sample.label,
      ((Ges Layout.sample EmitCtx.sample 2 0x40200020 0x40200000 0x40200010 0).getD
        EmitCtx.sample).load EmitCtx.sample.p (stores (tables Layout.sample) sampleSigns)⟩).conblk_ad =
      EmitCtx.sample.label + 32 * 2 := by
  have h := @ges_lts_computes Engine.sample Layout.sample EmitCtx.sample 2 0x40200020 0x40200000
    0x40200010 0 (by decide) (by decide)
    (EmitCtx.sample_room (by decide)) (by decide +kernel)
  refine ⟨?_, ?_, ?_⟩
  · obtain ⟨m', hhalts, hanswer⟩ := h.1.on_program Layout.sample sampleSigns 5
      (fun m hm => hm.init _ (by simp [initializers])) (by decide +kernel) (by decide +kernel)
      (by decide +kernel) (by decide +kernel)
    exact ⟨m', hhalts, hanswer.trans (by decide +kernel)⟩
  · obtain ⟨m', hhalts, hanswer⟩ := h.2.1.on_program Layout.sample sampleSigns 5
      (fun m hm => hm.init _ (by simp [initializers])) (by decide +kernel) (by decide +kernel)
      (by decide +kernel) (by decide +kernel)
    exact ⟨m', hhalts, hanswer.trans (by decide +kernel)⟩
  · obtain ⟨ctx₁, hem, hruns⟩ := h.2.2
    have hget : (Ges Layout.sample EmitCtx.sample 2 0x40200020 0x40200000 0x40200010 0).getD
        EmitCtx.sample = ctx₁ := by rw [hem, Option.getD_some]
    rw [← hget] at hruns
    refine (hruns _ (load_loaded (n := 5) (by decide +kernel) (by decide +kernel) _) ?_).1 1 (by decide)
    exact (load_filled Layout.sample (by decide +kernel) (by decide +kernel)).init _
      (by simp [initializers])

end Bcm2835.Dma

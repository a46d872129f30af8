import Bcm2835.Dma.IntSpec
import Bcm2835.Dma.Start

/-!
# Sums and differences

The chains `Add` and `Sub` emit leave the sum and the difference modulo the
width, for operands of any width and wherever the result is, on every run.
-/

namespace Bcm2835.Dma

open Mem Digits EmitCtx

/-- The carry into each byte, for the 16-bit results `r`. -/
def carryInto (r : Nat → Nat → Nat → Nat) (m : Memory) (lhs rhs : Nat) : Nat → Nat :=
  carries (fun i c => if r (m (lhs + i)).toNat (m (rhs + i)).toNat c / 256 ≠ 0 then 1 else 0) 0

/-- The carries are bits. -/
theorem carryInto_le (r : Nat → Nat → Nat → Nat) (m : Memory) (lhs rhs i : Nat) :
    carryInto r m lhs rhs i ≤ 1 := by
  cases i with
  | zero => exact Nat.zero_le 1
  | succ i =>
      show (if _ then 1 else 0) ≤ 1
      split <;> omega

/-- Rows that hold the digit and the carry of `r` make a ripple operation compute
any `post` that follows from the digits. -/
theorem ripple_computes (E : Engine) (L : Layout) {ctx : EmitCtx} {row w ret lhs rhs : Nat}
    {r : Nat → Nat → Nat → Nat} {post : Memory → Memory → Prop} (hroom : ctx.Room (2 * w + 1))
    (hw : 1 ≤ w) (hw' : w ≤ 0x4000) (hpos : 0 < row) (hrow : row + 4 ≤ 256)
    (ho : Placement ⟨ctx.label, 32 * (2 * w + 1)⟩ [L.hyper] ⟨ret, w⟩ [⟨lhs, w⟩, ⟨rhs, w⟩])
    (hpost : ∀ m m', (∀ k < w, (m' (ret + k)).toNat = r (m (lhs + k)).toNat (m (rhs + k)).toNat
        (carryInto r m lhs rhs k) % 256) → post m m') :
    Computes E ctx (ripple L row ctx w ret lhs rhs) L.hyper.Mem (Has · (init_carry L row r)) post := by
  have hlabel := hroom.label_lt
  have hpos' : 0 < ctx.label := by
    show 0 < ctx.p + BUS_DRAM_BASE
    exact Nat.add_pos_right _ (by decide)
  have hfits : ctx.label + 32 * (2 * w + 1) ≤ 2 ^ 32 := by omega
  have hhyper : L.HYPER + 2 ^ 24 ≤ ARM_DRAM_END := L.in_dram ⟨L.HYPER, 2 ^ 24⟩ (by simp)
  have hdram : ARM_DRAM_END + BUS_DRAM_BASE ≤ 2 ^ 32 := by decide
  have hbase : BUS_DRAM_BASE % 2 ^ 24 = 0 := by decide
  have halign := L.hyper_aligned
  refine .of_chain
    (C := rippleChain L.hyper.start row ctx.label w ret lhs rhs 0 hpos' hfits)
    hroom rfl rfl (Nat.succ_pos _) (ripple_eq L hroom hw hw' (by omega) ho.ret_fits) ?_ ?_
  · intro m m' hsame h
    refine h.congr fun x hx => hsame x.1 ?_
    have := mem_init_carry hpos hrow hx
    exact ⟨by show L.HYPER + BUS_DRAM_BASE ≤ _; omega, this.2⟩
  · intro m hin h
    have hret : ret + w ≤ ctx.label ∨ ctx.label + 32 * (2 * w + 1) ≤ ret := ho.ret_code
    have htab : ret + w ≤ L.HYPER + BUS_DRAM_BASE ∨ L.HYPER + BUS_DRAM_BASE + 2 ^ 24 ≤ ret :=
      ho.ret_tables L.hyper (by simp)
    have hcode : ctx.label + 32 * (2 * w + 1) ≤ L.HYPER + BUS_DRAM_BASE ∨
      L.HYPER + BUS_DRAM_BASE + 2 ^ 24 ≤ ctx.label := ho.code_tables L.hyper (by simp)
    obtain ⟨m', hrun, hdigits, hframe⟩ := rippleChain_run (E := E)
      (g := fun x y c => .ofNat (r x y c % 256))
      (f := fun x y c => if r x y c / 256 ≠ 0 then 1 else 0) hw ho
      (by show (L.HYPER + BUS_DRAM_BASE) % 2 ^ 24 = 0; omega)
      (by show L.HYPER + BUS_DRAM_BASE + 2 ^ 24 ≤ _; omega) hrow
      (fun x hx y hy c hc => UInt8.toNat_inj.mp (by
        rw [ofNat_mod_toNat]
        exact (h.carry (by omega) hx hy (by omega)).1))
      (fun x hx y hy c hc => (h.carry (by omega) hx hy (by omega)).2)
      (fun x y c => by split <;> omega) hin
    refine ⟨m', halts_of_after hrun, ⟨?_, ?_⟩, hpost m m' fun k hk => ?_⟩
    · refine hin.congr fun a ⟨hlo, hhi, hfix, hone⟩ => hframe a hfix ?_
      -- one byte behind a result of one byte is a flag of the first block at most,
      -- and that block moves one byte
      have hlo' : ctx.label ≤ a := hlo
      have hhi' : a < ctx.label + 32 * (2 * w + 1) := hhi
      rcases Nat.eq_or_lt_of_le hw with rfl | hmany
      · have hti : a < ctx.label ∨ ctx.label + 4 ≤ a := hone 0 (Nat.succ_pos _) rfl
        omega
      · omega
    · refine h.congr fun x hx => ?_
      have hx' := mem_init_carry hpos hrow hx
      refine hframe x.1 ?_ (by omega)
      intro k hk j hj _
      show x.1 ≠ ctx.label + 32 * k + 4 + j
      omega
    · rw [hdigits k hk, ofNat_mod_toNat]
      rfl

/-- A row of `add`. -/
theorem add_row {x y c : Nat} (hx : x < 256) (hy : y < 256) (hc : c ≤ 1) :
    u16 (x + y + c) % 256 + 256 * (if u16 (x + y + c) / 256 ≠ 0 then 1 else 0) = x + y + c := by
  have hu : u16 (x + y + c) = x + y + c := by
    rw [u16]
    omega
  rw [hu]
  split <;> omega

/-- A row of `sub`. -/
theorem sub_row {x y c : Nat} (hx : x < 256) (hy : y < 256) (hc : c ≤ 1) :
    u16 (x - y - c) % 256 + (y + c) = x + 256 * (if u16 (x - y - c) / 256 ≠ 0 then 1 else 0) := by
  rcases Nat.lt_or_ge x (y + c) with hlt | hge
  · have hu : u16 (x - y - c) = 2 ^ 16 + x - (y + c) := by
      rw [u16]
      omega
    rw [hu, if_pos (by omega)]
    omega
  · have hu : u16 (x - y - c) = x - (y + c) := by
      rw [u16]
      omega
    rw [hu, if_neg (by omega)]
    omega

/-- `Add` leaves the sum and `Sub` the difference, modulo the width, on every run
of the chain and for every placement of result and operands. -/
theorem add_sub_computes (E : Engine) (L : Layout) {ctx : EmitCtx} {w ret lhs rhs : Nat}
    (hw : 1 ≤ w) (hw' : w ≤ 0x4000) (hroom : ctx.Room (2 * w + 1))
    (ho : Placement ⟨ctx.label, 32 * (2 * w + 1)⟩ [L.hyper] ⟨ret, w⟩ [⟨lhs, w⟩, ⟨rhs, w⟩]) :
    Computes E ctx (Add L ctx w ret lhs rhs) L.hyper.Mem (Has · (init_add L))
      (fun m m' => num m' ret w = (num m lhs w + num m rhs w) % 256 ^ w) ∧
    Computes E ctx (Sub L ctx w ret lhs rhs) L.hyper.Mem (Has · (init_sub L))
      (fun m m' => (num m' ret w : Int) = ((num m lhs w : Int) - num m rhs w) % 256 ^ w) := by
  constructor
  · refine ripple_computes E L hroom hw hw' (by decide) (by decide) ho fun m m' hdigits => ?_
    refine value_eq_add_mod (c := carryInto (fun i j l => u16 (i + j + l)) m lhs rhs) rfl fun i hi => ?_
    rw [hdigits i hi]
    exact add_row (m (lhs + i)).toNat_lt (m (rhs + i)).toNat_lt (carryInto_le ..)
  · refine ripple_computes E L hroom hw hw' (by decide) (by decide) ho fun m m' hdigits => ?_
    refine value_eq_sub_mod (c := carryInto (fun i j l => u16 (i - j - l)) m lhs rhs) rfl fun i hi => ?_
    rw [hdigits i hi]
    exact sub_row (m (lhs + i)).toNat_lt (m (rhs + i)).toNat_lt (carryInto_le ..)

/-- Numbers of two bytes, 0x01ff and 0x0201. -/
def sampleNumbers : List (Nat × UInt8) :=
  [(0x40200000, 0xff), (0x40200001, 0x01), (0x40200010, 0x01), (0x40200011, 0x02)]

/-- 0x01ff + 0x0201 = 0x0400 and 0x01ff - 0x0201 = -2, in the place of the left
operand. -/
theorem add_sub_computes_sample :
    (∃ m', Halts Engine.sample
        (program Layout.sample EmitCtx.sample
          (Add Layout.sample EmitCtx.sample 2 0x40200000 0x40200000 0x40200010) sampleNumbers)
        EmitCtx.sample.label m' ∧ num m' 0x40200000 2 = 0x0400) ∧
    ∃ m', Halts Engine.sample
        (program Layout.sample EmitCtx.sample
          (Sub Layout.sample EmitCtx.sample 2 0x40200000 0x40200000 0x40200010) sampleNumbers)
        EmitCtx.sample.label m' ∧ num m' 0x40200000 2 = 0xfffe := by
  have h := @add_sub_computes Engine.sample Layout.sample EmitCtx.sample 2 0x40200000 0x40200000
    0x40200010 (by decide) (by decide)
    (EmitCtx.sample_room (by decide)) (by decide)
  have hready : ∀ ws ∈ initializers Layout.sample, ∀ m, Filled Layout.sample m → Has m ws :=
    fun ws hws m hm => hm.init ws hws
  constructor
  · obtain ⟨m', hhalts, hsum⟩ := h.1.on_program Layout.sample sampleNumbers 5
      (hready _ (by simp [initializers])) (by decide +kernel) (by decide +kernel)
      (by decide +kernel) (by decide +kernel)
    exact ⟨m', hhalts, hsum.trans (by decide +kernel)⟩
  · obtain ⟨m', hhalts, hdiff⟩ := h.2.on_program Layout.sample sampleNumbers 5
      (hready _ (by simp [initializers])) (by decide +kernel) (by decide +kernel)
      (by decide +kernel) (by decide +kernel)
    exact ⟨m', hhalts, Int.ofNat.inj (hdiff.trans (by decide +kernel))⟩

end Bcm2835.Dma

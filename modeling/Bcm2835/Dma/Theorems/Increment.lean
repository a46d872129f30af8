import Bcm2835.Dma.IncSpec
import Bcm2835.Dma.Start

/-!
# Increments

The chain `Inc` emits leaves the successor modulo the width, for operands of any
width and wherever the result is, on every run.
-/

namespace Bcm2835.Dma

open Mem Digits EmitCtx

/-- The addresses of `SUPER`. -/
def Layout.super (L : Layout) : Region := onBus L.SUPER (2 ^ 16)

/-- The carry into each byte: 1 into the lowest, and on as long as bytes are 0xff. -/
def incCarry (m : Memory) (inp : Nat) : Nat → Nat :=
  carries (fun i c => ((m (inp + i)).toNat + c) / 256) 1

theorem incCarry_le (m : Memory) (inp i : Nat) : incCarry m inp i ≤ 1 := by
  induction i with
  | zero => exact Nat.le_refl 1
  | succ i ih =>
      have hlt : (m (inp + i)).toNat < 256 := (m (inp + i)).toNat_lt
      show ((m (inp + i)).toNat + incCarry m inp i) / 256 ≤ 1
      omega

/-- One run of the chain of `Inc`, with `increment`'s rows in the table. -/
theorem incChain_computes {E : Engine} (L : Layout) {z w ret inp exit : Nat} {pos : 0 < z}
    {fits : z + 32 * (2 * w) ≤ 2 ^ 32} {m : Memory} (hw : 1 ≤ w)
    (ho : Placement ⟨z, 32 * (2 * w)⟩ [L.super] ⟨ret, w⟩ [⟨inp, w⟩]) (h : Has m (init_increment L))
    (hin : (incChain L.super.start z w ret inp exit pos fits).In m) :
    ∃ m', after E (2 * w) ⟨z, m⟩ = ⟨exit, m'⟩ ∧ num m' ret w = (num m inp w + 1) % 256 ^ w ∧
      ∀ a, (∀ k < 2 * w, ∀ j < 4, (incChain L.super.start z w ret inp exit pos fits).patched k j →
        a ≠ srcField z k j) → a < ret ∨ ret + w ≤ a → m' a = m a := by
  have hsuper : L.SUPER + 2 ^ 16 ≤ ARM_DRAM_END := L.in_dram ⟨L.SUPER, 2 ^ 16⟩ (by simp)
  have hdram : ARM_DRAM_END + BUS_DRAM_BASE ≤ 2 ^ 32 := by decide
  have hbase : BUS_DRAM_BASE % 2 ^ 16 = 0 := by decide
  have halign := L.super_aligned
  obtain ⟨m', hrun, hdigits, hframe⟩ := incChain_run (E := E)
    (g := fun x c => .ofNat ((x + c) % 256)) (f := fun x c => min ((x + c) / 256) 1) hw ho
    (by show (L.SUPER + BUS_DRAM_BASE) % 2 ^ 16 = 0; omega)
    (by show L.SUPER + BUS_DRAM_BASE + 2 ^ 16 ≤ _; omega)
    (fun x hx c hc => UInt8.toNat_inj.mp (by
      rw [ofNat_mod_toNat]
      exact (h.increment hx hc).1))
    (fun x hx c hc => by
      have hsel := (h.increment hx hc).2
      rw [show min ((x + c) / 256) 1 = (x + c) / 256 by omega]
      exact hsel)
    (fun x c => Nat.min_le_right _ _) hin
  -- the carries are bits without the bound, too
  have hcarries : ∀ k, carries (fun i c => min (((m (inp + i)).toNat + c) / 256) 1) 1 k =
      incCarry m inp k := by
    intro k
    induction k with
    | zero => rfl
    | succ k ih =>
        have hle := incCarry_le m inp (k + 1)
        show min (((m (inp + k)).toNat + carries _ 1 k) / 256) 1 = incCarry m inp (k + 1)
        rw [ih]
        exact Nat.min_eq_left hle
  refine ⟨m', hrun, ?_, hframe⟩
  refine value_eq_inc_mod (c := incCarry m inp) rfl fun i hi => ?_
  show (m' (ret + i)).toNat + 256 * (((m (inp + i)).toNat + incCarry m inp i) / 256) =
    (m (inp + i)).toNat + incCarry m inp i
  rw [hdigits i hi, hcarries, ofNat_mod_toNat]
  exact Nat.mod_add_div _ 256

/-- `Inc` leaves the successor modulo the width, on every run of the chain and for
every placement of result and operand. -/
theorem inc_computes (E : Engine) (L : Layout) {ctx : EmitCtx} {w ret inp : Nat}
    (hw : 1 ≤ w) (hw' : w ≤ 0x4000) (hroom : ctx.Room (2 * w))
    (ho : Placement ⟨ctx.label, 32 * (2 * w)⟩ [L.super] ⟨ret, w⟩ [⟨inp, w⟩]) :
    Computes E ctx (Inc L ctx w ret inp) L.super.Mem (Has · (init_increment L))
      (fun m m' => num m' ret w = (num m inp w + 1) % 256 ^ w) := by
  have hlabel := hroom.label_lt
  have hpos : 0 < ctx.label := Nat.add_pos_right _ (by decide)
  have hfits : ctx.label + 32 * (2 * w) ≤ 2 ^ 32 := by omega
  refine .of_chain (C := incChain L.super.start ctx.label w ret inp 0 hpos hfits) hroom rfl rfl
    (show 0 < 2 * w by omega) (Inc_eq L hroom hw hw' ho.ret_fits) ?_ ?_
  · intro m m' hsame h
    exact h.congr fun x hx => hsame x.1 (mem_init_increment hx)
  · intro m hin h
    obtain ⟨m', hrun, hnum, hframe⟩ := incChain_computes (E := E) L hw ho h hin
    have hret : ret + w ≤ ctx.label ∨ ctx.label + 32 * (2 * w) ≤ ret := ho.ret_code
    have htab : ret + w ≤ L.SUPER + BUS_DRAM_BASE ∨ L.SUPER + BUS_DRAM_BASE + 2 ^ 16 ≤ ret :=
      ho.ret_tables L.super (by simp)
    have hcode : ctx.label + 32 * (2 * w) ≤ L.SUPER + BUS_DRAM_BASE ∨
      L.SUPER + BUS_DRAM_BASE + 2 ^ 16 ≤ ctx.label := ho.code_tables L.super (by simp)
    refine ⟨m', halts_of_after hrun, ⟨?_, ?_⟩, hnum⟩
    · refine hin.congr fun a ⟨hlo, hhi, hfix, _⟩ => hframe a hfix ?_
      have hlo' : ctx.label ≤ a := hlo
      have hhi' : a < ctx.label + 32 * (2 * w) := hhi
      omega
    · refine h.congr fun x hx => ?_
      have hx' := mem_init_increment hx
      refine hframe x.1 ?_ (by omega)
      intro k hk j hj _
      rw [srcField]
      omega

/-- Two bytes of a number, 0x01ff. -/
def sampleCount : List (Nat × UInt8) := [(0x40200000, 0xff), (0x40200001, 0x01)]

/-- 0x01ff + 1 = 0x0200, one byte above the operand. -/
theorem inc_computes_sample : ∃ m', Halts Engine.sample
    (program Layout.sample EmitCtx.sample
      (Inc Layout.sample EmitCtx.sample 2 0x40200001 0x40200000) sampleCount)
    EmitCtx.sample.label m' ∧ num m' 0x40200001 2 = 0x0200 := by
  have h := @inc_computes Engine.sample Layout.sample EmitCtx.sample 2 0x40200001 0x40200000
    (by decide) (by decide) (EmitCtx.sample_room (by decide)) (by decide)
  have hready : ∀ m, Filled Layout.sample m → Has m (init_increment Layout.sample) :=
    fun m hm => hm.init _ (by simp [initializers])
  obtain ⟨m', hhalts, hnum⟩ := h.on_program Layout.sample sampleCount 4 hready
    (by decide +kernel) (by decide +kernel) (by decide +kernel) (by decide +kernel)
  exact ⟨m', hhalts, hnum.trans (by decide +kernel)⟩

end Bcm2835.Dma

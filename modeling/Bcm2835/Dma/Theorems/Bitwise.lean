import Bcm2835.Dma.BitSpec
import Bcm2835.Dma.Start

/-!
# Bitwise operations

The chains `Not`, `And`, `Or` and `Xor` emit leave what they are named for in each
byte, wherever the result is, on every run.
-/

namespace Bcm2835.Dma

open Mem EmitCtx

/-- The addresses of `NOT`. -/
def Layout.not (L : Layout) : Region := onBus L.NOT (2 ^ 8)

/-- One run of the chain of `Not`, with `not`'s entries in the table. -/
theorem notChain_computes {E : Engine} (L : Layout) {z w ret inp exit : Nat} {pos : 0 < z}
    {fits : z + 32 * (w + 1) ≤ 2 ^ 32} {m : Memory} (hw : 1 ≤ w)
    (ho : Placement ⟨z, 32 * (w + 1)⟩ [L.not] ⟨ret, w⟩ [⟨inp, w⟩]) (h : Has m (init_not L))
    (hin : (notChain L.not.start z w ret inp exit pos fits).In m) :
    ∃ m', after E (w + 1) ⟨z, m⟩ = ⟨exit, m'⟩ ∧ (∀ k < w, m' (ret + k) = ~~~m (inp + k)) ∧
      ∀ a, (∀ k < w + 1, ∀ j < 4, (notChain L.not.start z w ret inp exit pos fits).patched k j →
        a ≠ srcField z k j) → a < ret ∨ ret + w ≤ a → m' a = m a := by
  have hnot : L.NOT + 2 ^ 8 ≤ ARM_DRAM_END := L.in_dram ⟨L.NOT, 2 ^ 8⟩ (by simp)
  have hdram : ARM_DRAM_END + BUS_DRAM_BASE ≤ 2 ^ 32 := by decide
  have hbase : BUS_DRAM_BASE % 2 ^ 8 = 0 := by decide
  have halign := L.not_aligned
  obtain ⟨m', hrun, hbytes, hframe⟩ := notChain_run (E := E) hw ho
    (by show (L.NOT + BUS_DRAM_BASE) % 2 ^ 8 = 0; omega)
    (by show L.NOT + BUS_DRAM_BASE + 2 ^ 8 ≤ _; omega) hin
  refine ⟨m', hrun, fun k hk => ?_, hframe⟩
  rw [hbytes k hk]
  exact h.not (m (inp + k))

theorem not_computes (E : Engine) (L : Layout) {ctx : EmitCtx} {w ret inp : Nat}
    (hw : 1 ≤ w) (hw' : w < 16) (hroom : ctx.Room (w + 1))
    (ho : Placement ⟨ctx.label, 32 * (w + 1)⟩ [L.not] ⟨ret, w⟩ [⟨inp, w⟩]) :
    Computes E ctx (Not L ctx w ret inp) L.not.Mem (Has · (init_not L))
      (fun m m' => ∀ k < w, m' (ret + k) = ~~~m (inp + k)) := by
  have hlabel := hroom.label_lt
  have hpos : 0 < ctx.label := Nat.add_pos_right _ (by decide)
  have hfits : ctx.label + 32 * (w + 1) ≤ 2 ^ 32 := by omega
  refine .of_chain (C := notChain L.not.start ctx.label w ret inp 0 hpos hfits) hroom rfl rfl
    (Nat.succ_pos w) (Not_eq L hroom hw hw' ho.ret_fits) ?_ ?_
  · intro m m' hsame h
    exact h.congr fun x hx => hsame x.1 (mem_init_not hx)
  · intro m hin h
    obtain ⟨m', hrun, hbytes, hframe⟩ := notChain_computes (E := E) L hw ho h hin
    have hret : ret + w ≤ ctx.label ∨ ctx.label + 32 * (w + 1) ≤ ret := ho.ret_code
    have htab : ret + w ≤ L.NOT + BUS_DRAM_BASE ∨ L.NOT + BUS_DRAM_BASE + 2 ^ 8 ≤ ret :=
      ho.ret_tables L.not (by simp)
    have hcode : ctx.label + 32 * (w + 1) ≤ L.NOT + BUS_DRAM_BASE ∨
      L.NOT + BUS_DRAM_BASE + 2 ^ 8 ≤ ctx.label := ho.code_tables L.not (by simp)
    refine ⟨m', halts_of_after hrun, ⟨?_, ?_⟩, hbytes⟩
    · refine hin.congr fun a ⟨hlo, hhi, hfix, _⟩ => hframe a hfix ?_
      have hlo' : ctx.label ≤ a := hlo
      have hhi' : a < ctx.label + 32 * (w + 1) := hhi
      omega
    · refine h.congr fun x hx => ?_
      have hx' := mem_init_not hx
      refine hframe x.1 ?_ (by omega)
      intro k hk j hj _
      rw [srcField]
      omega

/-- Rows that hold `op` make `And`, `Or` and `Xor` compute it byte by byte. -/
theorem bitwise_op_computes (E : Engine) (L : Layout) {ctx : EmitCtx} {row w ret lhs rhs : Nat}
    {op : Nat → Nat → Nat} {g : UInt8 → UInt8 → UInt8} (hw : 1 ≤ w) (hw' : w ≤ 0x4000)
    (hroom : ctx.Room (w + 2)) (hrow : row < 256)
    (hop : ∀ x y : UInt8, (g x y).toNat = op y.toNat x.toNat)
    (ho : Placement ⟨ctx.label, 32 * (w + 2)⟩ [L.hyper] ⟨ret, w⟩ [⟨lhs, w⟩, ⟨rhs, w⟩]) :
    Computes E ctx (bitwise L row ctx w ret lhs rhs) L.hyper.Mem (Has · (init_bitwise L row op))
      (fun m m' => ∀ k < w, m' (ret + k) = g (m (lhs + k)) (m (rhs + k))) := by
  have hlabel := hroom.label_lt
  have hpos : 0 < ctx.label := Nat.add_pos_right _ (by decide)
  have hfits : ctx.label + 32 * (w + 2) ≤ 2 ^ 32 := by omega
  have hhyper : L.HYPER + 2 ^ 24 ≤ ARM_DRAM_END := L.in_dram ⟨L.HYPER, 2 ^ 24⟩ (by simp)
  have hdram : ARM_DRAM_END + BUS_DRAM_BASE ≤ 2 ^ 32 := by decide
  have hbase : BUS_DRAM_BASE % 2 ^ 24 = 0 := by decide
  have halign := L.hyper_aligned
  refine .of_chain (C := bitwiseChain L.hyper.start row ctx.label w ret lhs rhs 0 hpos hfits) hroom
    rfl rfl (Nat.succ_pos _) (bitwise_eq L hroom hw hw' hrow ho.ret_fits) ?_ ?_
  · intro m m' hsame h
    exact h.congr fun x hx => hsame x.1 (mem_init_bitwise hrow hx)
  · intro m hin h
    have hret : ret + w ≤ ctx.label ∨ ctx.label + 32 * (w + 2) ≤ ret := ho.ret_code
    have htab : ret + w ≤ L.HYPER + BUS_DRAM_BASE ∨ L.HYPER + BUS_DRAM_BASE + 2 ^ 24 ≤ ret :=
      ho.ret_tables L.hyper (by simp)
    have hcode : ctx.label + 32 * (w + 2) ≤ L.HYPER + BUS_DRAM_BASE ∨
      L.HYPER + BUS_DRAM_BASE + 2 ^ 24 ≤ ctx.label := ho.code_tables L.hyper (by simp)
    obtain ⟨m', hrun, hbytes, hframe⟩ := bitwiseChain_run (E := E) hw ho
      (by show (L.HYPER + BUS_DRAM_BASE) % 2 ^ 24 = 0; omega)
      (by show L.HYPER + BUS_DRAM_BASE + 2 ^ 24 ≤ _; omega) hrow hin
    refine ⟨m', halts_of_after hrun, ⟨?_, ?_⟩, fun k hk => ?_⟩
    · refine hin.congr fun a ⟨hlo, hhi, hfix, _⟩ => hframe a hfix ?_
      have hlo' : ctx.label ≤ a := hlo
      have hhi' : a < ctx.label + 32 * (w + 2) := hhi
      omega
    · refine h.congr fun x hx => ?_
      have hx' := mem_init_bitwise hrow hx
      refine hframe x.1 ?_ (by omega)
      intro k hk j hj _
      rw [srcField]
      omega
    · have hentry := h.bitwise hrow (m (rhs + k)).toNat_lt (m (lhs + k)).toNat_lt
      apply UInt8.toNat_inj.mp
      rw [hbytes k hk]
      refine hentry.trans ?_
      rw [← hop]
      exact Nat.mod_eq_of_lt (UInt8.toNat_lt _)

/-- `Not` complements each byte, and `And`, `Or` and `Xor` combine the bytes of their
operands, on every run of the chain and for every placement of result and operands. -/
theorem bitwise_computes (E : Engine) (L : Layout) (ctx : EmitCtx) :
    (∀ w ret inp, 1 ≤ w → w < 16 → ctx.Room (w + 1) →
      Placement ⟨ctx.label, 32 * (w + 1)⟩ [L.not] ⟨ret, w⟩ [⟨inp, w⟩] →
      Computes E ctx (Not L ctx w ret inp) L.not.Mem (Has · (init_not L))
        (fun m m' => ∀ k < w, m' (ret + k) = ~~~m (inp + k))) ∧
    ∀ w ret lhs rhs, 1 ≤ w → w ≤ 0x4000 → ctx.Room (w + 2) →
      Placement ⟨ctx.label, 32 * (w + 2)⟩ [L.hyper] ⟨ret, w⟩ [⟨lhs, w⟩, ⟨rhs, w⟩] →
      Computes E ctx (And L ctx w ret lhs rhs) L.hyper.Mem (Has · (init_and L))
        (fun m m' => ∀ k < w, m' (ret + k) = m (lhs + k) &&& m (rhs + k)) ∧
      Computes E ctx (Or L ctx w ret lhs rhs) L.hyper.Mem (Has · (init_or L))
        (fun m m' => ∀ k < w, m' (ret + k) = m (lhs + k) ||| m (rhs + k)) ∧
      Computes E ctx (Xor L ctx w ret lhs rhs) L.hyper.Mem (Has · (init_xor L))
        (fun m m' => ∀ k < w, m' (ret + k) = m (lhs + k) ^^^ m (rhs + k)) := by
  constructor
  · intro w ret inp hw hw' hroom ho
    exact not_computes E L hw hw' hroom ho
  · intro w ret lhs rhs hw hw' hroom ho
    refine ⟨?_, ?_, ?_⟩
    · exact bitwise_op_computes (g := (· &&& ·)) E L hw hw' hroom (by decide)
        (fun x y => (UInt8.toNat_and x y).trans (Nat.and_comm ..)) ho
    · exact bitwise_op_computes (g := (· ||| ·)) E L hw hw' hroom (by decide)
        (fun x y => (UInt8.toNat_or x y).trans (Nat.or_comm ..)) ho
    · exact bitwise_op_computes (g := (· ^^^ ·)) E L hw hw' hroom (by decide)
        (fun x y => (UInt8.toNat_xor x y).trans (Nat.xor_comm ..)) ho

/-- Two bytes are complemented in place, and combined with two others one byte above
the left operand. -/
theorem bitwise_computes_sample :
    (∃ m', Halts Engine.sample
        (program Layout.sample EmitCtx.sample
          (Not Layout.sample EmitCtx.sample 2 0x40200000 0x40200000)
          [(0x40200000, 0x0f), (0x40200001, 0x01)])
        EmitCtx.sample.label m' ∧ m' 0x40200000 = 0xf0 ∧ m' 0x40200001 = 0xfe) ∧
    ∃ m', Halts Engine.sample
        (program Layout.sample EmitCtx.sample
          (Xor Layout.sample EmitCtx.sample 2 0x40200001 0x40200000 0x40200010)
          [(0x40200000, 0x0f), (0x40200001, 0x01), (0x40200010, 0xff), (0x40200011, 0x03)])
        EmitCtx.sample.label m' ∧ m' 0x40200001 = 0xf0 ∧ m' 0x40200002 = 0x02 := by
  have h := @bitwise_computes Engine.sample Layout.sample EmitCtx.sample
  have hready : ∀ ws ∈ initializers Layout.sample, ∀ m, Filled Layout.sample m → Has m ws :=
    fun ws hws m hm => hm.init ws hws
  constructor
  · obtain ⟨m', hhalts, hbytes⟩ := (h.1 2 0x40200000 0x40200000 (by decide) (by decide)
      (EmitCtx.sample_room (by decide)) (by decide)).on_program Layout.sample
      [(0x40200000, 0x0f), (0x40200001, 0x01)] 3
      (hready _ (by simp [initializers])) (by decide +kernel) (by decide +kernel)
      (by decide +kernel) (by decide +kernel)
    exact ⟨m', hhalts, (hbytes 0 (by decide)).trans (by decide +kernel),
      (hbytes 1 (by decide)).trans (by decide +kernel)⟩
  · obtain ⟨m', hhalts, hbytes⟩ := (h.2 2 0x40200001 0x40200000 0x40200010 (by decide) (by decide)
      (EmitCtx.sample_room (by decide)) (by decide)).2.2.on_program Layout.sample
      [(0x40200000, 0x0f), (0x40200001, 0x01), (0x40200010, 0xff), (0x40200011, 0x03)] 4
      (hready _ (by simp [initializers])) (by decide +kernel) (by decide +kernel)
      (by decide +kernel) (by decide +kernel)
    exact ⟨m', hhalts, (hbytes 0 (by decide)).trans (by decide +kernel),
      (hbytes 1 (by decide)).trans (by decide +kernel)⟩

end Bcm2835.Dma

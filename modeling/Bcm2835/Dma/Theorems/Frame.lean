import Bcm2835.Dma.Footprint
import Bcm2835.Dma.IntSpec
import Bcm2835.Dma.Start

/-!
# What an operation may write

A run of what one call emitted stores to its result, to its scratch buffer and to the
source addresses of its own blocks. `Add` and `Sub` also store the byte behind a result
of one byte: their first lookup has a digit and a carry at any width.
-/

namespace Bcm2835.Dma

open Mem EmitCtx

inductive FrameOp
  | Inc
  | Add
  | Sub
  | Neg
  | Not
  | And
  | Or
  | Xor
  | Sll
  | Srl
  | Sra
  | Geu
  | Equ
  | Ges
deriving DecidableEq

/-- An operation that has no buffers. -/
def Host.emit (h : Host) (f : EmitCtx → Option EmitCtx) : Option Host :=
  (f h.ctx).map fun ctx => { h with ctx := ctx }

namespace FrameOp

/-- `rhs` is the count of a shift; operations on one operand have none, and only the
comparisons have flags. -/
def emit (L : Layout) (op : FrameOp) (h : Host) (width ret lhs rhs flags : Nat) : Option Host :=
  match op with
  | Inc => h.emit (Dma.Inc L · width ret lhs)
  | Add => h.emit (Dma.Add L · width ret lhs rhs)
  | Sub => h.emit (Dma.Sub L · width ret lhs rhs)
  | Neg => Dma.Neg L h width ret lhs
  | Not => h.emit (Dma.Not L · width ret lhs)
  | And => h.emit (Dma.And L · width ret lhs rhs)
  | Or => h.emit (Dma.Or L · width ret lhs rhs)
  | Xor => h.emit (Dma.Xor L · width ret lhs rhs)
  | Sll => Dma.Sll L h width ret lhs rhs
  | Srl => Dma.Srl L h width ret lhs rhs
  | Sra => Dma.Sra L h width ret lhs rhs
  | Geu => h.emit (Dma.Geu L · width ret lhs rhs flags)
  | Equ => h.emit (Dma.Equ L · width ret lhs rhs flags)
  | Ges => h.emit (Dma.Ges L · width ret lhs rhs flags)

/-- How many blocks the operation emits. -/
def blocks : FrameOp → Nat → Nat
  | Inc, width => 2 * width
  | Add, width | Sub, width => 2 * width + 1
  | Neg, width => 3 * width + 1
  | Not, width => width + 1
  | And, width | Or, width | Xor, width => width + 2
  | Sll, width | Srl, width => width + 8
  | Sra, width => width + 10
  | Geu, width | Equ, width | Ges, width => width + 3

/-- The size of the result. -/
def size : FrameOp → Nat → Nat
  | Geu, _ | Equ, _ | Ges, _ => 1
  | _, width => width

/-- The scratch buffer the call obtains. -/
def scratch (op : FrameOp) (h : Host) (width : Nat) : Option Region :=
  match op with
  | Neg => (negScratch h width).map fun r => onBus r.1 width
  | Sll => (shiftScratch 0 (fun i => width - i / 8 % width) h width).map fun r => onBus r.1 (2 * width)
  | Srl => (shiftScratch 2 (fun i => i / 8 % width) h width).map fun r => onBus r.1 (2 * width)
  | Sra => (shiftScratch 4 (fun i => i / 8 % width) h width).map fun r => onBus r.1 (2 * width)
  | _ => none

/-- The result, the scratch buffer, and the source addresses of the blocks that the call
from `h` to `h'` emitted. -/
def Frame (op : FrameOp) (h h' : Host) (width ret a : Nat) : Prop :=
  Region.Mem ⟨ret, op.size width⟩ a ∨ (∃ s, op.scratch h width = some s ∧ s.Mem a) ∨
    ∃ k, h.ctx.p + 32 * k < h'.ctx.p ∧ ∃ j < 4, a = srcField h.ctx.label k j

/-- How many bytes from the result on are stored. -/
def stored : FrameOp → Nat → Nat
  | Add, width | Sub, width => max width 2
  | op, width => op.size width

end FrameOp

section

variable {L : Layout} {h h' : Host} {out : Nat → Prop} {width ret lhs rhs flags : Nat}

/-- A scratch buffer by its offset. -/
theorem scratch_out {r : Option (Nat × Host)} {size : Nat}
    (hbuf : ∀ s, (r.map fun q => onBus q.1 size) = some s →
      s.start + s.size ≤ ARM_DRAM_END + BUS_DRAM_BASE ∧ ∀ a, s.Mem a → out a) (t : Nat) (g : Host)
    (hr : r = some (t, g)) : t + size ≤ ARM_DRAM_END ∧ ∀ i < size, out (t + BUS_DRAM_BASE + i) := by
  obtain ⟨hdram, hout⟩ := hbuf (onBus t size) (by rw [hr]; rfl)
  have hdram' : t + BUS_DRAM_BASE + size ≤ ARM_DRAM_END + BUS_DRAM_BASE := hdram
  refine ⟨by omega, fun i hi => hout _ ⟨Nat.le_add_right _ i, ?_⟩⟩
  exact Nat.add_lt_add_left hi (t + BUS_DRAM_BASE)

theorem Host.emit_footprint {f : EmitCtx → Option EmitCtx} {n : Nat} (hem : h.emit f = some h')
    (hf : ∀ ctx, f h.ctx = some ctx → Footprint h.ctx n out (0 + n) ctx) :
    Footprint h.ctx n out n h'.ctx := by
  obtain ⟨ctx, hctx, rfl⟩ := Option.map_eq_some_iff.mp hem
  have hfoot := hf ctx hctx
  rwa [Nat.zero_add] at hfoot

/-- What a call has emitted when it returns. -/
theorem FrameOp.footprint (op : FrameOp) (hroom : h.ctx.Room (op.blocks width))
    (hfits : ret + op.stored width ≤ 2 ^ 32) (hout : ∀ i < op.stored width, out (ret + i))
    (hbuf : ∀ s, op.scratch h width = some s →
      s.start + s.size ≤ ARM_DRAM_END + BUS_DRAM_BASE ∧ ∀ a, s.Mem a → out a)
    (hem : op.emit L h width ret lhs rhs flags = some h') :
    Footprint h.ctx (op.blocks width) out (op.blocks width) h'.ctx := by
  have hstart := Footprint.empty h.ctx (op.blocks width) out
  have hall : 0 + op.blocks width ≤ op.blocks width := by rw [Nat.zero_add]
  cases op with
  | Inc =>
      exact Host.emit_footprint (f := (Dma.Inc L · width ret lhs)) hem fun ctx hctx =>
        Inc_footprint hroom hstart hall hfits hout hctx
  | Add | Sub =>
      exact Host.emit_footprint (f := (ripple L _ · width ret lhs rhs)) hem fun ctx hctx =>
        ripple_footprint hroom hstart hall hfits hout hctx
  | Neg => exact Neg_footprint hroom hfits hout (scratch_out hbuf) hem
  | Not =>
      exact Host.emit_footprint (f := (Dma.Not L · width ret lhs)) hem fun ctx hctx =>
        Not_footprint hroom hstart hall hfits hout hctx
  | And | Or | Xor =>
      exact Host.emit_footprint (f := (bitwise L _ · width ret lhs rhs)) hem fun ctx hctx =>
        bitwise_footprint hroom hstart hall hfits hout hctx
  | Sll =>
      refine logicalShift_footprint (Nat.le_refl width) (fun ctx ctx' buf hfits' hout' hctx hshift => ?_)
        (fun ctx ctx' buf hshift => (guard_some hshift).1) hroom hfits hout (scratch_out hbuf) hem
      have hw : 2 ≤ width := (guard_some hshift).1
      rw [show width + 5 = 1 + (width + 4) by omega]
      exact shift8_footprint hroom hctx (by omega) (by decide) (by omega) (Nat.le_refl 1) hfits' hout' hshift
  | Srl =>
      refine logicalShift_footprint (Nat.zero_le width) (fun ctx ctx' buf hfits' hout' hctx hshift => ?_)
        (fun ctx ctx' buf hshift => (guard_some hshift).1) hroom hfits hout (scratch_out hbuf) hem
      have hw : 2 ≤ width := (guard_some hshift).1
      have hcast : ((width - 1 : Nat) : Int) = (width : Int) - 1 := by omega
      rw [show width + 5 = 1 + (width + 4) by omega]
      exact shift8_footprint hroom hctx (by omega) (by decide) (by omega) (Nat.zero_le 1) hfits' hout' hshift
  | Sra => exact Sra_footprint hroom hfits hout (scratch_out hbuf) hem
  | Geu | Equ =>
      exact Host.emit_footprint (f := (compare L _ · width ret lhs rhs flags)) hem fun ctx hctx =>
        compare_footprint hroom hstart hall hfits (hout 0 Nat.one_pos) hctx
  | Ges =>
      exact Host.emit_footprint (f := (Dma.Ges L · width ret lhs rhs flags)) hem fun ctx hctx =>
        Ges_footprint hroom hstart hall hfits (hout 0 Nat.one_pos) hctx

end

/-! ## A result of one byte -/

section

variable {E : Engine} {L : Layout} {start ctx ctx' : EmitCtx} {row ret lhs rhs : Nat} {m : Memory}

/-- Where a block of one byte stores. -/
theorem Cblk.Stores.one {c : Cblk} {a : Nat} (h : c.Stores a) (hinc : c.ti.testBit 4 = true)
    (hlen : c.txfr_len = 1) (hdst : c.dst_addr < 2 ^ 32) : a = c.dst_addr := by
  obtain ⟨r, hr, i, hi, ha⟩ := h.row hinc
  have hcols : c.cols = 1 := by
    rw [Cblk.cols, hlen]
    split <;> rfl
  have hrows : c.rows = 1 := by
    rw [Cblk.rows, hlen]
    split <;> rfl
  rw [hrows] at hr
  rw [hcols] at hi ha
  rw [ha, show r = 0 by omega, show i = 0 by omega, Nat.cast_zero, zero_mul, zero_add]
  exact advance_zero hdst

/-- The lookup of a sum or a difference of one byte stores two bytes. -/
theorem ripple_escapes (hroom : start.Room 3) (hrow : row < 256) (hret : ret + 1 < 2 ^ 32)
    (hem : ripple L row start 1 ret lhs rhs = some ctx) (hend : End ctx = some ctx')
    (hm : Held ctx' start.p m) : Written E m start.label (ret + 1) := by
  have hlt := hroom.label_lt
  have heq : ripple L row start 1 ret lhs rhs = _ :=
    ripple_eq L hroom (Nat.le_refl 1) (by decide) hrow hret
  rw [heq] at hem
  obtain rfl := Option.some.inj hem
  have hp : (start.fill (rippleBlock (L.HYPER + BUS_DRAM_BASE) row start.label 1 ret lhs rhs) 3).p =
      start.p + 32 * 3 := EmitCtx.fill_p ..
  have hl : (emittedChain start ctx' hroom).Linked m := hm.linked hp (by decide) hend
  obtain ⟨-, hsame, hlast⟩ := End_blk hp (by decide) hend
  have hblk := fun k (hk : k < 3) => EmitCtx.fill_blk start
    (rippleBlock (L.HYPER + BUS_DRAM_BASE) row start.label 1 ret lhs rhs) hk
  have h0 := (hsame 0 (by decide)).trans (hblk 0 (by decide))
  have h1 := (hsame 1 (by decide)).trans (hblk 1 (by decide))
  rw [hblk 2 (by decide)] at hlast
  obtain ⟨C, hC⟩ : ∃ C, C = emittedChain start ctx' hroom := ⟨_, rfl⟩
  have hz : C.z = start.label := by rw [hC]; rfl
  have hn : C.n = 3 := by rw [hC]; rfl
  have hf0 : C.f 0 = strided C.z 0 INC2D (srcField C.z 2 1) rhs 1 1 63 0 := by
    rw [hz, hC]
    exact h0
  have hf1 : C.f 1 = strided C.z 1 INC2D (srcField C.z 2 2) lhs 1 1 63 0 := by
    rw [hz, hC]
    exact h1
  have hf2 : C.f 2 = { linear C.z 2 INC ret (L.HYPER + BUS_DRAM_BASE + row) 2 with next_cb := 0 } := by
    rw [hz, hC]
    exact hlast
  rw [← hC] at hl
  -- the gathers store one byte each, in the source address of the lookup
  have hgather : ∀ k b, b < 4 → C.f k = strided C.z k INC2D (srcField C.z 2 b) (C.f k).src_addr 1 1 63 0 →
      ∀ a, (C.f k).Stores a → Allowed C.z C.n C.Clear a := by
    intro k b hb hf a ha
    have hfield : srcField C.z 2 b = C.z + 32 * 2 + 4 + b := rfl
    rw [hf] at ha
    have haddr : a = srcField C.z 2 b := ha.one testBit_INC2D.2.1 rfl (by show srcField C.z 2 b < _; omega)
    exact .inr ⟨2, by omega, b, hb, haddr⟩
  have hstep0 := hl.step (E := E) (k := 0) (by omega)
  have hl1 := hl.transfer (E := E) (c := { C.f 0 with src_addr := C.source m 0, next_cb := C.next 0 })
    (hgather 0 1 (by decide) (by rw [hf0]; rfl))
  generalize { C.f 0 with src_addr := C.source m 0, next_cb := C.next 0 }.transfer E m = m₁ at hstep0 hl1
  have hstep1 := hl1.step (E := E) (k := 1) (by omega)
  have hl2 := hl1.transfer (E := E) (c := { C.f 1 with src_addr := C.source m₁ 1, next_cb := C.next 1 })
    (hgather 1 2 (by decide) (by rw [hf1]; rfl))
  generalize { C.f 1 with src_addr := C.source m₁ 1, next_cb := C.next 1 }.transfer E m₁ = m₂ at hstep1 hl2
  have hnext0 : C.next 0 = C.z + 32 * 1 := by
    rw [Chain.next, if_neg (by omega), hf0]
    rfl
  have hnext1 : C.next 1 = C.z + 32 * 2 := by
    rw [Chain.next, if_neg (by omega), hf1]
    rfl
  have hafter : after E 2 ⟨start.label, m⟩ = ⟨C.z + 32 * 2, m₂⟩ := by
    rw [Nat.mul_zero, Nat.add_zero, hz, hnext0] at hstep0
    rw [after_succ, after_succ, after_zero, hstep0, hstep1, hnext1]
  refine ⟨2, ?_, ?_⟩
  · rw [hafter]
    show C.z + 32 * 2 ≠ 0
    omega
  · rw [hafter]
    refine (hl2.stores (by omega)).mpr ?_
    have hmoves := moves_linear (E := E) (c := C.f 2) (by rw [hf2]; rfl) (by rw [hf2]; exact hret)
    have hlen : (C.f 2).txfr_len = 2 := by rw [hf2]; rfl
    have hdst : (C.f 2).dst_addr = ret := by rw [hf2]; rfl
    refine ⟨1, by rw [hmoves.count, hlen]; decide, ?_⟩
    rw [hmoves.dstAt 1 (by rw [hlen]; decide), hdst]

end

section

variable {L : Layout} {h h' : Host} {width ret lhs rhs flags : Nat}

/-- A call that returns at the width 0 is no increment, sum or difference. -/
theorem FrameOp.width_pos {op : FrameOp} (hop : op = .Inc ∨ op = .Add ∨ op = .Sub)
    (hem : op.emit L h width ret lhs rhs flags = some h') : width ≠ 0 := by
  rcases hop with rfl | rfl | rfl
  · obtain ⟨ctx, hctx, -⟩ := Option.map_eq_some_iff.mp hem
    exact (guard_some hctx).1
  · obtain ⟨ctx, hctx, -⟩ := Option.map_eq_some_iff.mp hem
    exact (guard_some hctx).1
  · obtain ⟨ctx, hctx, -⟩ := Option.map_eq_some_iff.mp hem
    exact (guard_some hctx).1

theorem FrameOp.blocks_pos {op : FrameOp} (hem : op.emit L h width ret lhs rhs flags = some h') :
    0 < op.blocks width := by
  cases op with
  | Inc =>
      have hw := FrameOp.width_pos (.inl rfl) hem
      exact Nat.mul_pos Nat.two_pos (Nat.pos_of_ne_zero hw)
  | Add | Sub | Neg | Not | And | Or | Xor | Sll | Srl | Sra | Geu | Equ | Ges => exact Nat.succ_pos _

/-- As much as the result is stored, but for a sum or a difference of one byte. -/
theorem FrameOp.stored_eq {op : FrameOp} (hem : op.emit L h width ret lhs rhs flags = some h')
    (hop : ¬ ((op = .Add ∨ op = .Sub) ∧ width = 1)) : op.stored width = op.size width := by
  cases op with
  | Add =>
      have hw := FrameOp.width_pos (.inr (.inl rfl)) hem
      have hone : width ≠ 1 := fun heq => hop ⟨.inl rfl, heq⟩
      exact Nat.max_eq_left (show 2 ≤ width by omega)
  | Sub =>
      have hw := FrameOp.width_pos (.inr (.inr rfl)) hem
      have hone : width ≠ 1 := fun heq => hop ⟨.inr rfl, heq⟩
      exact Nat.max_eq_left (show 2 ≤ width by omega)
  | Inc | Neg | Not | And | Or | Xor | Sll | Srl | Sra | Geu | Equ | Ges => rfl

/-- A sum or a difference of one byte stores the byte behind it. -/
theorem FrameOp.escapes {E : Engine} {op : FrameOp} {ctx : EmitCtx} {m : Memory} (hop : op = .Add ∨ op = .Sub)
    (hem : op.emit L h 1 ret lhs rhs flags = some h') (hend : End h'.ctx = some ctx)
    (hroom : h.ctx.Room 3) (hret : ret + 1 < 2 ^ 32) (hm : Held ctx h.ctx.p m) :
    Written E m h.ctx.label (ret + 1) := by
  rcases hop with rfl | rfl
  · obtain ⟨ctx₁, hctx, rfl⟩ := Option.map_eq_some_iff.mp hem
    exact ripple_escapes hroom (by decide) hret hctx hend hm
  · obtain ⟨ctx₁, hctx, rfl⟩ := Option.map_eq_some_iff.mp hem
    exact ripple_escapes hroom (by decide) hret hctx hend hm

/-- Where the byte behind a result of one byte is not allowed. -/
theorem FrameOp.not_frame {op : FrameOp} (hop : op = .Add ∨ op = .Sub)
    (hp : h'.ctx.p = h.ctx.p + 32 * 3)
    (hcode : Region.Apart ⟨ret, 1⟩ ⟨h.ctx.label, h'.ctx.p - h.ctx.p⟩) :
    ¬ op.Frame h h' 1 ret (ret + 1) := by
  have hsize : op.size 1 = 1 := by rcases hop with rfl | rfl <;> rfl
  have hnone : op.scratch h 1 = none := by rcases hop with rfl | rfl <;> rfl
  have hout : ret + 1 ≤ h.ctx.label ∨ h.ctx.label + (h'.ctx.p - h.ctx.p) ≤ ret := hcode
  rintro (hmem | ⟨s, hs, -⟩ | ⟨k, hk, j, hj, heq⟩)
  · rw [hsize] at hmem
    have hlt : ret + 1 < ret + 1 := hmem.2
    exact Nat.lt_irrefl _ hlt
  · rw [hnone] at hs
    cases hs
  · rw [srcField] at heq
    omega

end

/-! ## The frame -/

/-- A run of what a call emitted writes nothing but the result, the scratch buffer and its
own source addresses, unless the call is a sum or a difference of one byte. -/
theorem frame_iff (E : Engine) (L : Layout) (op : FrameOp) {h h' : Host} {ctx : EmitCtx} {m : Memory}
    {width ret lhs rhs flags : Nat} (hem : op.emit L h width ret lhs rhs flags = some h')
    (hend : End h'.ctx = some ctx) (hroom : h.ctx.Room (op.blocks width))
    (hret : ret + op.size width < 2 ^ 32)
    (hcode : Region.Apart ⟨ret, op.size width⟩ ⟨h.ctx.label, h'.ctx.p - h.ctx.p⟩)
    (hscratch : ∀ s, op.scratch h width = some s → s.start + s.size ≤ ARM_DRAM_END + BUS_DRAM_BASE ∧
      s.Apart ⟨h.ctx.label, h'.ctx.p - h.ctx.p⟩)
    (hm : Held ctx h.ctx.p m) :
    (∀ a, Written E m h.ctx.label a → op.Frame h h' width ret a) ↔
      ¬ ((op = .Add ∨ op = .Sub) ∧ width = 1) := by
  constructor
  · rintro hall ⟨hop, rfl⟩
    have hsize : op.size 1 = 1 := by rcases hop with rfl | rfl <;> rfl
    have hblocks : op.blocks 1 = 3 := by rcases hop with rfl | rfl <;> rfl
    rw [hsize] at hret hcode
    have hstored : op.stored 1 = 2 := by rcases hop with rfl | rfl <;> rfl
    have hfoot : Footprint h.ctx (op.blocks 1) (fun _ => True) (op.blocks 1) h'.ctx :=
      op.footprint hroom (by omega) (fun _ _ => trivial)
        (fun s hs => ⟨(hscratch s hs).1, fun _ _ => trivial⟩) hem
    have hp := hfoot.p_eq
    rw [hblocks] at hroom hp
    exact FrameOp.not_frame hop hp hcode (hall _ (FrameOp.escapes hop hem hend hroom hret hm))
  · intro hop a ha
    have hstored := FrameOp.stored_eq hem hop
    have hpos := FrameOp.blocks_pos hem
    have hfoot : Footprint h.ctx (op.blocks width)
        (fun a => Region.Mem ⟨ret, op.size width⟩ a ∨ ∃ s, op.scratch h width = some s ∧ s.Mem a)
        (op.blocks width) h'.ctx :=
      op.footprint hroom (by omega)
        (fun i hi => .inl ⟨Nat.le_add_right ret i, by rw [← hstored]; exact Nat.add_lt_add_left hi ret⟩)
        (fun s hs => ⟨(hscratch s hs).1, fun a ha => .inr ⟨s, hs, ha⟩⟩) hem
    have hp := hfoot.p_eq
    have hlen : h'.ctx.p - h.ctx.p = 32 * op.blocks width := by omega
    rw [hlen] at hcode hscratch
    have hconfined : (emittedChain h.ctx ctx hroom).Confined _ := hfoot.confined hpos hend
    have hwritten := hconfined.written (fun a hout => ?_) (hm.linked hp hpos hend) ha
    · rcases hwritten with (hmem | hmem) | ⟨k, hk, j, hj, haddr⟩
      · exact .inl hmem
      · exact .inr (.inl hmem)
      · have hk' : k < op.blocks width := hk
        exact .inr (.inr ⟨k, by omega, j, hj, haddr⟩)
    · show a < h.ctx.label ∨ h.ctx.label + 32 * op.blocks width ≤ a
      rcases hout with ⟨hlo, hhi⟩ | ⟨s, hs, hlo, hhi⟩
      · have hlo' : ret ≤ a := hlo
        have hhi' : a < ret + op.size width := hhi
        have hout : ret + op.size width ≤ h.ctx.label ∨
          h.ctx.label + 32 * op.blocks width ≤ ret := hcode
        omega
      · have hout : s.start + s.size ≤ h.ctx.label ∨
          h.ctx.label + 32 * op.blocks width ≤ s.start := (hscratch s hs).2
        omega

/-- A call that returns, closed and loaded behind the empty context. -/
theorem called_loaded {e : Option Host} {n : Nat} (hsome : (e.map (·.ctx) >>= End).isSome = true)
    (hp : (closed (e.map (·.ctx))).p = EmitCtx.sample.p + 32 * n)
    (hfits : ∀ k < n, ((closed (e.map (·.ctx))).blk (EmitCtx.sample.p + 32 * k)).Fits) (m : Memory) :
    ∃ h' ctx, e = some h' ∧ End h'.ctx = some ctx ∧ h'.ctx.p = EmitCtx.sample.p + 32 * n ∧
      Loaded ctx EmitCtx.sample.p (ctx.load EmitCtx.sample.p m) := by
  obtain ⟨ctx, hctx⟩ := Option.isSome_iff_exists.mp hsome
  have hclosed : closed (e.map (·.ctx)) = ctx := by
    rw [closed, hctx]
    rfl
  obtain ⟨c, hcall, hend⟩ := bind_some hctx
  obtain ⟨h', rfl, rfl⟩ := Option.map_eq_some_iff.mp hcall
  rw [hclosed] at hp hfits
  obtain ⟨-, hsame⟩ := Branch_some hend
  have hsame' : ctx.p = h'.ctx.p := by rw [hsame]
  exact ⟨h', ctx, rfl, hend, hsame' ▸ hp, load_loaded hp hfits m⟩

/-- A signed shift of two bytes, with its scratch buffer, writes nothing else. -/
theorem frame_iff_sra : ∃ h' ctx,
    FrameOp.Sra.emit Layout.sample Host.sample 2 0x40200000 0x40200000 0x40200010 0 = some h' ∧
    End h'.ctx = some ctx ∧
    ((∀ a, Written Engine.sample (ctx.load EmitCtx.sample.p fun _ => 0) Host.sample.ctx.label a →
        FrameOp.Sra.Frame Host.sample h' 2 0x40200000 a) ↔
      ¬ ((FrameOp.Sra = .Add ∨ FrameOp.Sra = .Sub) ∧ 2 = 1)) := by
  obtain ⟨h', ctx, hem, hend, hp, hload⟩ := called_loaded
    (e := FrameOp.Sra.emit Layout.sample Host.sample 2 0x40200000 0x40200000 0x40200010 0) (n := 12)
    (by decide +kernel) (by decide +kernel) (by decide +kernel) fun _ => 0
  have hscratch : (FrameOp.Sra.scratch Host.sample 2).map (fun s => (s.start, s.size)) =
      some (0x40300100, 4) := by decide +kernel
  refine ⟨h', ctx, hem, hend, ?_⟩
  refine frame_iff Engine.sample Layout.sample .Sra hem hend (EmitCtx.sample_room (by decide)) (by decide)
    ?_ (fun s hs => ?_) hload.held
  · rw [hp]
    decide
  · rw [hs] at hscratch
    obtain ⟨hstart, hsize⟩ := Prod.mk.inj (Option.some.inj hscratch)
    obtain ⟨start, size⟩ := s
    obtain rfl : start = 0x40300100 := hstart
    obtain rfl : size = 4 := hsize
    rw [hp]
    decide

/-- The sum of two bytes at 0x40200000 is stored with its carry behind it. -/
theorem add_writes_behind : ∃ h' ctx,
    FrameOp.Add.emit Layout.sample Host.sample 1 0x40200000 0x40200010 0x40200020 0 = some h' ∧
    End h'.ctx = some ctx ∧ Loaded ctx EmitCtx.sample.p (ctx.load EmitCtx.sample.p fun _ => 0) ∧
    Written Engine.sample (ctx.load EmitCtx.sample.p fun _ => 0) Host.sample.ctx.label 0x40200001 ∧
    ¬ FrameOp.Add.Frame Host.sample h' 1 0x40200000 0x40200001 := by
  obtain ⟨h', ctx, hem, hend, hp, hload⟩ := called_loaded
    (e := FrameOp.Add.emit Layout.sample Host.sample 1 0x40200000 0x40200010 0x40200020 0) (n := 3)
    (by decide +kernel) (by decide +kernel) (by decide +kernel) fun _ => 0
  refine ⟨h', ctx, hem, hend, hload, ?_, ?_⟩
  · exact FrameOp.escapes (.inl rfl) hem hend (EmitCtx.sample_room (by decide)) (by decide) hload.held
  · refine FrameOp.not_frame (.inl rfl) hp ?_
    rw [hp]
    decide

end Bcm2835.Dma

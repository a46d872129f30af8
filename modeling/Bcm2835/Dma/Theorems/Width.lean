import Bcm2835.Dma.CmpSpec

/-!
# Widths that wrap

The gather blocks take their row count from a `uint16_t`. A width is rejected by its
remainder modulo 2^16 only: a larger one whose remainder is accepted loses the rows
above it.
-/

namespace Bcm2835.Dma

open EmitCtx

/-- All the gather blocks behind `start` have a row of one byte for each byte of an
operand. A call that does not return has emitted none. -/
def Whole (start : EmitCtx) (width : Nat) (emitted : Option EmitCtx) : Prop :=
  ∀ ctx, emitted = some ctx → ∀ k, start.p + 32 * k < ctx.p →
    (ctx.blk (start.p + 32 * k)).is2D = true →
      (ctx.blk (start.p + 32 * k)).rows = width ∧ (ctx.blk (start.p + 32 * k)).cols = 1

/-! ## Emission -/

/-- Behind `start` come gathers of `r` rows and blocks of one row; there is room for
`n` more. -/
structure Grown (start : EmitCtx) (r n : Nat) (ctx : EmitCtx) : Prop where
  room : ctx.Room n
  lt : start.p < ctx.p
  base_lt : ctx.base < ctx.p
  aligned : (ctx.p - start.p) % 32 = 0
  first : (ctx.blk start.p).is2D = true
  rows : ∀ k, start.p + 32 * k < ctx.p → (ctx.blk (start.p + 32 * k)).is2D = true →
    (ctx.blk (start.p + 32 * k)).rows = r ∧ (ctx.blk (start.p + 32 * k)).cols = 1

variable {start ctx : EmitCtx} {r n width : Nat}

/-- One more block, a gather of `r` rows if it is one. -/
theorem Room.push (h : ctx.Room (n + 1)) (c : Cblk) : (ctx.push c).Room n :=
  (EmitCtx.Room.fill (k := 1) (n := n) (by rwa [Nat.add_comm]) fun _ => c)

theorem Grown.push (h : Grown start r (n + 1) ctx) {c : Cblk}
    (hc : c.is2D = true → c.rows = r ∧ c.cols = 1) : Grown start r n (ctx.push c) where
  room := Room.push h.room c
  lt := Nat.lt_add_right 32 h.lt
  base_lt := Nat.lt_add_right 32 h.base_lt
  aligned := by
    have hlt := h.lt
    have halign := h.aligned
    show (ctx.p + 32 - start.p) % 32 = 0
    omega
  first := by
    have hne : start.p ≠ ctx.p := Nat.ne_of_lt h.lt
    show (Function.update ctx.blk ctx.p c start.p).is2D = true
    rw [Function.update_of_ne hne]
    exact h.first
  rows k hk := by
    have hlt := h.lt
    have halign := h.aligned
    have hk' : start.p + 32 * k < ctx.p + 32 := hk
    show (Function.update ctx.blk ctx.p c _).is2D = true →
      (Function.update ctx.blk ctx.p c _).rows = r ∧ (Function.update ctx.blk ctx.p c _).cols = 1
    rcases Nat.lt_or_ge (start.p + 32 * k) ctx.p with hold | hnew
    · rw [Function.update_of_ne (Nat.ne_of_lt hold)]
      exact h.rows k hold
    · rw [show start.p + 32 * k = ctx.p by omega, Function.update_self]
      exact hc

theorem Grown.emit (h : Grown start r (n + 1) ctx) (dst src len : Nat) :
    ∃ ctx', Emit ctx dst src len = some ctx' ∧ Grown start r n ctx' := by
  refine ⟨_, Emit_push (k := 0) h.room (Nat.succ_pos n) (fun _ => ⟨0, 0, 0, 0, 0, 0⟩) dst src len, ?_⟩
  refine h.push fun h2d => ?_
  have hflat : (linear ctx.label 0 INC dst src len).is2D = false := by
    show INC.testBit 1 = false
    decide
  rw [hflat] at h2d
  cases h2d

theorem strided_push (h : ctx.Room (n + 1)) (hw : Fits14 width) (dst src : Nat) (ds : Int) :
    EmitStrided ctx dst src width 1 ds 0 =
      some (ctx.push (strided ctx.label 0 INC2D dst src (width % 0x10000) 1 ds 0)) :=
  EmitStrided_wide h (Nat.succ_pos n) (f := fun _ => strided ctx.label 0 INC2D dst src
    (width % 0x10000) 1 ds 0) hw rfl

theorem strided_rows (hw : Fits14 width) (z dst src : Nat) (ds : Int) :
    (strided z 0 INC2D dst src (width % 0x10000) 1 ds 0).is2D = true ∧
    (strided z 0 INC2D dst src (width % 0x10000) 1 ds 0).rows = width % 0x10000 ∧
    (strided z 0 INC2D dst src (width % 0x10000) 1 ds 0).cols = 1 := by
  have hti : (strided z 0 INC2D dst src (width % 0x10000) 1 ds 0).is2D = true := by
    show INC2D.testBit 1 = true
    decide
  have hlow := hw.1
  refine ⟨hti, ?_, ?_⟩
  · rw [Cblk.rows, if_pos hti]
    show ((width % 0x10000 - 1) * 2 ^ 16 + 1) / 2 ^ 16 + 1 = width % 0x10000
    omega
  · rw [Cblk.cols, if_pos hti]
    show ((width % 0x10000 - 1) * 2 ^ 16 + 1) % 2 ^ 16 = 1
    omega

/-- The first gather. -/
theorem Grown.of_gather (h : start.Room (n + 1)) (hw : Fits14 width) (dst src : Nat) (ds : Int) :
    ∃ ctx, EmitStrided start dst src width 1 ds 0 = some ctx ∧ Grown start (width % 0x10000) n ctx := by
  obtain ⟨hti, hrows, hcols⟩ := strided_rows hw start.label dst src ds
  refine ⟨_, strided_push h hw dst src ds, Room.push h _, ?_, ?_, ?_, ?_, ?_⟩
  · exact Nat.lt_add_of_pos_right (by decide)
  · have hbase := h.base_le
    show start.base < start.p + 32
    omega
  · show (start.p + 32 - start.p) % 32 = 0
    omega
  · show (Function.update start.blk start.p _ start.p).is2D = true
    rw [Function.update_self]
    exact hti
  · intro k hk _
    have hk' : start.p + 32 * k < start.p + 32 := hk
    show (Function.update start.blk start.p _ _).rows = _ ∧ (Function.update start.blk start.p _ _).cols = _
    rw [show start.p + 32 * k = start.p by omega, Function.update_self]
    exact ⟨hrows, hcols⟩

/-- Another gather. -/
theorem Grown.gather (h : Grown start (width % 0x10000) (n + 1) ctx) (hw : Fits14 width)
    (dst src : Nat) (ds : Int) : ∃ ctx', EmitStrided ctx dst src width 1 ds 0 = some ctx' ∧
      Grown start (width % 0x10000) n ctx' := by
  obtain ⟨_, hrows, hcols⟩ := strided_rows hw ctx.label dst src ds
  exact ⟨_, strided_push h.room hw dst src ds, h.push fun _ => ⟨hrows, hcols⟩⟩

theorem shape_congr {c c' : Cblk} (hti : c'.ti = c.ti) (hlen : c'.txfr_len = c.txfr_len) :
    c'.is2D = c.is2D ∧ c'.rows = c.rows ∧ c'.cols = c.cols := by
  have h2d : c'.is2D = c.is2D := by rw [Cblk.is2D, Cblk.is2D, hti]
  refine ⟨h2d, ?_, ?_⟩
  · rw [Cblk.rows, Cblk.rows, h2d, hlen]
  · rw [Cblk.cols, Cblk.cols, h2d, hlen]

/-- A branch changes none of this. -/
theorem Grown.branch (h : Grown start r n ctx) (label : Nat) :
    ∃ ctx', Branch ctx label = some ctx' ∧ Grown start r n ctx' := by
  have hroom := h.room
  generalize hblk : Function.update ctx.blk (ctx.p - 32)
    { ctx.blk (ctx.p - 32) with next_cb := label } = blk
  have hshape : ∀ a, (blk a).is2D = (ctx.blk a).is2D ∧ (blk a).rows = (ctx.blk a).rows ∧
      (blk a).cols = (ctx.blk a).cols := by
    intro a
    rw [← hblk]
    rcases Decidable.em (a = ctx.p - 32) with rfl | hne
    · rw [Function.update_self]
      exact shape_congr rfl rfl
    · rw [Function.update_of_ne hne]
      exact ⟨rfl, rfl, rfl⟩
  refine ⟨{ ctx with blk := blk }, ?_, ?_, h.lt, h.base_lt, h.aligned, ?_, ?_⟩
  · rw [Branch, guard_bind h.base_lt, ← hblk]
    rfl
  · exact ⟨hroom.aligned, hroom.base_aligned, hroom.base_le, hroom.used_le, hroom.in_dram⟩
  · exact (hshape start.p).1.trans h.first
  · intro k hk
    show (blk (start.p + 32 * k)).is2D = true → _
    rw [(hshape _).1, (hshape _).2.1, (hshape _).2.2]
    exact h.rows k hk

/-- A loop, if each turn leaves room for the turns behind it. -/
theorem Grown.loop {f : Nat → EmitCtx → Option EmitCtx} {g : Nat → Nat} {l : Nat}
    (hbody : ∀ i < n, ∀ ctx, Grown start r (g i) ctx →
      ∃ ctx', f (l + i) ctx = some ctx' ∧ Grown start r (g (i + 1)) ctx')
    (h : Grown start r (g 0) ctx) :
    ∃ ctx', forLoop f l n ctx = some ctx' ∧ Grown start r (g n) ctx' := by
  induction n generalizing l g ctx with
  | zero => exact ⟨ctx, rfl, h⟩
  | succ n ih =>
      obtain ⟨ctx₁, hfirst, h₁⟩ := hbody 0 (Nat.succ_pos n) ctx h
      rw [Nat.add_zero] at hfirst
      rw [forLoop, hfirst, some_bind]
      refine ih (g := fun i => g (i + 1)) (fun i hi ctx hctx => ?_) h₁
      have hnext := hbody (i + 1) (Nat.succ_lt_succ hi) ctx hctx
      rwa [show l + (i + 1) = l + 1 + i by omega] at hnext

theorem Grown.label (h : Grown start r n ctx) : Label ctx = some ctx.label :=
  h.room.label_fill (k := 0) (Nat.zero_le n) fun _ => ⟨0, 0, 0, 0, 0, 0⟩

theorem Grown.label_aligned (h : Grown start r n ctx) : ctx.label % 32 = 0 := h.room.label_aligned

/-- A field of a block is anywhere around an aligned one. -/
theorem bus_rel_fld_some {z b : Nat} (hz : z % 32 = 0) (hb : b < 4) (j : Int) (f : CbField) :
    ∃ a, bus_rel_fld z j f b = some a := by
  rw [bus_rel_fld, guard_bind hz, guard_bind hb]
  exact ⟨_, rfl⟩

/-- What has been emitted is whole if the row count is the width. -/
theorem Grown.whole_iff_eq (h : Grown start r n ctx) : Whole start width (some ctx) ↔ r = width := by
  constructor
  · intro hwhole
    have hfirst := hwhole ctx rfl 0 h.lt h.first
    exact (h.rows 0 h.lt h.first).1.symm.trans hfirst.1
  · rintro rfl ctx' hctx
    cases hctx
    exact h.rows

/-! ## The operations -/

theorem truthTable_bus (L : Layout) (flags : Nat) : ∃ a, bus (truthTable L flags) = some a := by
  have hfits := (truthTable_fits L flags).1
  exact ⟨_, bus_dram (by omega)⟩

inductive WidthOp
  | Inc
  | Add
  | Sub
  | And
  | Or
  | Xor
  | Geu
  | Equ
  | Ges
deriving DecidableEq

namespace WidthOp

/-- How many blocks the operation emits. -/
def blocks : WidthOp → Nat → Nat
  | Inc, width => 2 * width
  | Add, width | Sub, width => 2 * width + 1
  | And, width | Or, width | Xor, width => width + 2
  | Geu, width | Equ, width | Ges, width => width + 3

/-- `Inc` has no `rhs`, and only the comparisons have flags. -/
def emit (L : Layout) (op : WidthOp) (ctx : EmitCtx) (width ret lhs rhs flags : Nat) : Option EmitCtx :=
  match op with
  | Inc => Dma.Inc L ctx width ret lhs
  | Add => Dma.Add L ctx width ret lhs rhs
  | Sub => Dma.Sub L ctx width ret lhs rhs
  | And => Dma.And L ctx width ret lhs rhs
  | Or => Dma.Or L ctx width ret lhs rhs
  | Xor => Dma.Xor L ctx width ret lhs rhs
  | Geu => Dma.Geu L ctx width ret lhs rhs flags
  | Equ => Dma.Equ L ctx width ret lhs rhs flags
  | Ges => Dma.Ges L ctx width ret lhs rhs flags

end WidthOp

section Operations

variable (L : Layout) (ret lhs rhs flags : Nat)

/-- `Inc` at a width it accepts. -/
theorem Inc_grown (hw : Fits14 width) (hroom : start.Room (2 * width)) :
    ∃ ctx, Inc L start width ret lhs = some ctx ∧ Grown start (width % 0x10000) 0 ctx := by
  have hpos : width ≠ 0 := by
    rintro rfl
    exact absurd hw.1 (by decide)
  have hlabel : Label start = some start.label :=
    hroom.label_fill (k := 0) (Nat.zero_le _) fun _ => ⟨0, 0, 0, 0, 0, 0⟩
  have hsuper : L.SUPER + 2 ^ 16 ≤ ARM_DRAM_END := L.in_dram ⟨L.SUPER, 2 ^ 16⟩ (by simp)
  have hrow : bus_ L.SUPER (SUPER_INC + 2) = some (L.SUPER + (SUPER_INC + 2) + BUS_DRAM_BASE) := by
    apply bus_off (d := SUPER_INC + 2)
    rw [SUPER_INC]
    omega
  obtain ⟨dst, hdst⟩ := bus_rel_fld_some (b := 1) hroom.label_aligned (by decide) 1 .FLD_SRC
  rw [show 2 * width = 2 * width - 1 + 1 by omega] at hroom
  obtain ⟨ctx, hgather, hgrown⟩ := Grown.of_gather hroom hw dst lhs 63
  rw [Inc, guard_bind hpos, hlabel, some_bind, hdst, some_bind, hgather, some_bind]
  -- two blocks in each turn but the last
  have hloop := Grown.loop (n := width) (l := 0) (g := fun i => 2 * (width - i) - 1)
    (f := fun i ctx => do
      let d1 ← Label ctx
      let ctx ← Emit ctx (bus_add ret i) (← bus_ L.SUPER (SUPER_INC + 2)) (if i < width - 1 then 2 else 1)
      if i < width - 1 then Emit ctx (← bus_rel_fld d1 2 .FLD_SRC 0) (bus_add ret (i + 1)) 1
      else pure ctx) ?_ hgrown
  · rwa [Nat.sub_self] at hloop
  intro i hi ctx hctx
  rw [show 2 * (width - i) - 1 = 2 * (width - (i + 1)) + 1 by omega] at hctx
  rw [Nat.zero_add]
  obtain ⟨fld, hfld⟩ := bus_rel_fld_some (b := 0) hctx.label_aligned (by decide) 2 .FLD_SRC
  obtain ⟨ctx₁, hlookup, h₁⟩ := hctx.emit (bus_add ret i) (L.SUPER + (SUPER_INC + 2) + BUS_DRAM_BASE)
    (if i < width - 1 then 2 else 1)
  rw [hctx.label, some_bind, hrow, some_bind, hlookup, some_bind]
  rcases Decidable.em (i < width - 1) with hlt | hlast
  · rw [show 2 * (width - (i + 1)) = 2 * (width - (i + 1)) - 1 + 1 by omega] at h₁
    rw [if_pos hlt, hfld, some_bind]
    exact h₁.emit fld (bus_add ret (i + 1)) 1
  · rw [if_neg hlast]
    rw [show 2 * (width - (i + 1)) = 2 * (width - (i + 1)) - 1 by omega] at h₁
    exact ⟨ctx₁, rfl, h₁⟩

variable {row : Nat} (hw : Fits14 width)

section

include hw

theorem Fits14.ne_zero : width ≠ 0 := by
  rintro rfl
  exact absurd hw.1 (by decide)

/-- Both gathers of an operation on two operands. -/
theorem gathers_grown (hroom : start.Room (n + 2)) (a b dst₁ dst₂ : Nat) (ds : Int) :
    ∃ ctx₁ ctx₂, EmitStrided start dst₁ a width 1 ds 0 = some ctx₁ ∧
      EmitStrided ctx₁ dst₂ b width 1 ds 0 = some ctx₂ ∧ Grown start (width % 0x10000) n ctx₂ := by
  obtain ⟨ctx₁, hfirst, h₁⟩ := Grown.of_gather hroom hw dst₁ a ds
  obtain ⟨ctx₂, hsecond, h₂⟩ := h₁.gather hw dst₂ b ds
  exact ⟨ctx₁, ctx₂, hfirst, hsecond, h₂⟩

/-- `Add` and `Sub`. -/
theorem ripple_grown (hrow : row < 256) (hroom : start.Room (2 * width + 1)) :
    ∃ ctx, ripple L row start width ret lhs rhs = some ctx ∧ Grown start (width % 0x10000) 0 ctx := by
  have hpos := Fits14.ne_zero hw
  have hlabel : Label start = some start.label :=
    hroom.label_fill (k := 0) (Nat.zero_le _) fun _ => ⟨0, 0, 0, 0, 0, 0⟩
  have hhyper : L.HYPER + 2 ^ 24 ≤ ARM_DRAM_END := L.in_dram ⟨L.HYPER, 2 ^ 24⟩ (by simp)
  have hbus : bus L.HYPER = some (L.HYPER + BUS_DRAM_BASE) := bus_dram (by omega)
  have hrow' : bus_ L.HYPER row = some (L.HYPER + row + BUS_DRAM_BASE) := bus_off (by omega)
  obtain ⟨dst₁, hdst₁⟩ := bus_rel_fld_some (b := 1) hroom.label_aligned (by decide) 2 .FLD_SRC
  obtain ⟨dst₂, hdst₂⟩ := bus_rel_fld_some (b := 2) hroom.label_aligned (by decide) 2 .FLD_SRC
  rw [show 2 * width + 1 = 2 * (width - 1) + 1 + 2 by omega] at hroom
  obtain ⟨ctx₁, ctx₂, hfirst, hsecond, h₂⟩ := gathers_grown hw hroom rhs lhs dst₁ dst₂ 63
  obtain ⟨ctx₃, hthird, h₃⟩ := h₂.emit (bus_add ret 0) (L.HYPER + row + BUS_DRAM_BASE) 2
  rw [ripple, guard_bind hpos, hlabel, some_bind, hdst₁, some_bind, hfirst, some_bind, hdst₂,
    some_bind, hsecond, some_bind, hrow', some_bind, hthird, some_bind]
  have hloop := Grown.loop (n := width - 1) (l := 1) (g := fun i => 2 * (width - 1 - i))
    (f := fun i ctx => do
      let d1 ← Label ctx
      let ctx ← Emit ctx (← bus_rel_fld d1 1 .FLD_SRC 0) (bus_add ret i) 1
      Emit ctx (bus_add ret i) (← bus L.HYPER) (if i < width - 1 then 2 else 1)) ?_ h₃
  · rwa [Nat.sub_self] at hloop
  intro i hi ctx hctx
  rw [show 2 * (width - 1 - i) = 2 * (width - 1 - (i + 1)) + 1 + 1 by omega] at hctx
  obtain ⟨fld, hfld⟩ := bus_rel_fld_some (b := 0) hctx.label_aligned (by decide) 1 .FLD_SRC
  obtain ⟨ctx', hpatch, h'⟩ := hctx.emit fld (bus_add ret (1 + i : Nat)) 1
  rw [hctx.label, some_bind, hfld, some_bind, hpatch, some_bind, hbus, some_bind]
  exact h'.emit _ _ _

/-- `And`, `Or` and `Xor`. -/
theorem bitwise_grown (hrow : row < 256) (hroom : start.Room (width + 2)) :
    ∃ ctx, bitwise L row start width ret lhs rhs = some ctx ∧ Grown start (width % 0x10000) 0 ctx := by
  have hlabel : Label start = some start.label :=
    hroom.label_fill (k := 0) (Nat.zero_le _) fun _ => ⟨0, 0, 0, 0, 0, 0⟩
  have hhyper : L.HYPER + 2 ^ 24 ≤ ARM_DRAM_END := L.in_dram ⟨L.HYPER, 2 ^ 24⟩ (by simp)
  have hrow' : bus_ L.HYPER row = some (L.HYPER + row + BUS_DRAM_BASE) := bus_off (by omega)
  obtain ⟨dst₁, hdst₁⟩ := bus_rel_fld_some (b := 1) hroom.label_aligned (by decide) 2 .FLD_SRC
  obtain ⟨dst₂, hdst₂⟩ := bus_rel_fld_some (b := 2) hroom.label_aligned (by decide) 2 .FLD_SRC
  obtain ⟨ctx₁, ctx₂, hfirst, hsecond, h₂⟩ := gathers_grown hw hroom lhs rhs dst₁ dst₂ 31
  rw [bitwise, hlabel, some_bind, hdst₁, some_bind, hfirst, some_bind, hdst₂, some_bind, hsecond,
    some_bind]
  have hloop := Grown.loop (n := width) (l := 0) (g := fun i => width - i)
    (f := fun i ctx => do Emit ctx (bus_add ret i) (← bus_ L.HYPER row) 1) ?_ h₂
  · rwa [Nat.sub_self] at hloop
  intro i hi ctx hctx
  rw [show width - i = width - (i + 1) + 1 by omega] at hctx
  rw [hrow', some_bind]
  exact hctx.emit _ _ _

/-- `Geu` and `Equ`. -/
theorem compare_grown (hrow : row < 256) (hroom : start.Room (width + 3)) :
    ∃ ctx, compare L row start width ret lhs rhs flags = some ctx ∧
      Grown start (width % 0x10000) 0 ctx := by
  have hpos := Fits14.ne_zero hw
  have hlabel : Label start = some start.label :=
    hroom.label_fill (k := 0) (Nat.zero_le _) fun _ => ⟨0, 0, 0, 0, 0, 0⟩
  have hhyper : L.HYPER + 2 ^ 24 ≤ ARM_DRAM_END := L.in_dram ⟨L.HYPER, 2 ^ 24⟩ (by simp)
  have hrow' : bus_ L.HYPER row = some (L.HYPER + row + BUS_DRAM_BASE) := bus_off (by omega)
  obtain ⟨table, htable⟩ := truthTable_bus L flags
  obtain ⟨dst₁, hdst₁⟩ := bus_rel_fld_some (b := 1) hroom.label_aligned (by decide) 2 .FLD_SRC
  obtain ⟨dst₂, hdst₂⟩ := bus_rel_fld_some (b := 2) hroom.label_aligned (by decide) 2 .FLD_SRC
  rw [show width + 3 = width + 1 + 2 by omega] at hroom
  obtain ⟨ctx₁, ctx₂, hfirst, hsecond, h₂⟩ := gathers_grown hw hroom rhs lhs dst₁ dst₂ 31
  rw [compare, guard_bind hpos, hlabel, some_bind, hdst₁, some_bind, hfirst, some_bind, hdst₂,
    some_bind, hsecond, some_bind]
  obtain ⟨ctx₃, hloop, h₃⟩ := Grown.loop (n := width) (l := 0) (g := fun i => width - i + 1)
    (f := fun _ ctx => do
      let d1 ← Label ctx
      Emit ctx (← bus_rel_fld d1 1 .FLD_SRC 0) (← bus_ L.HYPER row) 1) (by
      intro i hi ctx hctx
      rw [show width - i + 1 = width - (i + 1) + 1 + 1 by omega] at hctx
      obtain ⟨fld, hfld⟩ := bus_rel_fld_some (b := 0) hctx.label_aligned (by decide) 1 .FLD_SRC
      rw [hctx.label, some_bind, hfld, some_bind, hrow', some_bind]
      exact hctx.emit _ _ _) h₂
  rw [Nat.sub_self] at h₃
  rw [hloop, some_bind, htable, some_bind]
  exact h₃.emit _ _ _

theorem Ges_grown (hroom : start.Room (width + 3)) :
    ∃ ctx, Ges L start width ret lhs rhs flags = some ctx ∧ Grown start (width % 0x10000) 0 ctx := by
  have hpos := Fits14.ne_zero hw
  have hlabel : Label start = some start.label :=
    hroom.label_fill (k := 0) (Nat.zero_le _) fun _ => ⟨0, 0, 0, 0, 0, 0⟩
  have hhyper : L.HYPER + 2 ^ 24 ≤ ARM_DRAM_END := L.in_dram ⟨L.HYPER, 2 ^ 24⟩ (by simp)
  have hges : HYPER_GES < 256 := by decide
  have hrow' : bus_ L.HYPER HYPER_GES = some (L.HYPER + HYPER_GES + BUS_DRAM_BASE) := bus_off (by omega)
  obtain ⟨table, htable⟩ := truthTable_bus L flags
  obtain ⟨dst₁, hdst₁⟩ := bus_rel_fld_some (b := 1) hroom.label_aligned (by decide) 2 .FLD_SRC
  obtain ⟨dst₂, hdst₂⟩ := bus_rel_fld_some (b := 2) hroom.label_aligned (by decide) 2 .FLD_SRC
  rw [show width + 3 = width + 1 + 2 by omega] at hroom
  obtain ⟨ctx₁, ctx₂, hfirst, hsecond, h₂⟩ :=
    gathers_grown hw hroom (bus_add rhs 0) (bus_add lhs 0) dst₁ dst₂ 31
  obtain ⟨ctx₃, hbranch, h₃⟩ := h₂.branch (bus_rel_cb start.label (width + 1))
  rw [Ges, guard_bind hpos, hlabel, some_bind, hdst₁, some_bind, hfirst, some_bind, hdst₂,
    some_bind, hsecond, some_bind, hbranch, some_bind]
  obtain ⟨ctx₄, hloop, h₄⟩ := Grown.loop (n := width) (l := 0) (g := fun i => width - i + 1)
    (f := fun i ctx => do
      let d1 ← Label ctx
      let ctx ← Emit ctx (← bus_rel_fld d1 (ges_branch width i) .FLD_SRC 0) (← bus_ L.HYPER HYPER_GES) 1
      Branch ctx (bus_rel_cb d1 (ges_branch width i))) (by
      intro i hi ctx hctx
      rw [show width - i + 1 = width - (i + 1) + 1 + 1 by omega] at hctx
      obtain ⟨fld, hfld⟩ := bus_rel_fld_some (b := 0) hctx.label_aligned (by decide)
        (ges_branch width (0 + i)) .FLD_SRC
      obtain ⟨ctx', hemit, h'⟩ := hctx.emit fld (L.HYPER + HYPER_GES + BUS_DRAM_BASE) 1
      rw [hctx.label, some_bind, hfld, some_bind, hrow', some_bind, hemit, some_bind]
      exact h'.branch _) h₃
  rw [Nat.sub_self] at h₄
  rw [hloop, some_bind, htable, some_bind]
  exact h₄.emit _ _ _

/-- Every operation returns at a width whose remainder is accepted, and its gathers
have that many rows. -/
theorem WidthOp.emit_grown (op : WidthOp) (hroom : start.Room (op.blocks width)) :
    ∃ ctx, op.emit L start width ret lhs rhs flags = some ctx ∧
      Grown start (width % 0x10000) 0 ctx := by
  cases op with
  | Inc => exact Inc_grown L ret lhs hw hroom
  | Add | Sub => exact ripple_grown L ret lhs rhs hw (by decide) hroom
  | And | Or | Xor => exact bitwise_grown L ret lhs rhs hw (by decide) hroom
  | Geu | Equ => exact compare_grown L ret lhs rhs flags hw (by decide) hroom
  | Ges => exact Ges_grown L ret lhs rhs flags hw hroom

end

/-- The first gather of an operation does not return at any other width. -/
theorem WidthOp.emit_none (op : WidthOp) (hw : ¬ Fits14 width)
    (hroom : start.Room (op.blocks width)) : op.emit L start width ret lhs rhs flags = none := by
  have hlabel : Label start = some start.label :=
    hroom.label_fill (k := 0) (Nat.zero_le _) fun _ => ⟨0, 0, 0, 0, 0, 0⟩
  have hnone : ∀ dst src ds, EmitStrided start dst src width 1 ds 0 = none :=
    fun dst src ds => EmitStrided_none hw dst src ds
  obtain ⟨dst₁, hdst₁⟩ := bus_rel_fld_some (b := 1) hroom.label_aligned (by decide) 1 .FLD_SRC
  obtain ⟨dst₂, hdst₂⟩ := bus_rel_fld_some (b := 1) hroom.label_aligned (by decide) 2 .FLD_SRC
  rcases Nat.eq_zero_or_pos width with rfl | hpos
  · cases op with
    | Inc | Add | Sub | Geu | Equ | Ges => rfl
    | And | Or | Xor =>
        show bitwise L _ start 0 ret lhs rhs = none
        rw [bitwise, hlabel, some_bind, hdst₂, some_bind, hnone]
        rfl
  · have hne : width ≠ 0 := Nat.ne_of_gt hpos
    cases op with
    | Inc =>
        show Dma.Inc L start width ret lhs = none
        rw [Dma.Inc, guard_bind hne, hlabel, some_bind, hdst₁, some_bind, hnone]
        rfl
    | Add | Sub =>
        show ripple L _ start width ret lhs rhs = none
        rw [ripple, guard_bind hne, hlabel, some_bind, hdst₂, some_bind, hnone]
        rfl
    | And | Or | Xor =>
        show bitwise L _ start width ret lhs rhs = none
        rw [bitwise, hlabel, some_bind, hdst₂, some_bind, hnone]
        rfl
    | Geu | Equ =>
        show compare L _ start width ret lhs rhs flags = none
        rw [compare, guard_bind hne, hlabel, some_bind, hdst₂, some_bind, hnone]
        rfl
    | Ges =>
        show Dma.Ges L start width ret lhs rhs flags = none
        rw [Dma.Ges, guard_bind hne, hlabel, some_bind, hdst₂, some_bind, hnone]
        rfl

/-- A call panics, or its gathers have a row for each byte of the width, unless the
width is 2^16 or more and its remainder is a width that is accepted. -/
theorem WidthOp.whole_iff (op : WidthOp) (hroom : start.Room (op.blocks width)) :
    Whole start width (op.emit L start width ret lhs rhs flags) ↔
      ¬ (0x10000 ≤ width ∧ Fits14 width) := by
  rcases Decidable.em (Fits14 width) with hw | hw
  · obtain ⟨ctx, hem, hgrown⟩ := op.emit_grown L ret lhs rhs flags hw hroom
    rw [hem, hgrown.whole_iff_eq]
    constructor
    · rintro heq ⟨hlarge, _⟩
      omega
    · intro hnot
      have hsmall : width < 0x10000 := by
        by_contra hge
        exact hnot ⟨Nat.le_of_not_lt hge, hw⟩
      exact Nat.mod_eq_of_lt hsmall
  · rw [op.emit_none L ret lhs rhs flags hw hroom]
    constructor
    · rintro _ ⟨_, h⟩
      exact hw h
    · intro _ ctx hctx
      cases hctx

end Operations

/-- An empty context with room for 2^18 blocks. -/
def EmitCtx.large : EmitCtx := ⟨0x100000, 0x100000, 0x40000, fun _ => ⟨0, 0, 0, 0, 0, 0⟩⟩

theorem EmitCtx.large_room {n : Nat} (hn : n ≤ 0x40000) : EmitCtx.large.Room n where
  aligned := rfl
  base_aligned := rfl
  base_le := Nat.le_refl _
  used_le := by
    show 0 + n ≤ 0x40000
    omega
  in_dram := by
    show 0x100000 + 32 * n < 0x20000000
    omega

theorem whole_iff_65537 : Whole EmitCtx.large 65537
    (WidthOp.Inc.emit Layout.sample EmitCtx.large 65537 0x40600000 0x40800000 0 0) ↔
      ¬ (0x10000 ≤ 65537 ∧ Fits14 65537) :=
  WidthOp.whole_iff Layout.sample 0x40600000 0x40800000 0 0 .Inc (EmitCtx.large_room (by decide))

/-- At the width 65537 `Inc` returns with a gather of one row. -/
theorem inc_65537 : ∃ ctx, Inc Layout.sample EmitCtx.large 65537 0x40600000 0x40800000 = some ctx ∧
    (ctx.blk EmitCtx.large.p).is2D = true ∧ (ctx.blk EmitCtx.large.p).rows = 1 ∧
    ¬ Whole EmitCtx.large 65537 (some ctx) := by
  have hw : Fits14 65537 := by decide
  obtain ⟨ctx, hem, hgrown⟩ := Inc_grown Layout.sample 0x40600000 0x40800000 hw
    (EmitCtx.large_room (n := 2 * 65537) (by decide))
  refine ⟨ctx, hem, hgrown.first, (hgrown.rows 0 hgrown.lt hgrown.first).1, ?_⟩
  rw [hgrown.whole_iff_eq]
  decide

end Bcm2835.Dma

import Bcm2835.Dma.Engine

/-!
# Emission of control blocks (`emit.h`)

`EmitCtx` is `emit_ctx`, with the block array behind `base`: `blk` has the block
stored at an address. Pointers are ARM addresses; `bus` turns them into the
addresses the engine uses. A failed `assert` or a `panic` does not return (`none`).
-/

namespace Bcm2835.Dma

/-! ## Bus addresses (`private.h`) -/

def ARM_DRAM_BASE : Nat := 0x00000000
def ARM_DRAM_END : Nat := 0x20000000
def BUS_DRAM_BASE : Nat := 0x40000000
def ARM_PERI_BASE : Nat := 0x20000000
def ARM_PERI_END : Nat := 0x21000000
def BUS_PERI_BASE : Nat := 0x7E000000

def arm_to_bus (addr : Nat) : Option Nat :=
  if ARM_DRAM_BASE ≤ addr ∧ addr < ARM_DRAM_END then some (addr - ARM_DRAM_BASE + BUS_DRAM_BASE)
  else if ARM_PERI_BASE ≤ addr ∧ addr < ARM_PERI_END then some (addr - ARM_PERI_BASE + BUS_PERI_BASE)
  else none

def bus (ptr : Nat) : Option Nat := arm_to_bus ptr

def bus_ (ptr : Nat) (byte_offset : Int) : Option Nat := arm_to_bus (advance ptr byte_offset)

def bus_add (base : Nat) (byte_offset : Int) : Nat := advance base byte_offset

def bus_rel_cb (base : Nat) (cb_offset : Int) : Nat := bus_add base (cb_offset * 32)

inductive CbField
  | FLD_SRC
  | FLD_DST
  | FLD_LEN
  | FLD_NXT
deriving DecidableEq

def cb_field_offset : CbField → Nat
  | .FLD_SRC => 4
  | .FLD_DST => 8
  | .FLD_LEN => 12
  | .FLD_NXT => 20

def bus_rel_fld (base : Nat) (cb_offset : Int) (field : CbField) (offset_in_field : Nat) :
    Option Nat := do
  guard (base % 32 = 0)
  guard (offset_in_field < 4)
  pure (bus_add base (cb_offset * 32 + (cb_field_offset field : Int) + (offset_in_field : Int)))

/-- A value stored in a `uint16_t`. -/
def u16 (x : Int) : Nat := (x % 2 ^ 16).toNat

def stride (dst src : Nat) : Nat := dst <<< 16 ||| src

def length (rows cols : Nat) : Option Nat := do
  guard (rows < 0x4000)
  pure (rows <<< 16 ||| cols)

/-! ## The context -/

/-- `emit_ctx`. -/
structure EmitCtx where
  base : Nat
  p : Nat
  cap : Nat
  blk : Nat → Cblk

namespace EmitCtx

variable (ctx : EmitCtx)

/-- `*ctx->p++ = cb`. -/
def push (cb : Cblk) : EmitCtx :=
  { ctx with p := ctx.p + 32, blk := Function.update ctx.blk ctx.p cb }

/-- The number of blocks from `base` to `p`. -/
def used : Nat := (ctx.p - ctx.base) / 32

end EmitCtx

def Label (ctx : EmitCtx) : Option Nat := bus ctx.p

/-- Stores `next_cb` of `Last(ctx)`. -/
def Branch (ctx : EmitCtx) (label : Nat) : Option EmitCtx := do
  guard (ctx.base < ctx.p)
  pure { ctx with
    blk := Function.update ctx.blk (ctx.p - 32) { ctx.blk (ctx.p - 32) with next_cb := label } }

def End (ctx : EmitCtx) : Option EmitCtx := Branch ctx 0

/-- `rows`, `cols` and the strides are `uint16_t` parameters. -/
def EmitStridedWith (ctx : EmitCtx) (flags dst src : Nat) (rows cols dst_stride src_stride : Int) :
    Option EmitCtx := do
  guard (ctx.used < ctx.cap)
  guard (flags &&& TI_2DMODE ≠ 0)
  let txfr_len ← length (u16 (u16 rows - 1)) (u16 cols)
  let next_cb ← bus (ctx.p + 32)
  pure (ctx.push ⟨flags, src, dst, txfr_len, stride (u16 dst_stride) (u16 src_stride), next_cb⟩)

def EmitStrided (ctx : EmitCtx) (dst src : Nat) (rows cols dst_stride src_stride : Int) :
    Option EmitCtx :=
  EmitStridedWith ctx (TI_DST_INC ||| TI_SRC_INC ||| TI_2DMODE) dst src rows cols dst_stride src_stride

def EmitWith (ctx : EmitCtx) (flags dst src len : Nat) : Option EmitCtx := do
  guard (ctx.used < ctx.cap)
  let next_cb ← bus (ctx.p + 32)
  pure (ctx.push ⟨flags, src, dst, len, 0, next_cb⟩)

def Emit (ctx : EmitCtx) (dst src len : Nat) : Option EmitCtx :=
  EmitWith ctx (TI_DST_INC ||| TI_SRC_INC) dst src len

/-- `new_p` of `SkipToAlign`. Addresses are 32 bits wide; `delta` is counted in whole blocks. -/
def skipTarget (p align : Nat) : Nat :=
  p + (((p + (align - 1)) % 2 ^ 32 &&& (2 ^ 32 - align)) + 2 ^ 32 - p) % 2 ^ 32 / 32 * 32

def SkipToAlign (ctx : EmitCtx) (align : Nat) (update_last : Bool) : Option EmitCtx := do
  guard (32 ≤ align)
  guard (align % 32 = 0)
  guard (align &&& (align - 1) = 0)
  guard ((skipTarget ctx.p align - ctx.base) / 32 < ctx.cap)
  let ctx' ← if update_last then (bus (skipTarget ctx.p align)).bind (Branch ctx) else some ctx
  pure { ctx' with p := skipTarget ctx.p align }

/-- `for (i = lo; i < lo + n; i++) body`. -/
def forLoop {σ : Type} (body : Nat → σ → Option σ) : Nat → Nat → σ → Option σ
  | _, 0, s => some s
  | lo, n + 1, s => do
      let s ← body lo s
      forLoop body (lo + 1) n s

/-! ## Buffers -/

/-- `arena`. -/
structure Arena where
  start : Nat
  end_ : Nat
  p : Nat
  util : Nat

def SIZE_MAX : Nat := 2 ^ 32 - 1

/-- `arena_alloc`: the block and the arena behind it. Sums are 32 bits wide. -/
def arena_alloc (a : Arena) (size align : Nat) : Option (Nat × Arena) := do
  guard (size ≤ SIZE_MAX / 2)
  guard (align &&& ((align + SIZE_MAX) % 2 ^ 32) = 0)
  let q := ((a.p + align + SIZE_MAX) % 2 ^ 32) &&& ((2 ^ 32 - align) % 2 ^ 32)
  let r := (q + size) % 2 ^ 32
  guard (¬ (a.end_ ≤ r ∨ r < a.start))
  pure (q, { a with p := r, util := (a.util + size) % 2 ^ 32 })

/-- `mk_arena`, with the assertion as it stands. -/
def mk_arena (start end_ : Nat) : Option Arena := do
  guard (start ≥ end_)
  pure ⟨start, end_, start, 0⟩

/-- `arena_stats`. -/
structure ArenaStats where
  cap : Nat
  util : Nat
  rem : Nat

/-- Differences of pointers are 32 bits wide. -/
def arena_get_stats (a : Arena) : ArenaStats where
  cap := (a.end_ + 2 ^ 32 - a.start) % 2 ^ 32
  util := a.util
  rem := (a.end_ + 2 ^ 32 - a.p) % 2 ^ 32

def arena_reset (a : Arena) : Arena := { a with p := a.start }

end Bcm2835.Dma

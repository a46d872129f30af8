import Bcm2835.Dma.Tables

/-!
# The arithmetic library (`arith_int.c`, `arith_bit.c`, `arith_cmp.c`, `arith_sxx.c`)

Each operation emits the blocks of one computation on little-endian operands.
The blocks look bytes up in the tables: earlier blocks of the same chain patch
the low bytes of the source addresses of later ones.
-/

namespace Bcm2835.Dma

open Mem Bytes

variable (L : Layout)

/-! ## Integers -/

def Inc (ctx : EmitCtx) (width ret inp : Nat) : Option EmitCtx := do
  guard (width ≠ 0)
  let d0 ← Label ctx
  let ctx ← EmitStrided ctx (← bus_rel_fld d0 1 .FLD_SRC 1) inp width 1 63 0
  forLoop (fun i ctx => do
    let d1 ← Label ctx
    let ctx ← Emit ctx (bus_add ret i) (← bus_ L.SUPER (SUPER_INC + 2)) (if i < width - 1 then 2 else 1)
    if i < width - 1 then Emit ctx (← bus_rel_fld d1 2 .FLD_SRC 0) (bus_add ret (i + 1)) 1
    else pure ctx) 0 width ctx

/-- `Add` and `Sub`, which differ in the rows they look up. -/
def ripple (row : Nat) (ctx : EmitCtx) (width ret lhs rhs : Nat) : Option EmitCtx := do
  guard (width ≠ 0)
  let d0 ← Label ctx
  let ctx ← EmitStrided ctx (← bus_rel_fld d0 2 .FLD_SRC 1) rhs width 1 63 0
  let ctx ← EmitStrided ctx (← bus_rel_fld d0 2 .FLD_SRC 2) lhs width 1 63 0
  let ctx ← Emit ctx (bus_add ret 0) (← bus_ L.HYPER row) 2
  forLoop (fun i ctx => do
    let d1 ← Label ctx
    let ctx ← Emit ctx (← bus_rel_fld d1 1 .FLD_SRC 0) (bus_add ret i) 1
    Emit ctx (bus_add ret i) (← bus L.HYPER) (if i < width - 1 then 2 else 1)) 1 (width - 1) ctx

def Add : EmitCtx → Nat → Nat → Nat → Nat → Option EmitCtx := ripple L HYPER_ADD

def Sub : EmitCtx → Nat → Nat → Nat → Nat → Option EmitCtx := ripple L HYPER_SUB

/-! ## Bits -/

def Not (ctx : EmitCtx) (width ret inp : Nat) : Option EmitCtx := do
  guard (width ≠ 0)
  guard (width < 16)
  let d0 ← Label ctx
  let ctx ← EmitStrided ctx (← bus_rel_fld d0 1 .FLD_SRC 0) inp width 1 31 0
  forLoop (fun i ctx => do Emit ctx (bus_add ret i) (← bus L.NOT) 1) 0 width ctx

/-- `And`, `Or` and `Xor`, which differ in the row they look up. -/
def bitwise (row : Nat) (ctx : EmitCtx) (width ret lhs rhs : Nat) : Option EmitCtx := do
  let d0 ← Label ctx
  let ctx ← EmitStrided ctx (← bus_rel_fld d0 2 .FLD_SRC 1) lhs width 1 31 0
  let ctx ← EmitStrided ctx (← bus_rel_fld d0 2 .FLD_SRC 2) rhs width 1 31 0
  forLoop (fun i ctx => do Emit ctx (bus_add ret i) (← bus_ L.HYPER row) 1) 0 width ctx

def And : EmitCtx → Nat → Nat → Nat → Nat → Option EmitCtx := bitwise L HYPER_AND

def Or : EmitCtx → Nat → Nat → Nat → Nat → Option EmitCtx := bitwise L HYPER_OR

def Xor : EmitCtx → Nat → Nat → Nat → Nat → Option EmitCtx := bitwise L HYPER_XOR

/-! ## Comparisons -/

def ICF_X4 : Nat := 1 <<< 0
def ICF_INV : Nat := 1 <<< 1

/-- The truth table for `flags`. -/
def truthTable (flags : Nat) : Nat :=
  if flags &&& ICF_X4 ≠ 0 then
    if flags &&& ICF_INV ≠ 0 then L.ANTIPOLAR_TRUTH_X4 else L.POLAR_TRUTH_X4
  else if flags &&& ICF_INV ≠ 0 then L.ANTIPOLAR_TRUTH_X1 else L.POLAR_TRUTH_X1

/-- `Geu` and `Equ`, which differ in the state the lookups start from. -/
def compare (start : Nat) (ctx : EmitCtx) (width ret8 lhs rhs flags : Nat) : Option EmitCtx := do
  guard (width ≠ 0)
  let d0 ← Label ctx
  let ctx ← EmitStrided ctx (← bus_rel_fld d0 2 .FLD_SRC 1) rhs width 1 31 0
  let ctx ← EmitStrided ctx (← bus_rel_fld d0 2 .FLD_SRC 2) lhs width 1 31 0
  let ctx ← forLoop (fun _ ctx => do
    let d1 ← Label ctx
    Emit ctx (← bus_rel_fld d1 1 .FLD_SRC 0) (← bus_ L.HYPER start) 1) 0 width ctx
  Emit ctx ret8 (← bus (truthTable L flags)) 1

def Geu : EmitCtx → Nat → Nat → Nat → Nat → Nat → Option EmitCtx := compare L HYPER_GEU

def Ltu (ctx : EmitCtx) (width ret8 lhs rhs flags : Nat) : Option EmitCtx :=
  Geu L ctx width ret8 lhs rhs (flags ^^^ ICF_INV)

def Equ : EmitCtx → Nat → Nat → Nat → Nat → Nat → Option EmitCtx := compare L (HYPER_EQU + 1)

def Neq (ctx : EmitCtx) (width ret8 lhs rhs flags : Nat) : Option EmitCtx :=
  Equ L ctx width ret8 lhs rhs (flags ^^^ ICF_INV)

/-- `next` in `Ges`: how many blocks on the lookup of byte `i` goes. -/
def ges_branch (width i : Nat) : Int := if i ≠ 0 then -1 else width

def Ges (ctx : EmitCtx) (width ret8 lhs rhs flags : Nat) : Option EmitCtx := do
  guard (width ≠ 0)
  let d0 ← Label ctx
  let ctx ← EmitStrided ctx (← bus_rel_fld d0 2 .FLD_SRC 1) (bus_add rhs 0) width 1 31 0
  let ctx ← EmitStrided ctx (← bus_rel_fld d0 2 .FLD_SRC 2) (bus_add lhs 0) width 1 31 0
  let ctx ← Branch ctx (bus_rel_cb d0 (width + 1))
  let ctx ← forLoop (fun i ctx => do
    let d1 ← Label ctx
    let ctx ← Emit ctx (← bus_rel_fld d1 (ges_branch width i) .FLD_SRC 0) (← bus_ L.HYPER HYPER_GES) 1
    Branch ctx (bus_rel_cb d1 (ges_branch width i))) 0 width ctx
  Emit ctx ret8 (← bus (truthTable L flags)) 1

def Lts (ctx : EmitCtx) (width ret8 lhs rhs flags : Nat) : Option EmitCtx :=
  Ges L ctx width ret8 lhs rhs (flags ^^^ ICF_INV)

/-! ## Shifts of up to seven bits -/

/-- `Sll8` and `Srl8`, which differ in the rows they select, in the lookup for byte
`first`, which has only the byte at `edge` of the operand, in byte `b` of its source
address, and in the byte `lo` the loop starts from. -/
def shift8 (select b first lo : Nat) (ctx : EmitCtx) (width ret inp edge shf8 : Nat) :
    Option EmitCtx := do
  guard (2 ≤ width)
  let d0 ← Label ctx
  let ctx ← EmitStrided ctx (← bus_rel_fld d0 5 .FLD_SRC 1) inp (width - 1) 2 30 (-1)
  let ctx ← Emit ctx (← bus_rel_fld d0 2 .FLD_SRC 0) shf8 1
  let ctx ← EmitStridedWith ctx (TI_DST_INC ||| TI_2DMODE) (← bus_rel_fld d0 4 .FLD_SRC 0)
    (← bus select) width 1 31 0
  let ctx ← Emit ctx (← bus_rel_fld d0 4 .FLD_SRC b) edge 1
  let ctx ← Emit ctx (bus_add ret first) (← bus L.HYPER) 1
  forLoop (fun i ctx => do Emit ctx (bus_add ret i) (← bus L.HYPER) 1) lo (width - 1) ctx

def Sll8 (ctx : EmitCtx) (width ret inp shf8 : Nat) : Option EmitCtx :=
  shift8 L L.SLL_HYPER_SELECT 2 0 1 ctx width ret inp inp shf8

def Srl8 (ctx : EmitCtx) (width ret inp shf8 : Nat) : Option EmitCtx :=
  shift8 L L.SRL_HYPER_SELECT 1 (width - 1) 0 ctx width ret inp (bus_add inp (width - 1)) shf8

def Sra8 (ctx : EmitCtx) (width ret inp shf8 : Nat) : Option EmitCtx := do
  guard (2 ≤ width)
  let d0 ← Label ctx
  let ctx ← EmitStrided ctx (← bus_rel_fld d0 5 .FLD_SRC 1) inp (width - 1) 2 30 (-1)
  let ctx ← EmitStridedWith ctx (TI_DST_INC ||| TI_2DMODE) (← bus_rel_fld d0 2 .FLD_SRC 0)
    shf8 2 1 63 0
  let ctx ← EmitStridedWith ctx (TI_DST_INC ||| TI_2DMODE) (← bus_rel_fld d0 5 .FLD_SRC 0)
    (← bus L.SRL_HYPER_SELECT) (width - 1) 1 31 0
  let ctx ← Emit ctx (← bus_rel_fld d0 4 .FLD_SRC 1) (bus_add inp (width - 1)) 1
  let ctx ← Emit ctx (bus_add ret (width - 1)) (← bus L.SRA_HI) 1
  forLoop (fun i ctx => do Emit ctx (bus_add ret i) (← bus L.HYPER) 1) 0 (width - 1) ctx

/-! ## Operations with buffers of their own -/

/-- `struct mono`: pointers to a key and to a value. -/
structure Mono where
  key : Nat
  val : Nat

/-- `struct mono_ctx`, the entries of `monos` latest first. -/
structure MonoCtx where
  instance_ : Nat
  keysz : Nat
  valsz : Nat
  monos : List Mono

/-- The host program: the context it emits to, its arena, the memo contexts from
`mono_root` on, and its memory, by bus addresses. -/
structure Host where
  ctx : EmitCtx
  arena : Arena
  mono_root : List MonoCtx
  curr_mono : Nat
  curr_context : Nat
  mem : Memory

def MAX_MONO : Nat := 512
def MAX_CONTEXT : Nat := 128

/-- `MONOS[]`. Nothing gives the entries storage: their pointers stay null. -/
def MONOS (_ : Nat) : Mono := ⟨0, 0⟩

/-- `_mono_get_or_init_ctx`: afterwards the contexts have one for `i`. -/
def mono_get_or_init_ctx (h : Host) (i ks vs : Nat) : Option Host :=
  if h.mono_root.any (·.instance_ = i) then some h
  else do
    guard (h.curr_context < MAX_CONTEXT)
    pure { h with curr_context := h.curr_context + 1, mono_root := ⟨i, ks, vs, []⟩ :: h.mono_root }

/-- `_mono_get`: the value of the first entry whose key compares equal. -/
def mono_get (h : Host) (c : MonoCtx) (k : List UInt8) : Option (List UInt8) :=
  c.monos.findSome? fun e =>
    if read h.mem (e.key + BUS_DRAM_BASE) c.keysz = k.take c.keysz then
      some (read h.mem (e.val + BUS_DRAM_BASE) c.valsz)
    else none

/-- `_mono_set`, for the context of `i`. -/
def mono_set (h : Host) (i : Nat) (k d : List UInt8) : Option Host := do
  guard (h.curr_mono < MAX_MONO)
  let e := MONOS h.curr_mono
  let c ← h.mono_root.find? (·.instance_ = i)
  pure { h with
    curr_mono := h.curr_mono + 1
    mem := write (2 ^ 32) (write (2 ^ 32) h.mem (e.key + BUS_DRAM_BASE) (k.take c.keysz))
      (e.val + BUS_DRAM_BASE) (d.take c.valsz)
    mono_root := h.mono_root.map fun c => if c.instance_ = i then { c with monos := e :: c.monos } else c }

/-- `MonomorphizeOn(v, expr)` at the expansion numbered `i`, for pointers and
widths, both of four bytes. -/
def MonomorphizeOn (i v : Nat) (expr : Host → Option (Nat × Host)) (h : Host) :
    Option (Nat × Host) := do
  let h ← mono_get_or_init_ctx h i 4 4
  let c ← h.mono_root.find? (·.instance_ = i)
  match mono_get h c (leBytes 4 v) with
  | some t => pure (ofLe t, h)
  | none =>
      let (t, h) ← expr h
      let h ← mono_set h i (leBytes 4 v) (leBytes 4 t)
      pure (t, h)

/-- `arena_alloc(&ARENA, size, align)`. -/
def Host.alloc (size align : Nat) (h : Host) : Option (Nat × Host) := do
  let (t, a) ← arena_alloc h.arena size align
  pure (t, { h with arena := a })

/-- `for (i = 0; i < 256; i++) t[i] = f(i)`. -/
def Host.fillTable (t : Nat) (f : Nat → Nat) (h : Host) : Host :=
  { h with mem := write (2 ^ 32) h.mem (t + BUS_DRAM_BASE) (Buf.taken (fun i => .ofNat (f i)) 256) }

/-- A table of 256 bytes in the arena. -/
def Host.allocTable (f : Nat → Nat) (h : Host) : Option (Nat × Host) := do
  let (t, h) ← h.alloc 256 256
  pure (t, h.fillTable t f)

/-! The expansions of `MonomorphizeOn` are numbered within a source file. -/

def Neg (h : Host) (width ret inp : Nat) : Option Host := do
  guard (width < 256)
  let (tmp, h) ← MonomorphizeOn 0 width (Host.alloc width (min (min width 4) 16)) h
  let ctx ← Not L h.ctx width (← bus tmp) inp
  let ctx ← Inc L ctx width ret (← bus tmp)
  pure { h with ctx := ctx }

/-- The end of a shift: `width` bytes from the byte of `tmp` that `select` has for the
count. -/
def shiftBytes (ctx : EmitCtx) (width ret shf8 select tmp : Nat) : Option EmitCtx := do
  let d0 ← Label ctx
  let ctx ← Emit ctx (← bus_rel_fld d0 1 .FLD_SRC 0) shf8 1
  let ctx ← Emit ctx (← bus_rel_fld d0 2 .FLD_SRC 0) (← bus select) 1
  Emit ctx ret (← bus tmp) width

/-- `Sll` and `Srl`, which differ in the bytes they select, in where in `tmp` the bits
go, and in the shift of the bits. -/
def logicalShift (i off : Nat) (f : Nat → Nat)
    (shift : EmitCtx → Nat → Nat → Nat → Nat → Option EmitCtx) (h : Host)
    (width ret inp shf8 : Nat) : Option Host := do
  guard (width < 128)
  let (select, h) ← MonomorphizeOn i width (Host.allocTable f) h
  let (tmp, h) ← MonomorphizeOn (i + 1) width (Host.alloc (2 * width) 256) h
  let ctx ← Emit h.ctx (← bus tmp) (← bus L.ZERO) width
  let ctx ← shift ctx width (← bus_ tmp off) inp shf8
  let ctx ← shiftBytes ctx width ret shf8 select tmp
  pure { h with ctx := ctx }

def Sll (h : Host) (width ret inp shf8 : Nat) : Option Host :=
  logicalShift L 0 width (fun i => width - i / 8 % width) (Sll8 L) h width ret inp shf8

def Srl (h : Host) (width ret inp shf8 : Nat) : Option Host :=
  logicalShift L 2 0 (fun i => i / 8 % width) (Srl8 L) h width ret inp shf8

def Sra (h : Host) (width ret inp shf8 : Nat) : Option Host := do
  guard (width < 128)
  let (select, h) ← MonomorphizeOn 4 width (Host.allocTable fun i => i / 8 % width) h
  let (tmp, h) ← MonomorphizeOn 5 width (Host.alloc (2 * width) 256) h
  let d0 ← Label h.ctx
  let ctx ← Emit h.ctx (← bus_rel_fld d0 1 .FLD_SRC 0) (bus_add inp (width - 1)) 1
  let ctx ← Emit ctx (← bus_rel_fld d0 2 .FLD_SRC 0) (← bus L.SEXT_WHICH) 1
  let ctx ← EmitWith ctx TI_DST_INC (← bus_ tmp width) (← bus L.SEXT_BUFS) width
  let ctx ← Sra8 L ctx width (← bus tmp) inp shf8
  let ctx ← shiftBytes ctx width ret shf8 select tmp
  pure { h with ctx := ctx }

end Bcm2835.Dma

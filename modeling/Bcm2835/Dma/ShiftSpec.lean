import Bcm2835.Dma.TablesSpec
import Bcm2835.Dma.Runs
import Bcm2835.Dma.Steps
import Bcm2835.Dma.HostSpec

/-!
# The blocks of the shifts

`Sll` and `Srl` shift by bits into a buffer of twice the width and then copy the
result out of it, from a byte that the shift count selects. They differ in where in
the buffer the bits go, and in the lookup that has only one byte of the operand.
-/

namespace Bcm2835.Dma

open Mem Digits EmitCtx

/-- Where a shift finds its operands, tables and buffers, by bus addresses. -/
structure ShiftPlace where
  z : Nat
  w : Nat
  ret : Nat
  inp : Nat
  shf8 : Nat
  table : Nat
  /-- The row for each shift count. -/
  row : Nat
  /-- The byte of the buffer for each shift count. -/
  select : Nat
  tmp : Nat

namespace ShiftPlace

variable (P : ShiftPlace)

/-- The last three blocks, from block `k` on. -/
def tailBlock (t k : Nat) : Cblk :=
  if k = t then linear P.z t INC (srcField P.z (t + 1) 0) P.shf8 1
  else if k = t + 1 then linear P.z (t + 1) INC (srcField P.z (t + 2) 0) P.select 1
  else linear P.z (t + 2) INC P.ret P.tmp P.w

/-- Block `k` of `Sll` and `Srl`. The first lookup has the byte at `edge`, in byte `j`
of its source address; lookup `i` goes to `dst i`. -/
def logicalBlock (zeros edge j : Nat) (dst : Nat → Nat) (k : Nat) : Cblk :=
  if k = 0 then linear P.z 0 INC P.tmp zeros P.w
  else if k = 1 then strided P.z 1 INC2D (srcField P.z 6 1) P.inp (P.w - 1) 2 30 (-1)
  else if k = 2 then linear P.z 2 INC (srcField P.z 3 0) P.shf8 1
  else if k = 3 then strided P.z 3 NOINC2D (srcField P.z 5 0) P.row P.w 1 31 0
  else if k = 4 then linear P.z 4 INC (srcField P.z 5 j) edge 1
  else if k < P.w + 5 then linear P.z k INC (dst (k - 5)) P.table 1
  else P.tailBlock (P.w + 5) k

/-- Block `k` of `Sra`. -/
def arithmeticBlock (which bufs hi k : Nat) : Cblk :=
  if k = 0 then linear P.z 0 INC (srcField P.z 1 0) (P.inp + (P.w - 1)) 1
  else if k = 1 then linear P.z 1 INC (srcField P.z 2 0) which 1
  else if k = 2 then linear P.z 2 TI_DST_INC (P.tmp + P.w) bufs P.w
  else if k = 3 then strided P.z 3 INC2D (srcField P.z 8 1) P.inp (P.w - 1) 2 30 (-1)
  else if k = 4 then strided P.z 4 NOINC2D (srcField P.z 5 0) P.shf8 2 1 63 0
  else if k = 5 then strided P.z 5 NOINC2D (srcField P.z 8 0) P.row (P.w - 1) 1 31 0
  else if k = 6 then linear P.z 6 INC (srcField P.z 7 1) (P.inp + (P.w - 1)) 1
  else if k = 7 then linear P.z 7 INC (P.tmp + (P.w - 1)) hi 1
  else if k < P.w + 7 then linear P.z k INC (P.tmp + (k - 8)) P.table 1
  else P.tailBlock (P.w + 7) k

/-- Where lookup `i` goes: the first to byte `first` of `buf`, the others to the bytes
from `lo` on. -/
def lookupDst (buf first lo i : Nat) : Nat := buf + if i = 0 then first else lo + (i - 1)

theorem logicalBlock_lookup (zeros edge j : Nat) (dst : Nat → Nat) {i : Nat} (hi : i < P.w) :
    P.logicalBlock zeros edge j dst (5 + i) = linear P.z (5 + i) INC (dst i) P.table 1 := by
  rw [logicalBlock, if_neg (by omega), if_neg (by omega), if_neg (by omega), if_neg (by omega),
    if_neg (by omega), if_pos (by omega), Nat.add_sub_cancel_left]

theorem logicalBlock_tail (zeros edge j : Nat) (dst : Nat → Nat) (i : Nat) :
    P.logicalBlock zeros edge j dst (P.w + 5 + i) = P.tailBlock (P.w + 5) (P.w + 5 + i) := by
  rw [logicalBlock, if_neg (by omega), if_neg (by omega), if_neg (by omega), if_neg (by omega),
    if_neg (by omega), if_neg (by omega)]

theorem arithmeticBlock_lookup (which bufs hi : Nat) {i : Nat} (hi' : i < P.w - 1) :
    P.arithmeticBlock which bufs hi (8 + i) = linear P.z (8 + i) INC (P.tmp + i) P.table 1 := by
  rw [arithmeticBlock, if_neg (by omega), if_neg (by omega), if_neg (by omega), if_neg (by omega),
    if_neg (by omega), if_neg (by omega), if_neg (by omega), if_neg (by omega), if_pos (by omega),
    Nat.add_sub_cancel_left]

theorem arithmeticBlock_tail (which bufs hi i : Nat) (hw : 1 ≤ P.w) :
    P.arithmeticBlock which bufs hi (P.w + 7 + i) = P.tailBlock (P.w + 7) (P.w + 7 + i) := by
  rw [arithmeticBlock, if_neg (by omega), if_neg (by omega), if_neg (by omega), if_neg (by omega),
    if_neg (by omega), if_neg (by omega), if_neg (by omega), if_neg (by omega), if_neg (by omega)]

theorem tailBlock_zero (t : Nat) :
    P.tailBlock t t = linear P.z t INC (srcField P.z (t + 1) 0) P.shf8 1 := if_pos rfl

theorem tailBlock_one (t : Nat) :
    P.tailBlock t (t + 1) = linear P.z (t + 1) INC (srcField P.z (t + 2) 0) P.select 1 := by
  rw [tailBlock, if_neg (by omega), if_pos rfl]

theorem tailBlock_two (t : Nat) :
    P.tailBlock t (t + 2) = linear P.z (t + 2) INC P.ret P.tmp P.w := by
  rw [tailBlock, if_neg (by omega), if_neg (by omega)]

end ShiftPlace

/-! ## What is emitted -/

section Emission

variable {L : Layout} {ctx : EmitCtx} {f : Nat → Cblk} {P : ShiftPlace} {n u : Nat}

/-- The last three emissions of a shift. -/
theorem shiftBytes_eq (hroom : ctx.Room n) (hz : P.z = ctx.label) {t : Nat} (ht : t + 3 = n)
    (hf : ∀ i, f (t + i) = P.tailBlock t (t + i)) {select tmp : Nat}
    (hselect : bus select = some P.select) (htmp : bus tmp = some P.tmp) :
    shiftBytes (ctx.fill f t) P.w P.ret P.shf8 select tmp = some (ctx.fill f n) := by
  have hlt := hroom.label_lt
  have haligned := hroom.label_aligned
  have hfld1 : bus_rel_fld (ctx.label + 32 * t) 1 .FLD_SRC 0 = some (srcField P.z (t + 1) 0) := by
    rw [hz]
    exact bus_rel_fld_src haligned (by decide) _ (by push_cast; ring) (by omega)
  have hfld2 : bus_rel_fld (ctx.label + 32 * t) 2 .FLD_SRC 0 = some (srcField P.z (t + 2) 0) := by
    rw [hz]
    exact bus_rel_fld_src haligned (by decide) _ (by push_cast; ring) (by omega)
  have h0 : Emit (ctx.fill f t) (srcField P.z (t + 1) 0) P.shf8 1 = some (ctx.fill f (t + 1)) := by
    refine Emit_fill hroom (by omega) ?_
    rw [← Nat.add_zero t, hf 0, Nat.add_zero, P.tailBlock_zero, hz]
  have h1 : Emit (ctx.fill f (t + 1)) (srcField P.z (t + 2) 0) P.select 1 =
      some (ctx.fill f (t + 2)) := by
    refine Emit_fill hroom (by omega) ?_
    rw [hf 1, P.tailBlock_one, hz]
  have h2 : Emit (ctx.fill f (t + 2)) P.ret P.tmp P.w = some (ctx.fill f n) := by
    rw [← ht]
    refine Emit_fill hroom (by omega) ?_
    rw [hf 2, P.tailBlock_two, hz]
  rw [shiftBytes, hroom.label_fill (by omega) f, some_bind, hfld1, some_bind, h0, some_bind, hfld2, some_bind,
    hselect, some_bind, h1, some_bind, htmp, some_bind, h2]

/-- The first emission of `Sll8` and `Srl8`, and of `Sra8`. -/
theorem pairs_eq (hroom : ctx.Room n) (hu : u < n) (hz : P.z = ctx.label) (hw : 2 ≤ P.w)
    (hw' : P.w ≤ 127) (hf : f u = strided P.z u INC2D (srcField P.z (u + 5) 1) P.inp (P.w - 1) 2 30 (-1)) :
    EmitStrided (ctx.fill f u) (srcField P.z (u + 5) 1) P.inp ((P.w : Int) - 1) 2 30 (-1) =
      some (ctx.fill f (u + 1)) := by
  have hrows : (P.w : Int) - 1 = ((P.w - 1 : Nat) : Int) := by omega
  rw [hrows]
  exact EmitStrided_fill hroom hu (c := 2) (by omega) (by omega) (by decide) (by rw [hf, hz])

/-- The select byte is spread to the lookups, in `rows` rows. -/
theorem spread_eq (hroom : ctx.Room n) (hu : u < n) (hz : P.z = ctx.label) {k rows : Nat}
    (hrows : 1 ≤ rows) (hrows' : rows ≤ 127) {D : Int} {src : Nat}
    (hf : f u = strided P.z u NOINC2D (srcField P.z k 0) src rows 1 D 0) :
    EmitStridedWith (ctx.fill f u) (TI_DST_INC ||| TI_2DMODE) (srcField P.z k 0) src rows 1 D 0 =
      some (ctx.fill f (u + 1)) :=
  EmitStridedWith_fill hroom hu (c := 1) (by decide) hrows (by omega) (by decide)
    (by rw [hf, hz]; rfl)

/-- An emission of a block that moves one byte. -/
theorem byte_eq (hroom : ctx.Room n) (hu : u < n) (hz : P.z = ctx.label) {dst src : Nat}
    (hf : f u = linear P.z u INC dst src 1) :
    Emit (ctx.fill f u) dst src 1 = some (ctx.fill f (u + 1)) :=
  Emit_fill hroom hu (by rw [hf, hz])

/-- A source field of a later block, by the label the operation starts from. -/
theorem field_eq (hroom : ctx.Room n) (hz : P.z = ctx.label) {u k b : Nat} {j : Int} (hb : b < 4)
    (hk : (u : Int) + j = k) (hkn : k < n) :
    bus_rel_fld (ctx.label + 32 * u) j .FLD_SRC b = some (srcField P.z k b) := by
  have hlt := hroom.label_lt
  rw [hz]
  exact bus_rel_fld_src hroom.label_aligned hb k hk (by omega)

variable {zeros : Nat}

/-- What `Sll8` and `Srl8` emit behind the first block. -/
theorem shift8_eq {select b first lo edge buf : Nat} (hroom : ctx.Room (P.w + 8)) (hz : P.z = ctx.label)
    (hw : 2 ≤ P.w) (hw' : P.w ≤ 127)
    (hf : f = P.logicalBlock zeros edge b (ShiftPlace.lookupDst buf first lo))
    (htable : P.table = L.HYPER + BUS_DRAM_BASE) (hrow : bus select = some P.row) (hb : b < 4)
    (hfirst : first < P.w) (hlo : lo ≤ 1) (hbuf : buf + P.w ≤ 2 ^ 32) :
    shift8 L select b first lo (ctx.fill f 1) P.w buf P.inp edge P.shf8 =
      some (ctx.fill f (P.w + 5)) := by
  have hhyper : L.HYPER + 2 ^ 24 ≤ ARM_DRAM_END := L.in_dram ⟨L.HYPER, 2 ^ 24⟩ (by simp)
  have hbus : bus L.HYPER = some P.table := by rw [htable]; exact bus_dram (by omega)
  have hpairs := pairs_eq (u := 1) (f := f) hroom (by omega) hz hw hw' (by rw [hf]; rfl)
  have hcount : Emit (ctx.fill f 2) (srcField P.z 3 0) P.shf8 1 = some (ctx.fill f 3) :=
    byte_eq hroom (by omega) hz (by rw [hf]; rfl)
  have hspread : EmitStridedWith (ctx.fill f 3) (TI_DST_INC ||| TI_2DMODE) (srcField P.z 5 0) P.row
      P.w 1 31 0 = some (ctx.fill f 4) :=
    spread_eq hroom (by omega) hz (by omega) hw' (by rw [hf]; rfl)
  have hedge : Emit (ctx.fill f 4) (srcField P.z 5 b) edge 1 = some (ctx.fill f 5) :=
    byte_eq hroom (by omega) hz (by rw [hf]; rfl)
  have hlookup : ∀ i < P.w, Emit (ctx.fill f (5 + i)) (ShiftPlace.lookupDst buf first lo i) P.table 1 =
      some (ctx.fill f (5 + i + 1)) := fun i hi =>
    byte_eq hroom (by omega) hz (by rw [hf, P.logicalBlock_lookup _ _ _ _ hi])
  have hone : Emit (ctx.fill f 5) (bus_add buf (first : Nat)) P.table 1 = some (ctx.fill f 6) := by
    rw [bus_add_nat (by omega)]
    exact hlookup 0 (by omega)
  have hloop := forLoop_eq (l := lo) (n := P.w - 1) (s := fun i => ctx.fill f (6 + i))
    (b := fun i ctx => do Emit ctx (bus_add buf i) (← bus L.HYPER) 1) fun i hi => by
    have hnext := hlookup (1 + i) (by omega)
    rw [ShiftPlace.lookupDst, if_neg (by omega), Nat.add_sub_cancel_left] at hnext
    rw [bus_add_nat (by omega), hbus, some_bind]
    rwa [show 5 + (1 + i) = 6 + i by omega] at hnext
  rw [show 6 + (P.w - 1) = P.w + 5 by omega] at hloop
  rw [shift8, guard_bind hw, hroom.label_fill (by omega) f, some_bind,
    field_eq hroom hz (k := 6) (by decide) (by norm_num) (by omega), some_bind, hpairs, some_bind,
    field_eq hroom hz (k := 3) (by decide) (by norm_num) (by omega), some_bind, hcount, some_bind,
    field_eq hroom hz (k := 5) (by decide) (by norm_num) (by omega), some_bind, hrow, some_bind,
    hspread, some_bind, field_eq hroom hz (k := 5) hb (by norm_num) (by omega), some_bind,
    hedge, some_bind, hbus, some_bind, hone, some_bind]
  simp only [hbus] at hloop
  exact hloop

variable {which bufs hi : Nat}

/-- What `Sra8` emits behind the first three blocks. -/
theorem Sra8_eq (hroom : ctx.Room (P.w + 10)) (hz : P.z = ctx.label) (hw : 2 ≤ P.w) (hw' : P.w ≤ 127)
    (hf : f = P.arithmeticBlock which bufs hi) (htable : P.table = L.HYPER + BUS_DRAM_BASE)
    (hrow : P.row = L.SRL_HYPER_SELECT + BUS_DRAM_BASE) (hhi : hi = L.SRA_HI + BUS_DRAM_BASE)
    (hinp : P.inp + P.w ≤ 2 ^ 32) (htmp : P.tmp + P.w ≤ 2 ^ 32) :
    Sra8 L (ctx.fill f 3) P.w P.tmp P.inp P.shf8 = some (ctx.fill f (P.w + 7)) := by
  have hhyper : L.HYPER + 2 ^ 24 ≤ ARM_DRAM_END := L.in_dram ⟨L.HYPER, 2 ^ 24⟩ (by simp)
  have hsel : L.SRL_HYPER_SELECT + 2 ^ 8 ≤ ARM_DRAM_END :=
    L.in_dram ⟨L.SRL_HYPER_SELECT, 2 ^ 8⟩ (by simp)
  have hsra : L.SRA_HI + 2 ^ 16 ≤ ARM_DRAM_END := L.in_dram ⟨L.SRA_HI, 2 ^ 16⟩ (by simp)
  have hbus : bus L.HYPER = some P.table := by rw [htable]; exact bus_dram (by omega)
  have hbus' : bus L.SRL_HYPER_SELECT = some P.row := by rw [hrow]; exact bus_dram (by omega)
  have hbus'' : bus L.SRA_HI = some hi := by rw [hhi]; exact bus_dram (by omega)
  have hcast : (P.w : Int) - 1 = ((P.w - 1 : Nat) : Int) := by omega
  have hpairs := pairs_eq (u := 3) (f := f) hroom (by omega) hz hw hw' (by rw [hf]; rfl)
  have hcount : EmitStridedWith (ctx.fill f 4) (TI_DST_INC ||| TI_2DMODE) (srcField P.z 5 0) P.shf8
      2 1 63 0 = some (ctx.fill f 5) :=
    EmitStridedWith_fill hroom (k := 4) (r := 2) (c := 1) (by omega) (by decide) (by decide)
      (by decide) (by decide) (by rw [hf, ← hz]; rfl)
  have hspread : EmitStridedWith (ctx.fill f 5) (TI_DST_INC ||| TI_2DMODE) (srcField P.z 8 0) P.row
      (P.w - 1 : Nat) 1 31 0 = some (ctx.fill f 6) :=
    spread_eq hroom (by omega) hz (by omega) (by omega) (by rw [hf]; rfl)
  have hedge : Emit (ctx.fill f 6) (srcField P.z 7 1) (P.inp + (P.w - 1)) 1 = some (ctx.fill f 7) :=
    byte_eq hroom (by omega) hz (by rw [hf]; rfl)
  have htop : Emit (ctx.fill f 7) (P.tmp + (P.w - 1)) hi 1 = some (ctx.fill f 8) :=
    byte_eq hroom (by omega) hz (by rw [hf]; rfl)
  have hloop := forLoop_eq (l := 0) (n := P.w - 1) (s := fun i => ctx.fill f (8 + i))
    (b := fun i ctx => do Emit ctx (bus_add P.tmp i) (← bus L.HYPER) 1) fun i hi' => by
    rw [Nat.zero_add, bus_add_nat (by omega), hbus, some_bind]
    exact byte_eq hroom (by omega) hz (by rw [hf, P.arithmeticBlock_lookup _ _ _ hi'])
  rw [show 8 + (P.w - 1) = P.w + 7 by omega] at hloop
  have hinp' : bus_add P.inp ((P.w : Int) - 1) = P.inp + (P.w - 1) := by
    rw [hcast]
    exact bus_add_nat (by omega)
  have htmp' : bus_add P.tmp ((P.w : Int) - 1) = P.tmp + (P.w - 1) := by
    rw [hcast]
    exact bus_add_nat (by omega)
  rw [Sra8, guard_bind hw, hroom.label_fill (by omega) f, some_bind,
    field_eq hroom hz (k := 8) (by decide) (by norm_num) (by omega), some_bind, hpairs, some_bind,
    field_eq hroom hz (k := 5) (by decide) (by norm_num) (by omega), some_bind, hcount, some_bind,
    field_eq hroom hz (k := 8) (by decide) (by norm_num) (by omega), some_bind, hbus', some_bind,
    hcast, hspread, some_bind, field_eq hroom hz (k := 7) (by decide) (by norm_num) (by omega),
    some_bind, ← hcast, hinp', hedge, some_bind, hbus'', some_bind, htmp', htop, some_bind]
  exact hloop

end Emission

/-! ## Buffers -/

/-- The buffers a shift got from the arena: a table of `f` and a buffer of twice the
width, both of them free before and neither reached by the arena any more. -/
structure ShiftBuffers (h h' : Host) (w : Nat) (f : Nat → Nat) (select tmp n r : Nat) : Prop where
  select_eq : select = h.arena.next 256
  tmp_eq : tmp = select + 256
  select_aligned : select % 256 = 0
  tmp_aligned : tmp % 256 = 0
  free_le : h.arena.p ≤ select
  select_le : select + 256 ≤ tmp
  tmp_lt : tmp + 2 * w < h.arena.end_
  in_dram : h.arena.end_ ≤ ARM_DRAM_END
  entry : ∀ k < 256, h'.mem (select + BUS_DRAM_BASE + k) = .ofNat (f k)
  sound : h'.Sound
  monos : h'.MonoRoom n
  arena : h'.arena.Room r

/-- The place of a shift whose buffers are `select` and `tmp`. -/
def shiftPlace (L : Layout) (h : Host) (row w ret inp shf8 select tmp : Nat) : ShiftPlace where
  z := h.ctx.label
  w := w
  ret := ret
  inp := inp
  shf8 := shf8
  table := L.HYPER + BUS_DRAM_BASE
  row := row + BUS_DRAM_BASE
  select := select + BUS_DRAM_BASE
  tmp := tmp + BUS_DRAM_BASE

section Buffers

variable (L : Layout) {h : Host} {w n r : Nat}

/-- The two allocations of a shift. -/
theorem shiftBuffers_eq (hs : h.Sound) (hmono : h.MonoRoom (n + 2)) (hw : w < 128)
    (harena : h.arena.Room (r + 255 + 2 * w + 255 + 256)) (i : Nat) (f : Nat → Nat) :
    ∃ select h₁ tmp h₂, MonomorphizeOn i w (Host.allocTable f) h = some (select, h₁) ∧
      MonomorphizeOn (i + 1) w (Host.alloc (2 * w) 256) h₁ = some (tmp, h₂) ∧ h₂.ctx = h.ctx ∧
      ShiftBuffers h h₂ w f select tmp n r := by
  obtain ⟨select, h₁, htable, hselect_eq, hselect, hlo₁, hhi₁, harena₁, hend₁, hctx₁, hs₁, hmono₁,
    hentry⟩ :=
    MonomorphizeOn_table (n := n + 1) hs hmono harena i (show w < 256 by omega) f
  have harena₁' : h₁.arena.Room (r + (2 ^ 8 - 1) + 2 * w) := by
    rwa [show 2 ^ 8 - 1 = 255 from rfl]
  obtain ⟨tmp, h₂, halloc, htmp_eq, htmp, hlo₂, hhi₂, harena₂, hend₂, hnext⟩ :=
    MonomorphizeOn_alloc (n := n) hs₁ hmono₁ harena₁' (Nat.le_refl 8) (i + 1) (show w < 256 by omega)
  rw [show 2 ^ 8 = 256 from rfl] at halloc htmp
  have hfits := harena₂.fits
  have hlim := harena₂.in_dram
  have habove := harena.above
  rw [show 2 ^ 8 = 256 from rfl, Arena.next, hhi₁] at htmp_eq
  refine ⟨select, h₁, tmp, h₂, htable, halloc, hnext.ctx.trans hctx₁, hselect_eq, by omega, hselect,
    htmp, hlo₁, by omega, by omega, by omega, fun k hk => ?_, hnext.sound, hnext.room, harena₂⟩
  rw [hnext.frame _ (by right; omega), hentry k hk]

/-- What `Sll` and `Srl` emit, and the buffers they get. -/
theorem logicalShift_eq (hs : h.Sound) (hmono : h.MonoRoom (n + 2)) (hw : 2 ≤ w) (hw' : w ≤ 127)
    (harena : h.arena.Room (r + 255 + 2 * w + 255 + 256)) (hroom : h.ctx.Room (w + 8))
    (i off row b first lo edge ret inp shf8 : Nat) (f : Nat → Nat)
    (shift : EmitCtx → Nat → Nat → Nat → Nat → Option EmitCtx)
    (hshift : ∀ ctx buf, shift ctx w buf inp shf8 = shift8 L row b first lo ctx w buf inp edge shf8)
    (hoff : off ≤ w) (hrow : row + 2 ^ 8 ≤ ARM_DRAM_END) (hb : b < 4) (hfirst : first < w)
    (hlo : lo ≤ 1) : ∃ select tmp h', logicalShift L i off f shift h w ret inp shf8 = some h' ∧
      ShiftBuffers h h' w f select tmp n r ∧
      h'.ctx = h.ctx.fill ((shiftPlace L h row w ret inp shf8 select tmp).logicalBlock
        (L.ZERO + BUS_DRAM_BASE) edge b
        (ShiftPlace.lookupDst (tmp + BUS_DRAM_BASE + off) first lo)) (w + 8) := by
  obtain ⟨select, h₁, tmp, h₂, htable, halloc, hctx, hbuf⟩ :=
    shiftBuffers_eq (n := n) (r := r) hs hmono (by omega) harena i f
  have hdram : ARM_DRAM_END = 536870912 := rfl
  have hbase : BUS_DRAM_BASE = 1073741824 := rfl
  have hzero : L.ZERO + 2 ^ 8 ≤ ARM_DRAM_END := L.in_dram ⟨L.ZERO, 2 ^ 8⟩ (by simp)
  have hselect := hbuf.select_le
  have htmp := hbuf.tmp_lt
  have hend := hbuf.in_dram
  have hbus₁ : bus select = some (select + BUS_DRAM_BASE) := bus_dram (by omega)
  have hbus₂ : bus tmp = some (tmp + BUS_DRAM_BASE) := bus_dram (by omega)
  have hbus₃ : bus L.ZERO = some (L.ZERO + BUS_DRAM_BASE) := bus_dram (by omega)
  have hbus₄ : bus row = some (row + BUS_DRAM_BASE) := bus_dram (by omega)
  have hoff' : bus_ tmp off = some (tmp + BUS_DRAM_BASE + off) := by
    rw [bus_off (by omega), Nat.add_right_comm]
  generalize hP : shiftPlace L h row w ret inp shf8 select tmp = P
  generalize hf : P.logicalBlock (L.ZERO + BUS_DRAM_BASE) edge b
    (ShiftPlace.lookupDst (tmp + BUS_DRAM_BASE + off) first lo) = g
  have hPw : P.w = w := by rw [← hP]; rfl
  have hPz : P.z = h.ctx.label := by rw [← hP]; rfl
  have hPret : P.ret = ret := by rw [← hP]; rfl
  have hPinp : P.inp = inp := by rw [← hP]; rfl
  have hPshf : P.shf8 = shf8 := by rw [← hP]; rfl
  have hPtmp : P.tmp = tmp + BUS_DRAM_BASE := by rw [← hP]; rfl
  have hzeros : Emit h₂.ctx (tmp + BUS_DRAM_BASE) (L.ZERO + BUS_DRAM_BASE) w =
      some (h.ctx.fill g 1) := by
    rw [hctx]
    refine Emit_fill hroom (k := 0) (f := g) (by omega) ?_
    rw [← hf, ← hPz, ← hPtmp, ← hPw]
    rfl
  have hbits : shift8 L row b first lo (h.ctx.fill g 1) w (tmp + BUS_DRAM_BASE + off) inp edge shf8 =
      some (h.ctx.fill g (w + 5)) := by
    have hbits : shift8 L row b first lo (h.ctx.fill g 1) P.w (tmp + BUS_DRAM_BASE + off) P.inp edge
        P.shf8 = some (h.ctx.fill g (P.w + 5)) := shift8_eq (by rw [hPw]; exact hroom) hPz (by omega)
      (by omega) hf.symm (by rw [← hP]; rfl) (by rw [hbus₄, ← hP]; rfl) hb (by omega) hlo
      (by omega)
    rwa [hPw, hPinp, hPshf] at hbits
  have htail : shiftBytes (h.ctx.fill g (w + 5)) w ret shf8 select tmp =
      some (h.ctx.fill g (w + 8)) := by
    have htail := @shiftBytes_eq _ g P _ hroom hPz (w + 5) rfl
      (fun i => by rw [← hf, ← hPw, P.logicalBlock_tail]) select tmp (by rw [hbus₁, ← hP]; rfl)
      (by rw [hbus₂, ← hP]; rfl)
    rwa [hPw, hPret, hPshf] at htail
  refine ⟨select, tmp, { h₂ with ctx := h.ctx.fill g (w + 8) }, ?_, ?_, by rw [hP, hf]⟩
  · rw [logicalShift, guard_bind (by omega), htable, some_bind]
    dsimp only
    rw [halloc, some_bind]
    dsimp only
    rw [hbus₂, some_bind, hbus₃, some_bind, hzeros, some_bind, hoff', some_bind, hshift, hbits,
      some_bind, htail]
    rfl
  · exact ⟨hbuf.select_eq, hbuf.tmp_eq, hbuf.select_aligned, hbuf.tmp_aligned, hbuf.free_le, hselect,
      htmp, hend, hbuf.entry,
      ⟨hbuf.sound.keysz, hbuf.sound.valsz, hbuf.sound.key, hbuf.sound.cell⟩,
      ⟨hbuf.monos.contexts, hbuf.monos.monos⟩, hbuf.arena⟩

/-- What `Sra` emits, and the buffers it gets. -/
theorem Sra_eq (hs : h.Sound) (hmono : h.MonoRoom (n + 2)) (hw : 2 ≤ w) (hw' : w ≤ 127)
    (harena : h.arena.Room (r + 255 + 2 * w + 255 + 256)) (hroom : h.ctx.Room (w + 10))
    {ret inp shf8 : Nat} (hinp : inp + w ≤ 2 ^ 32) :
    ∃ select tmp h', Sra L h w ret inp shf8 = some h' ∧
      ShiftBuffers h h' w (fun i => i / 8 % w) select tmp n r ∧
      h'.ctx = h.ctx.fill ((shiftPlace L h L.SRL_HYPER_SELECT w ret inp shf8 select tmp).arithmeticBlock
        (L.SEXT_WHICH + BUS_DRAM_BASE) (L.SEXT_BUFS + BUS_DRAM_BASE) (L.SRA_HI + BUS_DRAM_BASE))
        (w + 10) := by
  obtain ⟨select, h₁, tmp, h₂, htable, halloc, hctx, hbuf⟩ :=
    shiftBuffers_eq (n := n) (r := r) hs hmono (by omega) harena 4 (fun i => i / 8 % w)
  have hdram : ARM_DRAM_END = 536870912 := rfl
  have hbase : BUS_DRAM_BASE = 1073741824 := rfl
  have hwhich : L.SEXT_WHICH + 2 ^ 8 ≤ ARM_DRAM_END := L.in_dram ⟨L.SEXT_WHICH, 2 ^ 8⟩ (by simp)
  have hbufs : L.SEXT_BUFS + 2 ^ 5 ≤ ARM_DRAM_END := L.in_dram ⟨L.SEXT_BUFS, 2 ^ 5⟩ (by simp)
  have hselect := hbuf.select_le
  have htmp := hbuf.tmp_lt
  have hend := hbuf.in_dram
  have hbus₁ : bus select = some (select + BUS_DRAM_BASE) := bus_dram (by omega)
  have hbus₂ : bus tmp = some (tmp + BUS_DRAM_BASE) := bus_dram (by omega)
  have hbus₃ : bus L.SEXT_WHICH = some (L.SEXT_WHICH + BUS_DRAM_BASE) := bus_dram (by omega)
  have hbus₄ : bus L.SEXT_BUFS = some (L.SEXT_BUFS + BUS_DRAM_BASE) := bus_dram (by omega)
  have hoff : bus_ tmp w = some (tmp + BUS_DRAM_BASE + w) := by
    rw [bus_off (by omega), Nat.add_right_comm]
  have hedge : bus_add inp ((w : Int) - 1) = inp + (w - 1) := by
    rw [show (w : Int) - 1 = ((w - 1 : Nat) : Int) by omega]
    exact bus_add_nat (by omega)
  generalize hP : shiftPlace L h L.SRL_HYPER_SELECT w ret inp shf8 select tmp = P
  generalize hf : P.arithmeticBlock (L.SEXT_WHICH + BUS_DRAM_BASE) (L.SEXT_BUFS + BUS_DRAM_BASE)
    (L.SRA_HI + BUS_DRAM_BASE) = g
  have hPw : P.w = w := by rw [← hP]; rfl
  have hPz : P.z = h.ctx.label := by rw [← hP]; rfl
  have hPret : P.ret = ret := by rw [← hP]; rfl
  have hPinp : P.inp = inp := by rw [← hP]; rfl
  have hPshf : P.shf8 = shf8 := by rw [← hP]; rfl
  have hPtmp : P.tmp = tmp + BUS_DRAM_BASE := by rw [← hP]; rfl
  have hroom' : h.ctx.Room (P.w + 10) := by rw [hPw]; exact hroom
  have htop : Emit h.ctx (srcField P.z 1 0) (inp + (w - 1)) 1 = some (h.ctx.fill g 1) :=
    byte_eq (u := 0) hroom (by omega) hPz (by rw [← hf, ← hPinp, ← hPw]; rfl)
  have hsign : Emit (h.ctx.fill g 1) (srcField P.z 2 0) (L.SEXT_WHICH + BUS_DRAM_BASE) 1 =
      some (h.ctx.fill g 2) := byte_eq hroom (by omega) hPz (by rw [← hf]; rfl)
  have hsext : EmitWith (h.ctx.fill g 2) TI_DST_INC (tmp + BUS_DRAM_BASE + w)
      (L.SEXT_BUFS + BUS_DRAM_BASE) w = some (h.ctx.fill g 3) := by
    refine EmitWith_fill hroom (by omega) ?_
    rw [← hf, ← hPz, ← hPtmp, ← hPw]
    rfl
  have hbits : Sra8 L (h.ctx.fill g 3) w (tmp + BUS_DRAM_BASE) inp shf8 =
      some (h.ctx.fill g (w + 7)) := by
    have hbits := Sra8_eq (L := L) (P := P) (f := g) hroom' hPz (by omega) (by omega) hf.symm
      (by rw [← hP]; rfl) (by rw [← hP]; rfl) rfl (by omega) (by omega)
    rwa [hPw, hPinp, hPshf, hPtmp] at hbits
  have htail : shiftBytes (h.ctx.fill g (w + 7)) w ret shf8 select tmp =
      some (h.ctx.fill g (w + 10)) := by
    have htail := @shiftBytes_eq _ g P _ hroom hPz (w + 7) rfl
      (fun i => by rw [← hf, ← hPw, P.arithmeticBlock_tail _ _ _ _ (by omega)]) select tmp
      (by rw [hbus₁, ← hP]; rfl) (by rw [hbus₂, ← hP]; rfl)
    rwa [hPw, hPret, hPshf] at htail
  have hlabel : Label h.ctx = some (h.ctx.label + 32 * 0) := hroom.label_fill (Nat.zero_le _) g
  refine ⟨select, tmp, { h₂ with ctx := h.ctx.fill g (w + 10) }, ?_, ?_, by rw [hP, hf]⟩
  · rw [Sra, guard_bind (by omega), htable, some_bind]
    dsimp only
    rw [halloc, some_bind]
    dsimp only
    rw [hctx, hlabel, some_bind, field_eq hroom hPz (k := 1) (by decide) (by norm_num) (by omega),
      some_bind, hedge, htop, some_bind,
      field_eq hroom hPz (k := 2) (by decide) (by norm_num) (by omega), some_bind, hbus₃, some_bind,
      hsign, some_bind, hoff, some_bind, hbus₄, some_bind, hsext, some_bind, hbus₂, some_bind, hbits,
      some_bind, htail]
    rfl
  · exact ⟨hbuf.select_eq, hbuf.tmp_eq, hbuf.select_aligned, hbuf.tmp_aligned, hbuf.free_le, hselect,
      htmp, hend, hbuf.entry,
      ⟨hbuf.sound.keysz, hbuf.sound.valsz, hbuf.sound.key, hbuf.sound.cell⟩,
      ⟨hbuf.monos.contexts, hbuf.monos.monos⟩, hbuf.arena⟩

end Buffers

end Bcm2835.Dma

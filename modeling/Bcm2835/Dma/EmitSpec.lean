import Bcm2835.Dma.Arith

/-!
# What the operations emit

A context with room for `n` blocks takes `n` emissions: `ctx.fill f n` is the
context behind blocks `f 0 … f (n-1)`. Each operation is shown to fill in blocks
that are given by their index, with the label it started from.
-/

namespace Bcm2835.Dma

/-! ## Addresses -/

theorem bus_dram {a : Nat} (h : a < ARM_DRAM_END) : bus a = some (a + BUS_DRAM_BASE) := by
  rw [bus, arm_to_bus, if_pos ⟨Nat.zero_le a, h⟩]
  rfl

theorem bus_add_nat {a d : Nat} (h : a + d < 2 ^ 32) : bus_add a d = a + d := advance_nat h

theorem bus_off {a d : Nat} (h : a + d < ARM_DRAM_END) : bus_ a d = some (a + d + BUS_DRAM_BASE) := by
  have hlt : a + d < 2 ^ 32 := Nat.lt_trans h (by decide)
  rw [bus_, advance_nat hlt]
  exact bus_dram h

/-- Byte `b` of the source address of block `k` behind the label `z`. -/
def srcField (z k b : Nat) : Nat := z + 32 * k + 4 + b

theorem bus_rel_fld_src {z k b : Nat} {j : Int} (hz : z % 32 = 0) (hb : b < 4) (k' : Nat)
    (hj : (k : Int) + j = k') (hlt : z + 32 * k' + 8 ≤ 2 ^ 32) :
    bus_rel_fld (z + 32 * k) j .FLD_SRC b = some (srcField z k' b) := by
  have halign : (z + 32 * k) % 32 = 0 := by omega
  have hsum : ((z + 32 * k : Nat) : Int) + (j * 32 + 4 + b) = ((z + 32 * k' + 4 + b : Nat) : Int) := by
    omega
  simp only [bus_rel_fld, guard, if_pos halign, if_pos hb]
  show some (bus_add (z + 32 * k) (j * 32 + 4 + b)) = some (z + 32 * k' + 4 + b)
  rw [bus_add, advance, hsum, Int.emod_eq_of_lt (by omega) (by omega), Int.toNat_natCast]

theorem bus_rel_cb_eq {z k : Nat} {j : Int} (k' : Nat) (hj : (k : Int) + j = k')
    (hlt : z + 32 * k' < 2 ^ 32) : bus_rel_cb (z + 32 * k) j = z + 32 * k' := by
  have hsum : ((z + 32 * k : Nat) : Int) + j * 32 = ((z + 32 * k' : Nat) : Int) := by omega
  rw [bus_rel_cb, bus_add, advance, hsum, Int.emod_eq_of_lt (by omega) (by omega),
    Int.toNat_natCast]

theorem u16_nat {n : Nat} (h : n < 2 ^ 16) : u16 n = n := by
  rw [u16, Int.emod_eq_of_lt (by omega) (by omega), Int.toNat_natCast]

/-! ## Guards and loops -/

theorem guard_bind {α : Type} {p : Prop} [Decidable p] (h : p) (k : Unit → Option α) :
    ((guard p : Option Unit) >>= k) = k () := by
  rw [guard, if_pos h]
  rfl

theorem some_bind {α β : Type} (a : α) (k : α → Option β) : (some a >>= k) = k a := rfl

theorem guard_some {α : Type} {p : Prop} [Decidable p] {k : Unit → Option α} {x : α}
    (h : (guard p >>= k) = some x) : p ∧ k () = some x := by
  by_cases hp : p
  · rw [guard_bind hp] at h
    exact ⟨hp, h⟩
  · rw [guard, if_neg hp] at h
    cases h

theorem bind_some {α β : Type} {x : Option α} {k : α → Option β} {y : β} (h : (x >>= k) = some y) :
    ∃ v, x = some v ∧ k v = some y := by
  cases x with
  | none => cases h
  | some v => exact ⟨v, rfl, h⟩

/-- A loop whose body takes the `i`-th state to the next. -/
theorem forLoop_eq {σ : Type} {b : Nat → σ → Option σ} {s : Nat → σ} {l n : Nat}
    (h : ∀ i < n, b (l + i) (s i) = some (s (i + 1))) :
    forLoop b l n (s 0) = some (s n) := by
  induction n generalizing l s with
  | zero => rfl
  | succ n ih =>
      have hhead : b l (s 0) = some (s 1) := h 0 (Nat.succ_pos n)
      rw [forLoop, hhead, some_bind]
      refine ih (s := fun i => s (i + 1)) fun i hi => ?_
      have hnext := h (i + 1) (Nat.succ_lt_succ hi)
      rwa [show l + (i + 1) = l + 1 + i by omega] at hnext

/-- A loop that returns: each of its turns has. -/
theorem forLoop_some {σ : Type} {b : Nat → σ → Option σ} {P : Nat → σ → Prop} {l n : Nat} {s s' : σ}
    (h0 : P 0 s) (hturn : ∀ i < n, ∀ t t', P i t → b (l + i) t = some t' → P (i + 1) t')
    (h : forLoop b l n s = some s') : P n s' := by
  induction n generalizing l s P with
  | zero => exact Option.some.inj h ▸ h0
  | succ n ih =>
      obtain ⟨s₁, hfirst, hrest⟩ := bind_some h
      have h1 : P 1 s₁ := hturn 0 (Nat.succ_pos n) s s₁ h0 hfirst
      refine ih (l := l + 1) (P := fun i => P (i + 1)) h1 (fun i hi t t' ht hbody => ?_) hrest
      refine hturn (i + 1) (Nat.succ_lt_succ hi) t t' ht ?_
      rwa [show l + (i + 1) = l + 1 + i by omega]

/-! ## Filling a context -/

namespace EmitCtx

/-- The context behind the blocks `f 0 … f (n-1)`. -/
def fill (ctx : EmitCtx) (f : Nat → Cblk) : Nat → EmitCtx
  | 0 => ctx
  | n + 1 => (ctx.fill f n).push (f n)

/-- Where the next block goes, as the engine sees it. -/
def label (ctx : EmitCtx) : Nat := ctx.p + BUS_DRAM_BASE

/-- A context with room for `n` more blocks, in memory the engine reaches. -/
structure Room (ctx : EmitCtx) (n : Nat) : Prop where
  aligned : ctx.p % 32 = 0
  base_aligned : ctx.base % 32 = 0
  base_le : ctx.base ≤ ctx.p
  used_le : ctx.used + n ≤ ctx.cap
  in_dram : ctx.p + 32 * n < ARM_DRAM_END

variable {ctx : EmitCtx} {f : Nat → Cblk} {k n : Nat}

@[simp] theorem fill_p (ctx : EmitCtx) (f : Nat → Cblk) (n : Nat) :
    (ctx.fill f n).p = ctx.p + 32 * n := by
  induction n with
  | zero => rfl
  | succ n ih =>
      show (ctx.fill f n).p + 32 = _
      rw [ih]
      omega

@[simp] theorem fill_base (ctx : EmitCtx) (f : Nat → Cblk) (n : Nat) :
    (ctx.fill f n).base = ctx.base := by
  induction n with
  | zero => rfl
  | succ n ih => exact ih

@[simp] theorem fill_cap (ctx : EmitCtx) (f : Nat → Cblk) (n : Nat) :
    (ctx.fill f n).cap = ctx.cap := by
  induction n with
  | zero => rfl
  | succ n ih => exact ih

/-- The blocks are where they were put. -/
theorem fill_blk (ctx : EmitCtx) (f : Nat → Cblk) (hk : k < n) :
    (ctx.fill f n).blk (ctx.p + 32 * k) = f k := by
  induction n with
  | zero => omega
  | succ n ih =>
      show Function.update (ctx.fill f n).blk (ctx.fill f n).p (f n) _ = _
      rw [fill_p]
      rcases Nat.lt_succ_iff_lt_or_eq.mp hk with hlt | rfl
      · rw [Function.update_of_ne (by omega), ih hlt]
      · rw [Function.update_self]

theorem Room.used_fill (h : ctx.Room n) (f : Nat → Cblk) (k : Nat) :
    (ctx.fill f k).used = ctx.used + k := by
  have := h.base_le
  simp only [used, fill_p, fill_base]
  omega

theorem Room.used_lt (h : ctx.Room n) (hk : k < n) (f : Nat → Cblk) :
    (ctx.fill f k).used < (ctx.fill f k).cap := by
  have := h.used_le
  rw [h.used_fill, fill_cap]
  omega

theorem Room.label_fill (h : ctx.Room n) (hk : k ≤ n) (f : Nat → Cblk) :
    Label (ctx.fill f k) = some (ctx.label + 32 * k) := by
  have := h.in_dram
  rw [Label, fill_p, bus_dram (by omega), label]
  congr 1
  omega

theorem Room.next_fill (h : ctx.Room n) (hk : k < n) (f : Nat → Cblk) :
    bus ((ctx.fill f k).p + 32) = some (ctx.label + 32 * (k + 1)) := by
  have := h.in_dram
  rw [fill_p, bus_dram (by omega), label]
  congr 1
  omega

theorem Room.label_aligned (h : ctx.Room n) : ctx.label % 32 = 0 := by
  have := h.aligned
  simp only [label, BUS_DRAM_BASE]
  omega

theorem Room.label_lt (h : ctx.Room n) : ctx.label + 32 * n < 0x60000000 := by
  have := h.in_dram
  simp only [label, BUS_DRAM_BASE, ARM_DRAM_END] at *
  omega

theorem Room.mono (h : ctx.Room n) (hk : k ≤ n) : ctx.Room k where
  aligned := h.aligned
  base_aligned := h.base_aligned
  base_le := h.base_le
  used_le := Nat.le_trans (Nat.add_le_add_left hk _) h.used_le
  in_dram := by
    have hdram := h.in_dram
    omega

theorem Room.fill (h : ctx.Room (k + n)) (f : Nat → Cblk) : (ctx.fill f k).Room n where
  aligned := by
    have := h.aligned
    rw [fill_p]
    omega
  base_aligned := by
    rw [fill_base]
    exact h.base_aligned
  base_le := by
    have := h.base_le
    rw [fill_p, fill_base]
    omega
  used_le := by
    have := h.used_le
    rw [h.used_fill, fill_cap]
    omega
  in_dram := by
    have := h.in_dram
    rw [fill_p]
    omega

end EmitCtx

open EmitCtx

/-- Block `k` behind the label `z`, as `Emit` writes it. -/
def linear (z k flags dst src len : Nat) : Cblk := ⟨flags, src, dst, len, 0, z + 32 * (k + 1)⟩

/-- Block `k` behind the label `z`, as `EmitStridedWith` writes it. -/
def strided (z k flags dst src rows cols : Nat) (dst_stride src_stride : Int) : Cblk :=
  ⟨flags, src, dst, (rows - 1) * 2 ^ 16 + cols, stride (u16 dst_stride) (u16 src_stride),
    z + 32 * (k + 1)⟩

def INC : Nat := TI_DST_INC ||| TI_SRC_INC
def INC2D : Nat := TI_DST_INC ||| TI_SRC_INC ||| TI_2DMODE
def NOINC2D : Nat := TI_DST_INC ||| TI_2DMODE

variable {ctx ctx' : EmitCtx} {f : Nat → Cblk} {k n : Nat}

theorem EmitWith_push (h : ctx.Room n) (hk : k < n) (f : Nat → Cblk) (flags dst src len : Nat) :
    EmitWith (ctx.fill f k) flags dst src len =
      some ((ctx.fill f k).push (linear ctx.label k flags dst src len)) := by
  rw [EmitWith, guard_bind (h.used_lt hk f), h.next_fill hk f, some_bind]
  rfl

theorem EmitWith_fill (h : ctx.Room n) (hk : k < n) {flags dst src len : Nat}
    (hf : f k = linear ctx.label k flags dst src len) :
    EmitWith (ctx.fill f k) flags dst src len = some (ctx.fill f (k + 1)) := by
  rw [EmitWith_push h hk f, ← hf]
  rfl

theorem Emit_push (h : ctx.Room n) (hk : k < n) (f : Nat → Cblk) (dst src len : Nat) :
    Emit (ctx.fill f k) dst src len =
      some ((ctx.fill f k).push (linear ctx.label k INC dst src len)) := EmitWith_push h hk f ..

theorem Emit_fill (h : ctx.Room n) (hk : k < n) {dst src len : Nat}
    (hf : f k = linear ctx.label k INC dst src len) :
    Emit (ctx.fill f k) dst src len = some (ctx.fill f (k + 1)) := EmitWith_fill h hk hf

theorem length_eq {r c : Nat} (hrows : 1 ≤ r) (hrows' : r ≤ 0x4000)
    (hcols : c < 2 ^ 16) :
    length (u16 (u16 r - 1)) (u16 c) = some ((r - 1) * 2 ^ 16 + c) := by
  have hu : u16 ((u16 r : Nat) - 1) = r - 1 := by
    rw [u16_nat (by omega), show (r : Int) - 1 = ((r - 1 : Nat) : Int) by omega,
      u16_nat (by omega)]
  rw [hu, u16_nat hcols, length, guard_bind (by omega), ← Nat.shiftLeft_add_eq_or_of_lt hcols,
    Nat.shiftLeft_eq]
  rfl

theorem EmitStridedWith_push (h : ctx.Room n) (hk : k < n) (f : Nat → Cblk)
    {flags dst src r c : Nat} {ds ss : Int} (hflags : flags &&& TI_2DMODE ≠ 0)
    (hrows : 1 ≤ r) (hrows' : r ≤ 0x4000) (hcols : c < 2 ^ 16) :
    EmitStridedWith (ctx.fill f k) flags dst src r c ds ss =
      some ((ctx.fill f k).push (strided ctx.label k flags dst src r c ds ss)) := by
  rw [EmitStridedWith, guard_bind (h.used_lt hk f), guard_bind hflags,
    length_eq hrows hrows' hcols, some_bind, h.next_fill hk f, some_bind]
  rfl

theorem EmitStridedWith_fill (h : ctx.Room n) (hk : k < n) {flags dst src r c : Nat}
    {ds ss : Int} (hflags : flags &&& TI_2DMODE ≠ 0) (hrows : 1 ≤ r) (hrows' : r ≤ 0x4000)
    (hcols : c < 2 ^ 16) (hf : f k = strided ctx.label k flags dst src r c ds ss) :
    EmitStridedWith (ctx.fill f k) flags dst src r c ds ss = some (ctx.fill f (k + 1)) := by
  rw [EmitStridedWith_push h hk f hflags hrows hrows' hcols, ← hf]
  rfl

theorem EmitStrided_push (h : ctx.Room n) (hk : k < n) (f : Nat → Cblk)
    {dst src r c : Nat} {ds ss : Int} (hrows : 1 ≤ r) (hrows' : r ≤ 0x4000)
    (hcols : c < 2 ^ 16) : EmitStrided (ctx.fill f k) dst src r c ds ss =
      some ((ctx.fill f k).push (strided ctx.label k INC2D dst src r c ds ss)) :=
  EmitStridedWith_push h hk f (by decide) hrows hrows' hcols

theorem EmitStrided_fill (h : ctx.Room n) (hk : k < n) {dst src r c : Nat}
    {ds ss : Int} (hrows : 1 ≤ r) (hrows' : r ≤ 0x4000)
    (hcols : c < 2 ^ 16) (hf : f k = strided ctx.label k INC2D dst src r c ds ss) :
    EmitStrided (ctx.fill f k) dst src r c ds ss = some (ctx.fill f (k + 1)) :=
  EmitStridedWith_fill h hk (by decide) hrows hrows' hcols hf

/-! ## Emissions that return -/

theorem EmitWith_some {flags dst src len : Nat} (h : EmitWith ctx flags dst src len = some ctx') :
    ∃ next, ctx' = ctx.push ⟨flags, src, dst, len, 0, next⟩ ∧ bus (ctx.p + 32) = some next ∧
      ctx.used < ctx.cap := by
  obtain ⟨hcap, h⟩ := guard_some h
  obtain ⟨next, hnext, h⟩ := bind_some h
  exact ⟨next, (Option.some.inj h).symm, hnext, hcap⟩

theorem EmitStridedWith_some {flags dst src : Nat} {rows cols dst_stride src_stride : Int}
    (h : EmitStridedWith ctx flags dst src rows cols dst_stride src_stride = some ctx') :
    ∃ len next, ctx' = ctx.push
        ⟨flags, src, dst, len, stride (u16 dst_stride) (u16 src_stride), next⟩ ∧
      u16 (u16 rows - 1) < 0x4000 ∧ len = u16 (u16 rows - 1) * 2 ^ 16 + u16 cols ∧
      bus (ctx.p + 32) = some next ∧ ctx.used < ctx.cap := by
  obtain ⟨hcap, h⟩ := guard_some h
  obtain ⟨-, h⟩ := guard_some h
  obtain ⟨len, hlen, h⟩ := bind_some h
  obtain ⟨next, hnext, h⟩ := bind_some h
  obtain ⟨hrows, hlen⟩ := guard_some hlen
  have hcols : u16 cols < 2 ^ 16 := by
    rw [u16]
    omega
  refine ⟨len, next, (Option.some.inj h).symm, hrows, ?_, hnext, hcap⟩
  rw [← Nat.shiftLeft_eq, Nat.shiftLeft_add_eq_or_of_lt hcols]
  exact (Option.some.inj hlen).symm

theorem Branch_some {label : Nat} (h : Branch ctx label = some ctx') :
    ctx.base < ctx.p ∧ ctx' = { ctx with
      blk := Function.update ctx.blk (ctx.p - 32) { ctx.blk (ctx.p - 32) with next_cb := label } } := by
  obtain ⟨hbase, h⟩ := guard_some h
  exact ⟨hbase, (Option.some.inj h).symm⟩

/-! ## Row counts

The row count is a `uint16_t`: a width is rejected by its remainder modulo 2^16 only. -/

/-- The remainders that are accepted. -/
def Fits14 (width : Nat) : Prop := 1 ≤ width % 0x10000 ∧ width % 0x10000 ≤ 0x4000

instance (width : Nat) : Decidable (Fits14 width) := inferInstanceAs (Decidable (_ ∧ _))

theorem u16_eq_mod (n : Nat) : u16 n = n % 0x10000 := by
  rw [u16]
  omega

/-- The row count of a width that is rejected. -/
theorem length_none {width : Nat} (h : ¬ Fits14 width) (cols : Nat) :
    length (u16 ((u16 width : Nat) - 1)) cols = none := by
  have hrows : ¬ u16 ((u16 width : Nat) - 1) < 0x4000 := by
    rw [u16_eq_mod, u16]
    rw [Fits14] at h
    omega
  rw [length, guard, if_neg hrows]
  rfl

theorem length_some {width : Nat} (h : Fits14 width) :
    length (u16 ((u16 width : Nat) - 1)) (u16 1) = some ((width % 0x10000 - 1) * 2 ^ 16 + 1) := by
  have hmod : u16 ((width % 0x10000 : Nat) : Int) = u16 width := by
    rw [u16_eq_mod, u16_eq_mod, Nat.mod_mod]
  have hlen := length_eq (c := 1) h.1 h.2 (by decide)
  rwa [hmod] at hlen

theorem EmitStrided_none {ctx : EmitCtx} {width : Nat} (h : ¬ Fits14 width) (dst src : Nat)
    (ds : Int) : EmitStrided ctx dst src width 1 ds 0 = none := by
  have hnone := length_none h (u16 1)
  rw [EmitStrided, EmitStridedWith]
  rcases Decidable.em (ctx.used < ctx.cap) with hcap | hcap
  · rw [guard_bind hcap, guard_bind (by decide), hnone]
    rfl
  · rw [guard, if_neg hcap]
    rfl

/-- The gather of a width that is accepted has as many rows as the remainder. -/
theorem EmitStrided_wide (h : ctx.Room n) (hk : k < n) {dst src width : Nat} {ds : Int}
    (hw : Fits14 width) (hf : f k = strided ctx.label k INC2D dst src (width % 0x10000) 1 ds 0) :
    EmitStrided (ctx.fill f k) dst src width 1 ds 0 = some (ctx.fill f (k + 1)) := by
  have hlen := length_some hw
  rw [EmitStrided, EmitStridedWith, guard_bind (h.used_lt hk f), guard_bind (by decide), hlen,
    some_bind, h.next_fill hk f, some_bind]
  show some ((ctx.fill f k).push _) = some ((ctx.fill f k).push (f k))
  rw [hf]
  rfl

/-- A block that branches elsewhere right after it was emitted. -/
theorem Branch_fill (h : ctx.Room n) {c : Cblk} {label : Nat}
    (hf : f k = { c with next_cb := label }) :
    Branch ((ctx.fill f k).push c) label = some (ctx.fill f (k + 1)) := by
  have hbase := h.base_le
  have hguard : ((ctx.fill f k).push c).base < ((ctx.fill f k).push c).p := by
    show (ctx.fill f k).base < (ctx.fill f k).p + 32
    rw [fill_base, fill_p]
    omega
  have hlast : ((ctx.fill f k).push c).p - 32 = (ctx.fill f k).p := Nat.add_sub_cancel ..
  have hblk : ((ctx.fill f k).push c).blk (ctx.fill f k).p = c := Function.update_self ..
  rw [Branch, guard_bind hguard, hlast, hblk, ← hf]
  show some _ = some ((ctx.fill f k).push (f k))
  rw [push, push, Function.update_idem]

end Bcm2835.Dma

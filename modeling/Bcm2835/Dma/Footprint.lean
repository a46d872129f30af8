import Bcm2835.Dma.TablesSpec
import Bcm2835.Dma.Runs
import Bcm2835.Dma.Flow

/-!
# What the operations emit stores to

`Footprint start n out k ctx` follows an emission: the `k` blocks from `start` on store
to `out` and to source addresses of the `n` blocks the call will have emitted, and go on
among these. One rule for each kind of emission, then one lemma for each operation. They
are about calls that return, at any width, behind any blocks of the same call.
-/

namespace Bcm2835.Dma

open Mem EmitCtx

/-- `k` of the `n` blocks have been emitted. -/
structure Footprint (start : EmitCtx) (n : Nat) (out : Nat → Prop) (k : Nat) (ctx : EmitCtx) : Prop where
  p_eq : ctx.p = start.p + 32 * k
  next : ∀ l < k, ∃ i, (i = l + 1 ∨ i < n) ∧
    (ctx.blk (start.p + 32 * l)).next_cb = start.label + 32 * i
  stores : ∀ l < k, ∀ a, (ctx.blk (start.p + 32 * l)).Stores a → Allowed start.label n out a

namespace Footprint

variable {start ctx ctx' : EmitCtx} {out : Nat → Prop} {n k : Nat}

theorem empty (start : EmitCtx) (n : Nat) (out : Nat → Prop) : Footprint start n out 0 start where
  p_eq := rfl
  next l hl := absurd hl (Nat.not_lt_zero l)
  stores l hl := absurd hl (Nat.not_lt_zero l)

section Rules

variable (hroom : start.Room n) (h : Footprint start n out k ctx)

include hroom h

theorem label {d : Nat} (hk : k ≤ n) (hd : Label ctx = some d) : d = start.label + 32 * k := by
  have hdram := hroom.in_dram
  have hlabel : Label ctx = some (start.label + 32 * k) := by
    rw [Label, h.p_eq, bus_dram (by omega), EmitCtx.label]
    congr 1
    omega
  rw [hlabel] at hd
  exact (Option.some.inj hd).symm

/-! ## One block -/

theorem push (hk : k < n) {cb : Cblk} (hnext : bus (ctx.p + 32) = some cb.next_cb)
    (hstores : ∀ a, cb.Stores a → Allowed start.label n out a) :
    Footprint start n out (k + 1) (ctx.push cb) := by
  have hp := h.p_eq
  have hdram := hroom.in_dram
  have hold : ∀ l < k, (ctx.push cb).blk (start.p + 32 * l) = ctx.blk (start.p + 32 * l) := by
    intro l hl
    exact Function.update_of_ne (by omega) _ _
  have hnew : (ctx.push cb).blk (start.p + 32 * k) = cb := by
    rw [← hp]
    exact Function.update_self ..
  rw [bus_dram (by omega)] at hnext
  refine ⟨?_, fun l hl => ?_, fun l hl => ?_⟩
  · show ctx.p + 32 = _
    omega
  · rcases Nat.lt_succ_iff_lt_or_eq.mp hl with hlt | rfl
    · rw [hold l hlt]
      exact h.next l hlt
    · refine ⟨l + 1, .inl rfl, ?_⟩
      have hcb := Option.some.inj hnext
      rw [hnew, EmitCtx.label]
      omega
  · rcases Nat.lt_succ_iff_lt_or_eq.mp hl with hlt | rfl
    · rw [hold l hlt]
      exact h.stores l hlt
    · rw [hnew]
      exact hstores

/-- Bytes in a row. -/
theorem emitWith (hk : k < n) {flags dst src len : Nat} (hinc : flags.testBit 4 = true)
    (hflat : flags.testBit 1 = false) (hfits : dst + len ≤ 2 ^ 32)
    (hdst : ∀ i < len, Allowed start.label n out (dst + i))
    (hem : EmitWith ctx flags dst src len = some ctx') : Footprint start n out (k + 1) ctx' := by
  obtain ⟨next, rfl, hnext, -⟩ := EmitWith_some hem
  refine h.push hroom hk hnext fun a ha => ?_
  obtain ⟨i, hi, rfl⟩ := ha.linear hinc hflat hfits
  exact hdst i hi

/-- Bytes in a row that go to `out`. -/
theorem emit (hk : k < n) {dst src len : Nat} (hfits : dst + len ≤ 2 ^ 32)
    (hdst : ∀ i < len, out (dst + i)) (hem : Emit ctx dst src len = some ctx') :
    Footprint start n out (k + 1) ctx' :=
  h.emitWith hroom hk testBit_INC.2.1 testBit_INC.1 hfits (fun i hi => .inl (hdst i hi)) hem

/-- A byte of a source address. -/
theorem patch (hk : k < n) {i b src : Nat} (hi : i < n) (hb : b < 4)
    (hem : Emit ctx (srcField start.label i b) src 1 = some ctx') :
    Footprint start n out (k + 1) ctx' := by
  have hlt := hroom.label_lt
  have hfield : srcField start.label i b = start.label + 32 * i + 4 + b := rfl
  refine h.emitWith hroom hk testBit_INC.2.1 testBit_INC.1 (by omega) (fun j hj => .inr ?_) hem
  obtain rfl : j = 0 := by omega
  exact ⟨i, hi, b, hb, rfl⟩

/-- Rows of bytes of the source addresses `D` blocks apart. -/
theorem fields (hk : k < n) {flags i D b src : Nat} {rows cols ds ss : Int}
    (hflags : flags = INC2D ∨ flags = NOINC2D)
    (hcols : (u16 cols : Int) + signed16 (stride (u16 ds) (u16 ss) / 2 ^ 16) = 32 * D)
    (hb : b + u16 cols ≤ 4) (hrows : 0 ≤ rows) (hin : ∀ r : Nat, (r : Int) < rows → i + D * r < n)
    (hem : EmitStridedWith ctx flags (srcField start.label i b) src rows cols ds ss = some ctx') :
    Footprint start n out (k + 1) ctx' := by
  have hlt := hroom.label_lt
  obtain ⟨len, next, rfl, hmax, hlen, hnext, -⟩ := EmitStridedWith_some hem
  have hinc : flags.testBit 4 = true ∧ flags.testBit 1 = true := by
    rcases hflags with rfl | rfl
    · exact ⟨testBit_INC2D.2.1, testBit_INC2D.1⟩
    · exact ⟨testBit_NOINC2D.2.1, testBit_NOINC2D.1⟩
  refine h.push hroom hk hnext fun a ha => ?_
  generalize hcb : Cblk.mk flags src (srcField start.label i b) len (stride (u16 ds) (u16 ss)) next = cb at ha
  have hti : cb.ti = flags := by rw [← hcb]
  have hdst : cb.dst_addr = srcField start.label i b := by rw [← hcb]
  have hstride : cb.stride = stride (u16 ds) (u16 ss) := by rw [← hcb]
  have htxfr : cb.txfr_len = (u16 (u16 rows - 1) + 1 - 1) * 2 ^ 16 + u16 cols := by
    rw [← hcb, Nat.add_sub_cancel]
    exact hlen
  rw [← hti] at hinc
  have hcols16 : u16 cols < 2 ^ 16 := by
    rw [u16]
    omega
  obtain ⟨hR, hC⟩ := shape_2d hinc.2 (Nat.le_add_left 1 _) hcols16 htxfr
  obtain ⟨r, hr, c, hc, haddr⟩ := ha.row hinc.1
  rw [hR] at hr
  rw [hC] at hc
  rw [hC, hdst, hstride] at haddr
  -- the row count is one less than the rows that were asked for, at most
  have hrow : (r : Int) < rows := by
    rw [u16, u16] at hr hmax
    omega
  have hblock := hin r hrow
  have hoff : (r : Int) * ((u16 cols : Int) + signed16 (stride (u16 ds) (u16 ss) / 2 ^ 16)) + (c : Int) =
      ((32 * (D * r) + c : Nat) : Int) := by
    rw [hcols]
    push_cast
    ring
  have hfield : srcField start.label i b = start.label + 32 * i + 4 + b := rfl
  refine .inr ⟨i + D * r, hblock, b + c, by omega, ?_⟩
  rw [haddr, hoff, advance_nat (by omega), hfield, srcField]
  omega

omit h in
/-- The address of a source field, `j` blocks on. -/
theorem field (i : Nat) {b d : Nat} {j : Int} (hb : b < 4) (hi : (k : Int) + j = i) (hin : i < n)
    (hd : bus_rel_fld (start.label + 32 * k) j .FLD_SRC b = some d) : d = srcField start.label i b := by
  have hlt := hroom.label_lt
  rw [bus_rel_fld_src hroom.label_aligned hb i hi (by omega)] at hd
  exact (Option.some.inj hd).symm

end Rules

/-- The last block goes on elsewhere among the blocks. -/
theorem branch (h : Footprint start n out (k + 1) ctx) {i label : Nat} (hi : i < n)
    (hlabel : label = start.label + 32 * i) (hem : Branch ctx label = some ctx') :
    Footprint start n out (k + 1) ctx' := by
  obtain ⟨-, rfl⟩ := Branch_some hem
  have hp := h.p_eq
  have hlast : ctx.p - 32 = start.p + 32 * k := by omega
  refine ⟨hp, fun l hl => ?_, fun l hl => ?_⟩
  · show ∃ i, _ ∧ (Function.update ctx.blk (ctx.p - 32) _ _).next_cb = _
    rcases Nat.lt_succ_iff_lt_or_eq.mp hl with hlt | rfl
    · rw [Function.update_of_ne (by omega)]
      exact h.next l hl
    · rw [hlast, Function.update_self]
      exact ⟨i, .inr hi, hlabel⟩
  · show ∀ a, (Function.update ctx.blk (ctx.p - 32) _ _).Stores a → _
    rcases Nat.lt_succ_iff_lt_or_eq.mp hl with hlt | rfl
    · rw [Function.update_of_ne (by omega)]
      exact h.stores l hl
    · rw [hlast, Function.update_self]
      exact h.stores l hl

end Footprint

/-! ## The operations -/

section Operations

variable {L : Layout} {start ctx ctx' : EmitCtx} {out : Nat → Prop} {n k w ret inp lhs rhs flags : Nat}
  (hroom : start.Room n) (h : Footprint start n out k ctx)

include hroom h

theorem Inc_footprint (hn : k + 2 * w ≤ n) (hfits : ret + w ≤ 2 ^ 32) (hout : ∀ i < w, out (ret + i))
    (hem : Inc L ctx w ret inp = some ctx') : Footprint start n out (k + 2 * w) ctx' := by
  obtain ⟨hw, hem⟩ := guard_some hem
  obtain ⟨d0, hd0, hem⟩ := bind_some hem
  obtain ⟨dst, hdst, hem⟩ := bind_some hem
  obtain ⟨ctx₁, hgather, hturns⟩ := bind_some hem
  obtain rfl := h.label hroom (by omega) hd0
  obtain rfl := Footprint.field hroom (k + 1) (by decide) (by push_cast; rfl) (by omega) hdst
  have h₁ : Footprint start n out (k + 1) ctx₁ :=
    h.fields hroom (D := 2) (by omega) (.inl rfl) (by decide) (by decide) (Int.natCast_nonneg w)
      (fun r hr => by omega) hgather
  -- the last turn has no patch
  have hloop := forLoop_some (P := fun i => Footprint start n out (min (k + 1 + 2 * i) (k + 2 * w)))
    (by rwa [Nat.min_eq_left (by omega)]) ?_ hturns
  · rwa [Nat.min_eq_right (by omega)] at hloop
  intro i hi ctx ctx' hctx hbody
  rw [Nat.min_eq_left (by omega)] at hctx
  obtain ⟨d1, hd1, hbody⟩ := bind_some hbody
  obtain ⟨src, -, hbody⟩ := bind_some hbody
  obtain ⟨ctx₂, hlookup, hnext⟩ := bind_some hbody
  obtain rfl := hctx.label hroom (by omega) hd1
  rw [Nat.zero_add, bus_add_nat (by omega)] at hlookup
  have h₂ : Footprint start n out (k + 1 + 2 * i + 1) ctx₂ := by
    refine hctx.emit hroom (by omega) ?_ (fun j hj => ?_) hlookup
    · split <;> omega
    · rw [Nat.add_assoc]
      refine hout (i + j) ?_
      split at hj <;> omega
  rw [Nat.zero_add] at hnext
  by_cases hlt : i < w - 1
  · rw [if_pos hlt] at hnext
    obtain ⟨fld, hfld, hpatch⟩ := bind_some hnext
    obtain rfl := Footprint.field hroom (k + 1 + 2 * i + 2) (by decide) (by push_cast; rfl) (by omega) hfld
    rw [Nat.min_eq_left (by omega)]
    exact h₂.patch hroom (k := k + 1 + 2 * i + 1) (by omega) (by omega) (by decide) hpatch
  · rw [if_neg hlt] at hnext
    obtain rfl := Option.some.inj hnext
    rw [Nat.min_eq_right (by omega), show k + 2 * w = k + 1 + 2 * i + 1 by omega]
    exact h₂

/-- Both gathers of an operation on two operands. -/
theorem gathers_footprint {ctx₁ ctx₂ : EmitCtx} {D : Nat} {ds : Int}
    (hD : (u16 1 : Int) + signed16 (stride (u16 ds) (u16 0) / 2 ^ 16) = 32 * D) (hn : k + 1 < n)
    (hin : ∀ r : Nat, (r : Int) < w → k + 2 + D * r < n)
    (hem₁ : EmitStrided ctx (srcField start.label (k + 2) 1) lhs w 1 ds 0 = some ctx₁)
    (hem₂ : EmitStrided ctx₁ (srcField start.label (k + 2) 2) rhs w 1 ds 0 = some ctx₂) :
    Footprint start n out (k + 2) ctx₂ := by
  have hw : (0 : Int) ≤ w := Int.natCast_nonneg w
  have h₁ := h.fields hroom (Nat.lt_of_succ_lt hn) (.inl rfl) hD (by decide) hw hin hem₁
  exact h₁.fields hroom hn (.inl rfl) hD (by decide) hw hin hem₂

/-- `Add` and `Sub`. The first lookup stores two bytes at any width. -/
theorem ripple_footprint {row : Nat} (hn : k + (2 * w + 1) ≤ n) (hfits : ret + max w 2 ≤ 2 ^ 32)
    (hout : ∀ i < max w 2, out (ret + i)) (hem : ripple L row ctx w ret lhs rhs = some ctx') :
    Footprint start n out (k + (2 * w + 1)) ctx' := by
  obtain ⟨hw, hem⟩ := guard_some hem
  obtain ⟨d0, hd0, hem⟩ := bind_some hem
  obtain ⟨dst₁, hdst₁, hem⟩ := bind_some hem
  obtain ⟨ctx₁, hgather₁, hem⟩ := bind_some hem
  obtain ⟨dst₂, hdst₂, hem⟩ := bind_some hem
  obtain ⟨ctx₂, hgather₂, hem⟩ := bind_some hem
  obtain ⟨src, -, hem⟩ := bind_some hem
  obtain ⟨ctx₃, hfirst, hturns⟩ := bind_some hem
  obtain rfl := h.label hroom (by omega) hd0
  obtain rfl := Footprint.field hroom (k + 2) (by decide) (by push_cast; rfl) (by omega) hdst₁
  obtain rfl := Footprint.field hroom (k + 2) (by decide) (by push_cast; rfl) (by omega) hdst₂
  have h₂ : Footprint start n out (k + 2) ctx₂ :=
    gathers_footprint hroom h (D := 2) (by decide) (by omega) (fun r hr => by omega) hgather₁ hgather₂
  rw [show bus_add ret 0 = ret from bus_add_nat (d := 0) (by omega)] at hfirst
  have h₃ : Footprint start n out (k + 3) ctx₃ :=
    h₂.emit hroom (by omega) (by omega) (fun i hi => hout i (by omega)) hfirst
  have hloop := forLoop_some (P := fun i => Footprint start n out (k + 3 + 2 * i)) h₃ ?_ hturns
  · rwa [show k + 3 + 2 * (w - 1) = k + (2 * w + 1) by omega] at hloop
  intro i hi ctx ctx' hctx hbody
  obtain ⟨d1, hd1, hbody⟩ := bind_some hbody
  obtain ⟨fld, hfld, hbody⟩ := bind_some hbody
  obtain ⟨ctx₄, hpatch, hbody⟩ := bind_some hbody
  obtain ⟨src, -, hlookup⟩ := bind_some hbody
  obtain rfl := hctx.label hroom (by omega) hd1
  obtain rfl := Footprint.field hroom (k + 3 + 2 * i + 1) (by decide) (by push_cast; rfl) (by omega) hfld
  have h₄ := hctx.patch hroom (by omega) (by omega) (by decide) hpatch
  rw [bus_add_nat (by omega)] at hlookup
  refine h₄.emit hroom (k := k + 3 + 2 * i + 1) (by omega) ?_ (fun j hj => ?_) hlookup
  · split <;> omega
  · rw [Nat.add_assoc]
    refine hout (1 + i + j) ?_
    split at hj <;> omega

/-- A loop of lookups, one for each byte of `buf` from `lo` on. -/
theorem lookups_footprint {src : Option Nat} {buf lo len : Nat} (hn : k + len ≤ n)
    (hfits : buf + (lo + len) ≤ 2 ^ 32) (hout : ∀ i < len, out (buf + (lo + i)))
    (hem : forLoop (fun i ctx => do Emit ctx (bus_add buf i) (← src) 1) lo len ctx = some ctx') :
    Footprint start n out (k + len) ctx' := by
  refine forLoop_some (P := fun i => Footprint start n out (k + i)) h (fun i hi ctx ctx' hctx hbody => ?_) hem
  obtain ⟨src, -, hlookup⟩ := bind_some hbody
  rw [bus_add_nat (by omega)] at hlookup
  refine hctx.emit hroom (k := k + i) (by omega) (by omega) (fun j hj => ?_) hlookup
  obtain rfl : j = 0 := by omega
  exact hout i hi

theorem Not_footprint (hn : k + (w + 1) ≤ n) (hfits : ret + w ≤ 2 ^ 32) (hout : ∀ i < w, out (ret + i))
    (hem : Not L ctx w ret inp = some ctx') : Footprint start n out (k + (w + 1)) ctx' := by
  obtain ⟨hw, hem⟩ := guard_some hem
  obtain ⟨hw', hem⟩ := guard_some hem
  obtain ⟨d0, hd0, hem⟩ := bind_some hem
  obtain ⟨dst, hdst, hem⟩ := bind_some hem
  obtain ⟨ctx₁, hgather, hturns⟩ := bind_some hem
  obtain rfl := h.label hroom (by omega) hd0
  obtain rfl := Footprint.field hroom (k + 1) (by decide) (by push_cast; rfl) (by omega) hdst
  have h₁ : Footprint start n out (k + 1) ctx₁ :=
    h.fields hroom (D := 1) (by omega) (.inl rfl) (by decide) (by decide) (Int.natCast_nonneg w)
      (fun r hr => by omega) hgather
  rw [show k + (w + 1) = k + 1 + w by omega]
  exact lookups_footprint hroom h₁ (by omega) (by omega) (fun i hi => by rw [Nat.zero_add]; exact hout i hi)
    hturns

/-- `And`, `Or` and `Xor`. -/
theorem bitwise_footprint {row : Nat} (hn : k + (w + 2) ≤ n) (hfits : ret + w ≤ 2 ^ 32)
    (hout : ∀ i < w, out (ret + i)) (hem : bitwise L row ctx w ret lhs rhs = some ctx') :
    Footprint start n out (k + (w + 2)) ctx' := by
  obtain ⟨d0, hd0, hem⟩ := bind_some hem
  obtain ⟨dst₁, hdst₁, hem⟩ := bind_some hem
  obtain ⟨ctx₁, hgather₁, hem⟩ := bind_some hem
  obtain ⟨dst₂, hdst₂, hem⟩ := bind_some hem
  obtain ⟨ctx₂, hgather₂, hturns⟩ := bind_some hem
  obtain rfl := h.label hroom (by omega) hd0
  rcases Nat.eq_zero_or_pos w with rfl | hw
  · rw [show EmitStrided ctx dst₁ lhs (0 : Nat) 1 31 0 = none from EmitStrided_none (by decide) ..] at hgather₁
    cases hgather₁
  obtain rfl := Footprint.field hroom (k + 2) (by decide) (by push_cast; rfl) (by omega) hdst₁
  obtain rfl := Footprint.field hroom (k + 2) (by decide) (by push_cast; rfl) (by omega) hdst₂
  have h₂ : Footprint start n out (k + 2) ctx₂ :=
    gathers_footprint hroom h (D := 1) (by decide) (by omega) (fun r hr => by omega) hgather₁ hgather₂
  rw [show k + (w + 2) = k + 2 + w by omega]
  exact lookups_footprint hroom h₂ (by omega) (by omega) (fun i hi => by rw [Nat.zero_add]; exact hout i hi)
    hturns

/-! ### Comparisons -/

/-- `Geu` and `Equ`. -/
theorem compare_footprint {row : Nat} (hn : k + (w + 3) ≤ n) (hfits : ret + 1 ≤ 2 ^ 32) (hout : out ret)
    (hem : compare L row ctx w ret lhs rhs flags = some ctx') :
    Footprint start n out (k + (w + 3)) ctx' := by
  obtain ⟨hw, hem⟩ := guard_some hem
  obtain ⟨d0, hd0, hem⟩ := bind_some hem
  obtain ⟨dst₁, hdst₁, hem⟩ := bind_some hem
  obtain ⟨ctx₁, hgather₁, hem⟩ := bind_some hem
  obtain ⟨dst₂, hdst₂, hem⟩ := bind_some hem
  obtain ⟨ctx₂, hgather₂, hem⟩ := bind_some hem
  obtain ⟨ctx₃, hturns, hem⟩ := bind_some hem
  obtain ⟨truth, -, htruth⟩ := bind_some hem
  obtain rfl := h.label hroom (by omega) hd0
  obtain rfl := Footprint.field hroom (k + 2) (by decide) (by push_cast; rfl) (by omega) hdst₁
  obtain rfl := Footprint.field hroom (k + 2) (by decide) (by push_cast; rfl) (by omega) hdst₂
  have h₂ : Footprint start n out (k + 2) ctx₂ :=
    gathers_footprint hroom h (D := 1) (by decide) (by omega) (fun r hr => by omega) hgather₁ hgather₂
  have h₃ := forLoop_some (P := fun i => Footprint start n out (k + 2 + i)) h₂ ?_ hturns
  · rw [show k + (w + 3) = k + 2 + w + 1 by omega]
    refine h₃.emit hroom (by omega) hfits (fun i hi => ?_) htruth
    obtain rfl : i = 0 := by omega
    exact hout
  intro i hi ctx ctx' hctx hbody
  obtain ⟨d1, hd1, hbody⟩ := bind_some hbody
  obtain ⟨fld, hfld, hbody⟩ := bind_some hbody
  obtain ⟨src, -, hlookup⟩ := bind_some hbody
  obtain rfl := hctx.label hroom (by omega) hd1
  obtain rfl := Footprint.field hroom (k + 2 + i + 1) (by decide) (by push_cast; rfl) (by omega) hfld
  exact hctx.patch hroom (k := k + 2 + i) (by omega) (by omega) (by decide) hlookup

theorem Ges_footprint (hn : k + (w + 3) ≤ n) (hfits : ret + 1 ≤ 2 ^ 32) (hout : out ret)
    (hem : Ges L ctx w ret lhs rhs flags = some ctx') : Footprint start n out (k + (w + 3)) ctx' := by
  have hlt := hroom.label_lt
  obtain ⟨hw, hem⟩ := guard_some hem
  obtain ⟨d0, hd0, hem⟩ := bind_some hem
  obtain ⟨dst₁, hdst₁, hem⟩ := bind_some hem
  obtain ⟨ctx₁, hgather₁, hem⟩ := bind_some hem
  obtain ⟨dst₂, hdst₂, hem⟩ := bind_some hem
  obtain ⟨ctx₂, hgather₂, hem⟩ := bind_some hem
  obtain ⟨ctx₃, hbranch, hem⟩ := bind_some hem
  obtain ⟨ctx₄, hturns, hem⟩ := bind_some hem
  obtain ⟨truth, -, htruth⟩ := bind_some hem
  obtain rfl := h.label hroom (by omega) hd0
  obtain rfl := Footprint.field hroom (k + 2) (by decide) (by push_cast; rfl) (by omega) hdst₁
  obtain rfl := Footprint.field hroom (k + 2) (by decide) (by push_cast; rfl) (by omega) hdst₂
  have h₂ : Footprint start n out (k + 1 + 1) ctx₂ :=
    gathers_footprint hroom h (D := 1) (by decide) (by omega) (fun r hr => by omega) hgather₁ hgather₂
  have h₃ : Footprint start n out (k + 2) ctx₃ :=
    h₂.branch (i := k + (w + 1)) (by omega)
      (bus_rel_cb_eq (k + (w + 1)) (by push_cast; ring) (by omega)) hbranch
  have h₄ := forLoop_some (P := fun i => Footprint start n out (k + 2 + i)) h₃ ?_ hturns
  · rw [show k + (w + 3) = k + 2 + w + 1 by omega]
    refine h₄.emit hroom (by omega) hfits (fun i hi => ?_) htruth
    obtain rfl : i = 0 := by omega
    exact hout
  intro i hi ctx ctx' hctx hbody
  obtain ⟨d1, hd1, hbody⟩ := bind_some hbody
  obtain ⟨fld, hfld, hbody⟩ := bind_some hbody
  obtain ⟨src, -, hbody⟩ := bind_some hbody
  obtain ⟨ctx₅, hlookup, hbranch⟩ := bind_some hbody
  obtain rfl := hctx.label hroom (by omega) hd1
  -- the lookup of byte 0 is behind the others, each of these before the one of the byte below
  obtain ⟨l, hl, hln⟩ : ∃ l : Nat, ((k + 2 + i : Nat) : Int) + ges_branch w (0 + i) = l ∧ l < n := by
    rw [Nat.zero_add, ges_branch]
    split
    · exact ⟨k + 1 + i, by omega, by omega⟩
    · exact ⟨k + 2 + i + w, by omega, by omega⟩
  obtain rfl := Footprint.field hroom l (by decide) hl hln hfld
  have h₅ := hctx.patch hroom (k := k + 2 + i) (by omega) hln (by decide) hlookup
  exact h₅.branch hln (bus_rel_cb_eq l hl (by omega)) hbranch

/-! ### Shifts -/

/-- `Sll8` and `Srl8`. -/
theorem shift8_footprint {select b first lo edge shf8 : Nat} (hn : k + (w + 4) ≤ n) (hb : b < 4)
    (hfirst : first < w) (hlo : lo ≤ 1) (hfits : ret + w ≤ 2 ^ 32) (hout : ∀ i < w, out (ret + i))
    (hem : shift8 L select b first lo ctx w ret inp edge shf8 = some ctx') :
    Footprint start n out (k + (w + 4)) ctx' := by
  obtain ⟨hw, hem⟩ := guard_some hem
  obtain ⟨d0, hd0, hem⟩ := bind_some hem
  obtain ⟨dst₁, hdst₁, hem⟩ := bind_some hem
  obtain ⟨ctx₁, hpairs, hem⟩ := bind_some hem
  obtain ⟨dst₂, hdst₂, hem⟩ := bind_some hem
  obtain ⟨ctx₂, hcount, hem⟩ := bind_some hem
  obtain ⟨dst₃, hdst₃, hem⟩ := bind_some hem
  obtain ⟨row, -, hem⟩ := bind_some hem
  obtain ⟨ctx₃, hspread, hem⟩ := bind_some hem
  obtain ⟨dst₄, hdst₄, hem⟩ := bind_some hem
  obtain ⟨ctx₄, hedge, hem⟩ := bind_some hem
  obtain ⟨table, -, hem⟩ := bind_some hem
  obtain ⟨ctx₅, hone, hturns⟩ := bind_some hem
  obtain rfl := h.label hroom (by omega) hd0
  obtain rfl := Footprint.field hroom (k + 5) (by decide) (by push_cast; rfl) (by omega) hdst₁
  obtain rfl := Footprint.field hroom (k + 2) (by decide) (by push_cast; rfl) (by omega) hdst₂
  obtain rfl := Footprint.field hroom (k + 4) (by decide) (by push_cast; rfl) (by omega) hdst₃
  obtain rfl := Footprint.field hroom (k + 4) hb (by push_cast; rfl) (by omega) hdst₄
  have h₁ : Footprint start n out (k + 1) ctx₁ :=
    h.fields hroom (D := 1) (by omega) (.inl rfl) (by decide) (by decide) (by omega)
      (fun r hr => by omega) hpairs
  have h₂ := h₁.patch hroom (by omega) (by omega) (by decide) hcount
  have h₃ : Footprint start n out (k + 3) ctx₃ :=
    h₂.fields hroom (D := 1) (by omega) (.inr rfl) (by decide) (by decide) (Int.natCast_nonneg w)
      (fun r hr => by omega) hspread
  have h₄ := h₃.patch hroom (by omega) (by omega) hb hedge
  rw [bus_add_nat (by omega)] at hone
  have h₅ : Footprint start n out (k + 5) ctx₅ := by
    refine h₄.emit hroom (by omega) (by omega) (fun i hi => ?_) hone
    obtain rfl : i = 0 := by omega
    exact hout first hfirst
  rw [show k + (w + 4) = k + 5 + (w - 1) by omega]
  exact lookups_footprint hroom h₅ (by omega) (by omega) (fun i hi => hout (lo + i) (by omega)) hturns

theorem Sra8_footprint {shf8 : Nat} (hn : k + (w + 4) ≤ n) (hfits : ret + w ≤ 2 ^ 32)
    (hout : ∀ i < w, out (ret + i)) (hem : Sra8 L ctx w ret inp shf8 = some ctx') :
    Footprint start n out (k + (w + 4)) ctx' := by
  obtain ⟨hw, hem⟩ := guard_some hem
  obtain ⟨d0, hd0, hem⟩ := bind_some hem
  obtain ⟨dst₁, hdst₁, hem⟩ := bind_some hem
  obtain ⟨ctx₁, hpairs, hem⟩ := bind_some hem
  obtain ⟨dst₂, hdst₂, hem⟩ := bind_some hem
  obtain ⟨ctx₂, hcount, hem⟩ := bind_some hem
  obtain ⟨dst₃, hdst₃, hem⟩ := bind_some hem
  obtain ⟨row, -, hem⟩ := bind_some hem
  obtain ⟨ctx₃, hspread, hem⟩ := bind_some hem
  obtain ⟨dst₄, hdst₄, hem⟩ := bind_some hem
  obtain ⟨ctx₄, hedge, hem⟩ := bind_some hem
  obtain ⟨hi, -, hem⟩ := bind_some hem
  obtain ⟨ctx₅, htop, hturns⟩ := bind_some hem
  obtain rfl := h.label hroom (by omega) hd0
  obtain rfl := Footprint.field hroom (k + 5) (by decide) (by push_cast; rfl) (by omega) hdst₁
  obtain rfl := Footprint.field hroom (k + 2) (by decide) (by push_cast; rfl) (by omega) hdst₂
  obtain rfl := Footprint.field hroom (k + 5) (by decide) (by push_cast; rfl) (by omega) hdst₃
  obtain rfl := Footprint.field hroom (k + 4) (by decide) (by push_cast; rfl) (by omega) hdst₄
  have h₁ : Footprint start n out (k + 1) ctx₁ :=
    h.fields hroom (D := 1) (by omega) (.inl rfl) (by decide) (by decide) (by omega)
      (fun r hr => by omega) hpairs
  have h₂ : Footprint start n out (k + 2) ctx₂ :=
    h₁.fields hroom (D := 2) (by omega) (.inr rfl) (by decide) (by decide) (by decide)
      (fun r hr => by omega) hcount
  have h₃ : Footprint start n out (k + 3) ctx₃ :=
    h₂.fields hroom (D := 1) (by omega) (.inr rfl) (by decide) (by decide) (by omega)
      (fun r hr => by omega) hspread
  have h₄ := h₃.patch hroom (by omega) (by omega) (by decide) hedge
  rw [show (w : Int) - 1 = ((w - 1 : Nat) : Int) by omega, bus_add_nat (by omega)] at htop
  have h₅ : Footprint start n out (k + 5) ctx₅ := by
    refine h₄.emit hroom (by omega) (by omega) (fun i hi => ?_) htop
    obtain rfl : i = 0 := by omega
    exact hout (w - 1) (by omega)
  rw [show k + (w + 4) = k + 5 + (w - 1) by omega]
  exact lookups_footprint hroom h₅ (by omega) (by omega) (fun i hi => hout (0 + i) (by omega)) hturns

/-- The end of a shift. -/
theorem shiftBytes_footprint {shf8 select tmp : Nat} (hn : k + 3 ≤ n) (hfits : ret + w ≤ 2 ^ 32)
    (hout : ∀ i < w, out (ret + i)) (hem : shiftBytes ctx w ret shf8 select tmp = some ctx') :
    Footprint start n out (k + 3) ctx' := by
  obtain ⟨d0, hd0, hem⟩ := bind_some hem
  obtain ⟨dst₁, hdst₁, hem⟩ := bind_some hem
  obtain ⟨ctx₁, hcount, hem⟩ := bind_some hem
  obtain ⟨dst₂, hdst₂, hem⟩ := bind_some hem
  obtain ⟨table, -, hem⟩ := bind_some hem
  obtain ⟨ctx₂, hselect, hem⟩ := bind_some hem
  obtain ⟨src, -, hcopy⟩ := bind_some hem
  obtain rfl := h.label hroom (by omega) hd0
  obtain rfl := Footprint.field hroom (k + 1) (by decide) (by push_cast; rfl) (by omega) hdst₁
  obtain rfl := Footprint.field hroom (k + 2) (by decide) (by push_cast; rfl) (by omega) hdst₂
  have h₁ := h.patch hroom (by omega) (by omega) (by decide) hcount
  have h₂ := h₁.patch hroom (by omega) (by omega) (by decide) hselect
  exact h₂.emit hroom (by omega) hfits hout hcopy

end Operations

/-! ## Operations with buffers of their own -/

/-- The host still emits where it did. -/
theorem MonomorphizeOn_ctx {i v t : Nat} {expr : Host → Option (Nat × Host)} {h h' : Host}
    (hexpr : ∀ g t g', expr g = some (t, g') → g'.ctx = g.ctx)
    (hmono : MonomorphizeOn i v expr h = some (t, h')) : h'.ctx = h.ctx := by
  obtain ⟨h₁, hinit, hmono⟩ := bind_some hmono
  obtain ⟨c, -, hmono⟩ := bind_some hmono
  have hctx : h₁.ctx = h.ctx := by
    rw [mono_get_or_init_ctx] at hinit
    split at hinit
    · rw [← Option.some.inj hinit]
    · obtain ⟨-, hinit⟩ := guard_some hinit
      rw [← Option.some.inj hinit]
  rw [← hctx]
  split at hmono
  · have heq := Option.some.inj hmono
    exact congrArg (fun r => r.2.ctx) heq.symm
  · obtain ⟨r, hr, hmono⟩ := bind_some hmono
    obtain ⟨h₃, hset, hmono⟩ := bind_some hmono
    obtain ⟨-, hset⟩ := guard_some hset
    obtain ⟨_, -, hset⟩ := bind_some hset
    have heq := congrArg (fun r => r.2.ctx) (Option.some.inj hmono)
    have hctx₃ := congrArg Host.ctx (Option.some.inj hset)
    exact heq.symm.trans (hctx₃.symm.trans (hexpr h₁ r.1 r.2 hr))

theorem alloc_ctx {size align t : Nat} {h h' : Host} (halloc : h.alloc size align = some (t, h')) :
    h'.ctx = h.ctx := by
  obtain ⟨r, -, halloc⟩ := bind_some halloc
  exact congrArg (fun r => r.2.ctx) (Option.some.inj halloc).symm

theorem allocTable_ctx {f : Nat → Nat} {t : Nat} {h h' : Host} (halloc : h.allocTable f = some (t, h')) :
    h'.ctx = h.ctx := by
  obtain ⟨r, hr, halloc⟩ := bind_some halloc
  have hctx : r.2.ctx = h.ctx := alloc_ctx hr
  rw [← hctx]
  exact congrArg (fun r => r.2.ctx) (Option.some.inj halloc).symm

/-- The scratch buffer of `Neg`. -/
def negScratch (h : Host) (w : Nat) : Option (Nat × Host) :=
  MonomorphizeOn 0 w (Host.alloc w (min (min w 4) 16)) h

/-- The scratch buffer of a shift. -/
def shiftScratch (i : Nat) (f : Nat → Nat) (h : Host) (w : Nat) : Option (Nat × Host) := do
  let (_, h) ← MonomorphizeOn i w (Host.allocTable f) h
  MonomorphizeOn (i + 1) w (Host.alloc (2 * w) 256) h

section Hosts

variable {L : Layout} {h h' : Host} {out : Nat → Prop} {w ret inp shf8 : Nat}

theorem Neg_footprint (hroom : h.ctx.Room (3 * w + 1)) (hfits : ret + w ≤ 2 ^ 32)
    (hout : ∀ i < w, out (ret + i))
    (hbuf : ∀ t g, negScratch h w = some (t, g) →
      t + w ≤ ARM_DRAM_END ∧ ∀ i < w, out (t + BUS_DRAM_BASE + i))
    (hem : Neg L h w ret inp = some h') :
    Footprint h.ctx (3 * w + 1) out (3 * w + 1) h'.ctx := by
  obtain ⟨-, hem⟩ := guard_some hem
  obtain ⟨r, hmono, hem⟩ := bind_some hem
  obtain ⟨b, hb, hem⟩ := bind_some hem
  obtain ⟨ctx₁, hnot, hem⟩ := bind_some hem
  obtain ⟨b', -, hem⟩ := bind_some hem
  obtain ⟨ctx₂, hinc, hdone⟩ := bind_some hem
  have hctx : r.2.ctx = h.ctx :=
    MonomorphizeOn_ctx (t := r.1) (fun _ _ _ halloc => alloc_ctx halloc) hmono
  obtain ⟨hdram, hscratch⟩ := hbuf r.1 r.2 hmono
  have hw : w ≠ 0 := (guard_some hnot).1
  have hend : ARM_DRAM_END + BUS_DRAM_BASE ≤ 2 ^ 32 := by decide
  rw [bus_dram (by omega)] at hb
  obtain rfl := Option.some.inj hb
  rw [hctx] at hnot
  have h₁ := Not_footprint hroom (.empty h.ctx _ out) (by omega) (by omega) hscratch hnot
  have h₂ := Inc_footprint hroom h₁ (by omega) hfits hout hinc
  rw [show 0 + (w + 1) + 2 * w = 3 * w + 1 by omega] at h₂
  rw [← Option.some.inj hdone]
  exact h₂

/-- `Sll` and `Srl`: what comes between the zeros and the last three blocks. -/
theorem logicalShift_footprint {i off : Nat} {f : Nat → Nat}
    {shift : EmitCtx → Nat → Nat → Nat → Nat → Option EmitCtx} (hoff : off ≤ w)
    (hshift : ∀ ctx ctx' buf, buf + w ≤ 2 ^ 32 → (∀ i < w, out (buf + i)) →
      Footprint h.ctx (w + 8) out 1 ctx → shift ctx w buf inp shf8 = some ctx' →
        Footprint h.ctx (w + 8) out (w + 5) ctx')
    (hlow : ∀ ctx ctx' buf, shift ctx w buf inp shf8 = some ctx' → 2 ≤ w)
    (hroom : h.ctx.Room (w + 8)) (hfits : ret + w ≤ 2 ^ 32) (hout : ∀ i < w, out (ret + i))
    (hbuf : ∀ t g, shiftScratch i f h w = some (t, g) →
      t + 2 * w ≤ ARM_DRAM_END ∧ ∀ i < 2 * w, out (t + BUS_DRAM_BASE + i))
    (hem : logicalShift L i off f shift h w ret inp shf8 = some h') :
    Footprint h.ctx (w + 8) out (w + 8) h'.ctx := by
  obtain ⟨-, hem⟩ := guard_some hem
  obtain ⟨r, hselect, hem⟩ := bind_some hem
  obtain ⟨q, htmp, hem⟩ := bind_some hem
  obtain ⟨b, hb, hem⟩ := bind_some hem
  obtain ⟨zeros, -, hem⟩ := bind_some hem
  obtain ⟨ctx₁, hclear, hem⟩ := bind_some hem
  obtain ⟨b', hb', hem⟩ := bind_some hem
  obtain ⟨ctx₂, hbits, hem⟩ := bind_some hem
  obtain ⟨ctx₃, hbytes, hdone⟩ := bind_some hem
  have hctx : q.2.ctx = h.ctx :=
    (MonomorphizeOn_ctx (t := q.1) (fun _ _ _ halloc => alloc_ctx halloc) htmp).trans
      (MonomorphizeOn_ctx (t := r.1) (fun _ _ _ halloc => allocTable_ctx halloc) hselect)
  have hsome : shiftScratch i f h w = some (q.1, q.2) := by
    rw [shiftScratch, hselect, some_bind]
    exact htmp
  obtain ⟨hdram, hscratch⟩ := hbuf q.1 q.2 hsome
  have hw := hlow _ _ _ hbits
  have hend : ARM_DRAM_END + BUS_DRAM_BASE ≤ 2 ^ 32 := by decide
  rw [bus_dram (by omega)] at hb
  obtain rfl := Option.some.inj hb
  rw [bus_off (by omega)] at hb'
  obtain rfl := Option.some.inj hb'
  rw [hctx] at hclear
  have h₁ := (Footprint.empty h.ctx (w + 8) out).emit hroom (by omega) (by omega)
    (fun i hi => hscratch i (by omega)) hclear
  have h₂ := hshift _ _ _ (by omega) (fun i hi => by
    rw [show q.1 + off + BUS_DRAM_BASE + i = q.1 + BUS_DRAM_BASE + (off + i) by omega]
    exact hscratch (off + i) (by omega)) h₁ hbits
  have h₃ := shiftBytes_footprint hroom h₂ (by omega) hfits hout hbytes
  rw [← Option.some.inj hdone]
  exact h₃

theorem Sra_footprint (hroom : h.ctx.Room (w + 10)) (hfits : ret + w ≤ 2 ^ 32)
    (hout : ∀ i < w, out (ret + i))
    (hbuf : ∀ t g, shiftScratch 4 (fun i => i / 8 % w) h w = some (t, g) →
      t + 2 * w ≤ ARM_DRAM_END ∧ ∀ i < 2 * w, out (t + BUS_DRAM_BASE + i))
    (hem : Sra L h w ret inp shf8 = some h') : Footprint h.ctx (w + 10) out (w + 10) h'.ctx := by
  obtain ⟨-, hem⟩ := guard_some hem
  obtain ⟨r, hselect, hem⟩ := bind_some hem
  obtain ⟨q, htmp, hem⟩ := bind_some hem
  obtain ⟨d0, hd0, hem⟩ := bind_some hem
  obtain ⟨dst₁, hdst₁, hem⟩ := bind_some hem
  obtain ⟨ctx₁, hsign, hem⟩ := bind_some hem
  obtain ⟨dst₂, hdst₂, hem⟩ := bind_some hem
  obtain ⟨which, -, hem⟩ := bind_some hem
  obtain ⟨ctx₂, hwhich, hem⟩ := bind_some hem
  obtain ⟨b, hb, hem⟩ := bind_some hem
  obtain ⟨bufs, -, hem⟩ := bind_some hem
  obtain ⟨ctx₃, hsext, hem⟩ := bind_some hem
  obtain ⟨b', hb', hem⟩ := bind_some hem
  obtain ⟨ctx₄, hbits, hem⟩ := bind_some hem
  obtain ⟨ctx₅, hbytes, hdone⟩ := bind_some hem
  have hctx : q.2.ctx = h.ctx :=
    (MonomorphizeOn_ctx (t := q.1) (fun _ _ _ halloc => alloc_ctx halloc) htmp).trans
      (MonomorphizeOn_ctx (t := r.1) (fun _ _ _ halloc => allocTable_ctx halloc) hselect)
  have hsome : shiftScratch 4 (fun i => i / 8 % w) h w = some (q.1, q.2) := by
    rw [shiftScratch, hselect, some_bind]
    exact htmp
  obtain ⟨hdram, hscratch⟩ := hbuf q.1 q.2 hsome
  have hw : 2 ≤ w := (guard_some hbits).1
  have hend : ARM_DRAM_END + BUS_DRAM_BASE ≤ 2 ^ 32 := by decide
  rw [bus_off (by omega)] at hb
  obtain rfl := Option.some.inj hb
  rw [bus_dram (by omega)] at hb'
  obtain rfl := Option.some.inj hb'
  rw [hctx] at hd0 hsign
  have h₀ := Footprint.empty h.ctx (w + 10) out
  obtain rfl := h₀.label hroom (by omega) hd0
  obtain rfl := Footprint.field hroom 1 (by decide) rfl (by omega) hdst₁
  obtain rfl := Footprint.field hroom 2 (by decide) rfl (by omega) hdst₂
  have h₁ := h₀.patch hroom (by omega) (by omega) (by decide) hsign
  have h₂ := h₁.patch hroom (by omega) (by omega) (by decide) hwhich
  have h₃ : Footprint h.ctx (w + 10) out 3 ctx₃ := by
    refine h₂.emitWith hroom (by omega) testBit_DST_INC.2.1 testBit_DST_INC.1 (by omega)
      (fun i hi => .inl ?_) hsext
    rw [show q.1 + w + BUS_DRAM_BASE + i = q.1 + BUS_DRAM_BASE + (w + i) by omega]
    exact hscratch (w + i) (by omega)
  have h₄ := Sra8_footprint hroom h₃ (by omega) (by omega) (fun i hi => hscratch i (by omega)) hbits
  have h₅ := shiftBytes_footprint hroom h₄ (by omega) hfits hout hbytes
  rw [show 3 + (w + 4) + 3 = w + 10 by omega] at h₅
  rw [← Option.some.inj hdone]
  exact h₅

end Hosts

/-! ## Whole chains -/

/-- The blocks of `ctx` from `start` on are in memory, as they were emitted or as runs
have left them since: with any source addresses. -/
def Held (ctx : EmitCtx) (start : Nat) (m : Memory) : Prop :=
  ∀ k, start + 32 * k < ctx.p → Cblk.at m (start + BUS_DRAM_BASE + 32 * k) =
    { ctx.blk (start + 32 * k) with src_addr := word m (start + BUS_DRAM_BASE + 32 * k + 4) }

theorem Loaded.held {ctx : EmitCtx} {start : Nat} {m : Memory} (h : Loaded ctx start m) :
    Held ctx start m := by
  intro k hk
  have hat := h k hk
  rw [← hat]
  rfl

/-- The chain of `n` blocks from `start` on, closed by `End`. -/
def emittedChain (start ctx : EmitCtx) {n : Nat} (hroom : start.Room n) : Chain where
  z := start.label
  n := n
  f k := ctx.blk (start.p + 32 * k)
  patched _ _ := True
  exit := 0
  pos := Nat.add_pos_right _ (by decide)
  fits := by
    have hlt := hroom.label_lt
    omega

section Whole

variable {start ctx ctx' : EmitCtx} {n : Nat} {hroom : start.Room n} {m : Memory}

theorem End_blk (hp : ctx.p = start.p + 32 * n) (hpos : 0 < n) (hend : End ctx = some ctx') :
    ctx'.p = ctx.p ∧ (∀ k, k + 1 < n → ctx'.blk (start.p + 32 * k) = ctx.blk (start.p + 32 * k)) ∧
      ctx'.blk (start.p + 32 * (n - 1)) = { ctx.blk (start.p + 32 * (n - 1)) with next_cb := 0 } := by
  obtain ⟨-, rfl⟩ := Branch_some hend
  have hlast : ctx.p - 32 = start.p + 32 * (n - 1) := by omega
  refine ⟨rfl, fun k hk => ?_, ?_⟩
  · exact Function.update_of_ne (by omega) _ _
  · show Function.update ctx.blk (ctx.p - 32) _ _ = _
    rw [hlast]
    exact Function.update_self ..

/-- A memory that holds the blocks holds the chain. -/
theorem Held.linked (hp : ctx.p = start.p + 32 * n) (hpos : 0 < n) (hend : End ctx = some ctx')
    (h : Held ctx' start.p m) : (emittedChain start ctx' hroom).Linked m := by
  obtain ⟨hp', -, hlast⟩ := End_blk hp hpos hend
  intro k hk
  have hkn : k < n := hk
  have hz : start.p + BUS_DRAM_BASE + 32 * k = start.label + 32 * k := rfl
  have hat := h k (by omega)
  rw [hz] at hat
  have hnext : (emittedChain start ctx' hroom).next k = (ctx'.blk (start.p + 32 * k)).next_cb := by
    show (if k + 1 = n then 0 else (ctx'.blk (start.p + 32 * k)).next_cb) = _
    split
    · next heq => rw [show k = n - 1 by omega, hlast]
    · rfl
  show Cblk.at m (start.label + 32 * k) = _
  rw [hat, hnext]
  rfl

/-- What was emitted and closed is confined. -/
theorem Footprint.confined {out : Nat → Prop} (h : Footprint start n out n ctx) (hpos : 0 < n)
    (hend : End ctx = some ctx') : (emittedChain start ctx' hroom).Confined out := by
  obtain ⟨-, hsame, hlast⟩ := End_blk h.p_eq hpos hend
  refine ⟨hpos, fun k hk => ?_, fun k hk a ha => ?_⟩
  · have hkn : k < n := hk
    show (if k + 1 = n then 0 else (ctx'.blk (start.p + 32 * k)).next_cb) = 0 ∨
      ∃ l < n, (if k + 1 = n then 0 else (ctx'.blk (start.p + 32 * k)).next_cb) = start.label + 32 * l
    split
    · exact .inl rfl
    · rw [hsame k (by omega)]
      obtain ⟨i, hi, hnext⟩ := h.next k hkn
      exact .inr ⟨i, by omega, hnext⟩
  · have hkn : k < n := hk
    have ha' : (ctx'.blk (start.p + 32 * k)).Stores a := ha
    rcases Nat.lt_or_ge (k + 1) n with hlt | hge
    · rw [hsame k hlt] at ha'
      exact h.stores k hkn a ha'
    · rw [show k = n - 1 by omega, hlast] at ha'
      exact h.stores (n - 1) (by omega) a ha'

end Whole

end Bcm2835.Dma

import Bcm2835.Dma.TablesSpec
import Bcm2835.Dma.Runs
import Bcm2835.Dma.Gather
import Bcm2835.Dma.Ripple

/-!
# `Add` and `Sub`

Their blocks by index, the chain they make, and what one run of it leaves.
-/

namespace Bcm2835.Dma

open Mem Digits EmitCtx

/-- Block `k` of `Add` and `Sub`: two gathers, then lookups at the even places
and patches between them. -/
def rippleBlock (table row z w ret lhs rhs k : Nat) : Cblk :=
  if k = 0 then strided z k INC2D (srcField z 2 1) rhs w 1 63 0
  else if k = 1 then strided z k INC2D (srcField z 2 2) lhs w 1 63 0
  else if k = 2 then linear z k INC ret (table + row) 2
  else if k % 2 = 0 then linear z k INC (ret + (k - 2) / 2) table (if k < 2 * w then 2 else 1)
  else linear z k INC (srcField z (k + 1) 0) (ret + (k - 1) / 2) 1

section Blocks

variable (table row z w ret lhs rhs : Nat)

theorem rippleBlock_lookup {i : Nat} (hi : 1 ≤ i) :
    rippleBlock table row z w ret lhs rhs (2 + 2 * i) =
      linear z (2 + 2 * i) INC (ret + i) table (if i < w - 1 then 2 else 1) := by
  have hdiv : (2 + 2 * i - 2) / 2 = i := by omega
  rw [rippleBlock, if_neg (by omega), if_neg (by omega), if_neg (by omega), if_pos (by omega), hdiv]
  congr 1
  by_cases h : i < w - 1
  · rw [if_pos h, if_pos (by omega)]
  · rw [if_neg h, if_neg (by omega)]

theorem rippleBlock_patch (i : Nat) :
    rippleBlock table row z w ret lhs rhs (2 + 2 * i + 1) =
      linear z (2 + 2 * i + 1) INC (srcField z (2 + 2 * (i + 1)) 0) (ret + (i + 1)) 1 := by
  have hdiv : (2 + 2 * i + 1 - 1) / 2 = i + 1 := by omega
  rw [rippleBlock, if_neg (by omega), if_neg (by omega), if_neg (by omega), if_neg (by omega), hdiv]
  rfl

/-- Each block goes on at the one behind it. -/
theorem rippleBlock_next (k : Nat) :
    (rippleBlock table row z w ret lhs rhs k).next_cb = z + 32 * (k + 1) := by
  unfold rippleBlock
  split
  · rfl
  split
  · rfl
  split
  · rfl
  split <;> rfl

end Blocks

/-- What `Add` and `Sub` emit. -/
theorem ripple_eq (L : Layout) {ctx : EmitCtx} {row w ret lhs rhs : Nat} (hroom : ctx.Room (2 * w + 1))
    (hw : 1 ≤ w) (hw' : w ≤ 0x4000) (hrow : row < 256) (hret : ret + w < 2 ^ 32) :
    ripple L row ctx w ret lhs rhs = some (ctx.fill
      (rippleBlock (L.HYPER + BUS_DRAM_BASE) row ctx.label w ret lhs rhs) (2 * w + 1)) := by
  have hz := hroom.label_aligned
  have hlt := hroom.label_lt
  have hhyper : L.HYPER + 2 ^ 24 ≤ ARM_DRAM_END := L.in_dram ⟨L.HYPER, 2 ^ 24⟩ (by simp)
  have hrow' : bus_ L.HYPER row = some (L.HYPER + row + BUS_DRAM_BASE) := bus_off (by omega)
  have hbus : bus L.HYPER = some (L.HYPER + BUS_DRAM_BASE) := bus_dram (by omega)
  generalize hf : rippleBlock (L.HYPER + BUS_DRAM_BASE) row ctx.label w ret lhs rhs = f
  have hrhs : EmitStrided ctx (srcField ctx.label 2 1) rhs w 1 63 0 = some (ctx.fill f 1) :=
    EmitStrided_fill hroom (k := 0) (f := f) (c := 1) (by omega) hw hw' (by decide) (by rw [← hf]; rfl)
  have hlhs : EmitStrided (ctx.fill f 1) (srcField ctx.label 2 2) lhs w 1 63 0 =
      some (ctx.fill f 2) :=
    EmitStrided_fill hroom (k := 1) (c := 1) (by omega) hw hw' (by decide) (by rw [← hf]; rfl)
  have hfirst : Emit (ctx.fill f 2) ret (L.HYPER + row + BUS_DRAM_BASE) 2 = some (ctx.fill f 3) :=
    Emit_fill hroom (k := 2) (by omega) (by
      rw [← hf, show L.HYPER + row + BUS_DRAM_BASE = L.HYPER + BUS_DRAM_BASE + row by omega]
      rfl)
  have hdst₁ : bus_rel_fld ctx.label 2 .FLD_SRC 1 = some (srcField ctx.label 2 1) :=
    bus_rel_fld_src (k := 0) hz (by decide) 2 rfl (by omega)
  have hdst₂ : bus_rel_fld ctx.label 2 .FLD_SRC 2 = some (srcField ctx.label 2 2) :=
    bus_rel_fld_src (k := 0) hz (by decide) 2 rfl (by omega)
  have hret0 : bus_add ret 0 = ret := bus_add_nat (d := 0) (by omega)
  have hlabel : Label ctx = some ctx.label := hroom.label_fill (Nat.zero_le _) f
  rw [ripple, guard_bind (by omega), hlabel, some_bind, hdst₁, some_bind, hrhs, some_bind, hdst₂,
    some_bind, hlhs, some_bind, hrow', some_bind, hret0, hfirst, some_bind]
  have hloop := forLoop_eq (l := 1) (n := w - 1) (s := fun i => ctx.fill f (3 + 2 * i))
    (b := fun i ctx => do
      let d1 ← Label ctx
      let ctx ← Emit ctx (← bus_rel_fld d1 1 .FLD_SRC 0) (bus_add ret i) 1
      Emit ctx (bus_add ret i) (← bus L.HYPER) (if i < w - 1 then 2 else 1))
  rw [show 3 + 2 * (w - 1) = 2 * w + 1 by omega] at hloop
  refine hloop fun i hi => ?_
  have hfld : bus_rel_fld (ctx.label + 32 * (3 + 2 * i)) 1 .FLD_SRC 0 =
      some (srcField ctx.label (3 + 2 * i + 1) 0) :=
    bus_rel_fld_src hz (by decide) _ (by push_cast; ring) (by omega)
  have hadd : bus_add ret (1 + i : Nat) = ret + (1 + i) := bus_add_nat (by omega)
  have hpatch : Emit (ctx.fill f (3 + 2 * i)) (srcField ctx.label (3 + 2 * i + 1) 0) (ret + (1 + i)) 1 =
      some (ctx.fill f (3 + 2 * i + 1)) := by
    refine Emit_fill hroom (by omega) ?_
    rw [← hf, show 3 + 2 * i = 2 + 2 * i + 1 by omega, rippleBlock_patch, Nat.add_comm 1 i]
    rfl
  have hlookup : Emit (ctx.fill f (3 + 2 * i + 1)) (ret + (1 + i)) (L.HYPER + BUS_DRAM_BASE)
      (if 1 + i < w - 1 then 2 else 1) = some (ctx.fill f (3 + 2 * (i + 1))) := by
    refine Emit_fill hroom (k := 3 + 2 * i + 1) (by omega) ?_
    rw [← hf, show 3 + 2 * i + 1 = 2 + 2 * (1 + i) by omega, rippleBlock_lookup _ _ _ _ _ _ _ (by omega)]
  rw [hroom.label_fill (by omega) f, some_bind, hfld, some_bind, hadd, hpatch, some_bind, hbus,
    some_bind, hlookup]

/-! ## One run -/

/-- The chain of `Add` and `Sub`. The gathers write bytes 1 and 2 of the source
address of each lookup, the patches byte 0 of all but the first. -/
def rippleChain (table row z w ret lhs rhs exit : Nat) (pos : 0 < z)
    (fits : z + 32 * (2 * w + 1) ≤ 2 ^ 32) : Chain where
  z := z
  n := 2 * w + 1
  f := rippleBlock table row z w ret lhs rhs
  patched k j := 2 ≤ k ∧ k % 2 = 0 ∧ (j = 1 ∨ j = 2 ∨ j = 0 ∧ 4 ≤ k)
  exit := exit
  pos := pos
  fits := fits

section Run

variable {E : Engine} {table row z w ret lhs rhs exit : Nat} {pos : 0 < z}
  {fits : z + 32 * (2 * w + 1) ≤ 2 ^ 32} {m : Memory}

theorem rippleChain_gather (hw : 1 ≤ w)
    (ho : Placement ⟨z, 32 * (2 * w + 1)⟩ [⟨table, 2 ^ 24⟩] ⟨ret, w⟩ [⟨lhs, w⟩, ⟨rhs, w⟩]) :
    Gather (rippleChain table row z w ret lhs rhs exit pos fits) w 2 lhs rhs where
  pos := hw
  dist := by decide
  fit k hk := by
    show 2 + 2 * k < 2 * w + 1
    omega
  next := Chain.next_eq_pc (rippleBlock_next ..)
  rhs_block := strided_isScatter (D := 63) (by decide) ..
  lhs_block := strided_isScatter (D := 63) (by decide) ..
  fixed k hk j _ := by
    rintro ⟨h, _⟩
    omega
  patched k _ j hj := ⟨by omega, by omega, by omega⟩
  lhs_fits := ho.input_fits ⟨lhs, w⟩ (by simp)
  rhs_fits := ho.input_fits ⟨rhs, w⟩ (by simp)
  lhs_apart := ho.input_code ⟨lhs, w⟩ (by simp)
  rhs_apart := ho.input_code ⟨rhs, w⟩ (by simp)

theorem rippleChain_ripple (hw : 1 ≤ w)
    (ho : Placement ⟨z, 32 * (2 * w + 1)⟩ [⟨table, 2 ^ 24⟩] ⟨ret, w⟩ [⟨lhs, w⟩, ⟨rhs, w⟩]) :
    Ripple (rippleChain table row z w ret lhs rhs exit pos fits) 2 w ret (if w = 1 then 2 else 1) where
  pos := hw
  n_eq := by
    show 2 * w + 1 + 1 = 2 + 2 * w
    omega
  next k _ _ := Chain.next_eq_pc (rippleBlock_next ..)
  lookup_ti i hi := by
    rcases Nat.eq_zero_or_pos i with rfl | hpos
    · rfl
    · exact congrArg Cblk.ti (rippleBlock_lookup table row z w ret lhs rhs hpos)
  lookup_dst i hi := by
    rcases Nat.eq_zero_or_pos i with rfl | hpos
    · rfl
    · exact congrArg Cblk.dst_addr (rippleBlock_lookup table row z w ret lhs rhs hpos)
  lookup_len i hi := by
    rcases Nat.eq_zero_or_pos i with rfl | hpos
    · rfl
    · refine (congrArg Cblk.txfr_len (rippleBlock_lookup table row z w ret lhs rhs hpos)).trans ?_
      exact if_pos (by omega)
  last_len := by
    rcases Nat.eq_or_lt_of_le hw with rfl | hmany
    · rfl
    · refine (congrArg Cblk.txfr_len
        (rippleBlock_lookup table row z w ret lhs rhs (i := w - 1) (by omega))).trans ?_
      rw [if_neg (show ¬ w - 1 < w - 1 by omega)]
      exact (if_neg (by omega)).symm
  last_eq := by
    split
    · exact .inr rfl
    · exact .inl rfl
  patch_len i _ := congrArg Cblk.txfr_len (rippleBlock_patch table row z w ret lhs rhs i)
  patch_dst i _ := congrArg Cblk.dst_addr (rippleBlock_patch table row z w ret lhs rhs i)
  patch_src i _ := congrArg Cblk.src_addr (rippleBlock_patch table row z w ret lhs rhs i)
  patch_fixed i _ j _ := by
    rintro ⟨_, h, _⟩
    omega
  patched i _ := ⟨by omega, by omega, .inr (.inr ⟨rfl, by omega⟩)⟩
  ret_fits := ho.ret_fits
  ret_apart := ho.ret_code

/-- One run: `dig` and `car` are what the table has for two operand bytes and a
carry. The result is its digits; besides the result only source addresses change,
and one byte behind a result of one byte. -/
theorem rippleChain_run {g : Nat → Nat → Nat → UInt8} {f : Nat → Nat → Nat → Nat}
    (hw : 1 ≤ w) (ho : Placement ⟨z, 32 * (2 * w + 1)⟩ [⟨table, 2 ^ 24⟩] ⟨ret, w⟩ [⟨lhs, w⟩, ⟨rhs, w⟩])
    (halign : table % 2 ^ 24 = 0) (htable : table + 2 ^ 24 ≤ 2 ^ 32) (hrow : row + 4 ≤ 256)
    (hdig : ∀ x < 256, ∀ y < 256, ∀ c ≤ 1,
      m (table + (x * 65536 + y * 256 + row + 2 * c)) = g x y c)
    (hcar : ∀ x < 256, ∀ y < 256, ∀ c ≤ 1,
      (m (table + (x * 65536 + y * 256 + row + 2 * c + 1))).toNat = row + 2 * f x y c)
    (hle : ∀ x y c, f x y c ≤ 1)
    (hin : (rippleChain table row z w ret lhs rhs exit pos fits).In m) :
    ∃ m', after E (2 * w + 1) ⟨z, m⟩ = ⟨exit, m'⟩ ∧
      (∀ k < w, m' (ret + k) = g (m (lhs + k)).toNat (m (rhs + k)).toNat
        (carries (fun i => f (m (lhs + i)).toNat (m (rhs + i)).toNat) 0 k)) ∧
      ∀ a, (∀ k < 2 * w + 1, ∀ j < 4, (rippleChain table row z w ret lhs rhs exit pos fits).patched k j →
        a ≠ srcField z k j) → a < ret ∨ ret + max w 2 ≤ a → m' a = m a := by
  generalize hC : rippleChain table row z w ret lhs rhs exit pos fits = C at hin ⊢
  have hg : Gather C w 2 lhs rhs := hC ▸ rippleChain_gather hw ho
  have hr : Ripple C 2 w ret (if w = 1 then 2 else 1) := hC ▸ rippleChain_ripple hw ho
  obtain ⟨m₁, hrun₁, hin₁, hrhs, hlhs, hkeep⟩ := hg.run (E := E) hin
  have hz : C.z = z := by rw [← hC]; rfl
  have hn : C.n = 2 * w + 1 := by rw [← hC]; rfl
  have hexit : C.exit = exit := by rw [← hC]; rfl
  have hcode : z + 32 * (2 * w + 1) ≤ table ∨ table + 2 ^ 24 ≤ z := ho.code_tables ⟨table, 2 ^ 24⟩ (by simp)
  have htab : ret + w ≤ table ∨ table + 2 ^ 24 ≤ ret := ho.ret_tables ⟨table, 2 ^ 24⟩ (by simp)
  have hl : ∀ k, (m (lhs + k)).toNat < 256 := fun k => (m (lhs + k)).toNat_lt
  have hr' : ∀ k, (m (rhs + k)).toNat < 256 := fun k => (m (rhs + k)).toNat_lt
  -- the rows of the lookups
  let A : Nat → Nat := fun k => table + (m (lhs + k)).toNat * 65536 + (m (rhs + k)).toNat * 256
  have hA : ∀ k < w, C.upper m₁ (2 + 2 * k) = A k := by
    intro k hk
    have h3 : (m₁ (C.src (2 + 2 * k) 3)).toNat = (C.f (2 + 2 * k)).src_addr / 256 ^ 3 % 256 := by
      refine hin₁.src _ (by omega) 3 (by decide) ?_
      rw [← hC]
      rintro ⟨_, _, h⟩
      omega
    have hsrc : (C.f (2 + 2 * k)).src_addr / 256 ^ 3 % 256 = table / 2 ^ 24 := by
      rw [← hC]
      rcases Nat.eq_zero_or_pos k with rfl | hpos
      · show (table + row) / 256 ^ 3 % 256 = _
        omega
      · show (rippleBlock table row z w ret lhs rhs (2 + 2 * k)).src_addr / 256 ^ 3 % 256 = _
        rw [rippleBlock_lookup _ _ _ _ _ _ _ hpos]
        show table / 256 ^ 3 % 256 = _
        omega
    rw [Chain.upper, hrhs k hk, hlhs k hk, h3, hsrc]
    show _ = table + (m (lhs + k)).toNat * 65536 + (m (rhs + k)).toNat * 256
    omega
  have hsel : (m₁ (C.src 2 0)).toNat = row + 2 * 0 := by
    have h0 : (m₁ (C.src 2 0)).toNat = (C.f 2).src_addr / 256 ^ 0 % 256 := by
      refine hin₁.src 2 (by omega) 0 (by decide) ?_
      rw [← hC]
      rintro ⟨_, _, h⟩
      omega
    have hsrc : (C.f 2).src_addr = table + row := by rw [← hC]; rfl
    rw [h0, hsrc]
    omega
  have hsame : ∀ a, table ≤ a → a < table + 2 ^ 24 → m₁ a = m a := by
    intro a ha ha'
    refine hkeep a fun k hk => ?_
    show a ≠ C.z + 32 * (2 + 2 * k) + 4 + 1 ∧ a ≠ C.z + 32 * (2 + 2 * k) + 4 + 2
    omega
  have hAk : ∀ k, table ≤ A k ∧ A k + row + 4 ≤ table + 2 ^ 24 := by
    intro k
    show table ≤ table + (m (lhs + k)).toNat * 65536 + (m (rhs + k)).toNat * 256 ∧
      table + (m (lhs + k)).toNat * 65536 + (m (rhs + k)).toNat * 256 + row + 4 ≤ _
    have := hl k
    have := hr' k
    omega
  have hrows : Rows m₁ A w row (fun i => g (m (lhs + i)).toNat (m (rhs + i)).toNat)
      (fun i => f (m (lhs + i)).toNat (m (rhs + i)).toNat) := by
    refine ⟨fun i _ c hc => ?_, fun i _ c hc => ?_, fun i _ c _ => hle _ _ _⟩
    · have hAi := hAk i
      rw [hsame _ (by omega) (by omega), ← hdig _ (hl i) _ (hr' i) c hc]
      congr 1
      show table + (m (lhs + i)).toNat * 65536 + (m (rhs + i)).toNat * 256 + row + 2 * c = _
      omega
    · have hAi := hAk i
      rw [hsame _ (by omega) (by omega), ← hcar _ (hl i) _ (hr' i) c hc]
      refine congrArg (fun a => (m a).toNat) ?_
      show table + (m (lhs + i)).toNat * 65536 + (m (rhs + i)).toNat * 256 + row + 2 * c + 1 = _
      omega
  have hapart : RowsApart C w ret row A :=
    ⟨fun i _ => by have := hAk i; omega, fun i _ => by have := hAk i; omega,
      fun i _ => by have := hAk i; omega⟩
  obtain ⟨m₂, hrun₂, hdone, hframe⟩ := hr.run (E := E) hin₁ hA hapart hrows (Nat.zero_le 1) hsel
  have hpc0 : C.pc 0 = z := by
    rw [Chain.pc_of_lt (by omega), hz]
    omega
  have hpc2 : C.next 1 = C.pc 2 := by
    refine Chain.next_eq_pc ?_
    rw [← hC]
    exact rippleBlock_next ..
  refine ⟨m₂, ?_, hdone, ?_⟩
  · rw [show 2 * w + 1 = 2 + (2 * w - 1) by omega, after_add, ← hpc0, hrun₁, hpc2, hrun₂, hexit]
  · intro a hpatched hout
    have hne : ∀ k < w, ∀ j, j = 1 ∨ j = 2 → a ≠ C.src (2 + 2 * k) j := by
      intro k hk j hj
      show a ≠ srcField C.z (2 + 2 * k) j
      rw [hz]
      exact hpatched _ (by omega) j (by omega) (hg.patched k hk j hj)
    rw [hframe a ?_ ?_]
    · exact hkeep a fun k hk => ⟨hne k hk 1 (.inl rfl), hne k hk 2 (.inr rfl)⟩
    · intro k hk
      show a ≠ srcField C.z (2 + 2 * (k + 1)) 0
      rw [hz]
      exact hpatched _ (by omega) 0 (by decide) (hr.patched k hk)
    · split <;> omega

end Run

end Bcm2835.Dma

import Bcm2835.Dma.TablesSpec
import Bcm2835.Dma.Runs
import Bcm2835.Dma.Gather
import Bcm2835.Dma.Ripple

/-!
# `Inc`

Its blocks by index, the chain they make, and what one run of it leaves. The carry
into the lowest byte is the one that is added.
-/

namespace Bcm2835.Dma

open Mem Digits EmitCtx

/-- Block `k` of `Inc`: the gather, then lookups at the odd places and patches
between them. -/
def incBlock (table z w ret inp k : Nat) : Cblk :=
  if k = 0 then strided z k INC2D (srcField z 1 1) inp w 1 63 0
  else if k % 2 = 1 then
    linear z k INC (ret + (k - 1) / 2) (table + (SUPER_INC + 2)) (if k < 2 * w - 1 then 2 else 1)
  else linear z k INC (srcField z (k + 1) 0) (ret + k / 2) 1

section Blocks

variable (table z w ret inp : Nat)

theorem incBlock_lookup (i : Nat) :
    incBlock table z w ret inp (1 + 2 * i) =
      linear z (1 + 2 * i) INC (ret + i) (table + (SUPER_INC + 2)) (if i < w - 1 then 2 else 1) := by
  have hdiv : (1 + 2 * i - 1) / 2 = i := by omega
  rw [incBlock, if_neg (by omega), if_pos (by omega), hdiv]
  congr 1
  by_cases h : i < w - 1
  · rw [if_pos h, if_pos (by omega)]
  · rw [if_neg h, if_neg (by omega)]

theorem incBlock_patch (i : Nat) :
    incBlock table z w ret inp (1 + 2 * i + 1) =
      linear z (1 + 2 * i + 1) INC (srcField z (1 + 2 * (i + 1)) 0) (ret + (i + 1)) 1 := by
  have hdiv : (1 + 2 * i + 1) / 2 = i + 1 := by omega
  rw [incBlock, if_neg (by omega), if_neg (by omega), hdiv]
  rfl

/-- Each block goes on at the one behind it. -/
theorem incBlock_next (k : Nat) : (incBlock table z w ret inp k).next_cb = z + 32 * (k + 1) := by
  unfold incBlock
  split
  · rfl
  split <;> rfl

end Blocks

/-- What `Inc` emits. -/
theorem Inc_eq (L : Layout) {ctx : EmitCtx} {w ret inp : Nat} (hroom : ctx.Room (2 * w))
    (hw : 1 ≤ w) (hw' : w ≤ 0x4000) (hret : ret + w < 2 ^ 32) :
    Inc L ctx w ret inp = some (ctx.fill
      (incBlock (L.SUPER + BUS_DRAM_BASE) ctx.label w ret inp) (2 * w)) := by
  have hz := hroom.label_aligned
  have hlt := hroom.label_lt
  have hsuper : L.SUPER + 2 ^ 16 ≤ ARM_DRAM_END := L.in_dram ⟨L.SUPER, 2 ^ 16⟩ (by simp)
  have hrow : bus_ L.SUPER (SUPER_INC + 2) = some (L.SUPER + BUS_DRAM_BASE + (SUPER_INC + 2)) := by
    have hoff : bus_ L.SUPER ((SUPER_INC + 2 : Nat) : Int) =
        some (L.SUPER + (SUPER_INC + 2) + BUS_DRAM_BASE) := by
      apply bus_off
      show L.SUPER + 2 < _
      omega
    exact hoff.trans (congrArg some (Nat.add_right_comm ..))
  generalize hf : incBlock (L.SUPER + BUS_DRAM_BASE) ctx.label w ret inp = f
  have hgather : EmitStrided ctx (srcField ctx.label 1 1) inp w 1 63 0 = some (ctx.fill f 1) :=
    EmitStrided_fill hroom (k := 0) (f := f) (c := 1) (by omega) hw hw' (by decide) (by rw [← hf]; rfl)
  have hdst : bus_rel_fld ctx.label 1 .FLD_SRC 1 = some (srcField ctx.label 1 1) :=
    bus_rel_fld_src (k := 0) hz (by decide) 1 rfl (by omega)
  have hlabel : Label ctx = some ctx.label := hroom.label_fill (Nat.zero_le _) f
  -- the lookups and the patches in front of them, and the last lookup
  have hlookup : ∀ i < w, Emit (ctx.fill f (1 + 2 * i)) (bus_add ret i)
      (L.SUPER + BUS_DRAM_BASE + (SUPER_INC + 2)) (if i < w - 1 then 2 else 1) =
        some (ctx.fill f (1 + 2 * i + 1)) := by
    intro i hi
    have hadd : bus_add ret (i : Nat) = ret + i := bus_add_nat (by omega)
    rw [hadd]
    refine Emit_fill hroom (k := 1 + 2 * i) (by omega) ?_
    rw [← hf, incBlock_lookup]
  have hpatch : ∀ i < w - 1, Emit (ctx.fill f (1 + 2 * i + 1)) (srcField ctx.label (1 + 2 * (i + 1)) 0)
      (ret + (i + 1)) 1 = some (ctx.fill f (1 + 2 * (i + 1))) := by
    intro i hi
    refine Emit_fill hroom (k := 1 + 2 * i + 1) (by omega) ?_
    rw [← hf, incBlock_patch]
  rw [Inc, guard_bind (by omega), hlabel, some_bind, hdst, some_bind, hgather, some_bind]
  have hloop := forLoop_eq (l := 0) (n := w) (s := fun i => ctx.fill f (min (1 + 2 * i) (2 * w)))
    (b := fun i ctx => do
      let d1 ← Label ctx
      let ctx ← Emit ctx (bus_add ret i) (← bus_ L.SUPER (SUPER_INC + 2)) (if i < w - 1 then 2 else 1)
      if i < w - 1 then Emit ctx (← bus_rel_fld d1 2 .FLD_SRC 0) (bus_add ret (i + 1)) 1
      else pure ctx)
  rw [show min (1 + 2 * 0) (2 * w) = 1 by omega, show min (1 + 2 * w) (2 * w) = 2 * w by omega] at hloop
  refine hloop fun i hi => ?_
  rw [Nat.zero_add, show min (1 + 2 * i) (2 * w) = 1 + 2 * i by omega]
  rw [hroom.label_fill (by omega) f, some_bind, hrow, some_bind, hlookup i hi, some_bind]
  by_cases hlast : i < w - 1
  · have hfld : bus_rel_fld (ctx.label + 32 * (1 + 2 * i)) 2 .FLD_SRC 0 =
        some (srcField ctx.label (1 + 2 * (i + 1)) 0) :=
      bus_rel_fld_src hz (by decide) _ (by push_cast; ring) (by omega)
    have hadd : bus_add ret ((i : Int) + 1) = ret + (i + 1) := bus_add_nat (d := i + 1) (by omega)
    rw [if_pos hlast, hfld, some_bind, hadd, hpatch i hlast,
      show min (1 + 2 * (i + 1)) (2 * w) = 1 + 2 * (i + 1) by omega]
  · rw [if_neg hlast, show min (1 + 2 * (i + 1)) (2 * w) = 1 + 2 * i + 1 by omega]
    rfl

/-! ## One run -/

/-- The chain of `Inc`. The gather writes byte 1 of the source address of each
lookup, the patches byte 0 of all but the first. -/
def incChain (table z w ret inp exit : Nat) (pos : 0 < z) (fits : z + 32 * (2 * w) ≤ 2 ^ 32) :
    Chain where
  z := z
  n := 2 * w
  f := incBlock table z w ret inp
  patched k j := k % 2 = 1 ∧ (j = 1 ∨ j = 0 ∧ 3 ≤ k)
  exit := exit
  pos := pos
  fits := fits

section Run

variable {E : Engine} {table z w ret inp exit : Nat} {pos : 0 < z}
  {fits : z + 32 * (2 * w) ≤ 2 ^ 32} {m : Memory}

theorem incChain_ripple (hw : 1 ≤ w)
    (ho : Placement ⟨z, 32 * (2 * w)⟩ [⟨table, 2 ^ 16⟩] ⟨ret, w⟩ [⟨inp, w⟩]) :
    Ripple (incChain table z w ret inp exit pos fits) 1 w ret 1 where
  pos := hw
  n_eq := Nat.add_comm ..
  next k _ _ := Chain.next_eq_pc (incBlock_next ..)
  lookup_ti i _ := congrArg Cblk.ti (incBlock_lookup table z w ret inp i)
  lookup_dst i _ := congrArg Cblk.dst_addr (incBlock_lookup table z w ret inp i)
  lookup_len i hi := by
    refine (congrArg Cblk.txfr_len (incBlock_lookup table z w ret inp i)).trans ?_
    exact if_pos (by omega)
  last_len := by
    refine (congrArg Cblk.txfr_len (incBlock_lookup table z w ret inp (w - 1))).trans ?_
    exact if_neg (Nat.lt_irrefl _)
  last_eq := .inl rfl
  patch_len i _ := congrArg Cblk.txfr_len (incBlock_patch table z w ret inp i)
  patch_dst i _ := congrArg Cblk.dst_addr (incBlock_patch table z w ret inp i)
  patch_src i _ := congrArg Cblk.src_addr (incBlock_patch table z w ret inp i)
  patch_fixed i _ j _ := by
    rintro ⟨h, _⟩
    omega
  patched i _ := ⟨by omega, .inr ⟨rfl, by omega⟩⟩
  ret_fits := ho.ret_fits
  ret_apart := ho.ret_code

/-- The operand is in the source addresses of the lookups, and nothing else has
changed. -/
theorem incChain_gather (hw : 1 ≤ w)
    (ho : Placement ⟨z, 32 * (2 * w)⟩ [⟨table, 2 ^ 16⟩] ⟨ret, w⟩ [⟨inp, w⟩])
    (hin : (incChain table z w ret inp exit pos fits).In m) :
    ∃ m', after E 1 ⟨z, m⟩ = ⟨z + 32, m'⟩ ∧ (incChain table z w ret inp exit pos fits).In m' ∧
      (∀ k < w, m' (srcField z (1 + 2 * k) 1) = m (inp + k)) ∧
      ∀ a, (∀ k < w, a ≠ srcField z (1 + 2 * k) 1) → m' a = m a := by
  have haddr : ∀ k, srcField z 1 1 + 64 * k = srcField z (1 + 2 * k) 1 := by
    intro k
    show z + 32 * 1 + 4 + 1 + 64 * k = z + 32 * (1 + 2 * k) + 4 + 1
    omega
  have hn : (incChain table z w ret inp exit pos fits).n = 2 * w := rfl
  obtain ⟨m', hstep, hget, hkeep⟩ := hin.gather (E := E) (k := 0) (by omega)
    (strided_isScatter (D := 63) (by decide) z 0 (srcField z 1 1) inp w) hw (by decide) (fun j _ => by
      rintro ⟨h, _⟩
      omega)
    (ho.input_fits ⟨inp, w⟩ (by simp)) (fun i hi => by
      show z ≤ srcField z 1 1 + 64 * i ∧ srcField z 1 1 + 64 * i < z + 32 * (2 * w)
      rw [haddr, srcField]
      omega)
    (ho.input_code ⟨inp, w⟩ (by simp))
  simp only [haddr] at hget hkeep
  have hpc : (incChain table z w ret inp exit pos fits).pc 0 = z := Chain.pc_of_lt (by omega)
  have hnext : (incChain table z w ret inp exit pos fits).next 0 = z + 32 :=
    (Chain.next_eq_pc (incBlock_next ..)).trans (Chain.pc_of_lt (by omega))
  refine ⟨m', ?_, ?_, hget, hkeep⟩
  · rw [after_succ, after_zero, ← hpc, hstep, hnext, hpc]
  · refine hin.congr fun a ha => hkeep a fun k hk => ?_
    obtain ⟨-, -, hfix, -⟩ := ha
    exact hfix (1 + 2 * k) (by omega) 1 (by decide) ⟨by omega, .inl rfl⟩

/-- One run: `dig` and `car` are what the table has for an operand byte and a carry.
The result is its digits, from the carry 1 on; besides the result only source
addresses change. -/
theorem incChain_run {g : Nat → Nat → UInt8} {f : Nat → Nat → Nat} (hw : 1 ≤ w)
    (ho : Placement ⟨z, 32 * (2 * w)⟩ [⟨table, 2 ^ 16⟩] ⟨ret, w⟩ [⟨inp, w⟩])
    (halign : table % 2 ^ 16 = 0) (htable : table + 2 ^ 16 ≤ 2 ^ 32)
    (hdig : ∀ x < 256, ∀ c ≤ 1, m (table + (x * 256 + 2 * c)) = g x c)
    (hcar : ∀ x < 256, ∀ c ≤ 1, (m (table + (x * 256 + 2 * c + 1))).toNat = 2 * f x c)
    (hle : ∀ x c, f x c ≤ 1) (hin : (incChain table z w ret inp exit pos fits).In m) :
    ∃ m', after E (2 * w) ⟨z, m⟩ = ⟨exit, m'⟩ ∧
      (∀ k < w, m' (ret + k) =
        g (m (inp + k)).toNat (carries (fun i => f (m (inp + i)).toNat) 1 k)) ∧
      ∀ a, (∀ k < 2 * w, ∀ j < 4, (incChain table z w ret inp exit pos fits).patched k j →
        a ≠ srcField z k j) → a < ret ∨ ret + w ≤ a → m' a = m a := by
  have hr : Ripple (incChain table z w ret inp exit pos fits) 1 w ret 1 := incChain_ripple hw ho
  obtain ⟨m₁, hrun₁, hin₁, hinp, hkeep⟩ := incChain_gather (E := E) hw ho hin
  generalize hC : incChain table z w ret inp exit pos fits = C at hr hin₁ ⊢
  have hz : C.z = z := by rw [← hC]; rfl
  have hn : C.n = 2 * w := by rw [← hC]; rfl
  have hexit : C.exit = exit := by rw [← hC]; rfl
  have hcode : z + 32 * (2 * w) ≤ table ∨ table + 2 ^ 16 ≤ z := ho.code_tables ⟨table, 2 ^ 16⟩ (by simp)
  have htab : ret + w ≤ table ∨ table + 2 ^ 16 ≤ ret := ho.ret_tables ⟨table, 2 ^ 16⟩ (by simp)
  have hlt : ∀ k, (m (inp + k)).toNat < 256 := fun k => (m (inp + k)).toNat_lt
  -- the lookups' source addresses but for the lowest byte, and the lowest of the first
  have hf : ∀ k < w, (C.f (1 + 2 * k)).src_addr = table + 2 := by
    intro k _
    rw [← hC]
    exact congrArg Cblk.src_addr (incBlock_lookup table z w ret inp k)
  have hsame : ∀ a, table ≤ a → a < table + 2 ^ 16 → m₁ a = m a := by
    intro a ha ha'
    refine hkeep a fun k hk => ?_
    rw [srcField]
    omega
  have hA : ∀ k < w, C.upper m₁ (1 + 2 * k) = table + (m (inp + k)).toNat * 256 := by
    intro k hk
    have hbyte : ∀ j, j = 2 ∨ j = 3 → (m₁ (C.src (1 + 2 * k) j)).toNat = (table + 2) / 256 ^ j % 256 := by
      intro j hj
      rw [← hf k hk]
      refine hin₁.src _ (by omega) j (by omega) ?_
      rw [← hC]
      rintro ⟨_, h⟩
      omega
    have h1 : m₁ (C.src (1 + 2 * k) 1) = m (inp + k) := by
      show m₁ (srcField C.z (1 + 2 * k) 1) = _
      rw [hz]
      exact hinp k hk
    rw [Chain.upper, h1, hbyte 2 (.inl rfl), hbyte 3 (.inr rfl)]
    omega
  have hsel : (m₁ (C.src 1 0)).toNat = 0 + 2 * 1 := by
    have h0 : (m₁ (C.src 1 0)).toNat = (C.f 1).src_addr / 256 ^ 0 % 256 := by
      refine hin₁.src 1 (by omega) 0 (by decide) ?_
      rw [← hC]
      rintro ⟨_, h⟩
      omega
    rw [h0, hf 0 (by omega)]
    omega
  have hrows : Rows m₁ (fun k => table + (m (inp + k)).toNat * 256) w 0
      (fun i => g (m (inp + i)).toNat) (fun i => f (m (inp + i)).toNat) := by
    refine ⟨fun i _ c hc => ?_, fun i _ c hc => ?_, fun i _ c _ => hle _ _⟩
    · have hi := hlt i
      rw [hsame _ (by omega) (by omega), ← hdig _ hi c hc]
      congr 1
      omega
    · have hi := hlt i
      rw [hsame _ (by omega) (by omega), Nat.zero_add, ← hcar _ hi c hc]
      refine congrArg (fun a => (m a).toNat) ?_
      omega
  have hapart : RowsApart C w ret 0 fun k => table + (m (inp + k)).toNat * 256 :=
    ⟨fun i _ => by have := hlt i; omega, fun i _ => by have := hlt i; omega,
      fun i _ => by have := hlt i; omega⟩
  obtain ⟨m₂, hrun₂, hdone, hframe⟩ := hr.run (E := E) hin₁ hA hapart hrows (Nat.le_refl 1) hsel
  have hpc1 : C.pc 1 = z + 32 := by
    rw [Chain.pc_of_lt (by omega), hz]
  refine ⟨m₂, ?_, hdone, ?_⟩
  · rw [show 2 * w = 1 + (2 * w - 1) by omega, after_add, hrun₁, ← hpc1, hrun₂, hexit]
  · intro a hpatched hout
    have hfield : ∀ k < 2 * w, ∀ j < 4, C.patched k j → a ≠ C.src k j := by
      intro k hk j hj hp
      show a ≠ srcField C.z k j
      rw [hz]
      exact hpatched k hk j hj hp
    rw [hframe a ?_ (by omega)]
    · refine hkeep a fun k hk => ?_
      refine hpatched (1 + 2 * k) (by omega) 1 (by decide) ?_
      rw [← hC]
      exact ⟨by omega, .inl rfl⟩
    · intro k hk
      exact hfield _ (by omega) 0 (by decide) (hr.patched k hk)

end Run

end Bcm2835.Dma

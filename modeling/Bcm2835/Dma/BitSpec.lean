import Bcm2835.Dma.TablesSpec
import Bcm2835.Dma.Runs
import Bcm2835.Dma.Gather
import Bcm2835.Dma.Steps

/-!
# `Not`, `And`, `Or` and `Xor`

Their blocks by index, the chains they make, and what one run of them leaves: the
operands are gathered into the source addresses of one lookup a byte before the
first byte of the result is written.
-/

namespace Bcm2835.Dma

open Mem EmitCtx

/-- Block `k` of `And`, `Or` and `Xor`: two gathers, then lookups. -/
def bitwiseBlock (table row z w ret lhs rhs k : Nat) : Cblk :=
  if k = 0 then strided z k INC2D (srcField z 2 1) lhs w 1 31 0
  else if k = 1 then strided z k INC2D (srcField z 2 2) rhs w 1 31 0
  else linear z k INC (ret + (k - 2)) (table + row) 1

/-- Block `k` of `Not`: a gather, then lookups. -/
def notBlock (table z w ret inp k : Nat) : Cblk :=
  if k = 0 then strided z k INC2D (srcField z 1 0) inp w 1 31 0
  else linear z k INC (ret + (k - 1)) table 1

section Blocks

variable (table row z w ret lhs rhs inp : Nat)

theorem bitwiseBlock_lookup (i : Nat) : bitwiseBlock table row z w ret lhs rhs (2 + i) =
    linear z (2 + i) INC (ret + i) (table + row) 1 := by
  rw [bitwiseBlock, if_neg (by omega), if_neg (by omega), Nat.add_sub_cancel_left]

/-- Each block goes on at the one behind it. -/
theorem bitwiseBlock_next (k : Nat) :
    (bitwiseBlock table row z w ret lhs rhs k).next_cb = z + 32 * (k + 1) := by
  unfold bitwiseBlock
  split
  · rfl
  split <;> rfl

theorem notBlock_lookup (i : Nat) :
    notBlock table z w ret inp (1 + i) = linear z (1 + i) INC (ret + i) table 1 := by
  rw [notBlock, if_neg (by omega), Nat.add_sub_cancel_left]

theorem notBlock_next (k : Nat) : (notBlock table z w ret inp k).next_cb = z + 32 * (k + 1) := by
  unfold notBlock
  split <;> rfl

end Blocks

/-- What `And`, `Or` and `Xor` emit. -/
theorem bitwise_eq (L : Layout) {ctx : EmitCtx} {row w ret lhs rhs : Nat} (hroom : ctx.Room (w + 2))
    (hw : 1 ≤ w) (hw' : w ≤ 0x4000) (hrow : row < 256) (hret : ret + w < 2 ^ 32) :
    bitwise L row ctx w ret lhs rhs = some (ctx.fill
      (bitwiseBlock (L.HYPER + BUS_DRAM_BASE) row ctx.label w ret lhs rhs) (w + 2)) := by
  have hz := hroom.label_aligned
  have hlt := hroom.label_lt
  have hhyper : L.HYPER + 2 ^ 24 ≤ ARM_DRAM_END := L.in_dram ⟨L.HYPER, 2 ^ 24⟩ (by simp)
  have hbus : bus_ L.HYPER row = some (L.HYPER + BUS_DRAM_BASE + row) := by
    have hoff : bus_ L.HYPER row = some (L.HYPER + row + BUS_DRAM_BASE) := bus_off (by omega)
    exact hoff.trans (congrArg some (Nat.add_right_comm ..))
  generalize hf : bitwiseBlock (L.HYPER + BUS_DRAM_BASE) row ctx.label w ret lhs rhs = f
  have hlhs : EmitStrided ctx (srcField ctx.label 2 1) lhs w 1 31 0 = some (ctx.fill f 1) :=
    EmitStrided_fill hroom (k := 0) (f := f) (c := 1) (by omega) hw hw' (by decide) (by rw [← hf]; rfl)
  have hrhs : EmitStrided (ctx.fill f 1) (srcField ctx.label 2 2) rhs w 1 31 0 =
      some (ctx.fill f 2) :=
    EmitStrided_fill hroom (k := 1) (c := 1) (by omega) hw hw' (by decide) (by rw [← hf]; rfl)
  have hdst₁ : bus_rel_fld ctx.label 2 .FLD_SRC 1 = some (srcField ctx.label 2 1) :=
    bus_rel_fld_src (k := 0) hz (by decide) 2 rfl (by omega)
  have hdst₂ : bus_rel_fld ctx.label 2 .FLD_SRC 2 = some (srcField ctx.label 2 2) :=
    bus_rel_fld_src (k := 0) hz (by decide) 2 rfl (by omega)
  have hlabel : Label ctx = some ctx.label := hroom.label_fill (Nat.zero_le _) f
  rw [bitwise, hlabel, some_bind, hdst₁, some_bind, hlhs, some_bind, hdst₂, some_bind, hrhs, some_bind]
  have hloop := forLoop_eq (l := 0) (n := w) (s := fun i => ctx.fill f (2 + i))
    (b := fun i ctx => do Emit ctx (bus_add ret i) (← bus_ L.HYPER row) 1)
  rw [show w + 2 = 2 + w by omega]
  refine hloop fun i hi => ?_
  have hadd : bus_add ret (0 + i : Nat) = ret + i := by
    rw [Nat.zero_add]
    exact bus_add_nat (by omega)
  rw [hadd, hbus, some_bind]
  refine Emit_fill hroom (k := 2 + i) (by omega) ?_
  rw [← hf, bitwiseBlock_lookup]

/-- What `Not` emits. -/
theorem Not_eq (L : Layout) {ctx : EmitCtx} {w ret inp : Nat} (hroom : ctx.Room (w + 1))
    (hw : 1 ≤ w) (hw' : w < 16) (hret : ret + w < 2 ^ 32) :
    Not L ctx w ret inp = some (ctx.fill
      (notBlock (L.NOT + BUS_DRAM_BASE) ctx.label w ret inp) (w + 1)) := by
  have hz := hroom.label_aligned
  have hlt := hroom.label_lt
  have hnot : L.NOT + 2 ^ 8 ≤ ARM_DRAM_END := L.in_dram ⟨L.NOT, 2 ^ 8⟩ (by simp)
  have hbus : bus L.NOT = some (L.NOT + BUS_DRAM_BASE) := bus_dram (by omega)
  generalize hf : notBlock (L.NOT + BUS_DRAM_BASE) ctx.label w ret inp = f
  have hgather : EmitStrided ctx (srcField ctx.label 1 0) inp w 1 31 0 = some (ctx.fill f 1) :=
    EmitStrided_fill hroom (k := 0) (f := f) (c := 1) (by omega) hw (by omega) (by decide)
      (by rw [← hf]; rfl)
  have hdst : bus_rel_fld ctx.label 1 .FLD_SRC 0 = some (srcField ctx.label 1 0) :=
    bus_rel_fld_src (k := 0) hz (by decide) 1 rfl (by omega)
  have hlabel : Label ctx = some ctx.label := hroom.label_fill (Nat.zero_le _) f
  rw [Not, guard_bind (by omega), guard_bind hw', hlabel, some_bind, hdst, some_bind, hgather, some_bind]
  have hloop := forLoop_eq (l := 0) (n := w) (s := fun i => ctx.fill f (1 + i))
    (b := fun i ctx => do Emit ctx (bus_add ret i) (← bus L.NOT) 1)
  rw [show w + 1 = 1 + w by omega]
  refine hloop fun i hi => ?_
  have hadd : bus_add ret (0 + i : Nat) = ret + i := by
    rw [Nat.zero_add]
    exact bus_add_nat (by omega)
  rw [hadd, hbus, some_bind]
  refine Emit_fill hroom (k := 1 + i) (by omega) ?_
  rw [← hf, notBlock_lookup]

/-! ## One run -/

/-- The chain of `And`, `Or` and `Xor`. The gathers write bytes 1 and 2 of the source
address of each lookup. -/
def bitwiseChain (table row z w ret lhs rhs exit : Nat) (pos : 0 < z)
    (fits : z + 32 * (w + 2) ≤ 2 ^ 32) : Chain where
  z := z
  n := w + 2
  f := bitwiseBlock table row z w ret lhs rhs
  patched k j := 2 ≤ k ∧ (j = 1 ∨ j = 2)
  exit := exit
  pos := pos
  fits := fits

/-- The chain of `Not`. The gather writes byte 0 of the source address of each
lookup. -/
def notChain (table z w ret inp exit : Nat) (pos : 0 < z) (fits : z + 32 * (w + 1) ≤ 2 ^ 32) :
    Chain where
  z := z
  n := w + 1
  f := notBlock table z w ret inp
  patched k j := 1 ≤ k ∧ j = 0
  exit := exit
  pos := pos
  fits := fits

/-- The lookups of a result that is clear of the blocks. -/
theorem Chain.lookups_of {C : Chain} {u w ret src : Nat} (hfit : u + w = C.n)
    (hf : ∀ i < w, C.f (u + i) = linear C.z (u + i) INC (ret + i) src 1)
    (hapart : Region.Apart ⟨ret, w⟩ ⟨C.z, 32 * C.n⟩) : Lookups C u w fun i => ret + i where
  fit := Nat.le_of_eq hfit
  len i hi := congrArg Cblk.txfr_len (hf i hi)
  dst_addr i hi := congrArg Cblk.dst_addr (hf i hi)
  next i hi := Chain.next_eq_pc (congrArg Cblk.next_cb (hf i hi))
  inj i _ j _ h := by omega
  clear i hi := by
    have hout : ret + w ≤ C.z ∨ C.z + 32 * C.n ≤ ret := hapart
    show ret + i < C.z ∨ C.z + 32 * C.n ≤ ret + i
    omega

section Run

variable {E : Engine} {table row z w ret lhs rhs inp exit : Nat} {pos : 0 < z} {m : Memory}

section Bitwise

variable {fits : z + 32 * (w + 2) ≤ 2 ^ 32}

theorem bitwiseChain_gather (hw : 1 ≤ w)
    (ho : Placement ⟨z, 32 * (w + 2)⟩ [⟨table, 2 ^ 24⟩] ⟨ret, w⟩ [⟨lhs, w⟩, ⟨rhs, w⟩]) :
    Gather (bitwiseChain table row z w ret lhs rhs exit pos fits) w 1 rhs lhs where
  pos := hw
  dist := by decide
  fit k hk := by
    show 2 + 1 * k < w + 2
    omega
  next := Chain.next_eq_pc (bitwiseBlock_next ..)
  rhs_block := strided_isScatter (D := 31) (by decide) ..
  lhs_block := strided_isScatter (D := 31) (by decide) ..
  fixed k hk j _ := by
    rintro ⟨h, _⟩
    omega
  patched k _ j hj := ⟨by omega, hj⟩
  lhs_fits := ho.input_fits ⟨rhs, w⟩ (by simp)
  rhs_fits := ho.input_fits ⟨lhs, w⟩ (by simp)
  lhs_apart := ho.input_code ⟨rhs, w⟩ (by simp)
  rhs_apart := ho.input_code ⟨lhs, w⟩ (by simp)

/-- One run: each byte of the result is the entry of the table for the two operand
bytes; besides the result only source addresses change. -/
theorem bitwiseChain_run (hw : 1 ≤ w)
    (ho : Placement ⟨z, 32 * (w + 2)⟩ [⟨table, 2 ^ 24⟩] ⟨ret, w⟩ [⟨lhs, w⟩, ⟨rhs, w⟩])
    (halign : table % 2 ^ 24 = 0) (htable : table + 2 ^ 24 ≤ 2 ^ 32) (hrow : row < 256)
    (hin : (bitwiseChain table row z w ret lhs rhs exit pos fits).In m) :
    ∃ m', after E (w + 2) ⟨z, m⟩ = ⟨exit, m'⟩ ∧
      (∀ k < w, m' (ret + k) =
        m (table + ((m (rhs + k)).toNat * 65536 + (m (lhs + k)).toNat * 256 + row))) ∧
      ∀ a, (∀ k < w + 2, ∀ j < 4, (bitwiseChain table row z w ret lhs rhs exit pos fits).patched k j →
        a ≠ srcField z k j) → a < ret ∨ ret + w ≤ a → m' a = m a := by
  have hg : Gather (bitwiseChain table row z w ret lhs rhs exit pos fits) w 1 rhs lhs :=
    bitwiseChain_gather hw ho
  have hl : (bitwiseChain table row z w ret lhs rhs exit pos fits).Lookups 2 w fun i => ret + i :=
    Chain.lookups_of (Nat.add_comm ..) (fun i _ => bitwiseBlock_lookup ..) ho.ret_code
  generalize hC : bitwiseChain table row z w ret lhs rhs exit pos fits = C at hg hl hin ⊢
  have hz : C.z = z := by rw [← hC]; rfl
  have hn : C.n = w + 2 := by rw [← hC]; rfl
  have hexit : C.exit = exit := by rw [← hC]; rfl
  obtain ⟨m₁, hrun₁, hin₁, hb1, hb2, hkeep⟩ := hg.run (E := E) hin
  simp only [Nat.one_mul] at hb1 hb2 hkeep
  have hcode : z + 32 * (w + 2) ≤ table ∨ table + 2 ^ 24 ≤ z := ho.code_tables ⟨table, 2 ^ 24⟩ (by simp)
  have htab : ret + w ≤ table ∨ table + 2 ^ 24 ≤ ret := ho.ret_tables ⟨table, 2 ^ 24⟩ (by simp)
  have hlt : ∀ a, (m a).toNat < 256 := fun a => (m a).toNat_lt
  -- the gathers leave bytes 0 and 3 of the source addresses
  have hfixed : ∀ k < w, ∀ j, j = 0 ∨ j = 3 →
      (m₁ (C.src (2 + k) j)).toNat = (table + row) / 256 ^ j % 256 := by
    intro k hk j hj
    have hsrc : (C.f (2 + k)).src_addr = table + row := by
      rw [← hC]
      exact congrArg Cblk.src_addr (bitwiseBlock_lookup table row z w ret lhs rhs k)
    rw [← hsrc]
    refine hin₁.src _ (by omega) j (by omega) ?_
    rw [← hC]
    rintro ⟨_, h⟩
    omega
  have hsource : ∀ k < w, C.source m₁ (2 + k) =
      table + ((m (rhs + k)).toNat * 65536 + (m (lhs + k)).toNat * 256 + row) := by
    intro k hk
    have h1 := hlt (lhs + k)
    have h2 := hlt (rhs + k)
    rw [Chain.source_eq, hb1 k hk, hb2 k hk, hfixed k hk 0 (.inl rfl), hfixed k hk 3 (.inr rfl)]
    omega
  obtain ⟨m₂, hgo, _, hdone, hframe⟩ := hl.run (E := E) hin₁ hsource (fun i _ j _ => by
    have h1 := hlt (lhs + i)
    have h2 := hlt (rhs + i)
    omega) (Nat.le_refl w)
  have hpc0 : C.pc 0 = z := by
    rw [Chain.pc_of_lt (by omega), hz]
    omega
  have hpc2 : C.next 1 = C.pc 2 := by
    refine Chain.next_eq_pc ?_
    rw [← hC]
    exact bitwiseBlock_next ..
  have hpcn : C.pc (2 + w) = exit := by
    rw [Chain.pc, if_pos (by omega), hexit]
  refine ⟨m₂, ?_, ?_, ?_⟩
  · rw [show w + 2 = 2 + w by omega, after_add, ← hpc0, hrun₁, hpc2, hgo, hpcn]
  · intro k hk
    rw [hdone k hk]
    have h1 := hlt (lhs + k)
    have h2 := hlt (rhs + k)
    refine hkeep _ fun i hi => ?_
    show _ ≠ C.z + 32 * (2 + i) + 4 + 1 ∧ _ ≠ C.z + 32 * (2 + i) + 4 + 2
    omega
  · intro a hpatched hout
    rw [hframe a fun t ht => by omega]
    refine hkeep a fun k hk => ?_
    rw [Chain.src, Chain.src, hz]
    have hp := hg.patched k hk
    rw [Nat.one_mul] at hp
    exact ⟨hpatched (2 + k) (by omega) 1 (by decide) (hp 1 (.inl rfl)),
      hpatched (2 + k) (by omega) 2 (by decide) (hp 2 (.inr rfl))⟩

end Bitwise

section Not

variable {fits : z + 32 * (w + 1) ≤ 2 ^ 32}

/-- The operand is in the source addresses of the lookups, and nothing else has
changed. -/
theorem notChain_gather (hw : 1 ≤ w)
    (ho : Placement ⟨z, 32 * (w + 1)⟩ [⟨table, 2 ^ 8⟩] ⟨ret, w⟩ [⟨inp, w⟩])
    (hin : (notChain table z w ret inp exit pos fits).In m) :
    ∃ m', after E 1 ⟨z, m⟩ = ⟨z + 32, m'⟩ ∧ (notChain table z w ret inp exit pos fits).In m' ∧
      (∀ k < w, m' (srcField z (1 + k) 0) = m (inp + k)) ∧
      ∀ a, (∀ k < w, a ≠ srcField z (1 + k) 0) → m' a = m a := by
  have haddr : ∀ k, srcField z 1 0 + 32 * k = srcField z (1 + k) 0 := by
    intro k
    show z + 32 * 1 + 4 + 0 + 32 * k = z + 32 * (1 + k) + 4 + 0
    omega
  have hn : (notChain table z w ret inp exit pos fits).n = w + 1 := rfl
  obtain ⟨m', hstep, hget, hkeep⟩ := hin.gather (E := E) (k := 0) (by omega)
    (strided_isScatter (D := 31) (by decide) z 0 (srcField z 1 0) inp w) hw (by decide) (fun j _ => by
      rintro ⟨h, _⟩
      omega)
    (ho.input_fits ⟨inp, w⟩ (by simp)) (fun i hi => by
      show z ≤ srcField z 1 0 + 32 * i ∧ srcField z 1 0 + 32 * i < z + 32 * (w + 1)
      rw [haddr, srcField]
      omega)
    (ho.input_code ⟨inp, w⟩ (by simp))
  simp only [haddr] at hget hkeep
  have hpc : (notChain table z w ret inp exit pos fits).pc 0 = z := Chain.pc_of_lt (by omega)
  have hnext : (notChain table z w ret inp exit pos fits).next 0 = z + 32 :=
    (Chain.next_eq_pc (notBlock_next ..)).trans (Chain.pc_of_lt (by omega))
  refine ⟨m', ?_, ?_, hget, hkeep⟩
  · rw [after_succ, after_zero, ← hpc, hstep, hnext, hpc]
  · refine hin.congr fun a ha => hkeep a fun k hk => ?_
    obtain ⟨-, -, hfix, -⟩ := ha
    exact hfix (1 + k) (by omega) 0 (by decide) ⟨by omega, rfl⟩

/-- One run: each byte of the result is the entry of the table for the operand byte;
besides the result only source addresses change. -/
theorem notChain_run (hw : 1 ≤ w)
    (ho : Placement ⟨z, 32 * (w + 1)⟩ [⟨table, 2 ^ 8⟩] ⟨ret, w⟩ [⟨inp, w⟩])
    (halign : table % 2 ^ 8 = 0) (htable : table + 2 ^ 8 ≤ 2 ^ 32)
    (hin : (notChain table z w ret inp exit pos fits).In m) :
    ∃ m', after E (w + 1) ⟨z, m⟩ = ⟨exit, m'⟩ ∧
      (∀ k < w, m' (ret + k) = m (table + (m (inp + k)).toNat)) ∧
      ∀ a, (∀ k < w + 1, ∀ j < 4, (notChain table z w ret inp exit pos fits).patched k j →
        a ≠ srcField z k j) → a < ret ∨ ret + w ≤ a → m' a = m a := by
  have hl : (notChain table z w ret inp exit pos fits).Lookups 1 w fun i => ret + i :=
    Chain.lookups_of (Nat.add_comm ..) (fun i _ => notBlock_lookup ..) ho.ret_code
  obtain ⟨m₁, hrun₁, hin₁, hinp, hkeep⟩ := notChain_gather (E := E) hw ho hin
  generalize hC : notChain table z w ret inp exit pos fits = C at hl hin₁ ⊢
  have hz : C.z = z := by rw [← hC]; rfl
  have hn : C.n = w + 1 := by rw [← hC]; rfl
  have hexit : C.exit = exit := by rw [← hC]; rfl
  have hcode : z + 32 * (w + 1) ≤ table ∨ table + 2 ^ 8 ≤ z := ho.code_tables ⟨table, 2 ^ 8⟩ (by simp)
  have htab : ret + w ≤ table ∨ table + 2 ^ 8 ≤ ret := ho.ret_tables ⟨table, 2 ^ 8⟩ (by simp)
  have hlt : ∀ a, (m a).toNat < 256 := fun a => (m a).toNat_lt
  have hfixed : ∀ k < w, ∀ j, 1 ≤ j → j < 4 →
      (m₁ (C.src (1 + k) j)).toNat = table / 256 ^ j % 256 := by
    intro k hk j hj hj'
    have hsrc : (C.f (1 + k)).src_addr = table := by
      rw [← hC]
      exact congrArg Cblk.src_addr (notBlock_lookup table z w ret inp k)
    rw [← hsrc]
    refine hin₁.src _ (by omega) j hj' ?_
    rw [← hC]
    rintro ⟨_, h⟩
    omega
  have hsource : ∀ k < w, C.source m₁ (1 + k) = table + (m (inp + k)).toNat := by
    intro k hk
    have h0 : m₁ (C.src (1 + k) 0) = m (inp + k) := by
      rw [Chain.src, hz]
      exact hinp k hk
    have hb := hlt (inp + k)
    rw [Chain.source_eq, h0, hfixed k hk 1 (by decide) (by decide),
      hfixed k hk 2 (by decide) (by decide), hfixed k hk 3 (by decide) (by decide)]
    omega
  obtain ⟨m₂, hgo, _, hdone, hframe⟩ := hl.run (E := E) hin₁ hsource (fun i _ j _ => by
    have hb := hlt (inp + i)
    omega) (Nat.le_refl w)
  have hpc1 : C.pc 1 = z + 32 := by rw [Chain.pc_of_lt (by omega), hz]
  have hpcn : C.pc (1 + w) = exit := by rw [Chain.pc, if_pos (by omega), hexit]
  refine ⟨m₂, ?_, ?_, ?_⟩
  · rw [show w + 1 = 1 + w by omega, after_add, hrun₁, ← hpc1, hgo, hpcn]
  · intro k hk
    rw [hdone k hk]
    have hb := hlt (inp + k)
    refine hkeep _ fun i hi => ?_
    rw [srcField]
    omega
  · intro a hpatched hout
    rw [hframe a fun t ht => by omega]
    refine hkeep a fun k hk => hpatched (1 + k) (by omega) 0 (by decide) ?_
    rw [← hC]
    exact ⟨by omega, rfl⟩

end Not

end Run

end Bcm2835.Dma

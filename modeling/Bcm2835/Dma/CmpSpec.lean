import Bcm2835.Dma.TablesSpec
import Bcm2835.Dma.Runs
import Bcm2835.Dma.Gather
import Bcm2835.Dma.Thread

/-!
# Comparisons

`Geu`, `Equ` and `Ges` gather their operands into the lookups, thread a state
through these and look the answer up in a truth table. They differ in the rows of
`HYPER`, in the state they start from and in the order of the lookups.
-/

namespace Bcm2835.Dma

open Mem Digits EmitCtx

/-- The blocks of a comparison of `w` bytes: gathers, lookups in the order `v`, and
the lookup in the table at `truth`. -/
structure Compare (C : Chain) (v : Nat → Nat) (w lhs rhs ret8 table start truth : Nat) : Prop where
  gather : Gather C w 1 lhs rhs
  thread : Thread C v w
  n_eq : C.n = w + 3
  enter : C.next 1 = C.pc (v 0)
  order : ∀ t < w, 2 ≤ v t ∧ v t < w + 2
  last : v w = w + 2
  lookup_src : ∀ k, 2 ≤ k → k < w + 2 → (C.f k).src_addr = table + start
  lookup_top : ∀ k, 2 ≤ k → k < w + 2 → ¬ C.patched k 3
  first : ¬ C.patched (v 0) 0
  truth_len : (C.f (w + 2)).txfr_len = 1
  truth_dst : (C.f (w + 2)).dst_addr = ret8
  truth_src : (C.f (w + 2)).src_addr = truth
  truth_next : C.next (w + 2) = C.exit
  truth_fixed : ∀ j, 1 ≤ j → j < 4 → ¬ C.patched (w + 2) j

/-- The tables of a comparison: aligned, and clear of the blocks. -/
structure CompareTables (C : Chain) (table start truth : Nat) : Prop where
  start_lt : start < 256
  table_aligned : table % 2 ^ 24 = 0
  table_fits : table + 2 ^ 24 ≤ 2 ^ 32
  table_code : Region.Apart ⟨C.z, 32 * C.n⟩ ⟨table, 2 ^ 24⟩
  truth_aligned : truth % 2 ^ 8 = 0
  truth_fits : truth + 2 ^ 8 ≤ 2 ^ 32
  truth_code : Region.Apart ⟨C.z, 32 * C.n⟩ ⟨truth, 2 ^ 8⟩

/-- The row of `HYPER` for byte `i` of the operands. -/
def hyperRow (m : Memory) (table lhs rhs i : Nat) : Nat :=
  table + (m (lhs + i)).toNat * 65536 + (m (rhs + i)).toNat * 256

theorem hyperRow_range (m : Memory) (table lhs rhs i : Nat) :
    table ≤ hyperRow m table lhs rhs i ∧ hyperRow m table lhs rhs i + 256 ≤ table + 2 ^ 24 := by
  have := (m (lhs + i)).toNat_lt
  have := (m (rhs + i)).toNat_lt
  rw [hyperRow]
  omega

section

variable {E : Engine} {C : Chain} {v : Nat → Nat} {w lhs rhs ret8 table start truth : Nat}
  {s : Nat → Nat} {m : Memory}

/-- One run. The states are `s 0, s 1, …`; the lookups run in their order, the
truth table is read for the last state, and besides the result only source
addresses change. -/
theorem Compare.run (h : Compare C v w lhs rhs ret8 table start truth)
    (ht : CompareTables C table start truth) (hin : C.In m) (hst0 : s 0 = start)
    (hlt : ∀ t ≤ w, s t < 256)
    (hst : ∀ t < w, (m (hyperRow m table lhs rhs (v t - 2) + s t)).toNat = s (t + 1)) :
    ∃ m', after E (w + 3) ⟨C.pc 0, m⟩ = ⟨C.exit, m'⟩ ∧ m' ret8 = m (truth + s w) ∧
      (∀ a, a ≠ ret8 → (∀ k < C.n, ∀ j < 4, C.patched k j → a ≠ C.src k j) → m' a = m a) ∧
      ∀ t ≤ w, (after E (2 + t) ⟨C.pc 0, m⟩).conblk_ad = C.pc (v t) := by
  have hn := h.n_eq
  have hfits := C.fits
  have htab : C.z + 32 * C.n ≤ table ∨ table + 2 ^ 24 ≤ C.z := ht.table_code
  have htru : C.z + 32 * C.n ≤ truth ∨ truth + 2 ^ 8 ≤ C.z := ht.truth_code
  obtain ⟨m₁, hrun₁, hin₁, hrhs, hlhs, hkeep⟩ := h.gather.run (E := E) hin
  have hsame : ∀ a, a < C.z ∨ C.z + 32 * C.n ≤ a → m₁ a = m a := by
    intro a ha
    refine hkeep a fun k hk => ?_
    show a ≠ C.z + 32 * (2 + 1 * k) + 4 + 1 ∧ a ≠ C.z + 32 * (2 + 1 * k) + 4 + 2
    omega
  have hupper : ∀ t < w, C.upper m₁ (v t) = hyperRow m table lhs rhs (v t - 2) := by
    intro t htw
    obtain ⟨hlo, hhi⟩ := h.order t htw
    have hk : 2 + 1 * (v t - 2) = v t := by omega
    have h1 := hrhs (v t - 2) (by omega)
    have h2 := hlhs (v t - 2) (by omega)
    rw [hk] at h1 h2
    have h3 := hin₁.src (v t) (by omega) 3 (by decide) (h.lookup_top _ hlo hhi)
    rw [h.lookup_src _ hlo hhi] at h3
    have halign := ht.table_aligned
    have hstart := ht.start_lt
    have hfit := ht.table_fits
    rw [Chain.upper, h1, h2, h3, hyperRow]
    omega
  have hstart : (m₁ (C.src (v 0) 0)).toNat = s 0 := by
    obtain ⟨hlo, hhi⟩ := h.order 0 h.gather.pos
    rw [hin₁.src (v 0) (by omega) 0 (by decide) h.first, h.lookup_src _ hlo hhi, hst0]
    have halign := ht.table_aligned
    have hstart := ht.start_lt
    omega
  have hrange : ∀ t < w, C.upper m₁ (v t) + s t < C.z ∨
      C.z + 32 * C.n ≤ C.upper m₁ (v t) + s t := by
    intro t htw
    have hr := hyperRow_range m table lhs rhs (v t - 2)
    have hs := hlt t (by omega)
    rw [hupper t htw]
    omega
  have htable : ∀ t < w, (m₁ (C.upper m₁ (v t) + s t)).toNat = s (t + 1) := by
    intro t htw
    rw [hsame _ (hrange t htw), hupper t htw]
    exact hst t htw
  have hthread : ∀ t ≤ w, ∃ m₂, after E (2 + t) ⟨C.pc 0, m⟩ = ⟨C.pc (v t), m₂⟩ ∧
      ThreadInv C v w s m₁ t m₂ := by
    intro t htw
    obtain ⟨m₂, hrun₂, hinv⟩ := h.thread.run (E := E) hin₁ htable hrange hstart htw
    refine ⟨m₂, ?_, hinv⟩
    rw [after_add, hrun₁, h.enter, hrun₂]
  obtain ⟨m₂, hrun₂, hinv⟩ := hthread w (Nat.le_refl w)
  -- the truth table
  have hup : C.upper m₁ (w + 2) = truth := by
    have h1 := hin₁.src (w + 2) (by omega) 1 (by decide) (h.truth_fixed 1 (by decide) (by decide))
    have h2 := hin₁.src (w + 2) (by omega) 2 (by decide) (h.truth_fixed 2 (by decide) (by decide))
    have h3 := hin₁.src (w + 2) (by omega) 3 (by decide) (h.truth_fixed 3 (by decide) (by decide))
    rw [h.truth_src] at h1 h2 h3
    have halign := ht.truth_aligned
    have hfit := ht.truth_fits
    rw [Chain.upper, h1, h2, h3]
    omega
  have hsrc : C.source m₂ (w + 2) = truth + s w := by
    have := hinv.source
    rwa [h.last, hup] at this
  have hstw := hlt w (Nat.le_refl w)
  have hanswer : m₂ (truth + s w) = m (truth + s w) := by
    rw [hinv.frame, hsame _ (by omega)]
    intro s hs
    have := h.thread.lt (s + 1) hs
    show _ ≠ C.z + 32 * v (s + 1) + 4 + 0
    omega
  have hstep := (hinv.chain h.thread hin₁).step_one (E := E) (k := w + 2) (by omega) h.truth_len
  rw [hsrc, h.truth_dst, h.truth_next, hanswer] at hstep
  refine ⟨Function.update m₂ ret8 (m (truth + s w)), ?_, Function.update_self .., ?_, ?_⟩
  · rw [show w + 3 = 2 + w + 1 by omega, after_succ, hrun₂, h.last, hstep]
  · intro a ha hpatched
    rw [Function.update_of_ne ha, hinv.frame a, hkeep a]
    · intro k hk
      have hfit := h.gather.fit k hk
      exact ⟨hpatched _ hfit 1 (by decide) (h.gather.patched k hk 1 (.inl rfl)),
        hpatched _ hfit 2 (by decide) (h.gather.patched k hk 2 (.inr rfl))⟩
    · intro s hs
      exact hpatched _ (h.thread.lt (s + 1) hs) 0 (by decide) (h.thread.patched s hs)
  · intro t htw
    obtain ⟨m₂, hrun₂, _⟩ := hthread t htw
    rw [hrun₂]

end

/-! ## `Geu` and `Equ` -/

/-- Block `k` of `Geu` and `Equ`. -/
def compareBlock (table start truth z w ret8 lhs rhs k : Nat) : Cblk :=
  if k = 0 then strided z k INC2D (srcField z 2 1) rhs w 1 31 0
  else if k = 1 then strided z k INC2D (srcField z 2 2) lhs w 1 31 0
  else if k < w + 2 then linear z k INC (srcField z (k + 1) 0) (table + start) 1
  else linear z k INC ret8 truth 1

theorem compareBlock_next (table start truth z w ret8 lhs rhs k : Nat) :
    (compareBlock table start truth z w ret8 lhs rhs k).next_cb = z + 32 * (k + 1) := by
  unfold compareBlock
  split
  · rfl
  split
  · rfl
  split <;> rfl

theorem compareBlock_lookup (table start truth z ret8 lhs rhs : Nat) {w k : Nat} (hk : 2 ≤ k)
    (hkw : k < w + 2) : compareBlock table start truth z w ret8 lhs rhs k =
      linear z k INC (srcField z (k + 1) 0) (table + start) 1 := by
  rw [compareBlock, if_neg (by omega), if_neg (by omega), if_pos hkw]

theorem compareBlock_truth (table start truth z ret8 lhs rhs w : Nat) :
    compareBlock table start truth z w ret8 lhs rhs (w + 2) = linear z (w + 2) INC ret8 truth 1 := by
  rw [compareBlock, if_neg (by omega), if_neg (by omega), if_neg (by omega)]

/-- The truth tables are in memory the engine reaches. -/
theorem truthTable_fits (L : Layout) (flags : Nat) :
    truthTable L flags + 2 ^ 8 ≤ ARM_DRAM_END ∧ truthTable L flags % 2 ^ 8 = 0 := by
  rw [truthTable]
  split
  · split
    · exact ⟨L.in_dram ⟨L.ANTIPOLAR_TRUTH_X4, 2 ^ 8⟩ (by simp), L.antipolar_x4_aligned⟩
    · exact ⟨L.in_dram ⟨L.POLAR_TRUTH_X4, 2 ^ 8⟩ (by simp), L.polar_x4_aligned⟩
  · split
    · exact ⟨L.in_dram ⟨L.ANTIPOLAR_TRUTH_X1, 2 ^ 8⟩ (by simp), L.antipolar_x1_aligned⟩
    · exact ⟨L.in_dram ⟨L.POLAR_TRUTH_X1, 2 ^ 8⟩ (by simp), L.polar_x1_aligned⟩

section Emission

variable (L : Layout) {ctx : EmitCtx} {start w ret8 lhs rhs flags : Nat}

/-- The gathers at the start of a comparison. -/
theorem gathers_eq {n : Nat} (hroom : ctx.Room n) (hn : w + 2 ≤ n) (hw : 1 ≤ w) (hw' : w ≤ 0x4000)
    {f : Nat → Cblk} (h0 : f 0 = strided ctx.label 0 INC2D (srcField ctx.label 2 1) rhs w 1 31 0)
    (h1 : f 1 = strided ctx.label 1 INC2D (srcField ctx.label 2 2) lhs w 1 31 0) :
    EmitStrided ctx (srcField ctx.label 2 1) rhs w 1 31 0 = some (ctx.fill f 1) ∧
    EmitStrided (ctx.fill f 1) (srcField ctx.label 2 2) lhs w 1 31 0 = some (ctx.fill f 2) :=
  ⟨EmitStrided_fill hroom (k := 0) (f := f) (c := 1) (by omega) hw hw' (by decide) h0,
    EmitStrided_fill hroom (k := 1) (c := 1) (by omega) hw hw' (by decide) h1⟩

/-- What `Geu` and `Equ` emit. -/
theorem compare_eq (hroom : ctx.Room (w + 3)) (hw : 1 ≤ w) (hw' : w ≤ 0x4000) (hstart : start < 256) :
    compare L start ctx w ret8 lhs rhs flags = some (ctx.fill
      (compareBlock (L.HYPER + BUS_DRAM_BASE) start (truthTable L flags + BUS_DRAM_BASE) ctx.label w
        ret8 lhs rhs) (w + 3)) := by
  have hz := hroom.label_aligned
  have hlt := hroom.label_lt
  have hhyper : L.HYPER + 2 ^ 24 ≤ ARM_DRAM_END := L.in_dram ⟨L.HYPER, 2 ^ 24⟩ (by simp)
  have htruth := (truthTable_fits L flags).1
  have hbus : bus_ L.HYPER start = some (L.HYPER + start + BUS_DRAM_BASE) := bus_off (by omega)
  have hbus' : bus (truthTable L flags) = some (truthTable L flags + BUS_DRAM_BASE) :=
    bus_dram (by omega)
  generalize hf : compareBlock (L.HYPER + BUS_DRAM_BASE) start (truthTable L flags + BUS_DRAM_BASE)
    ctx.label w ret8 lhs rhs = f
  obtain ⟨hrhs, hlhs⟩ := gathers_eq (f := f) hroom (by omega) hw hw'
    (by rw [← hf]; rfl) (by rw [← hf]; rfl)
  have hdst₁ : bus_rel_fld ctx.label 2 .FLD_SRC 1 = some (srcField ctx.label 2 1) :=
    bus_rel_fld_src (k := 0) hz (by decide) 2 rfl (by omega)
  have hdst₂ : bus_rel_fld ctx.label 2 .FLD_SRC 2 = some (srcField ctx.label 2 2) :=
    bus_rel_fld_src (k := 0) hz (by decide) 2 rfl (by omega)
  have hlabel : Label ctx = some ctx.label := hroom.label_fill (Nat.zero_le _) f
  have hloop := forLoop_eq (l := 0) (n := w) (s := fun i => ctx.fill f (2 + i))
    (b := fun _ ctx => do
      let d1 ← Label ctx
      Emit ctx (← bus_rel_fld d1 1 .FLD_SRC 0) (← bus_ L.HYPER start) 1) fun i hi => by
    have hfld : bus_rel_fld (ctx.label + 32 * (2 + i)) 1 .FLD_SRC 0 =
        some (srcField ctx.label (2 + i + 1) 0) :=
      bus_rel_fld_src hz (by decide) _ (by push_cast; ring) (by omega)
    have hlookup : Emit (ctx.fill f (2 + i)) (srcField ctx.label (2 + i + 1) 0)
        (L.HYPER + start + BUS_DRAM_BASE) 1 = some (ctx.fill f (2 + (i + 1))) := by
      refine Emit_fill hroom (k := 2 + i) (by omega) ?_
      rw [← hf, compareBlock_lookup _ _ _ _ _ _ _ (by omega) (by omega),
        show L.HYPER + start + BUS_DRAM_BASE = L.HYPER + BUS_DRAM_BASE + start by omega]
    rw [hroom.label_fill (by omega) f, some_bind, hfld, some_bind, hbus, some_bind, hlookup]
  have hanswer : Emit (ctx.fill f (2 + w)) ret8 (truthTable L flags + BUS_DRAM_BASE) 1 =
      some (ctx.fill f (w + 3)) := by
    rw [Nat.add_comm 2 w]
    refine Emit_fill hroom (k := w + 2) (by omega) ?_
    rw [← hf, compareBlock_truth]
  rw [compare, guard_bind (by omega), hlabel, some_bind, hdst₁, some_bind, hrhs, some_bind, hdst₂,
    some_bind, hlhs, some_bind, hloop, some_bind, hbus', some_bind, hanswer]

end Emission

/-- The chain of `Geu` and `Equ`. -/
def compareChain (table start truth z w ret8 lhs rhs exit : Nat) (pos : 0 < z)
    (fits : z + 32 * (w + 3) ≤ 2 ^ 32) : Chain where
  z := z
  n := w + 3
  f := compareBlock table start truth z w ret8 lhs rhs
  patched k j := 2 ≤ k ∧ (k < w + 2 ∧ (j = 1 ∨ j = 2) ∨ j = 0 ∧ 3 ≤ k)
  exit := exit
  pos := pos
  fits := fits

theorem compareChain_compare {table start truth z w ret8 lhs rhs exit : Nat} {pos : 0 < z}
    {fits : z + 32 * (w + 3) ≤ 2 ^ 32} (hw : 1 ≤ w) {tables : List Region}
    (ho : Placement ⟨z, 32 * (w + 3)⟩ tables ⟨ret8, 1⟩ [⟨lhs, w⟩, ⟨rhs, w⟩]) :
    Compare (compareChain table start truth z w ret8 lhs rhs exit pos fits) (fun t => 2 + t)
      w lhs rhs ret8 table start truth where
  gather :=
    { pos := hw
      dist := by decide
      fit := fun k hk => by
        show 2 + 1 * k < w + 3
        omega
      next := Chain.next_eq_pc (compareBlock_next ..)
      rhs_block := strided_isScatter (D := 31) (by decide) ..
      lhs_block := strided_isScatter (D := 31) (by decide) ..
      fixed := fun k hk j _ h => by
        have := h.1
        omega
      patched := fun k hk j hj => ⟨by omega, .inl ⟨by omega, hj⟩⟩
      lhs_fits := ho.input_fits ⟨lhs, w⟩ (by simp)
      rhs_fits := ho.input_fits ⟨rhs, w⟩ (by simp)
      lhs_apart := ho.input_code ⟨lhs, w⟩ (by simp)
      rhs_apart := ho.input_code ⟨rhs, w⟩ (by simp) }
  thread :=
    { lt := fun t ht => by
        show 2 + t < w + 3
        omega
      inj := fun s _ t _ h => Nat.add_left_cancel h
      len := fun t ht => congrArg Cblk.txfr_len
        (compareBlock_lookup table start truth z ret8 lhs rhs (by omega) (by omega))
      dst := fun t ht => congrArg Cblk.dst_addr
        (compareBlock_lookup table start truth z ret8 lhs rhs (by omega) (by omega))
      next := fun t ht => Chain.next_eq_pc (compareBlock_next ..)
      patched := fun t ht => ⟨by omega, .inr ⟨rfl, by omega⟩⟩ }
  n_eq := rfl
  enter := Chain.next_eq_pc (compareBlock_next ..)
  order t ht := ⟨by omega, by omega⟩
  last := Nat.add_comm 2 w
  lookup_src k hk hkw := congrArg Cblk.src_addr
    (compareBlock_lookup table start truth z ret8 lhs rhs hk hkw)
  lookup_top k _ _ h := by
    rcases h with ⟨_, ⟨_, h⟩ | ⟨h, _⟩⟩ <;> omega
  first h := by
    rcases h with ⟨_, ⟨_, h⟩ | ⟨_, h⟩⟩ <;> omega
  truth_len := congrArg Cblk.txfr_len (compareBlock_truth table start truth z ret8 lhs rhs w)
  truth_dst := congrArg Cblk.dst_addr (compareBlock_truth table start truth z ret8 lhs rhs w)
  truth_src := congrArg Cblk.src_addr (compareBlock_truth table start truth z ret8 lhs rhs w)
  truth_next := if_pos rfl
  truth_fixed j _ _ h := by
    rcases h with ⟨_, ⟨h, _⟩ | ⟨h, _⟩⟩ <;> omega

/-! ## `Ges` -/

/-- The lookup of `Ges` that runs after lookup `k`: the one before it, and the truth
table after the first. -/
def gesNext (w k : Nat) : Nat := if k = 2 then w + 2 else k - 1

/-- Block `k` of `Ges`. -/
def gesBlock (table truth z w ret8 lhs rhs k : Nat) : Cblk :=
  if k = 0 then strided z k INC2D (srcField z 2 1) rhs w 1 31 0
  else if k = 1 then
    { strided z k INC2D (srcField z 2 2) lhs w 1 31 0 with next_cb := z + 32 * (w + 1) }
  else if k < w + 2 then
    { linear z k INC (srcField z (gesNext w k) 0) (table + HYPER_GES) 1 with
      next_cb := z + 32 * gesNext w k }
  else linear z k INC ret8 truth 1

theorem gesBlock_lookup (table truth z ret8 lhs rhs : Nat) {w k : Nat} (hk : 2 ≤ k)
    (hkw : k < w + 2) : gesBlock table truth z w ret8 lhs rhs k =
      { linear z k INC (srcField z (gesNext w k) 0) (table + HYPER_GES) 1 with
        next_cb := z + 32 * gesNext w k } := by
  rw [gesBlock, if_neg (by omega), if_neg (by omega), if_pos hkw]

theorem gesBlock_truth (table truth z ret8 lhs rhs w : Nat) :
    gesBlock table truth z w ret8 lhs rhs (w + 2) = linear z (w + 2) INC ret8 truth 1 := by
  rw [gesBlock, if_neg (by omega), if_neg (by omega), if_neg (by omega)]

section Emission

variable (L : Layout) {ctx : EmitCtx} {w ret8 lhs rhs flags : Nat}

/-- What `Ges` emits. -/
theorem Ges_eq (hroom : ctx.Room (w + 3)) (hw : 1 ≤ w) (hw' : w ≤ 0x4000) (hl : lhs < 2 ^ 32)
    (hr : rhs < 2 ^ 32) : Ges L ctx w ret8 lhs rhs flags = some (ctx.fill
      (gesBlock (L.HYPER + BUS_DRAM_BASE) (truthTable L flags + BUS_DRAM_BASE) ctx.label w
        ret8 lhs rhs) (w + 3)) := by
  have hz := hroom.label_aligned
  have hlt := hroom.label_lt
  have hhyper : L.HYPER + 2 ^ 24 ≤ ARM_DRAM_END := L.in_dram ⟨L.HYPER, 2 ^ 24⟩ (by simp)
  have htruth := (truthTable_fits L flags).1
  have hges : HYPER_GES < 2 ^ 24 := by decide
  have hbus : bus_ L.HYPER HYPER_GES = some (L.HYPER + HYPER_GES + BUS_DRAM_BASE) :=
    bus_off (by omega)
  have hbus' : bus (truthTable L flags) = some (truthTable L flags + BUS_DRAM_BASE) :=
    bus_dram (by omega)
  have hl0 : bus_add lhs 0 = lhs := bus_add_nat (d := 0) (by omega)
  have hr0 : bus_add rhs 0 = rhs := bus_add_nat (d := 0) (by omega)
  generalize hf : gesBlock (L.HYPER + BUS_DRAM_BASE) (truthTable L flags + BUS_DRAM_BASE)
    ctx.label w ret8 lhs rhs = f
  have hrhs : EmitStrided ctx (srcField ctx.label 2 1) rhs w 1 31 0 = some (ctx.fill f 1) :=
    EmitStrided_fill hroom (k := 0) (f := f) (c := 1) (by omega) hw hw' (by decide)
      (by rw [← hf]; rfl)
  -- the second gather, before its branch
  have hlhs : EmitStrided (ctx.fill f 1) (srcField ctx.label 2 2) lhs w 1 31 0 = some
      ((ctx.fill f 1).push (strided ctx.label 1 INC2D (srcField ctx.label 2 2) lhs w 1 31 0)) :=
    EmitStrided_push hroom (k := 1) (c := 1) (by omega) f hw hw' (by decide)
  have henter : Branch ((ctx.fill f 1).push (strided ctx.label 1 INC2D (srcField ctx.label 2 2)
      lhs w 1 31 0)) (ctx.label + 32 * (w + 1)) = some (ctx.fill f 2) :=
    Branch_fill hroom (by rw [← hf]; rfl)
  have hcb : bus_rel_cb ctx.label (w + 1) = ctx.label + 32 * (w + 1) :=
    bus_rel_cb_eq (z := ctx.label) (k := 0) (w + 1) (by push_cast; ring) (by omega)
  have hdst₁ : bus_rel_fld ctx.label 2 .FLD_SRC 1 = some (srcField ctx.label 2 1) :=
    bus_rel_fld_src (k := 0) hz (by decide) 2 rfl (by omega)
  have hdst₂ : bus_rel_fld ctx.label 2 .FLD_SRC 2 = some (srcField ctx.label 2 2) :=
    bus_rel_fld_src (k := 0) hz (by decide) 2 rfl (by omega)
  have hlabel : Label ctx = some ctx.label := hroom.label_fill (Nat.zero_le _) f
  have hloop := forLoop_eq (l := 0) (n := w) (s := fun i => ctx.fill f (2 + i))
    (b := fun i ctx => do
      let d1 ← Label ctx
      let ctx ← Emit ctx (← bus_rel_fld d1 (ges_branch w i) .FLD_SRC 0) (← bus_ L.HYPER HYPER_GES) 1
      Branch ctx (bus_rel_cb d1 (ges_branch w i))) fun i hi => by
    have hnext : ((2 + i : Nat) : Int) + ges_branch w (0 + i) = (gesNext w (2 + i) : Nat) := by
      unfold gesNext ges_branch
      split <;> split <;> omega
    have hbound : gesNext w (2 + i) ≤ w + 2 := by
      unfold gesNext
      split <;> omega
    have hfld : bus_rel_fld (ctx.label + 32 * (2 + i)) (ges_branch w (0 + i)) .FLD_SRC 0 =
        some (srcField ctx.label (gesNext w (2 + i)) 0) :=
      bus_rel_fld_src hz (by decide) _ hnext (by omega)
    have hto : bus_rel_cb (ctx.label + 32 * (2 + i)) (ges_branch w (0 + i)) =
        ctx.label + 32 * gesNext w (2 + i) := bus_rel_cb_eq _ hnext (by omega)
    have hbranch : Branch ((ctx.fill f (2 + i)).push (linear ctx.label (2 + i) INC
        (srcField ctx.label (gesNext w (2 + i)) 0) (L.HYPER + HYPER_GES + BUS_DRAM_BASE) 1))
        (ctx.label + 32 * gesNext w (2 + i)) = some (ctx.fill f (2 + (i + 1))) := by
      refine Branch_fill hroom (k := 2 + i) ?_
      rw [← hf, gesBlock_lookup _ _ _ _ _ _ (by omega) (by omega),
        show L.HYPER + HYPER_GES + BUS_DRAM_BASE = L.HYPER + BUS_DRAM_BASE + HYPER_GES by omega]
    rw [hroom.label_fill (by omega) f, some_bind, hfld, some_bind, hbus, some_bind,
      Emit_push hroom (by omega) f, some_bind, hto, hbranch]
  have hanswer : Emit (ctx.fill f (2 + w)) ret8 (truthTable L flags + BUS_DRAM_BASE) 1 =
      some (ctx.fill f (w + 3)) := by
    rw [Nat.add_comm 2 w]
    refine Emit_fill hroom (k := w + 2) (by omega) ?_
    rw [← hf, gesBlock_truth]
  rw [Ges, guard_bind (by omega), hlabel, some_bind, hdst₁, some_bind, hr0, hrhs, some_bind, hdst₂,
    some_bind, hl0, hlhs, some_bind, hcb, henter, some_bind, hloop, some_bind, hbus', some_bind,
    hanswer]

end Emission

/-- The chain of `Ges`. The last lookup is the first to run: nothing patches its
state. -/
def gesChain (table truth z w ret8 lhs rhs exit : Nat) (pos : 0 < z)
    (fits : z + 32 * (w + 3) ≤ 2 ^ 32) : Chain where
  z := z
  n := w + 3
  f := gesBlock table truth z w ret8 lhs rhs
  patched k j := 2 ≤ k ∧ (k < w + 2 ∧ (j = 1 ∨ j = 2) ∨ j = 0 ∧ k ≠ w + 1)
  exit := exit
  pos := pos
  fits := fits

/-- The order of the lookups of `Ges`: from the last byte to the first. -/
def gesOrder (w t : Nat) : Nat := if t < w then w + 1 - t else w + 2

theorem gesOrder_of_lt {w t : Nat} (ht : t < w) : gesOrder w t = w + 1 - t := if_pos ht

theorem gesNext_order {w t : Nat} (ht : t < w) : gesNext w (gesOrder w t) = gesOrder w (t + 1) := by
  rw [gesOrder_of_lt ht]
  unfold gesNext gesOrder
  split <;> split <;> omega

theorem gesChain_next {table truth z w ret8 lhs rhs exit : Nat} {pos : 0 < z}
    {fits : z + 32 * (w + 3) ≤ 2 ^ 32} {k l : Nat} (hk : k < w + 2) (hl : l < w + 3)
    (h : (gesBlock table truth z w ret8 lhs rhs k).next_cb = z + 32 * l) :
    (gesChain table truth z w ret8 lhs rhs exit pos fits).next k =
      (gesChain table truth z w ret8 lhs rhs exit pos fits).pc l := by
  rw [Chain.next, if_neg (by show k + 1 ≠ w + 3; omega), Chain.pc_of_lt hl]
  exact h

theorem gesChain_compare {table truth z w ret8 lhs rhs exit : Nat} {pos : 0 < z}
    {fits : z + 32 * (w + 3) ≤ 2 ^ 32} (hw : 1 ≤ w) {tables : List Region}
    (ho : Placement ⟨z, 32 * (w + 3)⟩ tables ⟨ret8, 1⟩ [⟨lhs, w⟩, ⟨rhs, w⟩]) :
    Compare (gesChain table truth z w ret8 lhs rhs exit pos fits) (gesOrder w)
      w lhs rhs ret8 table HYPER_GES truth where
  gather :=
    { pos := hw
      dist := by decide
      fit := fun k hk => by
        show 2 + 1 * k < w + 3
        omega
      next := gesChain_next (by omega) (by omega) rfl
      rhs_block := strided_isScatter (D := 31) (by decide) ..
      lhs_block := (strided_isScatter (D := 31) (by decide) ..).branch _
      fixed := fun k hk j _ h => by
        have := h.1
        omega
      patched := fun k hk j hj => ⟨by omega, .inl ⟨by omega, hj⟩⟩
      lhs_fits := ho.input_fits ⟨lhs, w⟩ (by simp)
      rhs_fits := ho.input_fits ⟨rhs, w⟩ (by simp)
      lhs_apart := ho.input_code ⟨lhs, w⟩ (by simp)
      rhs_apart := ho.input_code ⟨rhs, w⟩ (by simp) }
  thread :=
    { lt := fun t ht => by
        show gesOrder w t < w + 3
        unfold gesOrder
        split <;> omega
      inj := fun s hs t ht h => by
        unfold gesOrder at h
        split at h <;> split at h <;> omega
      len := fun t ht => by
        have := gesOrder_of_lt ht
        exact congrArg Cblk.txfr_len
          (gesBlock_lookup table truth z ret8 lhs rhs (by omega) (by omega))
      dst := fun t ht => by
        have := gesOrder_of_lt ht
        refine (congrArg Cblk.dst_addr (gesBlock_lookup table truth z ret8 lhs rhs
          (k := gesOrder w t) (by omega) (by omega))).trans ?_
        rw [gesNext_order ht]
        rfl
      next := fun t ht => by
        have := gesOrder_of_lt ht
        have hto : gesOrder w (t + 1) < w + 3 := by
          unfold gesOrder
          split <;> omega
        refine gesChain_next (by omega) hto ?_
        rw [gesBlock_lookup table truth z ret8 lhs rhs (by omega) (by omega), gesNext_order ht]
      patched := fun t ht => by
        refine ⟨?_, .inr ⟨rfl, ?_⟩⟩ <;> unfold gesOrder <;> split <;> omega }
  n_eq := rfl
  enter := by
    have hto : gesOrder w 0 = w + 1 := gesOrder_of_lt hw
    rw [hto]
    exact gesChain_next (by omega) (by omega) rfl
  order t ht := by
    rw [gesOrder_of_lt ht]
    omega
  last := if_neg (Nat.lt_irrefl w)
  lookup_src k hk hkw := congrArg Cblk.src_addr
    (gesBlock_lookup table truth z ret8 lhs rhs hk hkw)
  lookup_top k _ _ h := by
    rcases h with ⟨_, ⟨_, h⟩ | ⟨h, _⟩⟩ <;> omega
  first h := by
    have := gesOrder_of_lt hw
    rcases h with ⟨_, ⟨_, h⟩ | ⟨_, h⟩⟩ <;> omega
  truth_len := congrArg Cblk.txfr_len (gesBlock_truth table truth z ret8 lhs rhs w)
  truth_dst := congrArg Cblk.dst_addr (gesBlock_truth table truth z ret8 lhs rhs w)
  truth_src := congrArg Cblk.src_addr (gesBlock_truth table truth z ret8 lhs rhs w)
  truth_next := if_pos rfl
  truth_fixed j _ _ h := by
    rcases h with ⟨_, ⟨h, _⟩ | ⟨h, _⟩⟩ <;> omega

end Bcm2835.Dma

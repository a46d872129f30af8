import Bcm2835.Dma.CmpSpec
import Mathlib.Data.Nat.Bitwise

/-!
# Comparisons, run by run

The states a comparison threads through its lookups, and the answer the truth
tables give for the last of them.
-/

namespace Bcm2835.Dma

open Mem Digits EmitCtx

/-- The tables of the comparisons. -/
def Layout.compareTables (L : Layout) : List Region := [L.hyper, onBus L.POLAR_TRUTH_X1 (2 ^ 8),
  onBus L.ANTIPOLAR_TRUTH_X1 (2 ^ 8), onBus L.POLAR_TRUTH_X4 (2 ^ 8),
  onBus L.ANTIPOLAR_TRUTH_X4 (2 ^ 8)]

theorem truthTable_mem (L : Layout) (flags : Nat) :
    onBus (truthTable L flags) (2 ^ 8) ∈ L.compareTables := by
  rw [truthTable, Layout.compareTables]
  split
  · split <;> simp
  · split <;> simp

/-- The states from `start` on: the lookup of byte `idx t` is number `t`. -/
def states (next : Nat → Nat → Nat → Nat) (row start : Nat) (m : Memory) (lhs rhs : Nat)
    (idx : Nat → Nat) : Nat → Nat
  | 0 => start
  | t + 1 => next (m (lhs + idx t)).toNat (m (rhs + idx t)).toNat
      (states next row start m lhs rhs idx t - row)

/-- The states are selectors of the `n` rows from `row` on. -/
structure Selectors (next : Nat → Nat → Nat → Nat) (row n start : Nat) : Prop where
  start : row ≤ start ∧ start < row + n
  next : ∀ i < 256, ∀ j < 256, ∀ l < n, row ≤ next i j l ∧ next i j l < row + n
  fits : row + n ≤ 256

theorem Selectors.states {next : Nat → Nat → Nat → Nat} {row n start : Nat}
    (h : Selectors next row n start) (m : Memory) (lhs rhs : Nat) (idx : Nat → Nat) (t : Nat) :
    row ≤ states next row start m lhs rhs idx t ∧ states next row start m lhs rhs idx t < row + n := by
  induction t with
  | zero => exact h.start
  | succ t ih => exact h.next _ (UInt8.toNat_lt _) _ (UInt8.toNat_lt _) _ (by omega)

theorem mem_init_compare {L : Layout} {row n : Nat} {next : Nat → Nat → Nat → Nat}
    (hrow : row + n ≤ 256) {x : Nat × UInt8} (hx : x ∈ init_compare L row n next) :
    L.hyper.Mem x.1 := by
  simp only [init_compare, mem_each, List.mem_singleton] at hx
  obtain ⟨i, hi, j, hj, l, hl, rfl⟩ := hx
  have hidx : (i * 256 + j) <<< 8 + row + l = i * 65536 + j * 256 + row + l := by
    rw [Nat.shiftLeft_eq]
    omega
  show L.HYPER + BUS_DRAM_BASE ≤ L.HYPER + BUS_DRAM_BASE + _ ∧ L.HYPER + BUS_DRAM_BASE + _ <
    L.HYPER + BUS_DRAM_BASE + 2 ^ 24
  rw [hidx]
  omega

section

variable {E : Engine} {L : Layout} {ctx : EmitCtx} {C : Chain} {v : Nat → Nat}
  {w lhs rhs ret8 flags row n start : Nat} {next : Nat → Nat → Nat → Nat} {m : Memory}

/-- One run, by the states. -/
theorem Compare.run_states
    (h : Compare C v w lhs rhs ret8 L.hyper.start start (truthTable L flags + BUS_DRAM_BASE))
    (hz : C.z = ctx.label)
    (ho : Placement ⟨ctx.label, 32 * (w + 3)⟩ L.compareTables ⟨ret8, 1⟩ [⟨lhs, w⟩, ⟨rhs, w⟩])
    (hsel : Selectors next row n start) (hhas : Has m (init_compare L row n next)) (hin : C.In m) :
    ∃ m', after E (w + 3) ⟨C.z, m⟩ = ⟨C.exit, m'⟩ ∧
      m' ret8 = m (truthTable L flags + BUS_DRAM_BASE +
        states next row start m lhs rhs (fun t => v t - 2) w) ∧
      (∀ a, a ≠ ret8 → (∀ k < C.n, ∀ j < 4, C.patched k j → a ≠ C.src k j) → m' a = m a) ∧
      ∀ t ≤ w, (after E (2 + t) ⟨C.z, m⟩).conblk_ad = C.pc (v t) := by
  have hn := h.n_eq
  have hhyper : L.HYPER + 2 ^ 24 ≤ ARM_DRAM_END := L.in_dram ⟨L.HYPER, 2 ^ 24⟩ (by simp)
  have htruth := truthTable_fits L flags
  have hdram : ARM_DRAM_END + BUS_DRAM_BASE ≤ 2 ^ 32 := by decide
  have hbase : BUS_DRAM_BASE % 2 ^ 24 = 0 := by decide
  have halign := L.hyper_aligned
  have htables : CompareTables C L.hyper.start start (truthTable L flags + BUS_DRAM_BASE) :=
    { start_lt := by have := hsel.start; have := hsel.fits; omega
      table_aligned := by show (L.HYPER + BUS_DRAM_BASE) % 2 ^ 24 = 0; omega
      table_fits := by show L.HYPER + BUS_DRAM_BASE + 2 ^ 24 ≤ 2 ^ 32; omega
      table_code := by
        rw [hz, hn]
        exact ho.code_tables L.hyper List.mem_cons_self
      truth_aligned := by omega
      truth_fits := by omega
      truth_code := by
        rw [hz, hn]
        exact ho.code_tables _ (truthTable_mem L flags) }
  have hst := hsel.states m lhs rhs (fun t => v t - 2)
  have hfits := hsel.fits
  have hpc0 : C.pc 0 = C.z := by
    rw [Chain.pc_of_lt (by omega)]
    omega
  rw [← hpc0]
  refine h.run (E := E) htables hin (s := states next row start m lhs rhs fun t => v t - 2) rfl
    (fun t _ => by have := hst t; omega) fun t ht => ?_
  have hrange := hst t
  have hnext := hsel.next _ (m (lhs + (v t - 2))).toNat_lt _ (m (rhs + (v t - 2))).toNat_lt
    (states next row start m lhs rhs (fun t => v t - 2) t - row) (by omega)
  have hentry := hhas.compare (m (lhs + (v t - 2))).toNat_lt (m (rhs + (v t - 2))).toNat_lt
    (show states next row start m lhs rhs (fun t => v t - 2) t - row < n by omega) (by omega)
  refine Eq.trans (congrArg (fun a => (m a).toNat) ?_) hentry
  show L.HYPER + BUS_DRAM_BASE + _ * 65536 + _ * 256 + _ = L.HYPER + BUS_DRAM_BASE + _
  omega

/-- A comparison computes any `post` that follows from what the truth table has for
the last state. -/
theorem Compare.computes (E : Engine) (L : Layout) {emitted : Option EmitCtx}
    {ts : List (Nat × UInt8)} {post : Memory → Memory → Prop}
    (h : Compare C v w lhs rhs ret8 L.hyper.start start (truthTable L flags + BUS_DRAM_BASE))
    (hroom : ctx.Room (w + 3)) (hz : C.z = ctx.label) (hexit : C.exit = 0)
    (hem : emitted = some (ctx.fill C.f C.n))
    (ho : Placement ⟨ctx.label, 32 * (w + 3)⟩ L.compareTables ⟨ret8, 1⟩ [⟨lhs, w⟩, ⟨rhs, w⟩])
    (hsel : Selectors next row n start) (hts : ∀ x ∈ ts, Region.Any L.compareTables x.1)
    (hpost : ∀ m m', Has m (init_compare L row n next ++ ts) →
      m' ret8 = m (truthTable L flags + BUS_DRAM_BASE +
        states next row start m lhs rhs (fun t => v t - 2) w) → post m m') :
    Computes E ctx emitted (Region.Any L.compareTables)
      (Has · (init_compare L row n next ++ ts)) post := by
  have hn := h.n_eq
  have hws : ∀ x ∈ init_compare L row n next ++ ts, Region.Any L.compareTables x.1 := by
    intro x hx
    rcases List.mem_append.mp hx with hx | hx
    · exact ⟨L.hyper, List.mem_cons_self, mem_init_compare hsel.fits hx⟩
    · exact hts x hx
  refine .of_chain (C := C) (by rw [hn]; exact hroom) hz hexit (by omega) hem ?_ ?_
  · intro m m' hsame hhas
    exact hhas.congr fun x hx => hsame x.1 (hws x hx)
  · intro m hin hhas
    obtain ⟨m', hrun, hret, hframe, _⟩ :=
      h.run_states (E := E) hz ho hsel hhas.of_append_left hin
    rw [hexit] at hrun
    refine ⟨m', halts_of_after hrun, ⟨?_, ?_⟩, hpost m m' hhas hret⟩
    · refine hin.congr fun a ⟨hlo, hhi, hfix, _⟩ => hframe a ?_ hfix
      have hcode : ret8 + 1 ≤ ctx.label ∨ ctx.label + 32 * (w + 3) ≤ ret8 := ho.ret_code
      omega
    · refine hhas.congr fun x hx => hframe x.1 ?_ ?_
      · obtain ⟨r, hr, hlo, hhi⟩ := hws x hx
        have hout : ret8 + 1 ≤ r.start ∨ r.start + r.size ≤ ret8 := ho.ret_tables r hr
        omega
      · intro k hk j hj _
        obtain ⟨r, hr, hlo, hhi⟩ := hws x hx
        have hout : ctx.label + 32 * (w + 3) ≤ r.start ∨ r.start + r.size ≤ ctx.label :=
          ho.code_tables r hr
        show x.1 ≠ C.z + 32 * k + 4 + j
        omega

end

/-! ## Truth tables -/

/-- The answer of a comparison: 4 or 1 if it holds, or if it does not and the flags
invert it. -/
def answer (flags : Nat) (p : Prop) [Decidable p] : Nat :=
  if p ↔ flags &&& ICF_INV = 0 then if flags &&& ICF_X4 ≠ 0 then 4 else 1 else 0

theorem flag_testBit (flags k : Nat) : flags &&& 2 ^ k = 0 ↔ flags.testBit k = false := by
  rw [Nat.and_two_pow]
  cases flags.testBit k <;> simp

theorem inv_x4 (flags : Nat) : (flags ^^^ ICF_INV) &&& ICF_X4 = 0 ↔ flags &&& ICF_X4 = 0 := by
  have h : (flags ^^^ ICF_INV).testBit 0 = flags.testBit 0 := by
    rw [Nat.testBit_xor, show ICF_INV.testBit 0 = false from rfl, Bool.xor_false]
  rw [show ICF_X4 = 2 ^ 0 from rfl, flag_testBit, flag_testBit, h]

theorem inv_inv (flags : Nat) : (flags ^^^ ICF_INV) &&& ICF_INV = 0 ↔ ¬ flags &&& ICF_INV = 0 := by
  have h1 := flag_testBit (flags ^^^ ICF_INV) 1
  have h2 := flag_testBit flags 1
  rw [Nat.testBit_xor, show ICF_INV.testBit 1 = true from rfl, Bool.xor_true] at h1
  refine h1.trans (Iff.trans ?_ (not_congr h2).symm)
  cases flags.testBit 1 <;> simp

/-- Inverting the flag inverts the answer. -/
theorem answer_inv (flags : Nat) (p : Prop) [Decidable p] :
    answer (flags ^^^ ICF_INV) p = answer flags (¬ p) := by
  have hiff : (p ↔ (flags ^^^ ICF_INV) &&& ICF_INV = 0) ↔ (¬ p ↔ flags &&& ICF_INV = 0) := by
    rw [inv_inv]
    tauto
  simp only [answer, hiff, ne_eq, inv_x4]

/-- What `SET_TRUTH_TABLES` leaves for state `l` in the table for `flags`. -/
def truthEntry (flags b0 b1 l : Nat) : Nat :=
  if flags &&& ICF_X4 = 0 then
    if flags &&& ICF_INV = 0 then if l = 0 then b0 else b1 else if l = 0 then b1 else b0
  else if flags &&& ICF_INV = 0 then if l = 0 then b0 else 4 * b1
  else if l = 0 then 4 * b1 else 4 * b0

theorem Has.truth {L : Layout} {m : Memory} {row b0 b1 l : Nat}
    (h : Has m (SET_TRUTH_TABLES L row b0 b1)) (hb0 : b0 ≤ 1) (hb1 : b1 ≤ 1) (flags : Nat)
    (hl : l ≤ 1) : (m (truthTable L flags + BUS_DRAM_BASE + (row + l))).toNat =
      truthEntry flags b0 b1 l := by
  have hget : ∀ {array i x : Nat}, put array i (x : Int) ∈ SET_TRUTH_TABLES L row b0 b1 → x < 256 →
      (m (array + BUS_DRAM_BASE + i)).toNat = x := by
    intro array i x hmem hx
    rw [h.entry hmem, Nat.mod_eq_of_lt hx]
  rcases Nat.le_one_iff_eq_zero_or_eq_one.mp hl with rfl | rfl <;>
    by_cases hx4 : flags &&& ICF_X4 = 0 <;> by_cases hinv : flags &&& ICF_INV = 0 <;>
    simp only [truthTable, truthEntry, hx4, hinv, ne_eq, not_true_eq_false, not_false_eq_true,
      if_true, if_false, one_ne_zero] <;>
    exact hget (by simp [SET_TRUTH_TABLES]) (by omega)

/-- The stores to the truth tables. -/
theorem mem_truthTables {L : Layout} {row b0 b1 : Nat} (hrow : row + 1 < 256) {x : Nat × UInt8}
    (hx : x ∈ SET_TRUTH_TABLES L row b0 b1) : Region.Any L.compareTables x.1 := by
  have hin : ∀ {array i : Nat} {v : Int}, onBus array (2 ^ 8) ∈ L.compareTables → i < 256 →
      Region.Any L.compareTables (put array i v).1 := fun {array i v} hmem hi =>
    ⟨_, hmem, Nat.le_add_right _ _, Nat.add_lt_add_left hi _⟩
  simp only [SET_TRUTH_TABLES, List.mem_cons, List.not_mem_nil, or_false] at hx
  rcases hx with rfl | rfl | rfl | rfl | rfl | rfl | rfl | rfl <;>
    exact hin (by simp [Layout.compareTables]) (by omega)

end Bcm2835.Dma

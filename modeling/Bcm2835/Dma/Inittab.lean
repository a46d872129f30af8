import Mathlib.Data.List.Pairwise
import Bcm2835.Dma.Filled

/-!
# The table of initializers (`private.c`, `private.h`)

`INITIALIZER` puts a function into the section `.inittab`, where `run_initializers` finds it
in whatever order the link left. The second half says which entries of which tables each
operation has for its own, and which of them hold a carry or a state: the low byte of the
address at which the next lookup of the operation is made.
-/

namespace Bcm2835.Dma

open Mem

/-- Runs the functions from `__inittab_start` to `__inittab_end`, but not a second time. -/
def run_initializers (did_run_initializers : Bool) (inittab : List (List (Nat × UInt8))) (m : Memory) :
    Option (Bool × Memory) :=
  if did_run_initializers then none else some (true, inittab.foldl stores m)

/-! ## Tables and rows -/

inductive Table
  | HYPER
  | SUPER
  | NOT
  | SLL_HYPER_SELECT
  | SRL_HYPER_SELECT
  | SEXT_WHICH
  | SEXT_BUFS
  | SRA_HI
  | POLAR_TRUTH_X1
  | ANTIPOLAR_TRUTH_X1
  | POLAR_TRUTH_X4
  | ANTIPOLAR_TRUTH_X4
deriving DecidableEq

/-- Where a table is, and its declared size. -/
def Layout.table (L : Layout) : Table → Region
  | .HYPER => ⟨L.HYPER, 2 ^ 24⟩
  | .SUPER => ⟨L.SUPER, 2 ^ 16⟩
  | .NOT => ⟨L.NOT, 2 ^ 8⟩
  | .SLL_HYPER_SELECT => ⟨L.SLL_HYPER_SELECT, 2 ^ 8⟩
  | .SRL_HYPER_SELECT => ⟨L.SRL_HYPER_SELECT, 2 ^ 8⟩
  | .SEXT_WHICH => ⟨L.SEXT_WHICH, 2 ^ 8⟩
  | .SEXT_BUFS => ⟨L.SEXT_BUFS, 2 ^ 5⟩
  | .SRA_HI => ⟨L.SRA_HI, 2 ^ 16⟩
  | .POLAR_TRUTH_X1 => ⟨L.POLAR_TRUTH_X1, 2 ^ 8⟩
  | .ANTIPOLAR_TRUTH_X1 => ⟨L.ANTIPOLAR_TRUTH_X1, 2 ^ 8⟩
  | .POLAR_TRUTH_X4 => ⟨L.POLAR_TRUTH_X4, 2 ^ 8⟩
  | .ANTIPOLAR_TRUTH_X4 => ⟨L.ANTIPOLAR_TRUTH_X4, 2 ^ 8⟩

/-- The entries of a table whose index ends in one of `count` bytes from `row` on. -/
structure RowRange where
  table : Table
  row : Nat
  count : Nat

/-- Entries of table `t` with the low byte `low` are in the rows. -/
def RowRange.Holds (r : RowRange) (t : Table) (low : Nat) : Prop :=
  r.table = t ∧ r.row ≤ low ∧ low < r.row + r.count

instance RowRange.decHolds (r : RowRange) (t : Table) (low : Nat) : Decidable (r.Holds t low) :=
  inferInstanceAs (Decidable (_ ∧ _))

/-- The address of an entry in the rows, within the bounds of the table. -/
def RowRange.Mem (L : Layout) (r : RowRange) (a : Nat) : Prop :=
  ∃ i < (L.table r.table).size, r.row ≤ i % 256 ∧ i % 256 < r.row + r.count ∧
    a = (L.table r.table).start + BUS_DRAM_BASE + i

def RowRange.Apart (r s : RowRange) : Prop :=
  r.table ≠ s.table ∨ r.row + r.count ≤ s.row ∨ s.row + s.count ≤ r.row

instance RowRange.decApart (r s : RowRange) : Decidable (r.Apart s) := inferInstanceAs (Decidable (_ ∨ _))

/-- A lookup at an address of the rows, its low byte replaced by `v`, finds the rows again. -/
def Selects (L : Layout) (r : RowRange) (v : UInt8) : Prop :=
  ∀ a, r.Mem L a → r.Mem L (a / 256 * 256 + v.toNat)

/-! ## Operations -/

/-- An operation: its initializer, its rows, and those entries that select the next lookup
`among` them. -/
structure Operation where
  init : Layout → List (Nat × UInt8)
  rows : List RowRange
  selectors : List RowRange
  among : RowRange

/-- The rows of a comparison in the truth tables. -/
def truthRows (row count : Nat) : List RowRange := [⟨.POLAR_TRUTH_X1, row, count⟩,
  ⟨.ANTIPOLAR_TRUTH_X1, row, count⟩, ⟨.POLAR_TRUTH_X4, row, count⟩, ⟨.ANTIPOLAR_TRUTH_X4, row, count⟩]

/-- Two entries for each carry, the sum and the next carry: `add` and `sub`. -/
def carryOperation (init : Layout → List (Nat × UInt8)) (row : Nat) : Operation where
  init := init
  rows := [⟨.HYPER, row, 4⟩]
  selectors := [⟨.HYPER, row + 1, 1⟩, ⟨.HYPER, row + 3, 1⟩]
  among := ⟨.HYPER, row, 4⟩

/-- No entry is looked up by another one's content. -/
def plainOperation (init : Layout → List (Nat × UInt8)) (rows : RowRange) : Operation where
  init := init
  rows := [rows]
  selectors := []
  among := rows

/-- The row is selected by a table of its own. -/
def shiftOperation (init : Layout → List (Nat × UInt8)) (row : Nat) (select : Table) : Operation where
  init := init
  rows := [⟨.HYPER, row, 8⟩, ⟨select, 0, 256⟩]
  selectors := [⟨select, 0, 256⟩]
  among := ⟨.HYPER, row, 8⟩

/-- Every entry of `HYPER` is a state. -/
def compareOperation (init : Layout → List (Nat × UInt8)) (row count : Nat) : Operation where
  init := init
  rows := ⟨.HYPER, row, count⟩ :: truthRows row count
  selectors := [⟨.HYPER, row, count⟩]
  among := ⟨.HYPER, row, count⟩

def incrementOperation : Operation where
  init := init_increment
  rows := [⟨.SUPER, SUPER_INC, 4⟩]
  selectors := [⟨.SUPER, SUPER_INC + 1, 1⟩, ⟨.SUPER, SUPER_INC + 3, 1⟩]
  among := ⟨.SUPER, SUPER_INC, 4⟩

/-- The carry stands before the sum. -/
def addROperation : Operation where
  init := init_add_r
  rows := [⟨.HYPER, HYPER_ADD_R, 4⟩]
  selectors := [⟨.HYPER, HYPER_ADD_R, 1⟩, ⟨.HYPER, HYPER_ADD_R + 2, 1⟩]
  among := ⟨.HYPER, HYPER_ADD_R, 4⟩

/-- The low byte of an address in the buffer. -/
def sextOperation : Operation where
  init := init_sext
  rows := [⟨.SEXT_WHICH, 0, 256⟩, ⟨.SEXT_BUFS, 0, 32⟩]
  selectors := [⟨.SEXT_WHICH, 0, 256⟩]
  among := ⟨.SEXT_BUFS, 0, 32⟩

def operations : List Operation := [
  incrementOperation,
  carryOperation init_add HYPER_ADD,
  carryOperation init_sub HYPER_SUB,
  plainOperation init_mul ⟨.HYPER, HYPER_MUL, 2⟩,
  addROperation,
  plainOperation init_not ⟨.NOT, 0, 256⟩,
  plainOperation init_and ⟨.HYPER, HYPER_AND, 1⟩,
  plainOperation init_or ⟨.HYPER, HYPER_OR, 1⟩,
  plainOperation init_xor ⟨.HYPER, HYPER_XOR, 1⟩,
  shiftOperation init_sll HYPER_SLL .SLL_HYPER_SELECT,
  shiftOperation init_srl HYPER_SRL .SRL_HYPER_SELECT,
  sextOperation,
  plainOperation init_sra ⟨.SRA_HI, 0, 256⟩,
  compareOperation init_geu HYPER_GEU 2,
  compareOperation init_equ HYPER_EQU 2,
  compareOperation init_ges HYPER_GES 4]

theorem operations_init (L : Layout) : operations.map (·.init L) = initializers L := rfl

/-- No two operations have a row in common. -/
theorem operations_apart :
    operations.Pairwise fun op op' => ∀ r ∈ op.rows, ∀ s ∈ op'.rows, r.Apart s := by
  have h : (operations.map Operation.rows).Pairwise fun rs ss => ∀ r ∈ rs, ∀ s ∈ ss, r.Apart s := by
    decide +kernel
  exact List.pairwise_map.mp h

/-- What an operation selects among is its own. -/
theorem operations_own : ∀ op ∈ operations, op.among ∈ op.rows := by
  simp [operations, incrementOperation, addROperation, sextOperation, carryOperation, plainOperation,
    shiftOperation, compareOperation]

/-! ## RowRange in memory -/

section

variable {L : Layout} {t : Table} {r s : RowRange}

theorem table_apart (L : Layout) {t u : Table} (h : t ≠ u) : (L.table t).Apart (L.table u) := by
  let all : List Table := [.HYPER, .SUPER, .NOT, .SLL_HYPER_SELECT, .SRL_HYPER_SELECT, .SEXT_WHICH,
    .SEXT_BUFS, .SRA_HI, .POLAR_TRUTH_X1, .ANTIPOLAR_TRUTH_X1, .POLAR_TRUTH_X4, .ANTIPOLAR_TRUTH_X4]
  have hall : ∀ t : Table, t ∈ all := by
    intro t
    cases t <;> decide
  have hmap : (all.map L.table).Pairwise Region.Apart := (List.pairwise_cons.mp L.apart).2
  have hsymm : Std.Symm fun t u => (L.table t).Apart (L.table u) := ⟨fun _ _ => Region.Apart.symm⟩
  exact (List.pairwise_map.mp hmap).forall (hall t) (hall u) h

/-- A store is in rows of the table it names, by the low byte of the index. -/
theorem RowRange.mem_put {i : Nat} {x : Int} (hi : i < (L.table t).size) :
    r.Mem L (put (L.table t).start i x).1 ↔ r.Holds t (i % 256) := by
  show r.Mem L ((L.table t).start + BUS_DRAM_BASE + i) ↔ _
  unfold RowRange.Mem RowRange.Holds
  constructor
  · rintro ⟨k, hk, hlo, hhi, heq⟩
    by_cases ht : r.table = t
    · rw [ht] at heq
      obtain rfl : i = k := Nat.add_left_cancel heq
      exact ⟨ht, hlo, hhi⟩
    · rcases table_apart L ht with h | h <;> omega
  · rintro ⟨rfl, hlo, hhi⟩
    exact ⟨i, hi, hlo, hhi, rfl⟩

theorem RowRange.Apart.ne (h : r.Apart s) {a b : Nat} (ha : r.Mem L a) (hb : s.Mem L b) : a ≠ b := by
  obtain ⟨i, hi, hilo, hihi, rfl⟩ := ha
  obtain ⟨k, hk, hklo, hkhi, rfl⟩ := hb
  intro heq
  by_cases ht : r.table = s.table
  · rw [ht] at heq
    obtain rfl : i = k := Nat.add_left_cancel heq
    rcases h with h | h | h
    · exact h ht
    · omega
    · omega
  · rcases table_apart L ht with h | h <;> omega

/-- In `HYPER` and `SUPER` a row number is the low byte of an address. -/
theorem selects_row {row count v : Nat} (haligned : (L.table t).start % 256 = 0)
    (hsize : (L.table t).size % 256 = 0) (hlo : row ≤ v) (hhi : v < row + count) (hbyte : v < 256) :
    Selects L ⟨t, row, count⟩ (.ofNat ((v : Int) % 256).toNat) := by
  rintro a ⟨i, hi, _, _, rfl⟩
  have hv : ((v : Int) % 256).toNat = v := by omega
  have hnat : (UInt8.ofNat v).toNat = v := UInt8.toNat_ofNat_of_lt hbyte
  have hbase : BUS_DRAM_BASE % 256 = 0 := by decide
  rw [hv, hnat]
  show ∃ k < (L.table t).size, row ≤ k % 256 ∧ k % 256 < row + count ∧
    ((L.table t).start + BUS_DRAM_BASE + i) / 256 * 256 + v = (L.table t).start + BUS_DRAM_BASE + k
  have hi' : i < (L.table t).size := hi
  exact ⟨i / 256 * 256 + v, by omega, by omega, by omega, by omega⟩

theorem selects_hyper {row count v : Nat} (hlo : row ≤ v) (hhi : v < row + count) (hbyte : v < 256) :
    Selects L ⟨.HYPER, row, count⟩ (.ofNat ((v : Int) % 256).toNat) := by
  have haligned : L.HYPER % 2 ^ 24 = 0 := L.hyper_aligned
  refine selects_row ?_ (show 2 ^ 24 % 256 = 0 by decide) hlo hhi hbyte
  show L.HYPER % 256 = 0
  omega

end

end Bcm2835.Dma

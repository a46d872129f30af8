import Mathlib.Algebra.Group.Nat.Defs
import Mathlib.Data.List.Basic

/-!
# The check of the regions (`integ_check_coverage`)

The function on the array behind the header: the elements it may reach, also those
behind the last region, and the indices of the elements it reads or writes. Output is
left out.
-/

namespace Bcm2835.Integ

structure IntegRegion where
  p : Nat
  size : Nat
  flags : Nat
  cksum : Nat
deriving DecidableEq

structure Range where
  start : Nat
  stop : Nat

def range_overlap (lhs rhs : Range) : Prop := lhs.start < rhs.stop ∧ rhs.start < lhs.stop

instance (lhs rhs : Range) : Decidable (range_overlap lhs rhs) := instDecidableAnd

def region_range (r : IntegRegion) : Range := ⟨r.p, (r.p + r.size) % 2 ^ 32⟩

/-- The array, and the indices that have been accessed. -/
structure Cells where
  regions : Nat → IntegRegion
  log : List Nat

namespace Cells

/-- An access to element `i`. -/
def touch (c : Cells) (i : Nat) : Cells := { c with log := c.log ++ [i] }

/-- `region_swap`. -/
def region_swap (c : Cells) (i j : Nat) : Cells where
  regions := Function.update (Function.update c.regions i (c.regions j)) j (c.regions i)
  log := c.log ++ [i, j]

end Cells

/-- The indices from `i` up to `n`. -/
def upTo (i n : Nat) : List Nat := List.range' i (n - i)

/-- The loop that looks for a region on the header: whether there is one. -/
def headerLoop (header : Range) : List Nat → Cells → Bool × Cells
  | [], c => (false, c)
  | i :: is, c =>
      if range_overlap (region_range (c.regions i)) header then (true, c.touch i)
      else headerLoop header is (c.touch i)

/-- The inner loop of the sort, with the least start and its index. -/
def minLoop : List Nat → (p k : Nat) → Cells → Nat × Cells
  | [], _, k, c => (k, c)
  | j :: js, p, k, c =>
      if (c.regions j).p < p then minLoop js (c.regions j).p j (c.touch j)
      else minLoop js p k (c.touch j)

/-- One turn of the sort. When the inner loop is over, its `j` is `n`. -/
def sortTurn (n : Nat) (c : Cells) (i : Nat) : Cells :=
  match minLoop (upTo (i + 1) n) (c.regions i).p 0 (c.touch i) with
  | (k, c) => if k ≠ 0 then c.region_swap i (i + 1 + (n - (i + 1))) else c

def sortLoop (n : Nat) (c : Cells) : Cells := (upTo 0 n).foldl (sortTurn n) c

/-- The loop over the sorted regions: the end of the last one, or `none` where they
overlap or have a gap. The latter is reported with region `j`. -/
def coverLoop (ihdr header_end dram_start : Nat) : List Nat → (q j : Nat) → Cells → Option Nat × Cells
  | [], q, _, c => (some q, c)
  | i :: is, q, j, c =>
      if (c.regions i).p < q ∧ q ≠ dram_start then (none, c.touch i)
      else if q < (c.regions i).p ∧ ¬(q = ihdr ∧ (c.regions i).p = header_end) then
        (none, ((c.touch i).touch j).touch i)
      else if (c.regions i).size = 0 then
        coverLoop ihdr header_end dram_start is q j (c.touch i)
      else
        coverLoop ihdr header_end dram_start is (((c.regions i).p + (c.regions i).size) % 2 ^ 32) i
          (c.touch i)

/-- `ihdr->regions + ihdr->region_cap`. -/
def headerEnd (ihdr region_cap : Nat) : Nat := (ihdr + 40 + 16 * region_cap) % 2 ^ 32

def integ_check_coverage (ihdr region_count region_cap dram_start dram_end : Nat) (c : Cells) :
    Bool × Cells :=
  match headerLoop ⟨ihdr, headerEnd ihdr region_cap⟩ (upTo 0 region_count) c with
  | (true, c) => (false, c)
  | (false, c) =>
      match coverLoop ihdr (headerEnd ihdr region_cap) dram_start (upTo 0 region_count) dram_start 0
        (sortLoop region_count c) with
      | (none, c) => (false, c)
      | (some q, c) => (decide (q = dram_end), c)

end Bcm2835.Integ

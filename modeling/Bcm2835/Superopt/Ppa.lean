import Mathlib.Data.Nat.Bitwise
import Mathlib.Logic.Function.Basic

/-!
# The physical page allocator (`240-superopt/ppa.c`)

Memory below 512 MB in four kinds of regions, each sixteen of the next. A bitmap
in a region says which of its children are free, and the regions of a kind that
are partly in use hang on the floating list of that kind. All numbers are 32
bits wide unless a `uint16_t` is stored. An access outside an array is undefined
in C: here it ends the call with a `Fault`.
-/

namespace Bcm2835.Superopt

/-- What ends a call without a result: an access outside of an array, or a
failed assertion. -/
inductive Fault
  | regions (i : Nat)
  | floating_lists (i : Nat)
  | preclaims (i : Nat)
  | assert
deriving DecidableEq

inductive RegionKind
  | RK_Supersection
  | RK_Section
  | RK_LargePage
  | RK_SmallPage
deriving DecidableEq

namespace RegionKind

/-- The number of the enumerator. -/
def no : RegionKind → Nat
  | RK_Supersection => 0
  | RK_Section => 1
  | RK_LargePage => 2
  | RK_SmallPage => 3

/-- The enumerator of a number. -/
def ofNo : Nat → RegionKind
  | 0 => RK_Supersection
  | 1 => RK_Section
  | 2 => RK_LargePage
  | _ => RK_SmallPage

/-- `REGION_SCALES`. -/
def scale : RegionKind → Nat
  | RK_Supersection => 16 * 1024 * 1024
  | RK_Section => 1 * 1024 * 1024
  | RK_LargePage => 64 * 1024
  | RK_SmallPage => 4 * 1024

/-- `INDEX_OFFSETS`. -/
def indexOffset : RegionKind → Nat
  | RK_Supersection => 0x2200
  | RK_Section => 0x2000
  | RK_LargePage => 0x0
  | RK_SmallPage => 0xdeaddead

end RegionKind

open RegionKind

structure RegionInfo where
  bitmap : Nat
  next : Nat
  prev : Nat
deriving DecidableEq

def REGION_COUNT : Nat := 0x2220
def CHAIN_END : Nat := 0xffff
def SIZE_MAX : Nat := 2 ^ 32 - 1
def UINTPTR_MAX : Nat := 2 ^ 32 - 1

structure PhysicalPageAllocator where
  regions : Nat → RegionInfo
  supersection_mask : Nat
  floating_lists : Nat → Nat
  floating_counts : Nat → Nat
  allocated_counts : Nat → Nat

namespace PhysicalPageAllocator

variable (ppa : PhysicalPageAllocator)

/-- Reads `regions[i]`. -/
def region (i : Nat) : Except Fault RegionInfo :=
  if i < REGION_COUNT then .ok (ppa.regions i) else .error (.regions i)

/-- Writes `regions[i]`. -/
def setRegion (i : Nat) (r : RegionInfo) : Except Fault PhysicalPageAllocator :=
  if i < REGION_COUNT then .ok { ppa with regions := Function.update ppa.regions i r }
  else .error (.regions i)

/-- Writes `floating_lists[i]`. -/
def setFloating (i v : Nat) : Except Fault PhysicalPageAllocator :=
  if i < 3 then .ok { ppa with floating_lists := Function.update ppa.floating_lists i v }
  else .error (.floating_lists i)

/-- `floating_counts[i] += d`, for a `d` that may be `-1`. -/
def countFloating (i d : Nat) : PhysicalPageAllocator :=
  { ppa with
    floating_counts := Function.update ppa.floating_counts i ((ppa.floating_counts i + d) % 2 ^ 32) }

/-- `allocated_counts[i] += d`. -/
def countAllocated (i d : Nat) : PhysicalPageAllocator :=
  { ppa with
    allocated_counts :=
      Function.update ppa.allocated_counts i ((ppa.allocated_counts i + d) % 2 ^ 32) }

def setMask (mask : Nat) : PhysicalPageAllocator := { ppa with supersection_mask := mask }

end PhysicalPageAllocator

/-- What is added for `-= 1`. -/
def MINUS_ONE : Nat := 2 ^ 32 - 1

/-- `~x` in 32 bits. -/
def not32 (x : Nat) : Nat := x ^^^ 0xffffffff

/-- `__builtin_clz` of a 32-bit number other than zero. -/
def clz (x : Nat) : Nat := 31 - Nat.log2 x

def get_region_ptr (no : Nat) (rk : RegionKind) : Nat := rk.scale * no % 2 ^ 32

def region_index (i : Nat) (rk : RegionKind) : Except Fault Nat :=
  if rk = RK_SmallPage then .error .assert else .ok ((i + rk.indexOffset) % 2 ^ 32)

def float_region (ppa : PhysicalPageAllocator) (idx_in_kind : Nat) (rk : RegionKind) :
    Except Fault PhysicalPageAllocator := do
  let idx ← region_index idx_in_kind rk
  let r ← ppa.region idx
  let head := ppa.floating_lists rk.no
  let next := if head = SIZE_MAX then CHAIN_END else head % 2 ^ 16
  let ppa ← (ppa.countFloating rk.no 1).setRegion idx { r with prev := CHAIN_END, next := next }
  ppa.setFloating rk.no idx

/-- The list head is addressed by the index of the region, not by the kind. -/
def unfloat_region (ppa : PhysicalPageAllocator) (region_idx : Nat) (rk : RegionKind) :
    Except Fault PhysicalPageAllocator := do
  let ppa := ppa.countFloating rk.no MINUS_ONE
  let next := (← ppa.region region_idx).next
  let ppa ←
    if next ≠ CHAIN_END then do
      let r ← ppa.region next
      ppa.setRegion next { r with prev := CHAIN_END }
    else pure ppa
  let prev := (← ppa.region region_idx).prev
  if prev ≠ CHAIN_END then do
    let r ← ppa.region prev
    ppa.setRegion prev { r with next := next }
  else ppa.setFloating region_idx (if next = CHAIN_END then SIZE_MAX else next)

/-! ## `ppa_init` -/

/-- Everything free. -/
def PhysicalPageAllocator.empty : PhysicalPageAllocator where
  regions _ := ⟨0xffff, CHAIN_END, CHAIN_END⟩
  supersection_mask := 0xffffffff
  floating_lists _ := SIZE_MAX
  floating_counts _ := 0
  allocated_counts _ := 0

/-- The inner loop over the preclaims, from the `j`th on, whose remaining entries
are given. It goes to `finished_preclaims` only after it has read the end of the
entry behind the last one. -/
def advance (r1 : Nat) : Nat → List (Nat × Nat) → Except Fault (Nat × List (Nat × Nat))
  | j, [] => .error (.preclaims j)
  | j, p :: ps => if p.2 ≤ r1 then advance r1 (j + 1) ps else .ok (j, p :: ps)

/-- The loop over the small pages, for the last `n` of `0x20000`. `start` is
`preclaims[0][0]`. -/
def claimPages (start : Nat) : Nat → Nat → List (Nat × Nat) → PhysicalPageAllocator →
    Except Fault PhysicalPageAllocator
  | 0, _, _, ppa => .ok ppa
  | n + 1, j, ps, ppa => do
      let i := 0x20000 - (n + 1)
      let r1 := get_region_ptr (i + 1) RK_SmallPage
      if r1 ≤ start then claimPages start n j ps ppa
      else
        let ppa := ppa.countAllocated RK_SmallPage.no 1
        let idx ← region_index (i / 16) RK_LargePage
        let r ← ppa.region idx
        let ppa ← ppa.setRegion idx { r with bitmap := r.bitmap &&& not32 (1 <<< (i % 16)) }
        let (j, ps) ← advance r1 j ps
        claimPages start n j ps ppa

/-- One turn of the loops that go from a kind to the next larger one: region
`j` of kind `rk` is partly in use, so it is taken from its parent. -/
def claimParent (rk parent : RegionKind) (ppa : PhysicalPageAllocator) (j : Nat) :
    Except Fault PhysicalPageAllocator := do
  let r ← ppa.region (← region_index j rk)
  if r.bitmap ≠ 0xffff then
    let ppa := ppa.countAllocated rk.no 1
    let idx ← region_index (j / 16) parent
    let p ← ppa.region idx
    let ppa ← ppa.setRegion idx { p with bitmap := p.bitmap &&& not32 (1 <<< (j % 16)) }
    if r.bitmap ≠ 0 then float_region ppa j rk else pure ppa
  else pure ppa

/-- The same for a supersection and the mask. -/
def claimSupersection (ppa : PhysicalPageAllocator) (i : Nat) :
    Except Fault PhysicalPageAllocator := do
  let r ← ppa.region (← region_index i RK_Supersection)
  if r.bitmap ≠ 0xffff then
    let ppa := ppa.countAllocated RK_Supersection.no 1
    let ppa := ppa.setMask (ppa.supersection_mask &&& not32 (1 <<< i))
    if r.bitmap ≠ 0 then float_region ppa i RK_Supersection else pure ppa
  else pure ppa

/-- The two nested loops over a kind visit its regions in order. -/
def ppa_init (preclaims : List (Nat × Nat)) : Except Fault PhysicalPageAllocator :=
  match preclaims with
  | [] => .ok .empty
  | p :: ps => do
      let ppa ← claimPages p.1 0x20000 0 (p :: ps) .empty
      let ppa ← (List.range (0x200 * 16)).foldlM (claimParent RK_LargePage RK_Section) ppa
      let ppa ← (List.range (0x20 * 16)).foldlM (claimParent RK_Section RK_Supersection) ppa
      (List.range 32).foldlM claimSupersection ppa

/-! ## `ppa_alloc` -/

/-- `commit_region`, where `gap` is `alloc_kind - from_region_kind`. -/
def commit_region (alloc_kind : RegionKind) : (gap : Nat) → PhysicalPageAllocator →
    (from_region_idx : Nat) → Except Fault (Nat × PhysicalPageAllocator)
  | 0, _, _ => .error .assert
  | gap + 1, ppa, from_region_idx => do
      let from_region_kind := ofNo (alloc_kind.no - (gap + 1))
      let r ← ppa.region from_region_idx
      let lz := if r.bitmap ≠ 0 then clz r.bitmap else 0
      let bitmap := r.bitmap &&& not32 (0x8000 >>> lz)
      let ppa ← ppa.setRegion from_region_idx { r with bitmap := bitmap }
      let ppa ← if bitmap = 0 then unfloat_region ppa from_region_idx from_region_kind else pure ppa
      let child_no := (16 + 2 ^ 32 - lz) % 2 ^ 32
      let from_region_no := (from_region_idx + 2 ^ 32 - from_region_kind.indexOffset) % 2 ^ 32
      let region_no := (child_no + from_region_no * 16) % 2 ^ 32
      if gap = 0 then pure (get_region_ptr region_no alloc_kind, ppa)
      else
        let idx ← region_index region_no (ofNo (from_region_kind.no + 1))
        commit_region alloc_kind gap ppa idx

/-- The kind nearest above the one with number `rki` whose floating list is not empty. -/
def nearestFloating (ppa : PhysicalPageAllocator) : (rki : Nat) → Option Nat
  | 0 => none
  | rki + 1 => if ppa.floating_lists rki ≠ SIZE_MAX then some rki else nearestFloating ppa rki

/-- `ppa_alloc`, with a bound on its tail calls. -/
def allocTurns (rk : RegionKind) : (turns : Nat) → PhysicalPageAllocator →
    Except Fault (Nat × PhysicalPageAllocator)
  | 0, _ => .error .assert
  | turns + 1, ppa =>
      match nearestFloating ppa rk.no with
      | some rki => do
          let (ix, ppa) ← commit_region rk (rk.no - rki) ppa (ppa.floating_lists rki)
          pure (ix, ppa.countAllocated rk.no 1)
      | none =>
          if ppa.supersection_mask = 0 then .ok (UINTPTR_MAX, ppa)
          else do
            let lz := clz ppa.supersection_mask
            let ppa := ppa.setMask (ppa.supersection_mask &&& not32 (0x80000000 >>> lz))
            let ss_no := 31 - lz
            if rk = RK_Supersection then
              pure (get_region_ptr ss_no RK_Supersection, ppa.countAllocated rk.no 1)
            else
              let ppa ← float_region ppa ss_no RK_Supersection
              allocTurns rk turns ppa

/-- After one tail call a supersection floats, so there is no second. -/
def ppa_alloc (ppa : PhysicalPageAllocator) (rk : RegionKind) :
    Except Fault (Nat × PhysicalPageAllocator) :=
  allocTurns rk 2 ppa

/-! ## `ppa_free` -/

/-- `free_region_recursive`, for the kind with number `rk`. -/
def free_region_recursive : (rk : Nat) → PhysicalPageAllocator → (region_no : Nat) →
    Except Fault PhysicalPageAllocator
  | 0, ppa, region_no => .ok (ppa.setMask (ppa.supersection_mask ||| 1 <<< region_no))
  | rk + 1, ppa, region_no => do
      let parent_no := region_no / 16
      let parent_kind := ofNo rk
      let parent_idx ← region_index parent_no parent_kind
      let r ← ppa.region parent_idx
      let bitmap := r.bitmap ||| 1 <<< (region_no % 16)
      let ppa ← ppa.setRegion parent_idx { r with bitmap := bitmap }
      if bitmap = 0xffff then do
        let ppa ← unfloat_region ppa parent_idx parent_kind
        free_region_recursive rk ppa parent_no
      else if bitmap = 0 then float_region ppa parent_idx parent_kind
      else pure ppa

def ppa_free (ppa : PhysicalPageAllocator) (p : Nat) (rk : RegionKind) :
    Except Fault PhysicalPageAllocator :=
  if p &&& (rk.scale - 1) ≠ 0 then .error .assert
  else do
    let ppa ← free_region_recursive rk.no ppa (p / rk.scale)
    pure (ppa.countAllocated rk.no MINUS_ONE)

/-! ## Runs -/

/-- The allocator with the live allocations, latest first, and the preclaims it
was initialised with. -/
structure PpaState where
  ppa : PhysicalPageAllocator
  live : List (RegionKind × Nat)
  preclaims : List (Nat × Nat)

inductive PpaCall
  | alloc (rk : RegionKind)
  | free (p : Nat) (rk : RegionKind)
deriving DecidableEq

/-- A free names a live allocation with its kind. -/
def PpaCall.Valid (s : PpaState) : PpaCall → Prop
  | .alloc _ => True
  | .free p rk => (rk, p) ∈ s.live

instance (s : PpaState) : DecidablePred (PpaCall.Valid s)
  | .alloc _ => inferInstanceAs (Decidable True)
  | .free p rk => inferInstanceAs (Decidable ((rk, p) ∈ s.live))

/-- The state after a call. An allocation that failed is not live. -/
def ppaNext (s : PpaState) : PpaCall → Except Fault PpaState
  | .alloc rk => do
      let (p, ppa) ← ppa_alloc s.ppa rk
      pure { s with ppa := ppa, live := if p = UINTPTR_MAX then s.live else (rk, p) :: s.live }
  | .free p rk => do
      let ppa ← ppa_free s.ppa p rk
      pure { s with ppa := ppa, live := s.live.erase (rk, p) }

end Bcm2835.Superopt

import Bcm2835.Integ.Hash

/-!
# The integrity checker (`240-integ/2-integ.c`)

`integ_prep` and `integ_chk` on a memory that holds the `IntegHeader` they are
given: every field of it is read from memory where the source reads it, and the
checksums and the flags are written back to it. Output and the frames of the
calls themselves are left out.
-/

namespace Bcm2835.Integ

open Mem Bytes

/-- What keeps a call from returning. -/
inductive Halt
  | assert
  | panic
  | reset
deriving DecidableEq

/-! ## Fields -/

def IRF_Mutable : Nat := 0x1
def IRF_Purgable : Nat := 0x2
def IRF_Critical : Nat := 0x4
def IRF_Stack : Nat := 0x8
def IRF_Corrupted : Nat := 0x10
def IRF_CorruptedSomewhere : Nat := 0x20
def IHF_ExpectStackCleanup : Nat := 0x1

/-- The address of `ihdr->regions[i]`. -/
def regionAt (ihdr i : Nat) : Nat := ihdr + 40 + 16 * i

section Fields

variable (m : Memory) (ihdr i : Nat)

def seedOf : Nat := field m (ihdr + 16)
def flagsOf : Nat := field m (ihdr + 20)
def spOf : Nat := field m (ihdr + 24)
def region_count : Nat := field m (ihdr + 32)

def region_p : Nat := field m (regionAt ihdr i)
def region_size : Nat := field m (regionAt ihdr i + 4)
def region_flags : Nat := field m (regionAt ihdr i + 8)
def region_cksum : Nat := field m (regionAt ihdr i + 12)

def setCksum (v : Nat) : Memory := store m (regionAt ihdr i + 12) v

/-- `ihdr->regions[i].flags |= f`. -/
def orFlags (f : Nat) : Memory := store m (regionAt ihdr i + 8) (region_flags m ihdr i ||| f)

/-- `region_range`'s end. -/
def range_end : Nat := (region_p m ihdr i + region_size m ihdr i) % 2 ^ 32

/-- `range_contains`. -/
def range_contains (addr : Nat) : Prop := region_p m ihdr i ≤ addr ∧ addr < range_end m ihdr i

instance (addr : Nat) : Decidable (range_contains m ihdr i addr) := instDecidableAnd

end Fields

/-- `memset(p, 0, n)`. -/
def clear (m : Memory) (p n : Nat) : Memory := write (2 ^ 32) m p (List.replicate n 0)

/-- `for (i = 0; i < ihdr->region_count; i++)`, for at most `fuel` turns. -/
def regionLoop {σ : Type} (ihdr : Nat) (mem : σ → Memory) (body : Nat → σ → Except Halt σ) :
    (fuel i : Nat) → σ → Except Halt σ
  | 0, _, s => .ok s
  | fuel + 1, i, s =>
      if i < region_count (mem s) ihdr then
        (body i s).bind (regionLoop ihdr mem body fuel (i + 1))
      else .ok s

/-! ## `integ_prep` -/

/-- The size from the stack pointer on. -/
def stackSize (p size sp : Nat) : Nat := (p + size + 2 ^ 32 - sp) % 2 ^ 32

/-- One turn of `integ_prep`. -/
def prepRegion (ihdr i : Nat) (m : Memory) : Except Halt Memory :=
  let p := region_p m ihdr i
  let size := region_size m ihdr i
  if region_flags m ihdr i &&& (IRF_Corrupted ||| IRF_CorruptedSomewhere) ≠ 0 then .error .assert
  else
    let m := setCksum m ihdr i 0
    if region_flags m ihdr i &&& IRF_Mutable ≠ 0 then .ok m
    else if region_flags m ihdr i &&& IRF_Purgable ≠ 0 then .ok (clear m p size)
    else if region_flags m ihdr i &&& IRF_Stack ≠ 0 ∧ range_contains m ihdr i (spOf m ihdr) then
      let hash := hash_memory m (seedOf m ihdr) (spOf m ihdr) (stackSize p size (spOf m ihdr))
      let m := setCksum m ihdr i hash.toNat
      if flagsOf m ihdr &&& IHF_ExpectStackCleanup ≠ 0 then .ok (clear m p (spOf m ihdr - p))
      else .ok m
    else if region_flags m ihdr i &&& IRF_Stack ≠ 0 ∧ range_end m ihdr i ≤ spOf m ihdr then
      .error .panic
    else
      let hash := hash_memory m (seedOf m ihdr) (region_p m ihdr i) (region_size m ihdr i)
      .ok (setCksum m ihdr i hash.toNat)

/-- How far the 32 bits of `i` count. -/
def SIZE_RANGE : Nat := 2 ^ 32

def integ_prep (ihdr : Nat) (m : Memory) : Except Halt Memory :=
  regionLoop ihdr id (prepRegion ihdr) SIZE_RANGE 0 m

/-! ## `integ_chk` -/

inductive IntegStatus
  | IS_Clean
  | IS_AbCon
  | IS_AbEnd
deriving DecidableEq

/-- All bytes are zero. -/
def check_purgable (m : Memory) (p size : Nat) : Prop := ∀ x < size, m ((p + x) % 2 ^ 32) = 0

instance (m : Memory) (p size : Nat) : Decidable (check_purgable m p size) :=
  inferInstanceAs (Decidable (∀ x < size, m ((p + x) % 2 ^ 32) = 0))

/-- Flags a region and takes the status from what it is. -/
def alarm (ihdr i f : Nat) (m : Memory) : Memory × IntegStatus :=
  let m := orFlags m ihdr i f
  (m, if region_flags m ihdr i &&& IRF_Critical ≠ 0 then .IS_AbEnd else .IS_AbCon)

/-- The comparison with the checksum of the region. -/
def chkHash (ihdr i p size : Nat) (s : Memory × IntegStatus) : Memory × IntegStatus :=
  if (hash_memory s.1 (seedOf s.1 ihdr) p size).toNat ≠ region_cksum s.1 ihdr i then
    alarm ihdr i IRF_CorruptedSomewhere s.1
  else s

/-- The check that a range is still clear. -/
def chkClear (ihdr i p size : Nat) (s : Memory × IntegStatus) : Memory × IntegStatus :=
  if check_purgable s.1 p size then s else alarm ihdr i IRF_Corrupted s.1

/-- What is expected of the stack below the stack pointer. -/
def chkCleanup (ihdr i p : Nat) (s : Memory × IntegStatus) : Memory × IntegStatus :=
  if flagsOf s.1 ihdr &&& IHF_ExpectStackCleanup ≠ 0 then
    chkClear ihdr i p (spOf s.1 ihdr - p) s
  else s

/-- One turn of `integ_chk`. -/
def chkRegion (ihdr i : Nat) (s : Memory × IntegStatus) :
    Except Halt (Memory × IntegStatus) :=
  if region_flags s.1 ihdr i &&& IRF_Mutable ≠ 0 then .ok s
  else if region_flags s.1 ihdr i &&& IRF_Purgable ≠ 0 then
    .ok (chkClear ihdr i (region_p s.1 ihdr i) (region_size s.1 ihdr i) s)
  else if region_flags s.1 ihdr i &&& IRF_Stack ≠ 0 ∧
      range_contains s.1 ihdr i (spOf s.1 ihdr) then
    .ok (chkCleanup ihdr i (region_p s.1 ihdr i)
      (chkHash ihdr i (spOf s.1 ihdr)
        (stackSize (region_p s.1 ihdr i) (region_size s.1 ihdr i) (spOf s.1 ihdr)) s))
  else if region_flags s.1 ihdr i &&& IRF_Stack ≠ 0 ∧ range_end s.1 ihdr i ≤ spOf s.1 ihdr then
    .error .panic
  else .ok (chkHash ihdr i (region_p s.1 ihdr i) (region_size s.1 ihdr i) s)

/-- A precheck that failed resets the board. -/
def integ_chk (ihdr prechk : Nat) (m : Memory) : Except Halt (Memory × IntegStatus) :=
  if prechk ≠ 0 then .error .reset
  else regionLoop ihdr Prod.fst (chkRegion ihdr) SIZE_RANGE 0 (m, .IS_Clean)

end Bcm2835.Integ

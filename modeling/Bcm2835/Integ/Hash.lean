import Bcm2835.Lib.Mem
import Bcm2835.Lib.Bytes
import Bcm2835.Lib.Sweep

/-!
# The memory hash (`240-integ/hash.c`)

`hash_memory` as built for the target: from 64 bytes of whole 32-byte blocks on
they go through the assembly loop, which leaves out the last product of each
lane and makes up for it at the next block.
-/

namespace Bcm2835.Integ

open Mem Bytes Sweep

abbrev Word := BitVec 32

def PRIME_1 : Word := 2654435761#32
def PRIME_2 : Word := 2246822519#32
def PRIME_3 : Word := 3266489917#32
def PRIME_4 : Word := 668265263#32
def PRIME_5 : Word := 374761393#32

/-- `RotateLeft`. -/
def RotateLeft (x : Word) (r : Nat) : Word := x <<< r ||| x >>> ((32 - r % 32) % 32)

/-- The number at an address. -/
def field (m : Memory) (a : Nat) : Nat := ofLe (read m a 4)

/-- Stores a number. -/
def store (m : Memory) (a v : Nat) : Memory := write (2 ^ 32) m a (leBytes 4 v)

/-- `*(const uint32_t *)a`. -/
def word (m : Memory) (a : Nat) : Word := .ofNat 32 (field m a)

/-- The three lanes. -/
structure Lanes where
  s0 : Word
  s1 : Word
  s2 : Word
deriving DecidableEq

/-! ## Whole blocks -/

/-- `s = RotateLeft(s + w * PRIME_2, 13) * PRIME_1`. -/
def accumulate (s w : Word) : Word := RotateLeft (s + w * PRIME_2) 13 * PRIME_1

/-- One turn of the C loop. -/
def accumulateBlock (m : Memory) (data : Nat) (l : Lanes) : Lanes where
  s0 := accumulate (accumulate (accumulate l.s0 (word m data)) (word m (data + 12)))
    (word m (data + 24))
  s1 := accumulate (accumulate (accumulate l.s1 (word m (data + 4))) (word m (data + 16)))
    (word m (data + 28))
  s2 := accumulate (accumulate l.s2 (word m (data + 8))) (word m (data + 20))

/-- `mla s, w, r13, s` and `ror s, s, #19`. -/
def mlaRor (s w : Word) : Word := (s + w * PRIME_2) >>> 19 ||| (s + w * PRIME_2) <<< 13

/-- The block in front of the assembly loop. -/
def asmFirst (m : Memory) (data : Nat) (l : Lanes) : Lanes where
  s0 := mlaRor (mlaRor (mlaRor l.s0 (word m data) * PRIME_1) (word m (data + 12)) * PRIME_1)
    (word m (data + 24))
  s1 := mlaRor (mlaRor (mlaRor l.s1 (word m (data + 4)) * PRIME_1) (word m (data + 16)) * PRIME_1)
    (word m (data + 28))
  s2 := mlaRor (mlaRor l.s2 (word m (data + 8)) * PRIME_1) (word m (data + 20))

/-- The products that were left out. -/
def asmMul (l : Lanes) : Lanes := ⟨l.s0 * PRIME_1, l.s1 * PRIME_1, l.s2 * PRIME_1⟩

/-- One turn of the assembly loop. -/
def asmTurn (m : Memory) (data : Nat) (l : Lanes) : Lanes := asmFirst m data (asmMul l)

/-- The whole blocks, with the address behind them. -/
def accumulateBlocks (m : Memory) (start_block stop_block : Nat) (l : Lanes) : Nat × Lanes :=
  if 64 ≤ stop_block - start_block then
    let (data, l) := sweep (asmTurn m) 32 (start_block + 32) stop_block (asmFirst m start_block l)
    (data, asmMul l)
  else sweep (accumulateBlock m) 32 start_block stop_block l

/-! ## The rest -/

/-- A word in front of or behind the whole blocks. -/
def mixWord (m : Memory) (data : Nat) (H : Word) : Word :=
  RotateLeft (H + word m data * PRIME_3) 17 * PRIME_4

/-- A byte in front of or behind the words. -/
def mixByte (m : Memory) (data : Nat) (H : Word) : Word :=
  RotateLeft (H + .ofNat 32 (m data).toNat * PRIME_5) 11 * PRIME_1

def avalanche (H : Word) : Word :=
  let H := H ^^^ H >>> 15
  let H := H * PRIME_2
  let H := H ^^^ H >>> 13
  let H := H * PRIME_3
  H ^^^ H >>> 16

/-! ## Where the parts begin and end -/

def stop (p sz : Nat) : Nat := (p + sz) % 2 ^ 32

/-- `stop & ~3`. -/
def stop_word (p sz : Nat) : Nat := stop p sz / 4 * 4

/-- `stop & ~31`. -/
def stop_block (p sz : Nat) : Nat := stop p sz / 32 * 32

def start_word (p sz : Nat) : Nat := min (stop_word p sz) ((p + 3) % 2 ^ 32 / 4 * 4)

def start_block (p sz : Nat) : Nat := min (stop_block p sz) ((p + 31) % 2 ^ 32 / 32 * 32)

def hash_memory (m : Memory) (seed_ptr p sz : Nat) : Word :=
  let seed := if seed_ptr = 0 then 0 else word m seed_ptr
  let lanes : Lanes := ⟨seed + PRIME_1 + PRIME_2, seed + PRIME_2, seed⟩
  let (data, l) := accumulateBlocks m (start_block p sz) (stop_block p sz) lanes
  let H := .ofNat 32 sz + RotateLeft l.s0 1 + RotateLeft l.s1 7 + RotateLeft l.s2 12
  let (data, H) := sweep (mixWord m) 4 data (stop_word p sz) H
  let (_, H) := sweep (mixByte m) 1 data (stop p sz) H
  let (data, H) := sweep (mixByte m) 1 p (start_word p sz) H
  let (_, H) := sweep (mixWord m) 4 data (start_block p sz) H
  avalanche H

end Bcm2835.Integ

import Bcm2835.Dma.Emit

/-!
# The lookup tables and their initializers

The operations of the arithmetic library look their results up in tables that
the `INITIALIZER` functions fill before the first chain runs. An initializer is
the list of its stores, in order, at bus addresses; `Has m ws` says that the
memory `m` holds what the stores `ws` leave.
-/

namespace Bcm2835.Dma

open Mem

/-! ## Rows (`arith.h`) -/

def HYPER_ADD : Nat := 0x04
def HYPER_SUB : Nat := 0x08
def HYPER_AND : Nat := 0x0c
def HYPER_OR : Nat := 0x0d
def HYPER_XOR : Nat := 0x0e
def HYPER_SLL : Nat := 0x14
def HYPER_SRL : Nat := 0x24
def HYPER_GEU : Nat := 0x2c
def HYPER_EQU : Nat := 0x2e
def HYPER_GES : Nat := 0x34
def HYPER_MUL : Nat := 0x38
def HYPER_ADD_R : Nat := 0x48
def SUPER_INC : Nat := 0x00

/-- An array and its size. -/
structure Region where
  start : Nat
  size : Nat

/-- Two arrays do not meet. -/
def Region.Apart (r s : Region) : Prop := r.start + r.size ≤ s.start ∨ s.start + s.size ≤ r.start

instance (r s : Region) : Decidable (r.Apart s) := inferInstanceAs (Decidable (_ ∨ _))

/-- Where the link places the tables (`_TableSymbol`), with the alignment each is
declared with. All are in memory the engine reaches, and none meets another. -/
structure Layout where
  ZERO : Nat
  HYPER : Nat
  SUPER : Nat
  NOT : Nat
  SLL_HYPER_SELECT : Nat
  SRL_HYPER_SELECT : Nat
  SEXT_WHICH : Nat
  SEXT_BUFS : Nat
  SRA_HI : Nat
  POLAR_TRUTH_X1 : Nat
  ANTIPOLAR_TRUTH_X1 : Nat
  POLAR_TRUTH_X4 : Nat
  ANTIPOLAR_TRUTH_X4 : Nat
  zero_aligned : ZERO % 2 ^ 8 = 0
  hyper_aligned : HYPER % 2 ^ 24 = 0
  super_aligned : SUPER % 2 ^ 16 = 0
  not_aligned : NOT % 2 ^ 8 = 0
  sll_select_aligned : SLL_HYPER_SELECT % 2 ^ 8 = 0
  srl_select_aligned : SRL_HYPER_SELECT % 2 ^ 8 = 0
  sext_which_aligned : SEXT_WHICH % 2 ^ 8 = 0
  sext_bufs_aligned : SEXT_BUFS % 2 ^ 5 = 0
  sra_hi_aligned : SRA_HI % 2 ^ 16 = 0
  polar_x1_aligned : POLAR_TRUTH_X1 % 2 ^ 8 = 0
  antipolar_x1_aligned : ANTIPOLAR_TRUTH_X1 % 2 ^ 8 = 0
  polar_x4_aligned : POLAR_TRUTH_X4 % 2 ^ 8 = 0
  antipolar_x4_aligned : ANTIPOLAR_TRUTH_X4 % 2 ^ 8 = 0
  in_dram : ∀ r ∈ ([⟨ZERO, 2 ^ 8⟩, ⟨HYPER, 2 ^ 24⟩, ⟨SUPER, 2 ^ 16⟩, ⟨NOT, 2 ^ 8⟩,
    ⟨SLL_HYPER_SELECT, 2 ^ 8⟩, ⟨SRL_HYPER_SELECT, 2 ^ 8⟩, ⟨SEXT_WHICH, 2 ^ 8⟩, ⟨SEXT_BUFS, 2 ^ 5⟩,
    ⟨SRA_HI, 2 ^ 16⟩, ⟨POLAR_TRUTH_X1, 2 ^ 8⟩, ⟨ANTIPOLAR_TRUTH_X1, 2 ^ 8⟩,
    ⟨POLAR_TRUTH_X4, 2 ^ 8⟩, ⟨ANTIPOLAR_TRUTH_X4, 2 ^ 8⟩] : List Region),
    r.start + r.size ≤ ARM_DRAM_END
  apart : ([⟨ZERO, 2 ^ 8⟩, ⟨HYPER, 2 ^ 24⟩, ⟨SUPER, 2 ^ 16⟩, ⟨NOT, 2 ^ 8⟩,
    ⟨SLL_HYPER_SELECT, 2 ^ 8⟩, ⟨SRL_HYPER_SELECT, 2 ^ 8⟩, ⟨SEXT_WHICH, 2 ^ 8⟩, ⟨SEXT_BUFS, 2 ^ 5⟩,
    ⟨SRA_HI, 2 ^ 16⟩, ⟨POLAR_TRUTH_X1, 2 ^ 8⟩, ⟨ANTIPOLAR_TRUTH_X1, 2 ^ 8⟩,
    ⟨POLAR_TRUTH_X4, 2 ^ 8⟩, ⟨ANTIPOLAR_TRUTH_X4, 2 ^ 8⟩] : List Region).Pairwise Region.Apart

/-- A link for examples. -/
def Layout.sample : Layout where
  ZERO := 0x30000
  HYPER := 0x1000000
  SUPER := 0x10000
  NOT := 0x30100
  SLL_HYPER_SELECT := 0x30200
  SRL_HYPER_SELECT := 0x30300
  SEXT_WHICH := 0x30400
  SEXT_BUFS := 0x30900
  SRA_HI := 0x20000
  POLAR_TRUTH_X1 := 0x30500
  ANTIPOLAR_TRUTH_X1 := 0x30600
  POLAR_TRUTH_X4 := 0x30700
  ANTIPOLAR_TRUTH_X4 := 0x30800
  zero_aligned := by decide
  hyper_aligned := by decide
  super_aligned := by decide
  not_aligned := by decide
  sll_select_aligned := by decide
  srl_select_aligned := by decide
  sext_which_aligned := by decide
  sext_bufs_aligned := by decide
  sra_hi_aligned := by decide
  polar_x1_aligned := by decide
  antipolar_x1_aligned := by decide
  polar_x4_aligned := by decide
  antipolar_x4_aligned := by decide
  in_dram := by decide
  apart := by decide

/-- A range of addresses the engine sees, for an array the link placed at `array`. -/
def onBus (array size : Nat) : Region := ⟨array + BUS_DRAM_BASE, size⟩

/-- The addresses of `HYPER`. -/
def Layout.hyper (L : Layout) : Region := onBus L.HYPER (2 ^ 24)

/-! ## Initializers -/

/-- The store `array[i] = x`, the array at the ARM address `array`. -/
def put (array i : Nat) (x : Int) : Nat × UInt8 :=
  (array + BUS_DRAM_BASE + i, .ofNat (x % 256).toNat)

/-- `for (i = 0; i < n; i++) body(i)`. -/
def each (n : Nat) (body : Nat → List (Nat × UInt8)) : List (Nat × UInt8) :=
  (List.range n).flatMap body

section Initializers

variable (L : Layout)

def init_increment : List (Nat × UInt8) :=
  each 256 fun i => [
    put L.SUPER ((i <<< 8 ||| SUPER_INC) + 0) ((i + 0) &&& 0xff : Nat),
    put L.SUPER ((i <<< 8 ||| SUPER_INC) + 1)
      (if (i + 0) >>> 8 ≠ 0 then SUPER_INC + 2 else SUPER_INC : Nat),
    put L.SUPER ((i <<< 8 ||| SUPER_INC) + 2) ((i + 1) &&& 0xff : Nat),
    put L.SUPER ((i <<< 8 ||| SUPER_INC) + 3)
      (if (i + 1) >>> 8 ≠ 0 then SUPER_INC + 2 else SUPER_INC : Nat)]

/-- The loops of `add` and `sub`: `r` is the 16-bit result for a pair of bytes
and a carry, `row` the first of the operation's four rows. -/
def init_carry (row : Nat) (r : Nat → Nat → Nat → Nat) : List (Nat × UInt8) :=
  each 256 fun i => each 256 fun j => each 2 fun l => [
    put L.HYPER ((i <<< 16 ||| j <<< 8 ||| row) + 2 * l + 0) (r i j l &&& 255 : Nat),
    put L.HYPER ((i <<< 16 ||| j <<< 8 ||| row) + 2 * l + 1)
      (if r i j l >>> 8 ≠ 0 then row + 2 else row : Nat)]

def init_add : List (Nat × UInt8) := init_carry L HYPER_ADD fun i j l => u16 (i + j + l)

def init_sub : List (Nat × UInt8) := init_carry L HYPER_SUB fun i j l => u16 (i - j - l)

def init_mul : List (Nat × UInt8) :=
  each 256 fun b => each 256 fun c => [
    put L.HYPER (b <<< 16 ||| c <<< 8 ||| (HYPER_MUL + 0)) (b * c &&& 0xff : Nat),
    put L.HYPER (b <<< 16 ||| c <<< 8 ||| (HYPER_MUL + 1)) (b * c >>> 8 : Nat)]

def init_add_r : List (Nat × UInt8) :=
  each 256 fun i => each 256 fun j => each 2 fun l => [
    put L.HYPER (i <<< 16 ||| j <<< 8 ||| HYPER_ADD_R ||| l <<< 1 ||| 0)
      (if (i + j + l) >>> 8 ≠ 0 then HYPER_ADD_R + 2 else HYPER_ADD_R : Nat),
    put L.HYPER (i <<< 16 ||| j <<< 8 ||| HYPER_ADD_R ||| l <<< 1 ||| 1) ((i + j + l) &&& 255 : Nat)]

def init_not : List (Nat × UInt8) := each 256 fun i => [put L.NOT i (-(i : Int) - 1)]

/-- The loops of `and`, `or` and `xor`. -/
def init_bitwise (row : Nat) (op : Nat → Nat → Nat) : List (Nat × UInt8) :=
  each 256 fun i => each 256 fun j => [put L.HYPER (i <<< 16 ||| j <<< 8 ||| row) (op i j)]

def init_and : List (Nat × UInt8) := init_bitwise L HYPER_AND (· &&& ·)

def init_or : List (Nat × UInt8) := init_bitwise L HYPER_OR (· ||| ·)

def init_xor : List (Nat × UInt8) := init_bitwise L HYPER_XOR (· ^^^ ·)

/-- The loops of `sll` and `init_srl`: a row for each shift of a pair of bytes,
and the row number for each shift count. -/
def init_shift (row select : Nat) (shift : Nat → Nat → Nat) : List (Nat × UInt8) :=
  (each (1 <<< 16) fun i => each 8 fun s => [put L.HYPER ((i <<< 8 ||| row) + s) (shift i s)]) ++
    each 256 fun i => [put select i (row + (i &&& 7) : Nat)]

def init_sll : List (Nat × UInt8) :=
  init_shift L HYPER_SLL L.SLL_HYPER_SELECT fun i s => i <<< s >>> 8

def init_srl : List (Nat × UInt8) :=
  init_shift L HYPER_SRL L.SRL_HYPER_SELECT fun i s => i >>> s

def init_sext : List (Nat × UInt8) :=
  (each 256 fun i => [put L.SEXT_WHICH i
    (if i &&& 0x80 ≠ 0 then (L.SEXT_BUFS + 16) &&& 255 else L.SEXT_BUFS &&& 255 : Nat)]) ++
    each 32 fun i => [put L.SEXT_BUFS i (if i < 16 then 0 else 0xff)]

def init_sra : List (Nat × UInt8) :=
  each 256 fun i => each 256 fun s =>
    [put L.SRA_HI (i <<< 8 ||| s) (Int.bmod i 256 >>> (s % 8))]

/-- `SET_TRUTH_TABLES`. -/
def SET_TRUTH_TABLES (hyper b0 b1 : Nat) : List (Nat × UInt8) := [
  put L.POLAR_TRUTH_X1 (hyper + 0) b0,
  put L.POLAR_TRUTH_X1 (hyper + 1) b1,
  put L.ANTIPOLAR_TRUTH_X1 (hyper + 0) b1,
  put L.ANTIPOLAR_TRUTH_X1 (hyper + 1) b0,
  put L.POLAR_TRUTH_X4 (hyper + 0) b0,
  put L.POLAR_TRUTH_X4 (hyper + 1) (4 * b1 : Nat),
  put L.ANTIPOLAR_TRUTH_X4 (hyper + 0) (4 * b1 : Nat),
  put L.ANTIPOLAR_TRUTH_X4 (hyper + 1) (4 * b0 : Nat)]

/-- The loops of `geu`, `equ` and `ges`: the state behind a pair of bytes, for
each of the `n` states before it. -/
def init_compare (row n : Nat) (next : Nat → Nat → Nat → Nat) : List (Nat × UInt8) :=
  each 256 fun i => each 256 fun j => each n fun l =>
    [put L.HYPER (((i * 256 + j) <<< 8) + row + l) (next i j l)]

/-- The difference is a `size_t`. -/
def geu_next (i j l : Nat) : Nat :=
  if ((i - j - l : Int) % 2 ^ 32).toNat >>> 8 ≠ 0 then HYPER_GEU + 1 else HYPER_GEU

def init_geu : List (Nat × UInt8) :=
  init_compare L HYPER_GEU 2 geu_next ++ SET_TRUTH_TABLES L HYPER_GEU 1 0

def equ_next (i j l : Nat) : Nat := if i = j ∧ l ≠ 0 then HYPER_EQU + 1 else HYPER_EQU

def init_equ : List (Nat × UInt8) :=
  init_compare L HYPER_EQU 2 equ_next ++ SET_TRUTH_TABLES L HYPER_EQU 0 1

def GES_HIGH : Nat := HYPER_GES + 0
def GES_FALSE : Nat := HYPER_GES + 1
def GES_TRUE : Nat := HYPER_GES + 2
def GES_EQU : Nat := HYPER_GES + 3

/-- `i < j ? GES_FALSE : i > j ? GES_TRUE : GES_EQU`. -/
def ges_order (i j : Int) : Nat := if i < j then GES_FALSE else if i > j then GES_TRUE else GES_EQU

/-- The highest bytes are signed. -/
def ges_next (i j l : Nat) : Nat :=
  if HYPER_GES + l = GES_HIGH then ges_order (Int.bmod i 256) (Int.bmod j 256)
  else if HYPER_GES + l = GES_EQU then ges_order i j
  else HYPER_GES + l

/-- The truth tables for the states of `ges`. -/
def ges_truths : List (Nat × UInt8) := [
  put L.POLAR_TRUTH_X1 GES_FALSE 0, put L.POLAR_TRUTH_X1 GES_HIGH 0,
  put L.POLAR_TRUTH_X1 GES_EQU 1, put L.POLAR_TRUTH_X1 GES_TRUE 1,
  put L.ANTIPOLAR_TRUTH_X1 GES_FALSE 1, put L.ANTIPOLAR_TRUTH_X1 GES_HIGH 1,
  put L.ANTIPOLAR_TRUTH_X1 GES_EQU 0, put L.ANTIPOLAR_TRUTH_X1 GES_TRUE 0,
  put L.POLAR_TRUTH_X4 GES_FALSE 0, put L.POLAR_TRUTH_X4 GES_HIGH 0,
  put L.POLAR_TRUTH_X4 GES_EQU 4, put L.POLAR_TRUTH_X4 GES_TRUE 4,
  put L.ANTIPOLAR_TRUTH_X4 GES_FALSE 4, put L.ANTIPOLAR_TRUTH_X4 GES_HIGH 4,
  put L.ANTIPOLAR_TRUTH_X4 GES_EQU 0, put L.ANTIPOLAR_TRUTH_X4 GES_TRUE 0]

def init_ges : List (Nat × UInt8) := init_compare L HYPER_GES 4 ges_next ++ ges_truths L

/-- The initializers of the library; the link decides in which order they run. -/
def initializers : List (List (Nat × UInt8)) := [
  init_increment L, init_add L, init_sub L, init_mul L, init_add_r L, init_not L, init_and L,
  init_or L, init_xor L, init_sll L, init_srl L, init_sext L, init_sra L, init_geu L, init_equ L,
  init_ges L]

end Initializers

/-- `m` holds what the stores leave. -/
def Has (m : Memory) (ws : List (Nat × UInt8)) : Prop := ∀ w ∈ ws, m w.1 = w.2

/-- Makes the stores, in order. -/
def stores (m : Memory) (ws : List (Nat × UInt8)) : Memory :=
  ws.foldl (fun m w => Function.update m w.1 w.2) m

/-- The tables as the program finds them: `ZERO` as declared, the others as
their initializers left them. -/
structure Filled (L : Layout) (m : Memory) : Prop where
  zero : ∀ k < 256, m (L.ZERO + BUS_DRAM_BASE + k) = 0
  init : ∀ ws ∈ initializers L, Has m ws

end Bcm2835.Dma

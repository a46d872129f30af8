import Bcm2835.Lib.Moves
import Bcm2835.Lib.Digits
import Mathlib.Logic.Function.Iterate

/-!
# The DMA engine

What the programs of `bcm2835/dma` assume of the BCM2835 DMA engine. A channel
loads the control block at `conblk_ad` at the moment that block starts, moves its
bytes in order and goes on at `next_cb`; it stops at 0. All addresses are bus
addresses and 32 bits wide.

`private.h` has the control block and its flags, `errata.txt` the two quirks: the
row count in `txfr_len` is one less than the number of rows, and a transfer
without `TI_SRC_INC` draws from the 16 bytes at its source.
-/

namespace Bcm2835.Dma

open Mem Digits

/-- `cblk`. The two words behind `next_cb` are not read. -/
structure Cblk where
  ti : Nat
  src_addr : Nat
  dst_addr : Nat
  txfr_len : Nat
  stride : Nat
  next_cb : Nat
deriving DecidableEq

def TI_2DMODE : Nat := 1 <<< 1
def TI_DST_INC : Nat := 1 <<< 4
def TI_SRC_INC : Nat := 1 <<< 8

/-- The number in the `n` bytes at `a`. -/
def num (m : Memory) (a n : Nat) : Nat := value (fun i => m (a + i)) n

/-- The 32-bit word at `a`. -/
def word (m : Memory) (a : Nat) : Nat := num m a 4

/-- The control block at `a`. -/
def Cblk.at (m : Memory) (a : Nat) : Cblk where
  ti := word m a
  src_addr := word m (a + 4)
  dst_addr := word m (a + 8)
  txfr_len := word m (a + 12)
  stride := word m (a + 16)
  next_cb := word m (a + 20)

/-- What is left open about the engine: which of the 16 bytes at its source a
transfer without `TI_SRC_INC` draws for byte `k` of a row. The first byte of a
row is the first of the 16, so that rows of one byte read the source again. -/
structure Engine where
  draw : Nat → Nat
  draw_lt : ∀ k, draw k < 16
  draw_zero : draw 0 = 0

/-- A 16-bit number read in two's complement. -/
def signed16 (x : Nat) : Int := Int.bmod (x : Int) (2 ^ 16)

/-- An address register that has been moved by `d`. -/
def advance (a : Nat) (d : Int) : Nat := (((a : Int) + d) % 2 ^ 32).toNat

namespace Cblk

variable (c : Cblk)

def is2D : Bool := c.ti.testBit 1

def rows : Nat := if c.is2D then c.txfr_len / 2 ^ 16 + 1 else 1

def cols : Nat := if c.is2D then c.txfr_len % 2 ^ 16 else c.txfr_len

/-- The address byte `k` is written to: the register has moved by a row and its
stride for each row before. -/
def dstAt (k : Nat) : Nat :=
  if c.ti.testBit 4 then
    advance c.dst_addr
      ((k / c.cols : Nat) * (c.cols + signed16 (c.stride / 2 ^ 16)) + (k % c.cols : Nat))
  else c.dst_addr

/-- The address byte `k` is read from. -/
def srcAt (E : Engine) (k : Nat) : Nat :=
  if c.ti.testBit 8 then
    advance c.src_addr ((k / c.cols : Nat) * (c.cols + signed16 c.stride) + (k % c.cols : Nat))
  else advance c.src_addr (E.draw (k % c.cols))

def transfer (E : Engine) (m : Memory) : Memory :=
  moves c.dstAt (c.srcAt E) (c.rows * c.cols) m

end Cblk

/-- A DMA channel and the memory it works on. -/
structure Channel where
  conblk_ad : Nat
  mem : Memory

/-- One control block. -/
def step (E : Engine) (s : Channel) : Channel :=
  if s.conblk_ad = 0 then s
  else ⟨(Cblk.at s.mem s.conblk_ad).next_cb, (Cblk.at s.mem s.conblk_ad).transfer E s.mem⟩

/-- The channel after `n` blocks. -/
def after (E : Engine) (n : Nat) (s : Channel) : Channel := (step E)^[n] s

/-- The chain at `a` stops, and leaves the memory `m'`. -/
def Halts (E : Engine) (m : Memory) (a : Nat) (m' : Memory) : Prop :=
  ∃ n, after E n ⟨a, m⟩ = ⟨0, m'⟩

variable {E : Engine} {s : Channel}

@[simp] theorem after_zero (E : Engine) (s : Channel) : after E 0 s = s := rfl

theorem after_succ (E : Engine) (n : Nat) (s : Channel) :
    after E (n + 1) s = step E (after E n s) := Function.iterate_succ_apply' ..

theorem after_add (E : Engine) (k n : Nat) (s : Channel) :
    after E (n + k) s = after E k (after E n s) := by
  rw [after, Nat.add_comm, Function.iterate_add_apply]
  rfl

/-- A channel that has stopped stays so. -/
theorem after_stopped (E : Engine) (n : Nat) (m : Memory) : after E n ⟨0, m⟩ = ⟨0, m⟩ := by
  induction n with
  | zero => rfl
  | succ n ih => rw [after_succ, ih, step, if_pos rfl]

/-- A chain leaves one memory. -/
theorem Halts.unique {m m₁ m₂ : Memory} {a : Nat} (h₁ : Halts E m a m₁) (h₂ : Halts E m a m₂) :
    m₁ = m₂ := by
  obtain ⟨k, hk⟩ := h₁
  obtain ⟨n, hn⟩ := h₂
  have hkn : after E (k + n) ⟨a, m⟩ = ⟨0, m₁⟩ := by rw [after_add, hk, after_stopped]
  have hnk : after E (k + n) ⟨a, m⟩ = ⟨0, m₂⟩ := by
    rw [Nat.add_comm, after_add, hn, after_stopped]
  rw [hkn] at hnk
  exact congrArg Channel.mem hnk

/-! ## Address registers -/

theorem advance_nat {a d : Nat} (h : a + d < 2 ^ 32) : advance a d = a + d := by
  rw [advance, Int.emod_eq_of_lt (by omega) (by omega)]
  omega

end Bcm2835.Dma

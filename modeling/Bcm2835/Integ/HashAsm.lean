import Bcm2835.Lib.ArmWord
import Bcm2835.Integ.HashSpec

/-!
# The assembly loop of `hash_memory`

The listing in `hash.c`, for the registers it asks for: the lanes in `r0` to `r2`,
`data` in `r3`, the primes in `r4` and `r5`, `stop_block` in `r14`. The products of the
last words of a block are left to the next turn, and made after the loop for the last
block.
-/

namespace Bcm2835.Integ

open Mem Bytes Sweep ArmWord

/-- The registers that are put on the stack. -/
def asmSaved : List Reg := [.r4, .r5, .r6, .r7, .r8, .r9, .r10, .r11, .r12, .lr]

/-- The eight words of a block. -/
def asmWords : List Reg := [.r4, .r5, .r6, .r7, .r8, .r9, .r10, .r11]

def asmEnter : List Op := [
  .push asmSaved,
  .mcr .sp,
  .mov .r12 (.reg .r4),
  .mov .sp (.reg .r5)]

/-- The block in front of the loop. -/
def asmBlock : List Op := [
  .ldmia .r3 asmWords,
  .mla .r0 .r4 .sp .r0,
  .mla .r1 .r5 .sp .r1,
  .mla .r2 .r6 .sp .r2,
  .ror .r0 .r0 19,
  .ror .r1 .r1 19,
  .ror .r2 .r2 19,
  .mul .r0 .r0 .r12,
  .mul .r1 .r1 .r12,
  .mul .r2 .r2 .r12,
  .mla .r0 .r7 .sp .r0,
  .mla .r1 .r8 .sp .r1,
  .mla .r2 .r9 .sp .r2,
  .ror .r0 .r0 19,
  .ror .r1 .r1 19,
  .ror .r2 .r2 19,
  .mul .r0 .r0 .r12,
  .mul .r1 .r1 .r12,
  .mla .r0 .r10 .sp .r0,
  .mla .r1 .r11 .sp .r1,
  .ror .r0 .r0 19,
  .ror .r1 .r1 19]

/-- From the label 2 up to the branch back. -/
def asmTurnOps : List Op := [
  .pld .r3 64,
  .ldmia .r3 asmWords,
  .mul .r0 .r0 .r12,
  .mul .r1 .r1 .r12,
  .mul .r2 .r2 .r12,
  .mla .r0 .r4 .sp .r0,
  .mla .r1 .r5 .sp .r1,
  .mla .r2 .r6 .sp .r2,
  .ror .r0 .r0 19,
  .ror .r1 .r1 19,
  .ror .r2 .r2 19,
  .mul .r0 .r0 .r12,
  .mul .r1 .r1 .r12,
  .mul .r2 .r2 .r12,
  .mla .r0 .r7 .sp .r0,
  .mla .r1 .r8 .sp .r1,
  .mla .r2 .r9 .sp .r2,
  .ror .r0 .r0 19,
  .ror .r1 .r1 19,
  .ror .r2 .r2 19,
  .mul .r0 .r0 .r12,
  .mul .r1 .r1 .r12,
  .mla .r0 .r10 .sp .r0,
  .mla .r1 .r11 .sp .r1,
  .cmp .r3 (.reg .lr),
  .ror .r0 .r0 19,
  .ror .r1 .r1 19]

def asmLeave : List Op := [
  .mul .r0 .r0 .r12,
  .mul .r1 .r1 .r12,
  .mul .r2 .r2 .r12,
  .mov .r4 (.reg .r12),
  .mov .r5 (.reg .sp),
  .mrc .sp,
  .pop asmSaved]

/-- The label 2 is at 26, and the end at 61. -/
def hash_asm : List Instr :=
  asmEnter.map .op ++ asmBlock.map .op ++ asmTurnOps.map .op ++ [.bne 26] ++ asmLeave.map .op

/-! ## Stretches -/

variable {out : Outside} {s : State}

/-- The lanes, in their registers. -/
def lanesOf (s : State) : Lanes := ⟨s.reg .r0, s.reg .r1, s.reg .r2⟩

/-- The primes are where the loop has them. -/
def Primed (s : State) : Prop := s.reg .r12 = PRIME_1 ∧ s.reg .sp = PRIME_2

theorem ror_mla (x w : Word) : ror (w * PRIME_2 + x) 19 = mlaRor x w := by
  rw [ror, mlaRor, BitVec.add_comm]

/-- The words of a block that does not wrap. -/
theorem toNat_words {a : Word} (ha : a.toNat + 32 ≤ 2 ^ 32) :
    (a + 4).toNat = a.toNat + 4 ∧ (a + 4 + 4).toNat = a.toNat + 8 ∧
    (a + 4 + 4 + 4).toNat = a.toNat + 12 ∧ (a + 4 + 4 + 4 + 4).toNat = a.toNat + 16 ∧
    (a + 4 + 4 + 4 + 4 + 4).toNat = a.toNat + 20 ∧ (a + 4 + 4 + 4 + 4 + 4 + 4).toNat = a.toNat + 24 ∧
    (a + 4 + 4 + 4 + 4 + 4 + 4 + 4).toNat = a.toNat + 28 := by
  refine ⟨?_, ?_, ?_, ?_, ?_, ?_, ?_⟩ <;> bv_omega

theorem asmBlock_lanes (hp : Primed s) (ha : (s.reg .r3).toNat + 32 ≤ 2 ^ 32) :
    lanesOf (asmBlock.foldl Op.apply s) = asmFirst s.mem (s.reg .r3).toNat (lanesOf s) := by
  obtain ⟨h1, h2⟩ := hp
  obtain ⟨a1, a2, a3, a4, a5, a6, a7⟩ := toNat_words ha
  have hlanes : lanesOf (asmBlock.foldl Op.apply s) = ⟨
      ror (ArmWord.word s.mem (s.reg .r3 + 4 + 4 + 4 + 4 + 4 + 4).toNat * s.reg .sp +
        ror (ArmWord.word s.mem (s.reg .r3 + 4 + 4 + 4).toNat * s.reg .sp +
          ror (ArmWord.word s.mem (s.reg .r3).toNat * s.reg .sp + s.reg .r0) 19 * s.reg .r12) 19 *
          s.reg .r12) 19,
      ror (ArmWord.word s.mem (s.reg .r3 + 4 + 4 + 4 + 4 + 4 + 4 + 4).toNat * s.reg .sp +
        ror (ArmWord.word s.mem (s.reg .r3 + 4 + 4 + 4 + 4).toNat * s.reg .sp +
          ror (ArmWord.word s.mem (s.reg .r3 + 4).toNat * s.reg .sp + s.reg .r1) 19 * s.reg .r12) 19 *
          s.reg .r12) 19,
      ror (ArmWord.word s.mem (s.reg .r3 + 4 + 4 + 4 + 4 + 4).toNat * s.reg .sp +
        ror (ArmWord.word s.mem (s.reg .r3 + 4 + 4).toNat * s.reg .sp + s.reg .r2) 19 * s.reg .r12)
        19⟩ := rfl
  rw [hlanes, h1, h2, a1, a2, a3, a4, a5, a6, a7]
  simp only [ror_mla]
  rfl

/-- What a stretch of the loop does not change. -/
structure SameButLanes (s s' : State) : Prop where
  primed : Primed s → Primed s'
  mem : s'.mem = s.mem
  lr : s'.reg .lr = s.reg .lr

theorem asmBlock_same : SameButLanes s (asmBlock.foldl Op.apply s) ∧
    (asmBlock.foldl Op.apply s).reg .r3 = s.reg .r3 + 32 := ⟨⟨fun h => h, rfl, rfl⟩, rfl⟩

/-- A turn finishes the lanes of the block before and goes through the next. -/
theorem asmTurnOps_lanes (hp : Primed s) (ha : (s.reg .r3).toNat + 32 ≤ 2 ^ 32) :
    lanesOf (asmTurnOps.foldl Op.apply s) = asmTurn s.mem (s.reg .r3).toNat (lanesOf s) := by
  obtain ⟨h1, h2⟩ := hp
  obtain ⟨a1, a2, a3, a4, a5, a6, a7⟩ := toNat_words ha
  have hlanes : lanesOf (asmTurnOps.foldl Op.apply s) = ⟨
      ror (ArmWord.word s.mem (s.reg .r3 + 4 + 4 + 4 + 4 + 4 + 4).toNat * s.reg .sp +
        ror (ArmWord.word s.mem (s.reg .r3 + 4 + 4 + 4).toNat * s.reg .sp +
          ror (ArmWord.word s.mem (s.reg .r3).toNat * s.reg .sp + s.reg .r0 * s.reg .r12) 19 *
          s.reg .r12) 19 * s.reg .r12) 19,
      ror (ArmWord.word s.mem (s.reg .r3 + 4 + 4 + 4 + 4 + 4 + 4 + 4).toNat * s.reg .sp +
        ror (ArmWord.word s.mem (s.reg .r3 + 4 + 4 + 4 + 4).toNat * s.reg .sp +
          ror (ArmWord.word s.mem (s.reg .r3 + 4).toNat * s.reg .sp + s.reg .r1 * s.reg .r12) 19 *
          s.reg .r12) 19 * s.reg .r12) 19,
      ror (ArmWord.word s.mem (s.reg .r3 + 4 + 4 + 4 + 4 + 4).toNat * s.reg .sp +
        ror (ArmWord.word s.mem (s.reg .r3 + 4 + 4).toNat * s.reg .sp + s.reg .r2 * s.reg .r12) 19 *
        s.reg .r12) 19⟩ := rfl
  rw [hlanes, h1, h2, a1, a2, a3, a4, a5, a6, a7]
  simp only [ror_mla]
  rfl

theorem asmTurnOps_same : SameButLanes s (asmTurnOps.foldl Op.apply s) ∧
    (asmTurnOps.foldl Op.apply s).reg .r3 = s.reg .r3 + 32 ∧
    (asmTurnOps.foldl Op.apply s).z = decide (s.reg .r3 + 32 - s.reg .lr = 0) :=
  ⟨⟨fun h => h, rfl, rfl⟩, rfl, rfl⟩

theorem asmLeave_lanes (hp : Primed s) :
    lanesOf (asmLeave.foldl Op.apply s) = asmMul (lanesOf s) ∧
      (asmLeave.foldl Op.apply s).reg .r3 = s.reg .r3 := by
  have hlanes : lanesOf (asmLeave.foldl Op.apply s) =
      ⟨s.reg .r0 * s.reg .r12, s.reg .r1 * s.reg .r12, s.reg .r2 * s.reg .r12⟩ := rfl
  rw [hlanes, hp.1]
  exact ⟨rfl, rfl⟩

end Bcm2835.Integ

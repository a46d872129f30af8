import Bcm2835.Lib.ArmWord
import Bcm2835.Integ.HashSpec

/-!
# `integ_run`

The listing in `2-integ.c`. The words at the labels 100 and 101 and the table
`fcstab_32` are somewhere in memory; `integ_prep` and `integ_chk` are the routines 0
and 1 outside of the listing, and the payload is the code at its address.
-/

namespace Bcm2835.Integ

open Mem Bytes ArmWord

def MICROSTACK_SIZE : ArmWord.Word := 2048

/-- The multiplication of the pointer by `0x9e3779b1`, from `n` to `d` with the factor
in `t`. -/
def hashPointer (d n t : Reg) : List Op := [
  .mov t (.imm 0x9e000000),
  .orr t t (.imm 0x370000),
  .orr t t (.imm 0x7900),
  .orr t t (.imm 0xb1),
  .mul d n t]

/-- The set-up for a hash of the header. -/
def crcEnter (fcstab_32 : ArmWord.Word) : List Op := [
  .push [.r4, .r5, .r6],
  .mov .r1 (.imm 0xffffffff),
  .add .r2 .r0 (.imm 8),
  .mov .r3 (.imm fcstab_32),
  .add .r4 .r0 (.imm 40),
  .ldr .r5 .r0 (.imm 36),
  .add .r4 .r4 (.reg .r5)]

/-- One byte of the hash. -/
def crcOps : List Op := [
  .ldrbPost .r5 .r2 1,
  .eor .r5 .r5 (.reg .r1),
  .and .r5 .r5 (.imm 0xff),
  .ldr .r6 .r3 (.lsl .r5 2),
  .eor .r1 .r6 (.lsr .r1 8)]

/-- The loop over the bytes, at `k`, with its exit. -/
def crcLoop (k exit : Nat) : List Instr :=
  [.op (.cmp .r2 (.reg .r4)), .beq exit] ++ crcOps.map .op ++ [.b k]

/-- Up to the hash of the header that is stored. -/
def integ_run_enter (label100 label101 : ArmWord.Word) : List Instr :=
  [.op (.str .r1 .r0 8), .op (.str .r2 .r0 12), .op (.str .lr .r0 4),
    .op (.mov .r2 (.imm label100)), .op (.str .r0 .r2 0)] ++
  (hashPointer .r2 .r0 .r1).map .op ++
  [.op (.mov .r3 (.imm label101)), .op (.str .r2 .r3 0), .op (.str .sp .r0 24),
    .op (.mov .sp (.reg .r0)), .op (.push [.r0, .r1]), .bl 0, .op (.pop [.r0, .r1]),
    .op (.add .r2 .r0 (.imm (-MICROSTACK_SIZE))), .op (.mov .r3 (.imm 0)),
    .op (.mov .r1 (.imm MICROSTACK_SIZE)), .op (.cmp .r1 (.imm 0)),
    -- the label 0
    .beq 25, .op (.strPost .r3 .r2 4), .op (.subs .r1 .r1 (.imm 4)), .b 21,
    -- the label 1
    .op (.ldr .sp .r0 (.imm 24))]

/-- The hash that is stored, and the call of the payload. -/
def integ_run_call (fcstab_32 : ArmWord.Word) : List Instr :=
  (crcEnter fcstab_32).map .op ++ crcLoop 33 41 ++
  [.op (.str .r1 .r0 0), .op (.pop [.r4, .r5, .r6]), .op (.ldr .r1 .r0 (.imm 28)),
    .op (.mov .r2 (.imm 0)),
    -- the label 4
    .op (.cmp .r1 (.reg .sp)), .beq 49, .op (.strPost .r2 .r1 4), .b 45,
    -- the label 5
    .op (.ldr .r1 .r0 (.imm 8)), .op (.ldr .r2 .r0 (.imm 12)), .op (.mov .r0 (.reg .r2)), .blx .r1]

/-- The check of the pointer, behind the payload. -/
def integ_run_pointer (label100 label101 : ArmWord.Word) : List Instr :=
  [.op (.ldrLabel .r0 label100), .op (.ldrLabel .r1 label101)] ++
  (hashPointer .r2 .r0 .r3).map .op ++
  [.op (.cmp .r1 (.reg .r2)), .beq 64, .op (.mov .r1 (.imm 1)), .b 98]

/-- The check of the microstack, from the label 6. -/
def integ_run_microstack : List Instr :=
  [.op (.add .r1 .r0 (.imm (-MICROSTACK_SIZE))), .op (.mov .r2 (.imm MICROSTACK_SIZE)),
    -- the label 7
    .op (.ldrPost .r3 .r1 4), .op (.tst .r3 (.reg .r3)), .beq 74, .op (.str .r1 .r0 8),
    .op (.sub .r3 .r3 (.imm 4)), .op (.str .r3 .r0 12), .op (.mov .r1 (.imm 3)), .b 98,
    -- the label 8
    .op (.subs .r2 .r2 (.imm 4)), .bne 66]

/-- The check of the header, up to the label 20. -/
def integ_run_header (fcstab_32 : ArmWord.Word) : List Instr :=
  (crcEnter fcstab_32).map .op ++ crcLoop 83 96 ++
  [.op (.ldr .r2 .r0 (.imm 0)), .op (.cmp .r1 (.reg .r2)), .beq 96, .op (.str .r1 .r0 8),
    .op (.mov .r1 (.imm 2)),
    -- the label 10
    .op (.pop [.r4, .r5, .r6]), .op (.mov .r1 (.imm 0))]

/-- From the label 20 on. -/
def integ_run_leave (label100 : ArmWord.Word) : List Instr :=
  [.op (.mov .sp (.reg .r0)), .op (.push [.r0, .r1]), .bl 1, .op (.pop [.r0, .r1]),
    .op (.ldrLabel .r0 label100), .op (.ldr .lr .r0 (.imm 4)), .op (.ldr .sp .r0 (.imm 24)), .bx .lr]

def integ_run (fcstab_32 label100 label101 : ArmWord.Word) : List Instr :=
  integ_run_enter label100 label101 ++ integ_run_call fcstab_32 ++
    integ_run_pointer label100 label101 ++ integ_run_microstack ++ integ_run_header fcstab_32 ++
    integ_run_leave label100

variable (fcstab_32 label100 label101 : ArmWord.Word)

/-- Where the labels are. -/
example : (integ_run_enter label100 label101).length = 26 ∧
    (integ_run_enter label100 label101 ++ integ_run_call fcstab_32).length = 53 ∧
    (integ_run fcstab_32 label100 label101)[52]? = some (.blx .r1) ∧
    (integ_run fcstab_32 label100 label101)[100]? = some (.bl 1) ∧
    (integ_run fcstab_32 label100 label101).length = 106 := ⟨rfl, rfl, rfl, rfl, rfl⟩

end Bcm2835.Integ

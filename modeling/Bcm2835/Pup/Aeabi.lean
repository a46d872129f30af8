import Bcm2835.Lib.ArmCond
import Bcm2835.Pup.ElfTrampoline

/-!
# The library routines of the ELF stub (`libc/newlib-arm`)

`__aeabi_memmove` copies upwards or downwards, a byte at a time. `__aeabi_memset` sets
bytes up to a word boundary, then four words and one word at a time, then bytes again.
-/

namespace Bcm2835.Pup

open Arm (Reg)
open ArmCond Mem

/-! ## The listings -/

/-- `aeabi_memmove-arm.S`. -/
def aeabi_memmove_arm : List Instr :=
  [ .op .al (.cmp .r0 (.reg .r1)),          --  0
    .b .ls 14,
    .op .al (.add .r3 .r1 (.reg .r2)),
    .op .al (.cmp .r0 (.reg .r3)),
    .b .cs 14,                              --  4
    .op .al (.cmp .r2 (.imm 0)),
    .op .al (.add .r1 .r0 (.reg .r2)),
    .bx .eq .lr,
    .op .al (.rsb .r2 .r2 (.reg .r3)),
    .op .al (.ldrb .r12 .r3 (.pre (neg 1))), -- 9: 1
    .op .al (.cmp .r2 (.reg .r3)),
    .op .al (.strb .r12 .r1 (.pre (neg 1))),
    .b .ne 9,
    .bx .al .lr,
    .op .al (.cmp .r2 (.imm 0)),            -- 14: 2
    .op .ne (.add .r2 .r1 (.reg .r2)),
    .op .ne (.sub .r3 .r0 (.imm 1)),
    .b .eq 23,
    .op .al (.ldrb .r12 .r1 (.post 1)),     -- 18: 3
    .op .al (.cmp .r2 (.reg .r1)),
    .op .al (.strb .r12 .r3 (.pre 1)),
    .b .ne 18,
    .bx .al .lr,
    .bx .al .lr ]                           -- 23: 4

/-- `aeabi_memset-arm.S`. -/
def aeabi_memset_arm : List Instr :=
  [ .op .al (.tst .r0 (.imm 3)),            --  0
    .op .al (.push .r4 .lr),
    .b .eq 59,
    .op .al (.cmp .r1 (.imm 0)),
    .op .al (.sub .r1 .r1 (.imm 1)),        --  4
    .b .eq 57,
    .op .al (.and .r12 .r2 (.imm 255)),
    .op .al (.mov .r3 (.reg .r0)),
    .b .al 12,
    .op .al (.cmp .r1 (.imm 0)),            --  9: 1
    .op .al (.sub .r1 .r1 (.imm 1)),
    .b .eq 57,
    .op .al (.strb .r12 .r3 (.post 1)),     -- 12: 2
    .op .al (.tst .r3 (.imm 3)),
    .b .ne 9,
    .op .al (.cmp .r1 (.imm 3)),            -- 15: 3
    .b .ls 50,
    .op .al (.and .lr .r2 (.imm 255)),
    .op .al (.orr .lr .lr (.lsl .lr 8)),
    .op .al (.cmp .r1 (.imm 15)),
    .op .al (.orr .lr .lr (.lsl .lr 16)),   -- 20
    .b .ls 39,
    .op .al (.mov .r4 (.reg .r1)),
    .op .al (.add .r12 .r3 (.imm 16)),
    .op .al (.sub .r4 .r4 (.imm 16)),       -- 24: 4
    .op .al (.cmp .r4 (.imm 15)),
    .op .al (.str .lr .r12 (.offset (neg 16))),
    .op .al (.str .lr .r12 (.offset (neg 12))),
    .op .al (.str .lr .r12 (.offset (neg 8))),
    .op .al (.str .lr .r12 (.offset (neg 4))),
    .op .al (.add .r12 .r12 (.imm 16)),     -- 30
    .b .hi 24,
    .op .al (.sub .r12 .r1 (.imm 16)),
    .op .al (.bic .r12 .r12 (.imm 15)),
    .op .al (.and .r1 .r1 (.imm 15)),
    .op .al (.add .r12 .r12 (.imm 16)),
    .op .al (.cmp .r1 (.imm 3)),
    .op .al (.add .r3 .r3 (.reg .r12)),
    .b .ls 50,
    .op .al (.mov .r4 (.reg .r3)),          -- 39: 5
    .op .al (.mov .r12 (.reg .r1)),
    .op .al (.sub .r12 .r12 (.imm 4)),      -- 41: 6
    .op .al (.cmp .r12 (.imm 3)),
    .op .al (.str .lr .r4 (.post 4)),
    .b .hi 41,
    .op .al (.sub .r12 .r1 (.imm 4)),
    .op .al (.bic .r12 .r12 (.imm 3)),
    .op .al (.add .r12 .r12 (.imm 4)),
    .op .al (.add .r3 .r3 (.reg .r12)),
    .op .al (.and .r1 .r1 (.imm 3)),
    .op .al (.cmp .r1 (.imm 0)),            -- 50: 7
    .op .ne (.and .r2 .r2 (.imm 255)),
    .op .ne (.add .r1 .r3 (.reg .r1)),
    .b .eq 57,
    .op .al (.strb .r2 .r3 (.post 1)),      -- 54: 8
    .op .al (.cmp .r3 (.reg .r1)),
    .b .ne 54,
    .op .al (.pop .r4 .lr),                 -- 57: 9
    .bx .al .lr,
    .op .al (.mov .r3 (.reg .r0)),          -- 59: 10
    .b .al 15 ]

/-! ## The routines -/

/-- The state in which a routine is entered; the carry is set before it is looked at. -/
def entering (c : Arm.Cpu) : Cpu := ⟨0, c.reg, c.z, false, c.mem⟩

/-- A call of a routine that takes so many steps at most. -/
def callRoutine (code : List Instr) (fuel : Nat) (c : Arm.Cpu) : Arm.Cpu :=
  let s := (run code fuel (entering c)).state
  { c with reg := s.reg, z := s.z, mem := s.mem }

def aeabi_memmove (c : Arm.Cpu) : Arm.Cpu := callRoutine aeabi_memmove_arm (4 * c.reg .r2 + 10) c

def aeabi_memset (c : Arm.Cpu) : Arm.Cpu := callRoutine aeabi_memset_arm (12 * c.reg .r1 + 60) c

end Bcm2835.Pup

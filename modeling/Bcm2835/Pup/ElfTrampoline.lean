import Bcm2835.Lib.Arm
import Bcm2835.Pup.ElfSpec

/-!
# The ELF stub (`trampolines/elf.bcm2835.S`)

The stub says on the UART that it was entered, moves the ELF file to its place,
carries out the operations of its parameter block and branches to the entry
point. The UART is not in memory: it only shows in the log of accesses.
-/

namespace Bcm2835.Pup

open Arm Mem

/-! ## Labels -/

/-- The text of the one `PRINTX` that is not commented out, with its end. -/
def enteredText : List UInt8 :=
  [0x54, 0x52, 0x41, 0x4d, 0x50, 0x4f, 0x4c, 0x49, 0x4e, 0x45, 0x3a, 0x20, 0x65, 0x6e, 0x74, 0x65,
    0x72, 0x65, 0x64, 0x0a, 0]

/-- How far the labels are from the start of the stub. `P_0` and `S_0` are those
of the `PRINTX`; the parameter block is behind all of them. -/
structure ElfLabels (L : Linked) where
  S_PRINT_HEX : Nat
  stack : Nat
  S_INVALID_OPCODE : Nat
  S_0 : Nat
  P_0 : Nat
  stack_aligned : stack % 4 = 0
  params_aligned : L.elf_trampoline_params % 4 = 0
  stack_below : stack + 256 ≤ S_0
  P_0_below : P_0 ≤ L.elf_trampoline_params
  text_below : S_0 + 21 ≤ L.elf_trampoline_params
  text_eq : (L.elf_trampoline.drop S_0).take 21 = enteredText

def stackSize : Nat := 256

def op_kind : Nat := 0
def op_dst : Nat := 4
def OP_COPY : Nat := 1
def OP_ZERO : Nat := 2

/-! ## The UART -/

def muart_base : Nat := 0x20215040
def muart_io : Nat := 0x0
def muart_stat : Nat := 0x24

/-- How often the status must be read, after the accesses so far, until the
transmitter has room. -/
abbrev Waits := List Access → Nat

/-- `putc`, which waits for room and sends a character. -/
def putc (waits : Waits) (c : Cpu) : Cpu :=
  { (c.set .r1 muart_base).set .r2 0 with
    log := c.log ++ (List.replicate (waits c.log + 1) (.load (muart_base + muart_stat)) ++
      [.store (muart_base + muart_io)]) }

/-- `ldrb d, [n], #1`. -/
def loadByte (c : Cpu) (d n : Reg) : Cpu :=
  (c.set d (c.mem (c.reg n)).toNat).set n ((c.reg n + 1) % 2 ^ 32)

/-- The value of a hexadecimal digit, with the comparisons `printx.fmt` makes. -/
def fmtDigit (r4 : Nat) : Option Nat :=
  if add32 r4 (2 ^ 32 - 0x30) < 10 then some (add32 r4 (2 ^ 32 - 0x30))
  else if add32 r4 (2 ^ 32 - 0x61) < 6 then some (add32 r4 (2 ^ 32 - 0x61) + 10)
  else if add32 r4 (2 ^ 32 - 0x41) < 6 then some (add32 r4 (2 ^ 32 - 0x41) + 10)
  else none

/-- A turn of `printx.fmt.3.loop`. -/
def fmtTurn (waits : Waits) (c : Cpu) : Cpu :=
  let c := putc waits (c.set .r0 (c.mem ((c.reg .r5 + c.reg .r4 / 2 ^ 28) % 2 ^ 32)).toNat)
  (c.set .r4 (c.reg .r4 * 16 % 2 ^ 32)).set .r6 (c.reg .r6 - 1)

/-- `printx.fmt.2`, which looks at one character and steps back from it, and
`printx.fmt.3`, which prints the argument. -/
def fmtArgument (waits : Waits) (hex : Nat) (c : Cpu) : Cpu :=
  let c := loadByte c .r4 .r3
  let c := c.set .r5 ((c.reg .r5 + 1) % 2 ^ 32)
  let c := c.load .r4 ((c.reg .sp + 4 * c.reg .r5) % 2 ^ 32)
  let c := putc waits ((putc waits (c.set .r0 0x30)).set .r0 0x78)
  let c := (fmtTurn waits)^[8] ((c.set .r6 8).set .r5 hex)
  (c.set .r3 ((c.reg .r3 + 2 ^ 32 - 1) % 2 ^ 32)).set .r5 0

/-- `printx.fmt`, behind a `%`. -/
def fmt (waits : Waits) (hex : Nat) (c : Cpu) : Cpu :=
  let c := loadByte c .r4 .r3
  if c.reg .r4 = 0 then putc waits (c.set .r3 ((c.reg .r3 + 2 ^ 32 - 1) % 2 ^ 32))
  else if c.reg .r4 = 0x25 then putc waits (c.set .r0 (c.reg .r4))
  else
    match fmtDigit (c.reg .r4) with
    | some r1 => fmtArgument waits hex ((c.set .r1 r1).set .r5 ((c.reg .r5 * 16 + r1) % 2 ^ 32))
    | none => putc waits ((putc waits (c.set .r0 0x25)).set .r0 (c.reg .r4))

/-- A place outside of the listing. -/
def nowhere : Nat := 1000

/-- `printx.loop`, for a text that ends within so many turns. -/
def printxLoop (waits : Waits) (hex : Nat) : Nat → Cpu → Cpu
  | 0, c => c.jump nowhere
  | turns + 1, c =>
      let c := loadByte c .r0 .r3
      if c.reg .r0 = 0 then c
      else if c.reg .r0 = 0x25 then printxLoop waits hex turns (fmt waits hex c)
      else printxLoop waits hex turns (putc waits c)

/-- `printx`, called from in front of `ret`: `push {lr}`, the loop, `pop {pc}`. -/
def printx (waits : Waits) (hex ret turns : Nat) (c : Cpu) : Cpu :=
  let sp := (c.reg .sp + 2 ^ 32 - 4) % 2 ^ 32
  let c := ((c.set .lr ret).store .lr sp).set .sp sp
  let c := printxLoop waits hex turns ((c.set .r3 (c.reg .r0)).set .r5 0)
  { c.set .sp ((c.reg .sp + 4) % 2 ^ 32) with log := c.log ++ [.load (c.reg .sp)] }

/-! ## The listing -/

section Listing

variable {L : Linked} (A : ElfLabels L) (base : Nat)

/-- The parameter block. -/
def elfParams (L : Linked) (base : Nat) : Nat := add32 base L.elf_trampoline_params

def stackLow : Nat := base + A.stack
def stackHigh : Nat := base + A.stack + stackSize

/-- `push {r9, r11}`. -/
def pushOpcode (c : Cpu) : Cpu :=
  let sp := (c.reg .sp + 2 ^ 32 - 8) % 2 ^ 32
  (c.stores [.r9, .r11] sp).set .sp sp

/-- The listing from `real_start` on. `__aeabi_memmove` is the routine 0,
`__aeabi_memset` the routine 1, `printx` the routine 2 and the one `push` the
routine 3; `panic` is outside. -/
def elfTrampoline : List Instr :=
  let params := elfParams L base
  [ .adr .sp (stackHigh A base),            --  0
    .adr .r0 (base + A.S_0), .bl 2, .b 4,   --    PRINTX("TRAMPOLINE: entered\n")
    .ldrLit .r0 (params + 268),             --  4 elf_dst
    .ldrLit .r1 (params + 260),             --    elf_src
    .ldrLit .r2 (params + 272),             --    elf_size
    .bl 0,
    .adr .r8 params,                        --  8 loader_ops
    .mov .r9 0,
    .ldrLit .r10 (params + 256),            --    loader_op_count
    .cmp .r9 (.reg .r10),                   -- 11 op_loop
    .beq 31,
    .ldrOff .r11 .r8 op_kind,
    .cmp .r11 (.imm OP_COPY),
    .beq 21,
    .cmp .r11 (.imm OP_ZERO),
    .beq 26,
    .ldrLit .r0 (base + A.S_INVALID_OPCODE), .bl 3, .b nowhere,
    .add .r8 .r8 op_dst,                    -- 21 op_loop.copy
    .ldmia .r8 [.r0, .r1, .r2],
    .bl 0,
    .add .r9 .r9 1,
    .b 11,
    .add .r8 .r8 op_dst,                    -- 26 op_loop.zero
    .ldmia .r8 [.r0, .r1, .r2],
    .bl 1,
    .add .r9 .r9 1,
    .b 11,
    .mov .r0 0, .mcr .r0,                   -- 31 post_ops: _dsb
    .mov .r0 0, .mcr .r0,                   --    _cln_inv_dcache_entire
    .mov .r0 0, .mcr .r0,                   --    _inv_both_caches_entire
    .mov .r0 0, .mcr .r0,                   --    _btac_flush
    .mov .r0 0, .mcr .r0,                   --    _prefetch_flush
    .mov .r0 0, .mcr .r0,                   --    _dsb
    .ldrLit .r9 (params + 264),             -- 43 elf_entry
    .adr .r0 (params + 268),                --    elf_boot_args
    .bx .r9 ]

/-- What the stub calls. -/
structure ElfEnv where
  aeabi_memmove : Cpu → Cpu
  aeabi_memset : Cpu → Cpu
  waits : Waits

def ElfEnv.routine (E : ElfEnv) : Nat → Cpu → Cpu
  | 0 => E.aeabi_memmove
  | 1 => E.aeabi_memset
  | 2 => printx E.waits (base + A.S_PRINT_HEX) (base + A.P_0) enteredText.length
  | 3 => pushOpcode
  | _ => id

abbrev ElfStubStep (E : ElfEnv) (c : Cpu) : Option Cpu :=
  step (E.routine A base) (elfTrampoline A base) c

abbrev ElfStubRuns (E : ElfEnv) : Cpu → Cpu → Prop := Runs (E.routine A base) (elfTrampoline A base)

end Listing

/-! ## The routines of the library

By the rules for calls, `r4` to `r11` and `sp` are kept, and memory changes at
the destination and on the stack alone. -/

/-- `r` is kept by a call. -/
def Reg.Kept (r : Reg) : Prop :=
  r = .r4 ∨ r = .r5 ∨ r = .r6 ∨ r = .r7 ∨ r = .r8 ∨ r = .r9 ∨ r = .r10 ∨ r = .r11 ∨ r = .sp

/-- All registers hold words. -/
def Words (c : Cpu) : Prop := ∀ r, c.reg r < 2 ^ 32

/-- The stack a routine called in `c` may use. -/
def OnStack (c : Cpu) (x : Nat) : Prop := c.reg .sp ≤ x + stackSize ∧ x < c.reg .sp

instance (c : Cpu) (x : Nat) : Decidable (OnStack c x) := inferInstanceAs (Decidable (_ ∧ _))

/-- The `n` bytes at `a` can be given to a routine called in `c`: they are in memory and not on
the stack it may use. -/
def Given (c : Cpu) (a n : Nat) : Prop := a + n ≤ 2 ^ 32 ∧ ∀ i < n, ¬OnStack c (a + i)

instance (c : Cpu) (a n : Nat) : Decidable (Given c a n) := inferInstanceAs (Decidable (_ ∧ _))

/-- `__aeabi_memmove(dst, src, n)` can be called. -/
def CanMove (c : Cpu) : Prop := Given c (c.reg .r0) (c.reg .r2) ∧ Given c (c.reg .r1) (c.reg .r2)

instance (c : Cpu) : Decidable (CanMove c) := inferInstanceAs (Decidable (_ ∧ _))

/-- `__aeabi_memset(dst, n, ch)` can be called. -/
def CanSet (c : Cpu) : Prop := Given c (c.reg .r0) (c.reg .r1)

/-- A state in which a routine may be called: there is room on the stack. -/
def Callable (c : Cpu) : Prop := Words c ∧ stackSize ≤ c.reg .sp

/-- A call in `c` has returned in `c'`. -/
structure ReturnsTo (c c' : Cpu) : Prop where
  pc : c'.pc = c.pc
  reg : ∀ r, Reg.Kept r → c'.reg r = c.reg r
  words : Words c'
  log : c'.log = c.log

/-- `__aeabi_memmove`. -/
structure Memmoves (f : Cpu → Cpu) : Prop where
  returns : ∀ c, Callable c → CanMove c → ReturnsTo c (f c)
  moves : ∀ c, Callable c → CanMove c →
    ∀ i < c.reg .r2, (f c).mem (c.reg .r0 + i) = c.mem (c.reg .r1 + i)
  outside : ∀ c, Callable c → CanMove c →
    ∀ x, x < c.reg .r0 ∨ c.reg .r0 + c.reg .r2 ≤ x → ¬OnStack c x → (f c).mem x = c.mem x

/-- `__aeabi_memset`. -/
structure Memsets (f : Cpu → Cpu) : Prop where
  returns : ∀ c, Callable c → CanSet c → ReturnsTo c (f c)
  sets : ∀ c, Callable c → CanSet c →
    ∀ i < c.reg .r1, (f c).mem (c.reg .r0 + i) = .ofNat (c.reg .r2)
  outside : ∀ c, Callable c → CanSet c →
    ∀ x, x < c.reg .r0 ∨ c.reg .r0 + c.reg .r1 ≤ x → ¬OnStack c x → (f c).mem x = c.mem x

section Words

variable {c : Cpu}

theorem Words.set (h : Words c) (d : Reg) {v : Nat} (hv : v < 2 ^ 32) : Words (c.set d v) := by
  intro r
  by_cases hr : r = d
  · subst hr
    rwa [Cpu.set_reg, Function.update_self]
  · rw [Cpu.set_reg, Function.update_of_ne hr]
    exact h r

theorem Cpu.word_lt (c : Cpu) (addr : Nat) : c.word addr < 2 ^ 32 := by
  have hlt := Bytes.ofLe_lt (read c.mem addr 4)
  rwa [read_length] at hlt

theorem Words.load (h : Words c) (d : Reg) (addr : Nat) : Words (c.load d addr) :=
  h.set d (Cpu.word_lt c addr)

end Words

end Bcm2835.Pup

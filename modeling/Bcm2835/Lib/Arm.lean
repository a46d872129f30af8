import Bcm2835.Lib.Bytes
import Bcm2835.Lib.Mem
import Mathlib.Logic.Relation

/-!
# A few ARM instructions

The instructions a short relocatable stub is made of. Registers hold numbers
below 2³², code is a list of instructions and the program counter an index into
it, so the code itself is not in memory. Every word the data instructions load
or store is logged, in order. A routine outside the listing is called by its
number; what it does is a parameter.
-/

namespace Arm

open Bytes Mem

inductive Reg
  | r0 | r1 | r2 | r3 | r4 | r5 | r6 | r7 | r8 | r9 | r10 | r11 | r12 | sp | lr
deriving DecidableEq

/-- A word access of a data instruction. -/
inductive Access
  | load (addr : Nat)
  | store (addr : Nat)
deriving DecidableEq

def Access.addr : Access → Nat
  | .load a => a
  | .store a => a

inductive Operand
  | imm (n : Nat)
  | reg (r : Reg)

inductive Instr
  | mov (d : Reg) (n : Nat)
  | mvn (d : Reg) (n : Nat)
  /-- `adr d, label`, for the address the label has. -/
  | adr (d : Reg) (addr : Nat)
  | add (d n : Reg) (imm : Nat)
  | subs (d n : Reg) (imm : Nat)
  | ands (d n : Reg) (op : Operand)
  | cmp (n : Reg) (op : Operand)
  /-- `ldr d, label`. -/
  | ldrLit (d : Reg) (addr : Nat)
  /-- `ldr d, [n, #off]`. -/
  | ldrOff (d n : Reg) (off : Nat)
  /-- `ldr d, [n], #off`. -/
  | ldrPost (d n : Reg) (off : Nat)
  /-- `str d, [n], #off`. -/
  | strPost (d n : Reg) (off : Nat)
  /-- `ldmia n!, {ds}`. -/
  | ldmia (n : Reg) (ds : List Reg)
  /-- `stmia n!, {ds}`. -/
  | stmia (n : Reg) (ds : List Reg)
  /-- Cache maintenance and barriers: no effect on what is modelled. -/
  | mcr (d : Reg)
  | b (target : Nat)
  | beq (target : Nat)
  | bne (target : Nat)
  /-- A call of the numbered routine outside the listing. -/
  | bl (routine : Nat)
  /-- Leaves the listing. -/
  | bx (n : Reg)

/-- The part of the processor state the instructions above use. -/
structure Cpu where
  pc : Nat
  reg : Reg → Nat
  z : Bool
  mem : Memory
  log : List Access

namespace Cpu

/-- Sets a register. -/
def set (c : Cpu) (d : Reg) (v : Nat) : Cpu := { c with reg := Function.update c.reg d v }

/-- On to the next instruction. -/
def next (c : Cpu) : Cpu := { c with pc := c.pc + 1 }

def jump (c : Cpu) (target : Nat) : Cpu := { c with pc := target }

def flag (c : Cpu) (v : Nat) : Cpu := { c with z := decide (v = 0) }

/-- The little-endian word at an address. -/
def word (c : Cpu) (addr : Nat) : Nat := ofLe (read c.mem addr 4)

def load (c : Cpu) (d : Reg) (addr : Nat) : Cpu :=
  { c.set d (c.word addr) with log := c.log ++ [.load addr] }

def store (c : Cpu) (d : Reg) (addr : Nat) : Cpu :=
  { c with mem := write (2 ^ 32) c.mem addr (leBytes 4 (c.reg d)), log := c.log ++ [.store addr] }

def value (c : Cpu) : Operand → Nat
  | .imm n => n
  | .reg r => c.reg r

/-- Loads registers from consecutive words. -/
def loads (c : Cpu) : List Reg → Nat → Cpu
  | [], _ => c
  | d :: ds, addr => loads (c.load d addr) ds (addr + 4)

/-- Stores registers to consecutive words. -/
def stores (c : Cpu) : List Reg → Nat → Cpu
  | [], _ => c
  | d :: ds, addr => stores (c.store d addr) ds (addr + 4)

end Cpu

section Fields

variable (c : Cpu) (d : Reg) (v n addr target : Nat)

@[simp] theorem Cpu.set_pc : (c.set d v).pc = c.pc := rfl
@[simp] theorem Cpu.set_reg : (c.set d v).reg = Function.update c.reg d v := rfl
@[simp] theorem Cpu.set_z : (c.set d v).z = c.z := rfl
@[simp] theorem Cpu.set_mem : (c.set d v).mem = c.mem := rfl
@[simp] theorem Cpu.set_log : (c.set d v).log = c.log := rfl
@[simp] theorem Cpu.next_pc : c.next.pc = c.pc + 1 := rfl
@[simp] theorem Cpu.next_reg : c.next.reg = c.reg := rfl
@[simp] theorem Cpu.next_z : c.next.z = c.z := rfl
@[simp] theorem Cpu.next_mem : c.next.mem = c.mem := rfl
@[simp] theorem Cpu.next_log : c.next.log = c.log := rfl
@[simp] theorem Cpu.jump_pc : (c.jump target).pc = target := rfl
@[simp] theorem Cpu.jump_reg : (c.jump target).reg = c.reg := rfl
@[simp] theorem Cpu.jump_mem : (c.jump target).mem = c.mem := rfl
@[simp] theorem Cpu.jump_log : (c.jump target).log = c.log := rfl
@[simp] theorem Cpu.flag_pc : (c.flag v).pc = c.pc := rfl
@[simp] theorem Cpu.flag_reg : (c.flag v).reg = c.reg := rfl
@[simp] theorem Cpu.flag_z : (c.flag v).z = decide (v = 0) := rfl
@[simp] theorem Cpu.flag_mem : (c.flag v).mem = c.mem := rfl
@[simp] theorem Cpu.flag_log : (c.flag v).log = c.log := rfl
@[simp] theorem Cpu.load_pc : (c.load d addr).pc = c.pc := rfl
@[simp] theorem Cpu.load_reg : (c.load d addr).reg = Function.update c.reg d (c.word addr) := rfl
@[simp] theorem Cpu.load_mem : (c.load d addr).mem = c.mem := rfl
@[simp] theorem Cpu.load_log : (c.load d addr).log = c.log ++ [.load addr] := rfl
@[simp] theorem Cpu.store_pc : (c.store d addr).pc = c.pc := rfl
@[simp] theorem Cpu.store_reg : (c.store d addr).reg = c.reg := rfl
@[simp] theorem Cpu.store_log : (c.store d addr).log = c.log ++ [.store addr] := rfl
@[simp] theorem Cpu.value_imm : c.value (.imm n) = n := rfl
@[simp] theorem Cpu.value_reg : c.value (.reg d) = c.reg d := rfl
@[simp] theorem Cpu.loads_nil : c.loads [] addr = c := rfl
@[simp] theorem Cpu.loads_cons (ds : List Reg) :
    c.loads (d :: ds) addr = (c.load d addr).loads ds (addr + 4) := rfl
@[simp] theorem Cpu.stores_nil : c.stores [] addr = c := rfl
@[simp] theorem Cpu.stores_cons (ds : List Reg) :
    c.stores (d :: ds) addr = (c.store d addr).stores ds (addr + 4) := rfl

/-- A word is the four bytes it was loaded from. -/
theorem Cpu.leBytes_word : leBytes 4 (c.word addr) = read c.mem addr 4 := by
  have h := leBytes_ofLe (read c.mem addr 4)
  rwa [read_length] at h

@[simp] theorem Cpu.load_word (addr' : Nat) : (c.load d addr).word addr' = c.word addr' := rfl

theorem Cpu.store_mem :
    (c.store d addr).mem = write (2 ^ 32) c.mem addr (leBytes 4 (c.reg d)) := rfl

end Fields

/-- The effect of an instruction; `none` if it leaves the listing. -/
def exec (routine : Nat → Cpu → Cpu) (c : Cpu) : Instr → Option Cpu
  | .mov d n => some (c.set d n).next
  | .mvn d n => some (c.set d (2 ^ 32 - 1 - n)).next
  | .adr d addr => some (c.set d addr).next
  | .add d n imm => some (c.set d ((c.reg n + imm) % 2 ^ 32)).next
  | .subs d n imm =>
      let v := (c.reg n + 2 ^ 32 - imm) % 2 ^ 32
      some ((c.set d v).flag v).next
  | .ands d n op =>
      let v := c.reg n &&& c.value op
      some ((c.set d v).flag v).next
  | .cmp n op => some (c.flag ((c.reg n + 2 ^ 32 - c.value op) % 2 ^ 32)).next
  | .ldrLit d addr => some (c.load d addr).next
  | .ldrOff d n off => some (c.load d ((c.reg n + off) % 2 ^ 32)).next
  | .ldrPost d n off =>
      some ((c.load d (c.reg n)).set n ((c.reg n + off) % 2 ^ 32)).next
  | .strPost d n off =>
      some ((c.store d (c.reg n)).set n ((c.reg n + off) % 2 ^ 32)).next
  | .ldmia n ds =>
      some ((c.loads ds (c.reg n)).set n ((c.reg n + 4 * ds.length) % 2 ^ 32)).next
  | .stmia n ds =>
      some ((c.stores ds (c.reg n)).set n ((c.reg n + 4 * ds.length) % 2 ^ 32)).next
  | .mcr _ => some c.next
  | .b target => some (c.jump target)
  | .beq target => some (if c.z then c.jump target else c.next)
  | .bne target => some (if c.z then c.next else c.jump target)
  | .bl n => some (routine n c).next
  | .bx _ => none

/-- One step of the listing. -/
def step (routine : Nat → Cpu → Cpu) (code : List Instr) (c : Cpu) : Option Cpu :=
  match code[c.pc]? with
  | some i => exec routine c i
  | none => none

section Runs

variable {routine : Nat → Cpu → Cpu} {code : List Instr}

/-- Some steps of the listing lead from one state to the other. -/
def Runs (routine : Nat → Cpu → Cpu) (code : List Instr) : Cpu → Cpu → Prop :=
  Relation.ReflTransGen fun c c' => step routine code c = some c'

/-- The step at a known place of the listing. -/
theorem step_at {c : Cpu} {n : Nat} {i : Instr} (hpc : c.pc = n) (hcode : code[n]? = some i) :
    step routine code c = exec routine c i := by
  rw [step, hpc, hcode]

/-- The run ends here, in a branch to `target`. -/
def LeavesTo (code : List Instr) (c : Cpu) (target : Nat) : Prop :=
  ∃ n, code[c.pc]? = some (.bx n) ∧ c.reg n = target

theorem LeavesTo.stuck {c : Cpu} {target : Nat} (h : LeavesTo code c target) :
    step routine code c = none := by
  obtain ⟨n, hcode, -⟩ := h
  simp only [step, hcode, exec]

theorem Runs.refl (c : Cpu) : Runs routine code c c := Relation.ReflTransGen.refl

theorem Runs.trans {c d e : Cpu} (h : Runs routine code c d) (h' : Runs routine code d e) :
    Runs routine code c e := Relation.ReflTransGen.trans h h'

theorem Runs.head {c d e : Cpu} (h : step routine code c = some d) (h' : Runs routine code d e) :
    Runs routine code c e := Relation.ReflTransGen.head h h'

/-- Execution is deterministic: a run that cannot go on contains every other. -/
theorem Runs.to_stuck {c d e : Cpu} (h : Runs routine code c d) (h' : Runs routine code c e)
    (hstuck : step routine code e = none) : Runs routine code d e := by
  induction h using Relation.ReflTransGen.head_induction_on with
  | refl => exact h'
  | head hstep hrest ih =>
      apply ih
      rcases Relation.ReflTransGen.cases_head h' with heq | ⟨d', hstep', hrest'⟩
      · subst heq
        rw [hstuck] at hstep
        cases hstep
      · rw [hstep] at hstep'
        cases hstep'
        exact hrest'

/-- Two runs that cannot go on end in the same state. -/
theorem Runs.stuck_unique {c d e : Cpu} (h : Runs routine code c d) (h' : Runs routine code c e)
    (hd : step routine code d = none) (he : step routine code e = none) : d = e := by
  rcases Relation.ReflTransGen.cases_head (h.to_stuck h' he) with heq | ⟨d', hstep, -⟩
  · exact heq
  · rw [hd] at hstep
    cases hstep

/-- What every step preserves holds after every run. -/
theorem Runs.invariant {I : Cpu → Prop}
    (hstep : ∀ c c', I c → step routine code c = some c' → I c') {c d : Cpu}
    (h : Runs routine code c d) (hc : I c) : I d := by
  induction h with
  | refl => exact hc
  | tail _ hlast ih => exact hstep _ _ ih hlast

end Runs

/-! ## Masks -/

/-- `x & 0xf`. -/
theorem and_mask_low (x : Nat) : x &&& 0x0f = x % 16 := Nat.and_two_pow_sub_one_eq_mod x 4

/-- `x & ~0xf`. -/
theorem and_mask_high {x : Nat} (h : x < 2 ^ 32) : x &&& (2 ^ 32 - 1 - 0x0f) = x / 16 * 16 := by
  apply Nat.eq_of_testBit_eq
  intro i
  have hmask : 2 ^ 32 - 1 - 0x0f = (2 ^ 28 - 1) <<< 4 := by decide
  have hround : x / 16 * 16 = (x >>> 4) <<< 4 := by
    rw [Nat.shiftLeft_eq, Nat.shiftRight_eq_div_pow]
  rw [hmask, hround, Nat.testBit_and, Nat.testBit_shiftLeft, Nat.testBit_shiftLeft,
    Nat.testBit_two_pow_sub_one, Nat.testBit_shiftRight]
  by_cases hi : 4 ≤ i
  · have hadd : 4 + (i - 4) = i := by omega
    rw [hadd]
    by_cases hbit : i < 32
    · simp [hi, show i - 4 < 28 by omega]
    · have hzero : x.testBit i = false :=
        Nat.testBit_lt_two_pow (lt_of_lt_of_le h (Nat.pow_le_pow_right (by decide) (by omega)))
      simp [hzero]
  · simp [hi]

end Arm

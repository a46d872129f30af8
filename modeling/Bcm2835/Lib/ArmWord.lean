import Bcm2835.Lib.Bytes
import Bcm2835.Lib.Mem
import Mathlib.Logic.Relation

/-!
# ARM instructions on words

The instructions that hand-written loops are made of. An `Op` changes registers, the
zero flag and memory, and goes on at the next instruction, so that a stretch of them is
a fold (`Runs.ops`); the other instructions move the program counter, which is an index
into the listing. Routines outside of the listing are parameters.
-/

namespace ArmWord

open Bytes Mem

abbrev Word := BitVec 32

inductive Reg
  | r0 | r1 | r2 | r3 | r4 | r5 | r6 | r7 | r8 | r9 | r10 | r11 | r12 | sp | lr
deriving DecidableEq

/-- Registers, zero flag, the thread register of the coprocessor, and memory. -/
structure State where
  reg : Reg → Word
  z : Bool
  tp : Word
  mem : Memory

/-- The last operand of an instruction. -/
inductive Operand
  | imm (n : Word)
  | reg (r : Reg)
  | lsl (r : Reg) (k : Nat)
  | lsr (r : Reg) (k : Nat)

inductive Op
  | mov (d : Reg) (op : Operand)
  | add (d n : Reg) (op : Operand)
  | sub (d n : Reg) (op : Operand)
  | subs (d n : Reg) (op : Operand)
  | and (d n : Reg) (op : Operand)
  | orr (d n : Reg) (op : Operand)
  | eor (d n : Reg) (op : Operand)
  | mul (d n m : Reg)
  /-- `mla d, n, m, a`. -/
  | mla (d n m a : Reg)
  | ror (d n : Reg) (k : Nat)
  | cmp (n : Reg) (op : Operand)
  | tst (n : Reg) (op : Operand)
  /-- `ldr d, label`, for the address the label has. -/
  | ldrLabel (d : Reg) (addr : Word)
  /-- `ldr d, [n, op]`. -/
  | ldr (d n : Reg) (op : Operand)
  /-- `ldr d, [n], #off`. -/
  | ldrPost (d n : Reg) (off : Word)
  /-- `ldrb d, [n], #off`. -/
  | ldrbPost (d n : Reg) (off : Word)
  /-- `str d, [n, #off]`. -/
  | str (d n : Reg) (off : Word)
  /-- `str d, [n], #off`. -/
  | strPost (d n : Reg) (off : Word)
  /-- `ldmia n!, {ds}`. -/
  | ldmia (n : Reg) (ds : List Reg)
  | push (ds : List Reg)
  | pop (ds : List Reg)
  /-- A hint. -/
  | pld (n : Reg) (off : Word)
  /-- `mcr p15, 0, n, c13, c0, 2`. -/
  | mcr (n : Reg)
  /-- `mrc p15, 0, d, c13, c0, 2`. -/
  | mrc (d : Reg)

inductive Instr
  | op (o : Op)
  | b (target : Nat)
  | beq (target : Nat)
  | bne (target : Nat)
  /-- A call of the numbered routine outside of the listing. -/
  | bl (routine : Nat)
  /-- A call of the code at an address. -/
  | blx (n : Reg)
  | bx (n : Reg)

/-- The little-endian word at an address. -/
def word (m : Memory) (addr : Nat) : Word := .ofNat 32 (ofLe (read m addr 4))

def ror (x : Word) (k : Nat) : Word := x >>> k ||| x <<< (32 - k)

namespace State

variable (s : State)

/-- Sets a register. -/
def set (d : Reg) (v : Word) : State := { s with reg := Function.update s.reg d v }

def flag (v : Word) : State := { s with z := decide (v = 0) }

def value : Operand → Word
  | .imm n => n
  | .reg r => s.reg r
  | .lsl r k => s.reg r <<< k
  | .lsr r k => s.reg r >>> k

/-- Stores a word. -/
def store (addr v : Word) : State :=
  { s with mem := write (2 ^ 32) s.mem addr.toNat (leBytes 4 v.toNat) }

/-- Loads registers from consecutive words. -/
def loads (s : State) : List Reg → Word → State
  | [], _ => s
  | d :: ds, addr => loads (s.set d (word s.mem addr.toNat)) ds (addr + 4)

/-- Stores registers to consecutive words. -/
def stores (s : State) : List Reg → Word → State
  | [], _ => s
  | d :: ds, addr => stores (s.store addr (s.reg d)) ds (addr + 4)

end State

/-- The effect of an instruction that goes on at the next. -/
def Op.apply (s : State) : Op → State
  | .mov d op => s.set d (s.value op)
  | .add d n op => s.set d (s.reg n + s.value op)
  | .sub d n op => s.set d (s.reg n - s.value op)
  | .subs d n op => (s.set d (s.reg n - s.value op)).flag (s.reg n - s.value op)
  | .and d n op => s.set d (s.reg n &&& s.value op)
  | .orr d n op => s.set d (s.reg n ||| s.value op)
  | .eor d n op => s.set d (s.reg n ^^^ s.value op)
  | .mul d n m => s.set d (s.reg n * s.reg m)
  | .mla d n m a => s.set d (s.reg n * s.reg m + s.reg a)
  | .ror d n k => s.set d (ArmWord.ror (s.reg n) k)
  | .cmp n op => s.flag (s.reg n - s.value op)
  | .tst n op => s.flag (s.reg n &&& s.value op)
  | .ldrLabel d addr => s.set d (word s.mem addr.toNat)
  | .ldr d n op => s.set d (word s.mem (s.reg n + s.value op).toNat)
  | .ldrPost d n off => (s.set d (word s.mem (s.reg n).toNat)).set n (s.reg n + off)
  | .ldrbPost d n off => (s.set d (.ofNat 32 (s.mem (s.reg n).toNat).toNat)).set n (s.reg n + off)
  | .str d n off => s.store (s.reg n + off) (s.reg d)
  | .strPost d n off => (s.store (s.reg n) (s.reg d)).set n (s.reg n + off)
  | .ldmia n ds => (s.loads ds (s.reg n)).set n (s.reg n + 4 * .ofNat 32 ds.length)
  | .push ds =>
      (s.stores ds (s.reg .sp - 4 * .ofNat 32 ds.length)).set .sp (s.reg .sp - 4 * .ofNat 32 ds.length)
  | .pop ds => (s.loads ds (s.reg .sp)).set .sp (s.reg .sp + 4 * .ofNat 32 ds.length)
  | .pld _ _ => s
  | .mcr n => { s with tp := s.reg n }
  | .mrc d => s.set d s.tp

structure Cpu where
  pc : Nat
  state : State

/-- The code outside of the listing: numbered routines, and what is at an address. -/
structure Outside where
  routine : Nat → State → State
  code : Word → State → State

/-- One step of the listing; `none` if it leaves it. -/
def step (out : Outside) (code : List Instr) (c : Cpu) : Option Cpu :=
  match code[c.pc]? with
  | some (.op o) => some ⟨c.pc + 1, o.apply c.state⟩
  | some (.b target) => some ⟨target, c.state⟩
  | some (.beq target) => some ⟨if c.state.z then target else c.pc + 1, c.state⟩
  | some (.bne target) => some ⟨if c.state.z then c.pc + 1 else target, c.state⟩
  | some (.bl n) => some ⟨c.pc + 1, out.routine n c.state⟩
  | some (.blx r) => some ⟨c.pc + 1, out.code (c.state.reg r) c.state⟩
  | some (.bx _) => none
  | none => none

/-- Some steps of the listing lead from one state to the other. -/
def Runs (out : Outside) (code : List Instr) : Cpu → Cpu → Prop :=
  Relation.ReflTransGen fun c c' => step out code c = some c'

section Runs

variable {out : Outside} {code : List Instr}

theorem Runs.refl (c : Cpu) : Runs out code c c := Relation.ReflTransGen.refl

theorem Runs.trans {c d e : Cpu} (h : Runs out code c d) (h' : Runs out code d e) :
    Runs out code c e := Relation.ReflTransGen.trans h h'

theorem Runs.one {c d : Cpu} (h : step out code c = some d) : Runs out code c d :=
  Relation.ReflTransGen.single h

/-- A place from which the listing only goes on is come to once. -/
theorem Runs.once {k : Nat}
    (hafter : ∀ c c', k ≤ c.pc → step out code c = some c' → k < c'.pc) {c d e : Cpu}
    (h : Runs out code c d) (h' : Runs out code c e) (hd : d.pc = k) (he : e.pc = k) : d = e := by
  have hlast : ∀ {d e : Cpu}, d.pc = k → e.pc = k → Runs out code d e → d = e := by
    intro d e hd he hrun
    rcases Relation.ReflTransGen.cases_head hrun with rfl | ⟨c', hstep, hrest⟩
    · rfl
    have hbehind : k < e.pc := by
      have hfirst : k < c'.pc := hafter d c' (Nat.le_of_eq hd.symm) hstep
      clear he hrun
      induction hrest with
      | refl => exact hfirst
      | tail _ hstep ih => exact hafter _ _ (Nat.le_of_lt ih) hstep
    exact absurd he (Nat.ne_of_gt hbehind)
  have hunique : Relator.RightUnique fun c c' => step out code c = some c' :=
    fun _ _ _ hb hc => Option.some.inj (hb.symm.trans hc)
  rcases Relation.ReflTransGen.total_of_right_unique hunique h h' with hrun | hrun
  · exact hlast hd he hrun
  · exact (hlast he hd hrun).symm

/-- The instructions `ops` stand in the listing from `k` on. -/
def Stretch (code : List Instr) (k : Nat) (ops : List Op) : Prop :=
  ∀ i o, ops[i]? = some o → code[k + i]? = some (.op o)

/-- A stretch is run through. -/
theorem Runs.ops (out : Outside) {k : Nat} {ops : List Op} (h : Stretch code k ops) (s : State) :
    Runs out code ⟨k, s⟩ ⟨k + ops.length, ops.foldl Op.apply s⟩ := by
  induction ops generalizing k s with
  | nil => exact .refl _
  | cons o ops ih =>
      have hhead : code[k]? = some (.op o) := h 0 o rfl
      have htail : Stretch code (k + 1) ops := by
        intro i o' ho'
        have hnext := h (i + 1) o' ho'
        rwa [show k + (i + 1) = k + 1 + i by omega] at hnext
      have hstep : step out code ⟨k, s⟩ = some ⟨k + 1, o.apply s⟩ := by
        simp only [step, hhead]
      have hrest := ih htail (o.apply s)
      rw [List.length_cons, Nat.add_comm ops.length 1, ← Nat.add_assoc]
      exact (Runs.one hstep).trans hrest

/-- A stretch between other instructions. -/
theorem Stretch.of_append (pre post : List Instr) {ops : List Op} {k : Nat} (hk : pre.length = k) :
    Stretch (pre ++ ops.map .op ++ post) k ops := by
  intro i o ho
  subst hk
  have hlt : i < ops.length := (List.getElem?_eq_some_iff.mp ho).1
  rw [List.append_assoc, List.getElem?_append_right (Nat.le_add_right _ _),
    Nat.add_sub_cancel_left, List.getElem?_append_left (by rwa [List.length_map]),
    List.getElem?_map, ho]
  rfl

/-- A stretch of a listing that is known. -/
theorem Stretch.of_take {k : Nat} {ops : List Op}
    (h : (code.drop k).take ops.length = ops.map .op) : Stretch code k ops := by
  intro i o ho
  have hlt : i < ops.length := (List.getElem?_eq_some_iff.mp ho).1
  have hget := congrArg (·[i]?) h
  simp only [List.getElem?_take, hlt, if_true, List.getElem?_drop, List.getElem?_map, ho] at hget
  exact hget

end Runs

/-! ## Stores of several words -/

/-- Words that are stored one after the other change no byte outside of them. -/
theorem State.stores_mem (s : State) (ds : List Reg) (addr : Word) {x : Nat}
    (hx : x ∉ span (2 ^ 32) addr.toNat (4 * ds.length)) : (s.stores ds addr).mem x = s.mem x := by
  induction ds generalizing s addr with
  | nil => rfl
  | cons d ds ih =>
      rw [List.length_cons, Nat.mul_succ, Nat.add_comm, span_add, List.mem_append, not_or] at hx
      obtain ⟨hfirst, hrest⟩ := hx
      have hnext : (addr + 4).toNat = (addr.toNat + 4) % 2 ^ 32 := BitVec.toNat_add ..
      rw [State.stores, ih]
      · show write (2 ^ 32) s.mem addr.toNat (leBytes 4 (s.reg d).toNat) x = s.mem x
        apply scatter_of_not_mem
        rwa [leBytes_length]
      · rwa [hnext, span_mod]

/-- Registers are put into memory as they are. -/
theorem State.stores_reg (s : State) (ds : List Reg) (addr : Word) :
    (s.stores ds addr).reg = s.reg := by
  induction ds generalizing s addr with
  | nil => rfl
  | cons d ds ih => exact ih _ _

end ArmWord

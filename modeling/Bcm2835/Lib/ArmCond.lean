import Bcm2835.Lib.Arm
import Bcm2835.Lib.Blocks

/-!
# ARM instructions with conditions

What hand-written copy loops use beyond the instructions of `Lib.Arm`: the carry flag,
conditional execution, byte accesses and the ways to move a pointer along. Registers hold
numbers below 2³², and an offset below zero is one of them, too. The run of a routine
ends in front of the `bx` it returns with.
-/

namespace ArmCond

open Arm (Reg)
open Mem Bytes

structure State where
  reg : Reg → Nat
  z : Bool
  c : Bool
  mem : Memory

inductive Cond
  | al | eq | ne | cs | ls | hi
deriving DecidableEq

def Cond.holds (s : State) : Cond → Bool
  | .al => true
  | .eq => s.z
  | .ne => !s.z
  | .cs => s.c
  | .ls => !s.c || s.z
  | .hi => s.c && !s.z

inductive Operand
  | imm (n : Nat)
  | reg (r : Reg)
  | lsl (r : Reg) (k : Nat)

/-- How an address is formed, and whether the pointer moves along. -/
inductive Mode
  /-- `[n, #k]`. -/
  | offset (k : Nat)
  /-- `[n, #k]!`. -/
  | pre (k : Nat)
  /-- `[n], #k`. -/
  | post (k : Nat)

/-- An offset below zero. -/
def neg (k : Nat) : Nat := 2 ^ 32 - k

inductive Op
  | mov (d : Reg) (op : Operand)
  | add (d n : Reg) (op : Operand)
  | sub (d n : Reg) (op : Operand)
  | rsb (d n : Reg) (op : Operand)
  | and (d n : Reg) (op : Operand)
  | orr (d n : Reg) (op : Operand)
  | bic (d n : Reg) (op : Operand)
  | cmp (n : Reg) (op : Operand)
  | tst (n : Reg) (op : Operand)
  | ldrb (d n : Reg) (mode : Mode)
  | strb (d n : Reg) (mode : Mode)
  | str (d n : Reg) (mode : Mode)
  /-- `push {d, e}`. -/
  | push (d e : Reg)
  /-- `pop {d, e}`. -/
  | pop (d e : Reg)

inductive Instr
  | op (cond : Cond) (o : Op)
  | b (cond : Cond) (target : Nat)
  | bx (cond : Cond) (n : Reg)

namespace State

variable (s : State)

/-- Sets a register. -/
def set (d : Reg) (v : Nat) : State := { s with reg := Function.update s.reg d v }

def value : Operand → Nat
  | .imm n => n
  | .reg r => s.reg r
  | .lsl r k => (s.reg r <<< k) % 2 ^ 32

def addr (n : Reg) : Mode → Nat
  | .offset k => (s.reg n + k) % 2 ^ 32
  | .pre k => (s.reg n + k) % 2 ^ 32
  | .post _ => s.reg n

/-- Moves the pointer. -/
def along (n : Reg) : Mode → State
  | .offset _ => s
  | .pre k => s.set n ((s.reg n + k) % 2 ^ 32)
  | .post k => s.set n ((s.reg n + k) % 2 ^ 32)

def word (addr : Nat) : Nat := ofLe (read s.mem addr 4)

def storeWord (addr v : Nat) : State := { s with mem := write (2 ^ 32) s.mem addr (leBytes 4 v) }

def storeByte (addr v : Nat) : State := { s with mem := Function.update s.mem addr (.ofNat v) }

end State

section Fields

variable (s : State) (d n : Reg) (v k : Nat)

@[simp] theorem State.set_reg : (s.set d v).reg = Function.update s.reg d v := rfl
@[simp] theorem State.set_z : (s.set d v).z = s.z := rfl
@[simp] theorem State.set_c : (s.set d v).c = s.c := rfl
@[simp] theorem State.set_mem : (s.set d v).mem = s.mem := rfl
@[simp] theorem State.storeWord_reg : (s.storeWord k v).reg = s.reg := rfl
@[simp] theorem State.storeWord_z : (s.storeWord k v).z = s.z := rfl
@[simp] theorem State.storeWord_c : (s.storeWord k v).c = s.c := rfl
@[simp] theorem State.storeWord_mem :
    (s.storeWord k v).mem = write (2 ^ 32) s.mem k (leBytes 4 v) := rfl
@[simp] theorem State.storeByte_reg : (s.storeByte k v).reg = s.reg := rfl
@[simp] theorem State.storeByte_z : (s.storeByte k v).z = s.z := rfl
@[simp] theorem State.storeByte_c : (s.storeByte k v).c = s.c := rfl
@[simp] theorem State.storeByte_mem :
    (s.storeByte k v).mem = Function.update s.mem k (.ofNat v) := rfl
@[simp] theorem State.along_offset : s.along n (.offset k) = s := rfl
@[simp] theorem State.along_pre : s.along n (.pre k) = s.set n ((s.reg n + k) % 2 ^ 32) := rfl
@[simp] theorem State.along_post : s.along n (.post k) = s.set n ((s.reg n + k) % 2 ^ 32) := rfl
@[simp] theorem State.addr_offset : s.addr n (.offset k) = (s.reg n + k) % 2 ^ 32 := rfl
@[simp] theorem State.addr_pre : s.addr n (.pre k) = (s.reg n + k) % 2 ^ 32 := rfl
@[simp] theorem State.addr_post : s.addr n (.post k) = s.reg n := rfl
@[simp] theorem State.value_imm : s.value (.imm k) = k := rfl
@[simp] theorem State.value_reg : s.value (.reg d) = s.reg d := rfl

end Fields

def Op.apply (s : State) : Op → State
  | .mov d op => s.set d (s.value op)
  | .add d n op => s.set d ((s.reg n + s.value op) % 2 ^ 32)
  | .sub d n op => s.set d ((s.reg n + (2 ^ 32 - s.value op)) % 2 ^ 32)
  | .rsb d n op => s.set d ((s.value op + (2 ^ 32 - s.reg n)) % 2 ^ 32)
  | .and d n op => s.set d (s.reg n &&& s.value op)
  | .orr d n op => s.set d (s.reg n ||| s.value op)
  | .bic d n op => s.set d (s.reg n &&& (2 ^ 32 - 1 - s.value op))
  | .cmp n op => { s with z := decide (s.reg n = s.value op), c := decide (s.value op ≤ s.reg n) }
  | .tst n op => { s with z := decide (s.reg n &&& s.value op = 0) }
  | .ldrb d n mode => (s.set d (s.mem (s.addr n mode)).toNat).along n mode
  | .strb d n mode => (s.storeByte (s.addr n mode) (s.reg d)).along n mode
  | .str d n mode => (s.storeWord (s.addr n mode) (s.reg d)).along n mode
  | .push d e =>
      let sp := (s.reg .sp + (2 ^ 32 - 8)) % 2 ^ 32
      ((s.storeWord sp (s.reg d)).storeWord (sp + 4) (s.reg e)).set .sp sp
  | .pop d e =>
      let sp := s.reg .sp
      ((s.set d (s.word sp)).set e (s.word (sp + 4))).set .sp ((sp + 8) % 2 ^ 32)

/-! ## Comparisons -/

section Comparisons

variable {s s' : State} {n : Reg} {op : Operand}

theorem Cond.holds_congr (hz : s'.z = s.z) (hc : s'.c = s.c) (cond : Cond) :
    cond.holds s' = cond.holds s := by
  cases cond <;> simp only [holds, hz, hc]

/-- The flags are left alone. -/
def Op.quiet : Op → Bool
  | .cmp _ _ | .tst _ _ => false
  | _ => true

theorem State.along_flags (s : State) (n : Reg) (mode : Mode) :
    (s.along n mode).z = s.z ∧ (s.along n mode).c = s.c := by
  cases mode <;> exact ⟨rfl, rfl⟩

theorem Op.apply_flags {o : Op} (h : o.quiet = true) (s : State) :
    (o.apply s).z = s.z ∧ (o.apply s).c = s.c := by
  cases o with
  | cmp | tst => cases h
  | ldrb | strb | str => exact State.along_flags _ _ _
  | _ => exact ⟨rfl, rfl⟩

/-- Instructions behind a comparison do not change its result. -/
theorem Cond.holds_ops {l : List Op} (h : ∀ o ∈ l, o.quiet = true) (s : State) (cond : Cond) :
    cond.holds (l.foldl Op.apply s) = cond.holds s := by
  induction l generalizing s with
  | nil => rfl
  | cons o l ih =>
      obtain ⟨hz, hc⟩ := Op.apply_flags (h o List.mem_cons_self) s
      exact (ih (fun o' ho' => h o' (List.mem_cons_of_mem _ ho')) _).trans (holds_congr hz hc cond)

theorem Cond.eq_cmp : Cond.eq.holds (Op.apply s (.cmp n op)) = decide (s.reg n = s.value op) := rfl

theorem Cond.ne_cmp : Cond.ne.holds (Op.apply s (.cmp n op)) = decide (s.reg n ≠ s.value op) :=
  (decide_not ..).symm

theorem Cond.cs_cmp : Cond.cs.holds (Op.apply s (.cmp n op)) = decide (s.value op ≤ s.reg n) := rfl

theorem Cond.ls_cmp : Cond.ls.holds (Op.apply s (.cmp n op)) = decide (s.reg n ≤ s.value op) := by
  show (!decide (s.value op ≤ s.reg n) || decide (s.reg n = s.value op)) = _
  rw [← decide_not, ← Bool.decide_or]
  exact decide_eq_decide.mpr (by omega)

theorem Cond.hi_cmp : Cond.hi.holds (Op.apply s (.cmp n op)) = decide (s.value op < s.reg n) := by
  show (decide (s.value op ≤ s.reg n) && !decide (s.reg n = s.value op)) = _
  rw [← decide_not, ← Bool.decide_and]
  exact decide_eq_decide.mpr (by omega)

end Comparisons

structure Cpu where
  pc : Nat
  state : State

/-- One step of the listing; `none` if it leaves it. -/
def step (code : List Instr) (c : Cpu) : Option Cpu :=
  match code[c.pc]? with
  | some (.op cond o) => some ⟨c.pc + 1, if cond.holds c.state then o.apply c.state else c.state⟩
  | some (.b cond target) => some ⟨if cond.holds c.state then target else c.pc + 1, c.state⟩
  | some (.bx cond _) => if cond.holds c.state then none else some ⟨c.pc + 1, c.state⟩
  | none => none

/-- At most so many steps of the listing. -/
def run (code : List Instr) : Nat → Cpu → Cpu
  | 0, c => c
  | fuel + 1, c => match step code c with
      | some c' => run code fuel c'
      | none => c

/-- The steps that lead from one state to the other are at most `n`. -/
def Within (code : List Instr) (n : Nat) (c c' : Cpu) : Prop :=
  ∃ i ≤ n, ∀ fuel, run code (i + fuel) c = run code fuel c'

/-- The routine is about to return to `ret`. -/
def Returning (code : List Instr) (c : Cpu) (ret : Nat) : Prop :=
  ∃ cond n, code[c.pc]? = some (.bx cond n) ∧ cond.holds c.state = true ∧ c.state.reg n = ret

section Runs

variable {code : List Instr}

theorem Within.refl (n : Nat) (c : Cpu) : Within code n c c :=
  ⟨0, Nat.zero_le n, fun fuel => by rw [Nat.zero_add]⟩

theorem Within.step {c c' : Cpu} (h : ArmCond.step code c = some c') : Within code 1 c c' := by
  refine ⟨1, Nat.le_refl 1, fun fuel => ?_⟩
  rw [Nat.add_comm, run, h]

theorem Within.trans {n k : Nat} {c d e : Cpu} (h : Within code n c d) (h' : Within code k d e) :
    Within code (n + k) c e := by
  obtain ⟨i, hi, hrun⟩ := h
  obtain ⟨j, hj, hrun'⟩ := h'
  refine ⟨i + j, by omega, fun fuel => ?_⟩
  rw [Nat.add_assoc, hrun, hrun']

theorem Within.mono {n k : Nat} {c d : Cpu} (h : Within code n c d) (hle : n ≤ k) :
    Within code k c d := by
  obtain ⟨i, hi, hrun⟩ := h
  exact ⟨i, by omega, hrun⟩

/-- A loop that keeps its invariant is left after its last turn. -/
theorem Within.loop {I : Nat → Cpu → Prop} {t n : Nat}
    (hturn : ∀ i < n, ∀ c, I i c → ∃ c', Within code t c c' ∧ I (i + 1) c') {c : Cpu}
    (h : I 0 c) : ∃ c', Within code (t * n) c c' ∧ I n c' := by
  induction n with
  | zero => exact ⟨c, .refl _ c, h⟩
  | succ n ih =>
      obtain ⟨d, hrun, hd⟩ := ih fun i hi => hturn i (by omega)
      obtain ⟨e, hlast, he⟩ := hturn n (Nat.lt_succ_self n) d hd
      exact ⟨e, hrun.trans hlast, he⟩

/-- Enough fuel takes the run to where the routine returns. -/
theorem Within.run_eq {n fuel ret : Nat} {c c' : Cpu} (h : Within code n c c')
    (hret : Returning code c' ret) (hfuel : n ≤ fuel) : run code fuel c = c' := by
  obtain ⟨i, hi, hrun⟩ := h
  obtain ⟨cond, r, hcode, hcond, -⟩ := hret
  have hstuck : ArmCond.step code c' = none := by simp only [ArmCond.step, hcode, hcond, if_true]
  rw [show fuel = i + (fuel - i) by omega, hrun]
  cases fuel - i with
  | zero => rfl
  | succ k => rw [run, hstuck]

variable {q : Nat} {s : State} {cond : Cond}

/-- An instruction of a routine that takes effect. -/
theorem Within.op {o : Op} (hcode : code[q]? = some (.op cond o)) (h : cond.holds s = true) :
    Within code 1 ⟨q, s⟩ ⟨q + 1, o.apply s⟩ := .step (by simp only [ArmCond.step, hcode, h, if_true])

theorem Within.skip {o : Op} (hcode : code[q]? = some (.op cond o)) (h : cond.holds s = false) :
    Within code 1 ⟨q, s⟩ ⟨q + 1, s⟩ := .step (by simp [ArmCond.step, hcode, h])

theorem Within.taken {target : Nat} (hcode : code[q]? = some (.b cond target))
    (h : cond.holds s = true) : Within code 1 ⟨q, s⟩ ⟨target, s⟩ :=
  .step (by simp only [ArmCond.step, hcode, h, if_true])

theorem Within.passed {target : Nat} (hcode : code[q]? = some (.b cond target))
    (h : cond.holds s = false) : Within code 1 ⟨q, s⟩ ⟨q + 1, s⟩ :=
  .step (by simp [ArmCond.step, hcode, h])

/-- The branch at the end of a turn. -/
theorem Within.branch {target : Nat} {p : Prop} [Decidable p] (hcode : code[q]? = some (.b cond target))
    (h : cond.holds s = decide p) : Within code 1 ⟨q, s⟩ ⟨if p then target else q + 1, s⟩ := by
  by_cases hp : p
  · rw [if_pos hp]
    exact .taken hcode (h.trans (decide_eq_true hp))
  · rw [if_neg hp]
    exact .passed hcode (h.trans (decide_eq_false hp))

theorem Within.stays {n : Reg} (hcode : code[q]? = some (.bx cond n)) (h : cond.holds s = false) :
    Within code 1 ⟨q, s⟩ ⟨q + 1, s⟩ := .step (by simp [ArmCond.step, hcode, h])

/-- A stretch of instructions without conditions. -/
theorem Within.ops {l : List Op} (h : (code.drop q).take l.length = l.map (.op .al)) :
    Within code l.length ⟨q, s⟩ ⟨q + l.length, l.foldl Op.apply s⟩ := by
  induction l generalizing q s with
  | nil => exact .refl _ _
  | cons o l ih =>
      have hget : code[q]? = some (.op .al o) := by
        have hhead := congrArg (·[0]?) h
        simpa [List.getElem?_take, List.getElem?_drop] using hhead
      have hrest : (code.drop (q + 1)).take l.length = l.map (.op .al) := by
        obtain ⟨hlt, heq⟩ := List.getElem?_eq_some_iff.mp hget
        rw [List.drop_eq_getElem_cons hlt, heq] at h
        exact (List.cons.inj h).2
      have hrun := (Within.op (s := s) hget rfl).trans (ih (s := o.apply s) hrest)
      rw [List.length_cons, Nat.add_comm l.length 1, ← Nat.add_assoc]
      exact hrun

/-- What the instructions of a listing keep is kept by its runs. -/
theorem run_invariant {I : State → Prop}
    (h : ∀ cond o, .op cond o ∈ code → ∀ s, I s → I (o.apply s)) (fuel : Nat) {c : Cpu}
    (hc : I c.state) : I (run code fuel c).state := by
  induction fuel generalizing c with
  | zero => exact hc
  | succ fuel ih =>
      cases hstep : ArmCond.step code c with
      | none => simpa only [run, hstep] using hc
      | some d =>
          have hd : I d.state := by
            unfold ArmCond.step at hstep
            split at hstep
            · next cond o hget =>
                obtain rfl := Option.some.inj hstep
                show I (if cond.holds c.state then _ else _)
                split
                · exact h cond o (List.mem_of_getElem? hget) _ hc
                · exact hc
            · obtain rfl := Option.some.inj hstep
              exact hc
            · split at hstep
              · cases hstep
              · obtain rfl := Option.some.inj hstep
                exact hc
            · cases hstep
          simpa only [run, hstep] using ih hd

end Runs

/-! ## Registers -/

/-- The registers an instruction sets. -/
def Op.targets : Op → List Reg
  | .mov d _ | .add d _ _ | .sub d _ _ | .rsb d _ _ | .and d _ _ | .orr d _ _ | .bic d _ _ => [d]
  | .cmp _ _ | .tst _ _ => []
  | .ldrb d n _ => [d, n]
  | .strb _ n _ | .str _ n _ => [n]
  | .push _ _ => [.sp]
  | .pop d e => [d, e, .sp]

theorem State.set_reg_of_ne {s : State} {d r : Reg} {v : Nat} (h : r ≠ d) :
    (s.set d v).reg r = s.reg r := Function.update_of_ne h ..

theorem State.along_reg_of_ne {s : State} {n r : Reg} {mode : Mode} (h : r ≠ n) :
    (s.along n mode).reg r = s.reg r := by
  cases mode with
  | offset k => rfl
  | pre k => exact set_reg_of_ne h
  | post k => exact set_reg_of_ne h

theorem Op.apply_reg {o : Op} {r : Reg} (h : r ∉ o.targets) (s : State) :
    (o.apply s).reg r = s.reg r := by
  cases o with
  | cmp | tst => rfl
  | ldrb d n mode =>
      simp only [targets, List.mem_cons, List.not_mem_nil, or_false, not_or] at h
      exact (State.along_reg_of_ne h.2).trans (State.set_reg_of_ne h.1)
  | strb d n mode => exact State.along_reg_of_ne (List.ne_of_not_mem_cons h)
  | str d n mode => exact State.along_reg_of_ne (List.ne_of_not_mem_cons h)
  | pop d e =>
      simp only [targets, List.mem_cons, List.not_mem_nil, or_false, not_or] at h
      exact (State.set_reg_of_ne h.2.2).trans
        ((State.set_reg_of_ne h.2.1).trans (State.set_reg_of_ne h.1))
  | _ => exact State.set_reg_of_ne (List.ne_of_not_mem_cons h)

/-- An instruction that does not store. -/
def Op.loads : Op → Bool
  | .strb _ _ _ | .str _ _ _ | .push _ _ => false
  | _ => true

theorem State.along_mem (s : State) (n : Reg) (mode : Mode) : (s.along n mode).mem = s.mem := by
  cases mode <;> rfl

theorem Op.apply_mem {o : Op} (h : o.loads = true) (s : State) : (o.apply s).mem = s.mem := by
  cases o with
  | strb | str | push => cases h
  | ldrb => exact State.along_mem _ _ _
  | _ => rfl

/-- The registers that a listing sets. -/
def written (code : List Instr) : List Reg := code.flatMap fun
  | .op _ o => o.targets
  | _ => []

/-- A register that no instruction of the listing sets is kept. -/
theorem run_reg {code : List Instr} {r : Reg} (h : r ∉ written code) (fuel : Nat) {c : Cpu} :
    (run code fuel c).state.reg r = c.state.reg r := by
  refine run_invariant (I := fun s => s.reg r = c.state.reg r) (fun cond o ho s hs => ?_) fuel rfl
  exact (Op.apply_reg (fun hr => h (List.mem_flatMap_of_mem ho hr)) s).trans hs

theorem Within.reg_eq {code : List Instr} {r : Reg} (h : r ∉ written code) {n : Nat} {c c' : Cpu}
    (hrun : Within code n c c') : c'.state.reg r = c.state.reg r := by
  obtain ⟨i, -, hrun⟩ := hrun
  have hend : run code i c = c' := hrun 0
  rw [← hend]
  exact run_reg h i

section Targets

variable (s : State) (d n : Reg) (op : Operand)

theorem Op.mov_self : (Op.apply s (.mov d op)).reg d = s.value op := Function.update_self ..
theorem Op.add_self : (Op.apply s (.add d n op)).reg d = (s.reg n + s.value op) % 2 ^ 32 :=
  Function.update_self ..
theorem Op.sub_self :
    (Op.apply s (.sub d n op)).reg d = (s.reg n + (2 ^ 32 - s.value op)) % 2 ^ 32 :=
  Function.update_self ..
theorem Op.and_self : (Op.apply s (.and d n op)).reg d = s.reg n &&& s.value op :=
  Function.update_self ..
theorem Op.orr_self : (Op.apply s (.orr d n op)).reg d = s.reg n ||| s.value op :=
  Function.update_self ..
theorem Op.bic_self :
    (Op.apply s (.bic d n op)).reg d = s.reg n &&& (2 ^ 32 - 1 - s.value op) :=
  Function.update_self ..

end Targets

/-- All registers hold words. -/
def State.Words (s : State) : Prop := ∀ r, s.reg r < 2 ^ 32

/-- The operand is a word. -/
def Operand.Small : Operand → Prop
  | .imm n => n < 2 ^ 32
  | _ => True

instance : DecidablePred Operand.Small
  | .imm n => inferInstanceAs (Decidable (n < 2 ^ 32))
  | .reg _ => isTrue trivial
  | .lsl _ _ => isTrue trivial

def Op.Small : Op → Prop
  | .mov _ op | .and _ _ op | .orr _ _ op => op.Small
  | _ => True

instance : DecidablePred Op.Small
  | .mov _ op | .and _ _ op | .orr _ _ op => inferInstanceAs (Decidable op.Small)
  | .add _ _ _ | .sub _ _ _ | .rsb _ _ _ | .bic _ _ _ | .cmp _ _ | .tst _ _ | .ldrb _ _ _
  | .strb _ _ _ | .str _ _ _ | .push _ _ | .pop _ _ => isTrue trivial

def Instr.Small : Instr → Prop
  | .op _ o => o.Small
  | _ => True

instance : DecidablePred Instr.Small
  | .op _ o => inferInstanceAs (Decidable o.Small)
  | .b _ _ | .bx _ _ => isTrue trivial

theorem State.Words.set {s : State} (h : s.Words) (d : Reg) {v : Nat} (hv : v < 2 ^ 32) :
    (s.set d v).Words := by
  intro r
  by_cases hr : r = d
  · subst hr
    rwa [set_reg, Function.update_self]
  · rw [set_reg_of_ne hr]
    exact h r

theorem State.Words.along {s : State} (h : s.Words) (n : Reg) (mode : Mode) :
    (s.along n mode).Words := by
  cases mode with
  | offset k => exact h
  | pre k => exact h.set n (Nat.mod_lt _ (by decide))
  | post k => exact h.set n (Nat.mod_lt _ (by decide))

theorem State.Words.value {s : State} (h : s.Words) {op : Operand} (hop : op.Small) :
    s.value op < 2 ^ 32 := by
  cases op with
  | imm n => exact hop
  | reg r => exact h r
  | lsl r k => exact Nat.mod_lt _ (by decide)

theorem State.word_lt (s : State) (addr : Nat) : s.word addr < 2 ^ 32 := by
  have hlt := ofLe_lt (read s.mem addr 4)
  rwa [read_length] at hlt

theorem Op.apply_words {o : Op} (ho : o.Small) {s : State} (h : s.Words) : (o.apply s).Words := by
  have hmod : ∀ x, x % 2 ^ 32 < 2 ^ 32 := fun x => Nat.mod_lt x (by decide)
  cases o with
  | mov d op => exact h.set d (h.value ho)
  | add | sub | rsb => exact h.set _ (hmod _)
  | and d n op => exact h.set d (Nat.lt_of_le_of_lt Nat.and_le_left (h n))
  | orr d n op => exact h.set d (Nat.or_lt_two_pow (h n) (h.value ho))
  | bic d n op => exact h.set d (Nat.lt_of_le_of_lt Nat.and_le_left (h n))
  | cmp | tst => exact h
  | ldrb d n mode => exact (h.set d (Nat.lt_trans (UInt8.toNat_lt _) (by decide))).along n mode
  | strb d n mode => exact State.Words.along (s := s.storeByte _ _) h n mode
  | str d n mode => exact State.Words.along (s := s.storeWord _ _) h n mode
  | push d e => exact State.Words.set (s := (s.storeWord _ _).storeWord _ _) h _ (hmod _)
  | pop d e => exact ((h.set d (s.word_lt _)).set e (s.word_lt _)).set _ (hmod _)

/-- Registers hold words after every run. -/
theorem run_words {code : List Instr} (hsmall : ∀ i ∈ code, i.Small) (fuel : Nat) {c : Cpu}
    (h : c.state.Words) : (run code fuel c).state.Words :=
  run_invariant (fun _ _ ho _ hs => Op.apply_words (hsmall _ ho) hs) fuel h

/-! ## Masks -/

/-- `x & ~(2ᵏ - 1)`. -/
theorem and_mask_high {x k : Nat} (h : x < 2 ^ 32) (hk : k ≤ 32) :
    x &&& (2 ^ 32 - 1 - (2 ^ k - 1)) = x / 2 ^ k * 2 ^ k := by
  have hle : 2 ^ k ≤ 2 ^ 32 := Nat.pow_le_pow_right (by decide) hk
  have hpos : 0 < 2 ^ k := Nat.two_pow_pos k
  have hmask : 2 ^ 32 - 1 - (2 ^ k - 1) = (2 ^ (32 - k) - 1) <<< k := by
    rw [Nat.shiftLeft_eq, Nat.sub_mul, ← Nat.pow_add, Nat.sub_add_cancel hk]
    omega
  apply Nat.eq_of_testBit_eq
  intro i
  rw [hmask, ← Nat.shiftRight_eq_div_pow, ← Nat.shiftLeft_eq, Nat.testBit_and,
    Nat.testBit_shiftLeft, Nat.testBit_shiftLeft, Nat.testBit_two_pow_sub_one, Nat.testBit_shiftRight]
  by_cases hi : k ≤ i
  · rw [Nat.add_sub_cancel' hi]
    by_cases hbit : i < 32
    · simp [hi, show i - k < 32 - k by omega]
    · have hzero : x.testBit i = false :=
        Nat.testBit_lt_two_pow (lt_of_lt_of_le h (Nat.pow_le_pow_right (by decide) (by omega)))
      simp [hzero]
  · simp [hi]

/-- A byte next to itself. -/
theorem or_shift {x k : Nat} (h : x < 2 ^ k) : x ||| x <<< k = x * (2 ^ k + 1) := by
  rw [Nat.or_comm, ← Nat.shiftLeft_add_eq_or_of_lt h, Nat.shiftLeft_eq, Nat.mul_succ]

end ArmCond

import Bcm2835.Integ.RunAsm
import Bcm2835.Pup.Fcs

/-!
# `integ_run` does not check the header

The loop that hashes the header after the payload leaves for the label 10, behind the
comparison with the hash that was stored, and at the label 10 the result is set to zero.
And the hash goes up to `region_cap` bytes behind the fixed part of the header, not
`region_cap` regions.
-/

namespace Bcm2835.Integ

open Mem Bytes ArmWord

variable (out : Outside) {code : List Instr} (fcstab_32 label100 label101 : ArmWord.Word)

/-! ## The hash of the header -/

/-- The hash with one more byte. -/
def crcByte (m : Memory) (fcstab_32 crc : ArmWord.Word) (b : UInt8) : ArmWord.Word :=
  ArmWord.word m (fcstab_32 + ((BitVec.ofNat 32 b.toNat ^^^ crc) &&& 0xff) <<< 2).toNat ^^^ crc >>> 8

/-- The hash of `n` bytes from `a` on. -/
def crcBytes (m : Memory) (fcstab_32 a crc : ArmWord.Word) (n : Nat) : ArmWord.Word :=
  (List.range n).foldl (fun crc i => crcByte m fcstab_32 crc (m (a + .ofNat 32 i).toNat)) crc

/-- The hash of `n` bytes of the header, from `f` on. -/
def headerCrc (m : Memory) (fcstab_32 ihdr : ArmWord.Word) (n : Nat) : ArmWord.Word :=
  crcBytes m fcstab_32 (ihdr + 8) 0xffffffff n

/-- The loop is in the listing. -/
structure CrcAt (code : List Instr) (k exit : Nat) : Prop where
  test : Stretch code k [.cmp .r2 (.reg .r4)]
  leave : code[k + 1]? = some (.beq exit)
  ops : Stretch code (k + 2) crcOps
  back : code[k + 7]? = some (.b k)

/-- The loop leaves at its exit, behind the bytes from `r2` up to `r4`: by induction on
their number. -/
theorem crc_runs {k exit : Nat} (hcode : CrcAt code k exit) (n : Nat) (hn : n < 2 ^ 32) {s : State}
    (hend : s.reg .r4 = s.reg .r2 + .ofNat 32 n) :
    ∃ t, Runs out code ⟨k, s⟩ ⟨exit, t⟩ ∧ t.mem = s.mem ∧ t.reg .r0 = s.reg .r0 ∧
      t.reg .r1 = crcBytes s.mem (s.reg .r3) (s.reg .r2) (s.reg .r1) n := by
  induction n generalizing s with
  | zero =>
      have hz : s.reg .r2 - s.reg .r4 = 0 := by
        rw [hend]
        simp
      have htest : Runs out code ⟨k, s⟩ ⟨k + 1, s.flag (s.reg .r2 - s.reg .r4)⟩ :=
        Runs.ops out hcode.test s
      have hleave : step out code ⟨k + 1, s.flag (s.reg .r2 - s.reg .r4)⟩ =
          some ⟨exit, s.flag (s.reg .r2 - s.reg .r4)⟩ := by
        simp only [step, hcode.leave, State.flag, hz, decide_true, if_true]
      exact ⟨_, htest.trans (Runs.one hleave), rfl, rfl, rfl⟩
  | succ n ih =>
      have hz : s.reg .r2 - s.reg .r4 ≠ 0 := by
        intro h
        have hnat := congrArg BitVec.toNat (sub_eq_zero.mp h)
        rw [hend, BitVec.toNat_add, BitVec.toNat_ofNat] at hnat
        have hlt := (s.reg .r2).isLt
        omega
      have htest : Runs out code ⟨k, s⟩ ⟨k + 1, s.flag (s.reg .r2 - s.reg .r4)⟩ :=
        Runs.ops out hcode.test s
      generalize hu : s.flag (s.reg .r2 - s.reg .r4) = u at htest
      have hreg : u.reg = s.reg := by rw [← hu]; rfl
      have hmem : u.mem = s.mem := by rw [← hu]; rfl
      have hgo : step out code ⟨k + 1, u⟩ = some ⟨k + 2, u⟩ := by
        have hflag : u.z = false := by
          rw [← hu]
          exact decide_eq_false hz
        simp only [step, hcode.leave, hflag]
        rfl
      have hops : Runs out code ⟨k + 2, u⟩ ⟨k + 7, crcOps.foldl Op.apply u⟩ := Runs.ops out hcode.ops u
      have hback : step out code ⟨k + 7, crcOps.foldl Op.apply u⟩ =
          some ⟨k, crcOps.foldl Op.apply u⟩ := by
        simp only [step, hcode.back]
      have hbyte : (crcOps.foldl Op.apply u).reg .r1 =
          crcByte u.mem (u.reg .r3) (u.reg .r1) (u.mem (u.reg .r2).toNat) := rfl
      have hnext : (crcOps.foldl Op.apply u).reg .r2 = u.reg .r2 + 1 := rfl
      obtain ⟨t, hrun, htmem, htr0, htr1⟩ := ih (Nat.lt_of_succ_lt hn)
        (s := crcOps.foldl Op.apply u) (by
          show u.reg .r4 = u.reg .r2 + 1 + _
          rw [hreg, hend, BitVec.add_assoc]
          congr 1
          apply BitVec.eq_of_toNat_eq
          simp [Nat.add_comm])
      refine ⟨t, ((htest.trans (Runs.one hgo)).trans (hops.trans (Runs.one hback))).trans hrun,
        htmem.trans hmem, htr0.trans (congrFun hreg .r0), ?_⟩
      have hshift : ∀ i : Nat, s.reg .r2 + 1 + BitVec.ofNat 32 i = s.reg .r2 + .ofNat 32 (i + 1) := by
        intro i
        rw [BitVec.add_assoc]
        congr 1
        apply BitVec.eq_of_toNat_eq
        simp [Nat.add_comm]
      have hzero : s.reg .r2 + BitVec.ofNat 32 0 = s.reg .r2 := BitVec.add_zero _
      rw [htr1, hbyte, hnext]
      show crcBytes u.mem (u.reg .r3) (u.reg .r2 + 1) _ n = _
      rw [hmem, hreg, crcBytes, crcBytes, List.range_succ_eq_map, List.foldl_cons, List.foldl_map]
      simp only [hshift, hzero]

/-- The words below the stack pointer that the registers are put into. -/
def crcStack (s : State) : List Nat := span (2 ^ 32) (s.reg .sp - 12).toNat 12

/-- The set-up takes the first byte from `f` on, and the end from `region_cap`. -/
theorem crcEnter_spec (fcstab_32 : ArmWord.Word) (s : State) :
    ∃ m, (∀ x, x ∉ crcStack s → m x = s.mem x) ∧
      ((crcEnter fcstab_32).foldl Op.apply s).mem = m ∧
      ((crcEnter fcstab_32).foldl Op.apply s).reg .r0 = s.reg .r0 ∧
      ((crcEnter fcstab_32).foldl Op.apply s).reg .r1 = 0xffffffff ∧
      ((crcEnter fcstab_32).foldl Op.apply s).reg .r2 = s.reg .r0 + 8 ∧
      ((crcEnter fcstab_32).foldl Op.apply s).reg .r3 = fcstab_32 ∧
      ((crcEnter fcstab_32).foldl Op.apply s).reg .r4 =
        s.reg .r0 + 40 + ArmWord.word m (s.reg .r0 + 36).toNat := by
  have hsize : (4 : ArmWord.Word) * .ofNat 32 [Reg.r4, .r5, .r6].length = 12 := by decide
  have hpush : (Op.push [.r4, .r5, .r6]).apply s =
      (s.stores [.r4, .r5, .r6] (s.reg .sp - 12)).set .sp (s.reg .sp - 12) := by
    rw [Op.apply, hsize]
  have hreg := s.stores_reg [.r4, .r5, .r6] (s.reg .sp - 12)
  have hmem : ∀ x, x ∉ crcStack s → (s.stores [.r4, .r5, .r6] (s.reg .sp - 12)).mem x = s.mem x :=
    fun x hx => s.stores_mem [.r4, .r5, .r6] (s.reg .sp - 12) hx
  rw [crcEnter, List.foldl_cons, hpush]
  generalize s.stores [.r4, .r5, .r6] (s.reg .sp - 12) = t at hreg hmem ⊢
  rw [← hreg]
  exact ⟨t.mem, hmem, rfl, rfl, rfl, rfl, rfl, rfl⟩

/-- From the set-up to the exit of the loop. -/
theorem crc_whole {k exit : Nat} (henter : Stretch code k (crcEnter fcstab_32))
    (hcode : CrcAt code (k + 7) exit) (s : State) :
    ∃ t m, Runs out code ⟨k, s⟩ ⟨exit, t⟩ ∧ (∀ x, x ∉ crcStack s → m x = s.mem x) ∧ t.mem = m ∧
      t.reg .r0 = s.reg .r0 ∧
      t.reg .r1 = headerCrc m fcstab_32 (s.reg .r0)
        (32 + ArmWord.word m (s.reg .r0 + 36).toNat).toNat := by
  obtain ⟨m, hmem, humem, hur0, hur1, hur2, hur3, hur4⟩ := crcEnter_spec fcstab_32 s
  have hops : Runs out code ⟨k, s⟩ ⟨k + 7, (crcEnter fcstab_32).foldl Op.apply s⟩ :=
    Runs.ops out henter s
  generalize (crcEnter fcstab_32).foldl Op.apply s = u at *
  have hend : u.reg .r4 = u.reg .r2 +
      .ofNat 32 (32 + ArmWord.word m (s.reg .r0 + 36).toNat : ArmWord.Word).toNat := by
    rw [hur4, hur2, BitVec.ofNat_toNat, BitVec.setWidth_eq]
    ring
  obtain ⟨t, hrun, htmem, htr0, htr1⟩ := crc_runs out hcode _ (BitVec.isLt _) hend
  refine ⟨t, m, hops.trans hrun, hmem, htmem.trans humem, htr0.trans hur0, ?_⟩
  rw [htr1, hur1, hur2, hur3, humem]
  rfl

/-! ## Behind the payload -/

/-- What the pointer is multiplied by. -/
def POINTER_FACTOR : ArmWord.Word := 0x9e3779b1

section Payload

/-- The check of the pointer goes on to the label 6. -/
theorem pointer_runs {s : State} {p : ArmWord.Word}
    (hcopy : ArmWord.word s.mem label100.toNat = p)
    (hhash : ArmWord.word s.mem label101.toNat = p * POINTER_FACTOR) :
    ∃ t, Runs out (integ_run fcstab_32 label100 label101) ⟨53, s⟩ ⟨64, t⟩ ∧ t.mem = s.mem ∧
      t.reg .r0 = p := by
  have hstretch : Stretch (integ_run fcstab_32 label100 label101) 53
      ([.ldrLabel .r0 label100, .ldrLabel .r1 label101] ++ hashPointer .r2 .r0 .r3 ++
        [.cmp .r1 (.reg .r2)]) := Stretch.of_take rfl
  have hrun := Runs.ops out hstretch s
  generalize hu : List.foldl Op.apply s _ = u at hrun
  have hmem : u.mem = s.mem := by rw [← hu]; rfl
  have hr0 : u.reg .r0 = p := by
    rw [← hu]
    exact hcopy
  have hfactor : ((0x9e000000 : ArmWord.Word) ||| 0x370000) ||| 0x7900 ||| 0xb1 = POINTER_FACTOR := by
    decide
  have hz : u.z = decide (ArmWord.word s.mem label101.toNat -
      ArmWord.word s.mem label100.toNat * POINTER_FACTOR = 0) := by
    rw [← hu, ← hfactor]
    rfl
  have hbranch : step out (integ_run fcstab_32 label100 label101) ⟨61, u⟩ = some ⟨64, u⟩ := by
    have hcode : (integ_run fcstab_32 label100 label101)[61]? = some (.beq 64) := rfl
    have hflag : u.z = true := by
      rw [hz, hcopy, hhash, sub_self]
      rfl
    simp only [step, hcode, hflag, if_true]
  exact ⟨u, hrun.trans (Runs.one hbranch), hmem, hr0⟩

/-- One turn of the check of the microstack, on a word that is clear. -/
theorem microstack_turn {s : State} (hclear : ArmWord.word s.mem (s.reg .r1).toNat = 0) :
    ∃ t, Runs out (integ_run fcstab_32 label100 label101) ⟨66, s⟩
        ⟨if s.reg .r2 - 4 = 0 then 76 else 66, t⟩ ∧ t.mem = s.mem ∧ t.reg .r0 = s.reg .r0 ∧
      t.reg .r1 = s.reg .r1 + 4 ∧ t.reg .r2 = s.reg .r2 - 4 := by
  -- the word is loaded and tested
  have hload : Stretch (integ_run fcstab_32 label100 label101) 66
      [.ldrPost .r3 .r1 4, .tst .r3 (.reg .r3)] := Stretch.of_take rfl
  have hrun := Runs.ops out hload s
  generalize hu : List.foldl Op.apply s _ = u at hrun
  have hmem : u.mem = s.mem := by rw [← hu]; rfl
  have hr0 : u.reg .r0 = s.reg .r0 := by rw [← hu]; rfl
  have hr1 : u.reg .r1 = s.reg .r1 + 4 := by rw [← hu]; rfl
  have hr2 : u.reg .r2 = s.reg .r2 := by rw [← hu]; rfl
  have hz : u.z = true := by
    have hflag : u.z = decide (ArmWord.word s.mem (s.reg .r1).toNat &&&
        ArmWord.word s.mem (s.reg .r1).toNat = 0) := by rw [← hu]; rfl
    rw [hflag, hclear]
    rfl
  have hskip : step out (integ_run fcstab_32 label100 label101) ⟨68, u⟩ = some ⟨74, u⟩ := by
    have hcode : (integ_run fcstab_32 label100 label101)[68]? = some (.beq 74) := rfl
    simp only [step, hcode, hz, if_true]
  -- and the count goes down
  have hsub : Stretch (integ_run fcstab_32 label100 label101) 74 [.subs .r2 .r2 (.imm 4)] :=
    Stretch.of_take rfl
  have hrun' := Runs.ops out hsub u
  generalize hv : List.foldl Op.apply u _ = v at hrun'
  have hvz : v.z = decide (s.reg .r2 - 4 = 0) := by
    rw [← hv, ← hr2]
    rfl
  have hbranch : step out (integ_run fcstab_32 label100 label101) ⟨75, v⟩ =
      some ⟨if s.reg .r2 - 4 = 0 then 76 else 66, v⟩ := by
    have hcode : (integ_run fcstab_32 label100 label101)[75]? = some (.bne 66) := rfl
    simp only [step, hcode, hvz, decide_eq_true_eq]
  refine ⟨v, (hrun.trans (Runs.one hskip)).trans (hrun'.trans (Runs.one hbranch)), ?_, ?_, ?_, ?_⟩
  · rw [← hmem, ← hv]
    rfl
  · rw [← hr0, ← hv]
    rfl
  · rw [← hr1, ← hv]
    rfl
  · rw [← hr2, ← hv]
    rfl

theorem ofNat_words (n : Nat) : BitVec.ofNat 32 (4 * (n + 1)) = 4 + BitVec.ofNat 32 (4 * n) := by
  rw [Nat.mul_succ, Nat.add_comm, BitVec.ofNat_add]
  rfl

/-- The check of the microstack, from the label 7 with `n + 1` words to go: by induction
on `n`. -/
theorem microstack_runs (n : Nat) (hn : 4 * (n + 1) < 2 ^ 32) {s : State}
    (hcount : s.reg .r2 = .ofNat 32 (4 * (n + 1)))
    (hclear : ∀ i ≤ n, ArmWord.word s.mem (s.reg .r1 + .ofNat 32 (4 * i)).toNat = 0) :
    ∃ t, Runs out (integ_run fcstab_32 label100 label101) ⟨66, s⟩ ⟨76, t⟩ ∧ t.mem = s.mem ∧
      t.reg .r0 = s.reg .r0 := by
  have hleft : ∀ {s : State} {n : Nat}, s.reg .r2 = .ofNat 32 (4 * (n + 1)) →
      s.reg .r2 - 4 = .ofNat 32 (4 * n) := by
    intro s n h
    rw [h, ofNat_words, add_sub_cancel_left]
  have hfirst : ∀ {s : State} {n : Nat},
      (∀ i ≤ n, ArmWord.word s.mem (s.reg .r1 + .ofNat 32 (4 * i)).toNat = 0) →
      ArmWord.word s.mem (s.reg .r1).toNat = 0 := by
    intro s n h
    have h0 := h 0 (Nat.zero_le n)
    rwa [Nat.mul_zero, BitVec.add_zero] at h0
  induction n generalizing s with
  | zero =>
      obtain ⟨t, hrun, hmem, hr0, -, -⟩ := microstack_turn out fcstab_32 label100 label101
        (hfirst hclear)
      have hdone : s.reg .r2 - 4 = 0 := hleft hcount
      rw [if_pos hdone] at hrun
      exact ⟨t, hrun, hmem, hr0⟩
  | succ n ih =>
      obtain ⟨t, hrun, hmem, hr0, hr1, hr2⟩ := microstack_turn out fcstab_32 label100
        label101 (hfirst hclear)
      have hmore : s.reg .r2 - 4 ≠ 0 := by
        rw [hleft hcount]
        intro h
        have hnat := congrArg BitVec.toNat h
        rw [BitVec.toNat_ofNat, Nat.mod_eq_of_lt (by omega)] at hnat
        have hzero : 4 * (n + 1) = 0 := hnat
        omega
      rw [if_neg hmore] at hrun
      obtain ⟨u, hrun', hmem', hr0'⟩ := ih (by omega) (hr2.trans (hleft hcount)) fun i hi => by
        have hword := hclear (i + 1) (Nat.succ_le_succ hi)
        rwa [ofNat_words, ← BitVec.add_assoc, ← hr1, ← hmem] at hword
      exact ⟨u, hrun.trans hrun', hmem'.trans hmem, hr0'.trans hr0⟩

/-- From the label 6 on, with a clear microstack: `integ_chk` is called with a result of
zero. -/
theorem microstack_leave {s : State} (hp : MICROSTACK_SIZE.toNat ≤ (s.reg .r0).toNat)
    (hclear : ∀ x, (s.reg .r0).toNat - MICROSTACK_SIZE.toNat ≤ x → x < (s.reg .r0).toNat →
      s.mem x = 0) :
    ∃ t, Runs out (integ_run fcstab_32 label100 label101) ⟨64, s⟩ ⟨100, t⟩ ∧
      t.reg .r0 = s.reg .r0 ∧ t.reg .r1 = 0 := by
  have hsize : MICROSTACK_SIZE.toNat = 2048 := rfl
  -- the microstack
  have henter : Stretch (integ_run fcstab_32 label100 label101) 64
      [.add .r1 .r0 (.imm (-MICROSTACK_SIZE)), .mov .r2 (.imm MICROSTACK_SIZE)] := Stretch.of_take rfl
  have hrun := Runs.ops out henter s
  generalize hu : List.foldl Op.apply s _ = u at hrun
  have humem : u.mem = s.mem := by rw [← hu]; rfl
  have hur0 : u.reg .r0 = s.reg .r0 := by rw [← hu]; rfl
  have hur1 : u.reg .r1 = s.reg .r0 + -MICROSTACK_SIZE := by rw [← hu]; rfl
  have hur2 : u.reg .r2 = .ofNat 32 (4 * (511 + 1)) := by rw [← hu]; rfl
  have hwords : ∀ i ≤ 511, ArmWord.word u.mem (u.reg .r1 + .ofNat 32 (4 * i)).toNat = 0 := by
    intro i hi
    have haddr : (u.reg .r1 + BitVec.ofNat 32 (4 * i)).toNat = (s.reg .r0).toNat - 2048 + 4 * i := by
      have hlt := (s.reg .r0).isLt
      rw [hur1, MICROSTACK_SIZE]
      bv_omega
    have hread : read u.mem ((s.reg .r0).toNat - 2048 + 4 * i) 4 = [0, 0, 0, 0] := by
      rw [humem]
      have hbyte : ∀ k < 4, s.mem ((s.reg .r0).toNat - 2048 + 4 * i + k) = 0 :=
        fun k hk => hclear _ (by omega) (by omega)
      have hfour : ∀ a, read s.mem a 4 = [s.mem (a + 0), s.mem (a + 1), s.mem (a + 2), s.mem (a + 3)] :=
        fun a => rfl
      rw [hfour, hbyte 0 (by decide), hbyte 1 (by decide), hbyte 2 (by decide), hbyte 3 (by decide)]
    rw [haddr, ArmWord.word, hread]
    rfl
  obtain ⟨v, hrun', hvmem, hvr0⟩ := microstack_runs out fcstab_32 label100 label101 511 (by decide) hur2 hwords
  -- the hash of the header, which leaves for the label 10
  have henter' : Stretch (integ_run fcstab_32 label100 label101) 76 (crcEnter fcstab_32) :=
    Stretch.of_take rfl
  have hcrc : CrcAt (integ_run fcstab_32 label100 label101) (76 + 7) 96 :=
    ⟨Stretch.of_take rfl, rfl, Stretch.of_take rfl, rfl⟩
  obtain ⟨w, m, hrun'', -, -, hwr0, -⟩ := crc_whole out fcstab_32 henter' hcrc v
  have hleave : Stretch (integ_run fcstab_32 label100 label101) 96
      [.pop [.r4, .r5, .r6], .mov .r1 (.imm 0), .mov .sp (.reg .r0), .push [.r0, .r1]] :=
    Stretch.of_take rfl
  have hlast := Runs.ops out hleave w
  generalize ht : List.foldl Op.apply w _ = t at hlast
  refine ⟨t, ((hrun.trans hrun').trans hrun'').trans hlast, ?_, ?_⟩
  · rw [← hur0, ← hvr0, ← hwr0, ← ht]
    rfl
  · rw [← ht]
    rfl

/-- `integ_chk` is called with the pointer and `prechk`, behind the call of the payload in
the state `s`. -/
def Enters (out : Outside) (code : List Instr) (s : State) (ihdr prechk : ArmWord.Word) : Prop :=
  ∃ t, Runs out code ⟨52, s⟩ ⟨100, t⟩ ∧ t.reg .r0 = ihdr ∧ t.reg .r1 = prechk

/-- From the call of `integ_chk` on the listing has no branch. -/
theorem leave_step {c c' : Cpu} (hc : 100 ≤ c.pc)
    (hstep : step out (integ_run fcstab_32 label100 label101) c = some c') : c'.pc = c.pc + 1 := by
  obtain ⟨pc, s⟩ := c
  obtain ⟨k, rfl⟩ := Nat.exists_eq_add_of_le (show 100 ≤ pc from hc)
  rcases Nat.lt_or_ge k 6 with hk | hk
  · have hcases : k = 0 ∨ k = 1 ∨ k = 2 ∨ k = 3 ∨ k = 4 ∨ k = 5 := by omega
    rcases hcases with rfl | rfl | rfl | rfl | rfl | rfl
    · injection hstep with hstep
      rw [← hstep]
    · injection hstep with hstep
      rw [← hstep]
    · injection hstep with hstep
      rw [← hstep]
    · injection hstep with hstep
      rw [← hstep]
    · injection hstep with hstep
      rw [← hstep]
    · cases hstep
  · have hnone : (integ_run fcstab_32 label100 label101)[100 + k]? = none := by
      apply List.getElem?_eq_none
      show 106 ≤ 100 + k
      omega
    simp only [step, hnone] at hstep
    cases hstep

/-- The call of `integ_chk` is come to once. -/
theorem Enters.unique {s : State} {ihdr prechk prechk' : ArmWord.Word}
    (h : Enters out (integ_run fcstab_32 label100 label101) s ihdr prechk)
    (h' : Enters out (integ_run fcstab_32 label100 label101) s ihdr prechk') :
    prechk = prechk' := by
  obtain ⟨t, hrun, -, hr1⟩ := h
  obtain ⟨t', hrun', -, hr1'⟩ := h'
  have hafter : ∀ c c', 100 ≤ c.pc →
      step out (integ_run fcstab_32 label100 label101) c = some c' → 100 < c'.pc := by
    intro c c' hc hstep
    have hnext := leave_step out fcstab_32 label100 label101 hc hstep
    omega
  have heq := Runs.once hafter hrun hrun' rfl rfl
  obtain rfl : t = t' := (Cpu.mk.inj heq).2
  exact hr1.symm.trans hr1'

/-- A payload that is called in the state `s` leaves the copy of the pointer and the
microstack as they were. -/
structure Intact (out : Outside) (label100 label101 : ArmWord.Word) (s : State)
    (ihdr : ArmWord.Word) : Prop where
  copy : ArmWord.word (out.code (s.reg .r1) s).mem label100.toNat = ihdr
  hash : ArmWord.word (out.code (s.reg .r1) s).mem label101.toNat = ihdr * POINTER_FACTOR
  microstack : ∀ x, ihdr.toNat - MICROSTACK_SIZE.toNat ≤ x → x < ihdr.toNat →
    (out.code (s.reg .r1) s).mem x = 0

/-- Then `integ_chk` is called with a result of zero, whatever the header is. -/
theorem Intact.enters {s : State} {ihdr : ArmWord.Word} (h : Intact out label100 label101 s ihdr)
    (hp : MICROSTACK_SIZE.toNat ≤ ihdr.toNat) :
    Enters out (integ_run fcstab_32 label100 label101) s ihdr 0 := by
  have hcall : step out (integ_run fcstab_32 label100 label101) ⟨52, s⟩ =
      some ⟨53, out.code (s.reg .r1) s⟩ := rfl
  obtain ⟨t, hrun, hmem, hr0⟩ := pointer_runs out fcstab_32 label100 label101 h.copy h.hash
  obtain ⟨u, hrun', hur0, hur1⟩ := microstack_leave out fcstab_32 label100 label101
    (s := t) (by rwa [hr0]) (by
      rw [hr0, hmem]
      exact h.microstack)
  exact ⟨u, ((Runs.one hcall).trans hrun).trans hrun', hur0.trans hr0, hur1⟩

end Payload

/-! ## What is hashed -/

theorem word_store {s : State} {a v : ArmWord.Word} (ha : a.toNat + 4 ≤ 2 ^ 32) :
    ArmWord.word (s.store a v).mem a.toNat = v := by
  have hread := read_write (N := 2 ^ 32) (a := a.toNat) (b := leBytes 4 v.toNat) s.mem
    (by rwa [leBytes_length])
  rw [leBytes_length] at hread
  show BitVec.ofNat 32 (ofLe (read (write (2 ^ 32) s.mem a.toNat (leBytes 4 v.toNat)) a.toNat 4)) = v
  have hlt : v.toNat < 256 ^ 4 := v.isLt
  rw [hread, ofLe_leBytes, Nat.mod_eq_of_lt hlt, BitVec.ofNat_toNat, BitVec.setWidth_eq]

/-- The hash in front of the call of the payload is of `region_cap` bytes behind the 32
bytes from `f` on. -/
theorem self_hash_runs {s : State} {ihdr : ArmWord.Word} (hr0 : s.reg .r0 = ihdr)
    (hfit : ihdr.toNat + 4 ≤ 2 ^ 32) :
    ∃ t m, Runs out (integ_run fcstab_32 label100 label101) ⟨26, s⟩ ⟨42, t⟩ ∧
      (∀ x, x ∉ crcStack s → m x = s.mem x) ∧
      ArmWord.word t.mem ihdr.toNat =
        headerCrc m fcstab_32 ihdr (32 + ArmWord.word m (ihdr + 36).toNat).toNat := by
  have henter : Stretch (integ_run fcstab_32 label100 label101) 26 (crcEnter fcstab_32) :=
    Stretch.of_take rfl
  have hcrc : CrcAt (integ_run fcstab_32 label100 label101) (26 + 7) 41 :=
    ⟨Stretch.of_take rfl, rfl, Stretch.of_take rfl, rfl⟩
  obtain ⟨u, m, hrun, hmem, -, hur0, hur1⟩ := crc_whole out fcstab_32 henter hcrc s
  rw [hr0] at hur0 hur1
  have hstr : step out (integ_run fcstab_32 label100 label101) ⟨41, u⟩ =
      some ⟨42, u.store (u.reg .r0 + 0) (u.reg .r1)⟩ := rfl
  refine ⟨_, m, hrun.trans (Runs.one hstr), hmem, ?_⟩
  rw [hur0, add_zero, word_store hfit, hur1]

/-- The hash of `n` bytes of the header differs from the one stored before the call. -/
def Changed (out : Outside) (fcstab_32 : ArmWord.Word) (s : State) (ihdr : ArmWord.Word) (n : Nat) :
    Prop :=
  headerCrc (out.code (s.reg .r1) s).mem fcstab_32 ihdr n ≠ ArmWord.word s.mem ihdr.toNat

/-- Whatever payload changes the header, as long as it leaves the copy of the pointer and
the microstack: `integ_chk` is called with zero and not with 2. And the hash that is
stored is of 32 bytes and `region_cap` more, which are all regions only if there is room
for none. -/
theorem integ_run_unchecked {s : State} {ihdr : ArmWord.Word} {n : Nat}
    (hp : MICROSTACK_SIZE.toNat ≤ ihdr.toNat) (hfit : ihdr.toNat + 40 ≤ 2 ^ 32)
    (hintact : Intact out label100 label101 s ihdr) (hchanged : Changed out fcstab_32 s ihdr n) :
    ¬(Changed out fcstab_32 s ihdr n →
      Enters out (integ_run fcstab_32 label100 label101) s ihdr 2) ∧
    Enters out (integ_run fcstab_32 label100 label101) s ihdr 0 ∧
    ∀ u : State, u.reg .r0 = ihdr →
      ∃ t m, Runs out (integ_run fcstab_32 label100 label101) ⟨26, u⟩ ⟨42, t⟩ ∧
        (∀ x, x ∉ crcStack u → m x = u.mem x) ∧
        ∀ region_cap, ArmWord.word m (ihdr + 36).toNat = .ofNat 32 region_cap →
          ihdr.toNat + 40 + 16 * region_cap ≤ 2 ^ 32 →
          ArmWord.word t.mem ihdr.toNat = headerCrc m fcstab_32 ihdr (32 + region_cap) ∧
          (32 + 16 * region_cap ≤ 32 + region_cap ↔ region_cap = 0) := by
  have hzero := hintact.enters out fcstab_32 label100 label101 hp
  refine ⟨fun h => ?_, hzero, fun u hu => ?_⟩
  · have heq : (0 : ArmWord.Word) = 2 := hzero.unique out fcstab_32 label100 label101 (h hchanged)
    exact absurd heq (by decide)
  · obtain ⟨t, m, hrun, hmem, hword⟩ := self_hash_runs out fcstab_32 label100
      label101 hu (by omega)
    refine ⟨t, m, hrun, hmem, fun region_cap hcap hroom => ⟨?_, by omega⟩⟩
    have hlen : (32 + BitVec.ofNat 32 region_cap : ArmWord.Word).toNat = 32 + region_cap := by
      rw [BitVec.toNat_add, BitVec.toNat_ofNat, Nat.add_mod_mod]
      exact Nat.mod_eq_of_lt (by show 32 + region_cap < _; omega)
    rw [hword, hcap, hlen]

/-- The words of a memory with the labels at `0x9000`, the table at `0xa000`, and at
`0x20000` the header of a call of the payload at `0x8000`, with one region at most. The
stack is in use from `0x7f00` on. -/
def sampleWord (a : Nat) : Nat :=
  if a = 0x9000 then 0x20000
  else if a = 0x9004 then ((0x20000 : ArmWord.Word) * POINTER_FACTOR).toNat
  else if 0xa000 ≤ a ∧ a < 0xa400 then (Pup.crc32_tab.getD ((a - 0xa000) / 4) 0).toNat
  else if a < 0x20000 then 0
  else if a = 0x20000 then 669961821
  else if a = 0x20004 then 0x8100
  else if a = 0x20008 then 0x8000
  else if a = 0x20018 then 0x7f00
  else if a = 0x2001c then 0x7000
  else if a = 0x20024 then 1
  else 0

def sampleMemory : Memory := fun a => .ofNat (sampleWord (a / 4 * 4) / 256 ^ (a % 4))

/-- A payload that sets the flags of the header. -/
def flagPayload : Outside where
  routine := fun _ s => s
  code := fun _ s => { s with mem := Function.update s.mem 0x20014 1 }

/-- The call of the payload. -/
def sampleCall : State :=
  ⟨fun r => if r = .r1 then 0x8000 else if r = .sp then 0x7f00 else 0, false, 0, sampleMemory⟩

/-- The hash was right before. -/
example : headerCrc sampleMemory 0xa000 0x20000 33 = ArmWord.word sampleMemory 0x20000 := by
  decide +kernel

theorem sampleCall_intact : Intact flagPayload 0x9000 0x9004 sampleCall 0x20000 where
  copy := by decide +kernel
  hash := by decide +kernel
  microstack := by
    intro x hlow hhigh
    have hlow : 0x1f800 ≤ x := hlow
    have hhigh : x < 0x20000 := hhigh
    have hword : sampleWord (x / 4 * 4) = 0 := by
      rw [sampleWord, if_neg (by omega), if_neg (by omega), if_neg (by omega), if_pos (by omega)]
    show Function.update sampleMemory 0x20014 1 x = 0
    rw [Function.update_of_ne (by omega), sampleMemory, hword, Nat.zero_div]
    rfl

theorem sampleCall_changed : Changed flagPayload 0xa000 sampleCall 0x20000 33 := by
  show headerCrc (Function.update sampleMemory 0x20014 1) 0xa000 0x20000 33 ≠
    ArmWord.word sampleMemory 0x20000
  decide +kernel

theorem integ_run_unchecked_flags :
    ¬(Changed flagPayload 0xa000 sampleCall 0x20000 33 →
      Enters flagPayload (integ_run 0xa000 0x9000 0x9004) sampleCall 0x20000 2) ∧
    Enters flagPayload (integ_run 0xa000 0x9000 0x9004) sampleCall 0x20000 0 ∧
    ∀ u : State, u.reg .r0 = 0x20000 →
      ∃ t m, Runs flagPayload (integ_run 0xa000 0x9000 0x9004) ⟨26, u⟩ ⟨42, t⟩ ∧
        (∀ x, x ∉ crcStack u → m x = u.mem x) ∧
        ∀ region_cap, ArmWord.word m ((0x20000 : ArmWord.Word) + 36).toNat = .ofNat 32 region_cap →
          (0x20000 : ArmWord.Word).toNat + 40 + 16 * region_cap ≤ 2 ^ 32 →
          ArmWord.word t.mem (0x20000 : ArmWord.Word).toNat =
            headerCrc m 0xa000 0x20000 (32 + region_cap) ∧
          (32 + 16 * region_cap ≤ 32 + region_cap ↔ region_cap = 0) :=
  integ_run_unchecked _ _ _ _ (by decide) (by decide) sampleCall_intact sampleCall_changed

/-- The flags of the header are changed, and `integ_chk` is called with zero. -/
theorem integ_run_misses_flags :
    Changed flagPayload 0xa000 sampleCall 0x20000 33 ∧
    Enters flagPayload (integ_run 0xa000 0x9000 0x9004) sampleCall 0x20000 0 ∧
    ¬Enters flagPayload (integ_run 0xa000 0x9000 0x9004) sampleCall 0x20000 2 := by
  have hzero : Enters flagPayload (integ_run 0xa000 0x9000 0x9004) sampleCall 0x20000 0 :=
    sampleCall_intact.enters _ _ _ _ (by decide)
  refine ⟨sampleCall_changed, hzero, fun htwo => ?_⟩
  have heq : (0 : ArmWord.Word) = 2 := hzero.unique _ _ _ _ htwo
  exact absurd heq (by decide)

end Bcm2835.Integ

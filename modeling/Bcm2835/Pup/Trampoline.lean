import Bcm2835.Lib.Arm
import Bcm2835.Pup.BoardSpec

/-!
# The flat-binary stub (`trampolines/bin.bcm2835.S`)

The stub copies the relocation buffer to where the loader was, sixteen bytes at
a time and then four at a time, and branches to the image. Both loops count
down to an exact zero, so the stub leaves only if the size is a multiple of
four (`fine_loop_stays`). The copy that nothing branches to (`.slowreloc_copy`)
is not modelled.
-/

namespace Bcm2835.Pup

open Arm Mem

/-- The listing from `.fastreloc_copy` on. -/
def flatTrampoline : List Instr :=
  [ .mvn .r8 0x0f,                        --  0 .fastreloc_try_coarse
    .ands .r8 .r2 (.reg .r8),
    .beq 7,
    .ldmia .r1 [.r4, .r5, .r6, .r7],      --  3 .fastreloc_loop_coarse
    .stmia .r0 [.r4, .r5, .r6, .r7],
    .subs .r8 .r8 0x10,
    .bne 3,
    .ands .r8 .r2 (.imm 0x0f),            --  7 .fastreloc_try_fine
    .beq 13,
    .ldrPost .r4 .r1 4,                   --  9 .fastreloc_loop_fine
    .strPost .r4 .r0 4,
    .subs .r8 .r8 4,
    .bne 9,
    .b 14,                                -- 13 .fastreloc_done
    .mov .r4 0, .mcr .r4,                 -- 14 .clear_caches: _dsb
    .mov .r4 0, .mcr .r4,                 --    _cln_inv_dcache_entire
    .mov .r4 0, .mcr .r4,                 --    _inv_both_caches_entire
    .mov .r4 0, .mcr .r4,                 --    _btac_flush
    .mov .r4 0, .mcr .r4,                 --    _prefetch_flush
    .mov .r4 0, .mcr .r4,                 --    _dsb
    .bx .r3 ]                             -- 26 .jump_to_loaded_program

/-- The stub calls nothing. -/
abbrev FlatStep (c : Cpu) : Option Cpu := step (fun _ c => c) flatTrampoline c

abbrev FlatRuns : Cpu → Cpu → Prop := Runs (fun _ c => c) flatTrampoline

/-- The state in which `trampoline` enters the stub. -/
structure Board.EntersStub (b : Board) (c : Cpu) : Prop where
  pc : c.pc = 0
  r0 : c.reg .r0 = b.reloc.tgt_start
  r1 : c.reg .r1 = b.reloc.buf_start
  r2 : c.reg .r2 = b.reloc.size
  r3 : c.reg .r3 = b.img_start
  log : c.log = []

/-! ## The copy -/

/-- `k` bytes have been copied from `buf` to `tgt`. -/
structure Copied (tgt buf size dest : Nat) (m : Memory) (k : Nat) (c : Cpu) : Prop where
  r0 : c.reg .r0 = tgt + k
  r1 : c.reg .r1 = buf + k
  r2 : c.reg .r2 = size
  r3 : c.reg .r3 = dest
  mem : c.mem = write (2 ^ 32) m tgt (read m buf k)
  log : ∀ a, a ∈ c.log ↔ ∃ i, 4 * i < k ∧ (a = .load (buf + 4 * i) ∨ a = .store (tgt + 4 * i))

section Copy

variable {tgt buf size dest : Nat} {m : Memory} {k n : Nat} {c c' : Cpu}

/-- Copying `n` more words: read before they are written, one access each way. -/
theorem Copied.words (h : Copied tgt buf size dest m k c) (hk : k % 4 = 0)
    (hfit : buf + k ≤ 2 ^ 32) (hapart : tgt + k ≤ buf)
    (h0 : c'.reg .r0 = tgt + (k + 4 * n)) (h1 : c'.reg .r1 = buf + (k + 4 * n))
    (h2 : c'.reg .r2 = c.reg .r2) (h3 : c'.reg .r3 = c.reg .r3)
    (hmem : c'.mem = write (2 ^ 32) c.mem (tgt + k) (read c.mem (buf + k) (4 * n)))
    {l : List Access} (hlog : c'.log = c.log ++ l)
    (hnew : ∀ a, a ∈ l ↔ ∃ i < n, a = .load (buf + k + 4 * i) ∨ a = .store (tgt + k + 4 * i)) :
    Copied tgt buf size dest m (k + 4 * n) c' := by
  refine ⟨h0, h1, h2.trans h.r2, h3.trans h.r3, ?_, ?_⟩
  · have hread : read c.mem (buf + k) (4 * n) = read m (buf + k) (4 * n) := by
      rw [h.mem]
      exact read_write_of_apart m (by rw [read_length]; omega) (by rw [read_length]; omega)
    rw [hmem, hread, h.mem, read_add, write_append, read_length]
  · intro a
    rw [hlog, List.mem_append, h.log a, hnew a]
    have hshift : ∀ (b i : Nat), b + k + 4 * i = b + 4 * (k / 4 + i) := by omega
    simp only [hshift]
    constructor
    · rintro (⟨i, hi, ha⟩ | ⟨i, hi, ha⟩)
      · exact ⟨i, by omega, ha⟩
      · exact ⟨k / 4 + i, by omega, ha⟩
    · rintro ⟨i, hi, ha⟩
      by_cases hlt : 4 * i < k
      · exact .inl ⟨i, hlt, ha⟩
      · refine .inr ⟨i - k / 4, by omega, ?_⟩
        rwa [show k / 4 + (i - k / 4) = i by omega]

/-- The end of a turn of either loop: count down, and go back unless that gave zero. -/
theorem count_down {p head j : Nat} (hpc : c.pc = p)
    (hsubs : flatTrampoline[p]? = some (.subs .r8 .r8 n))
    (hbne : flatTrampoline[p + 1]? = some (.bne head)) (hn : 0 < n)
    (h8 : c.reg .r8 = n * (j + 1)) (hlt : n * (j + 1) < 2 ^ 32) :
    ∃ c', FlatRuns c c' ∧ c'.pc = (if j = 0 then p + 2 else head) ∧
      c'.reg = Function.update c.reg .r8 (n * j) ∧ c'.mem = c.mem ∧ c'.log = c.log := by
  have hdiff : (c.reg .r8 + 2 ^ 32 - n) % 2 ^ 32 = n * j := by
    rw [h8, Nat.mul_succ, show n * j + n + 2 ^ 32 - n = n * j + 2 ^ 32 by omega,
      Nat.add_mod_right]
    exact Nat.mod_eq_of_lt (by rw [Nat.mul_succ] at hlt; omega)
  have hfirst : FlatStep c = some ((c.set .r8 (n * j)).flag (n * j)).next := by
    rw [FlatStep, step_at hpc hsubs, exec, hdiff]
  by_cases hj : j = 0
  · refine ⟨((c.set .r8 (n * j)).flag (n * j)).next.next, ?_, ?_, rfl, rfl, rfl⟩
    · refine .head hfirst (.head ?_ (.refl _))
      rw [step_at (by simp [hpc]) hbne]
      simp [exec, hj]
    · simp [hj, hpc]
  · have hne : n * j ≠ 0 := Nat.mul_ne_zero (by omega) hj
    refine ⟨((c.set .r8 (n * j)).flag (n * j)).next.jump head, ?_, ?_, rfl, rfl, rfl⟩
    · refine .head hfirst (.head ?_ (.refl _))
      rw [step_at (by simp [hpc]) hbne]
      simp [exec, hne]
    · simp [hj]

/-- Counting down copies nothing. -/
theorem Copied.counted (h : Copied tgt buf size dest m k c)
    (hreg : c'.reg = Function.update c.reg .r8 n) (hmem : c'.mem = c.mem) (hlog : c'.log = c.log) :
    Copied tgt buf size dest m k c' := by
  refine ⟨?_, ?_, ?_, ?_, by rw [hmem, h.mem], by rw [hlog]; exact h.log⟩
  · simpa [hreg] using h.r0
  · simpa [hreg] using h.r1
  · simpa [hreg] using h.r2
  · simpa [hreg] using h.r3

/-- The load and the store of the coarse loop. -/
theorem loop_coarse_words (h : Copied tgt buf size dest m k c) (hpc : c.pc = 3) (hk : k % 4 = 0)
    (hbuf : buf + k + 16 < 2 ^ 32) (hapart : tgt + k + 16 ≤ buf) :
    ∃ c', FlatRuns c c' ∧ Copied tgt buf size dest m (k + 4 * 4) c' ∧ c'.pc = 5 ∧
      c'.reg .r8 = c.reg .r8 := by
  have h0 := h.r0
  have h1 := h.r1
  let c₁ := ((c.loads [.r4, .r5, .r6, .r7] (c.reg .r1)).set .r1 ((c.reg .r1 + 16) % 2 ^ 32)).next
  let c₂ := ((c₁.stores [.r4, .r5, .r6, .r7] (c₁.reg .r0)).set .r0 ((c₁.reg .r0 + 16) % 2 ^ 32)).next
  have hpc₁ : c₁.pc = 4 := by simp [c₁, hpc]
  have h0₁ : c₁.reg .r0 = tgt + k := by simp [c₁, h0]
  have hmem : c₂.mem = write (2 ^ 32) c.mem (tgt + k) (read c.mem (buf + k) (4 * 4)) := by
    have hword : ∀ a, Bytes.leBytes 4 (c.word a) = read c.mem a 4 := c.leBytes_word
    show (c₁.stores [.r4, .r5, .r6, .r7] (c₁.reg .r0)).mem = _
    rw [h0₁, ← h1, show 4 * 4 = 4 + (4 + (4 + 4)) from rfl, read_add, read_add, read_add,
      write_append, write_append, write_append]
    simp [c₁, Cpu.store_mem, hword]
  refine ⟨c₂, ?_, ?_, ?_, ?_⟩
  · exact .head (step_at (i := .ldmia .r1 [.r4, .r5, .r6, .r7]) hpc rfl) <|
      .head (step_at (i := .stmia .r0 [.r4, .r5, .r6, .r7]) hpc₁ rfl) (.refl c₂)
  · refine h.words hk (by omega) (by omega) ?_ ?_ ?_ ?_ hmem
      (l := [.load (buf + k), .load (buf + k + 4), .load (buf + k + 8), .load (buf + k + 12),
        .store (tgt + k), .store (tgt + k + 4), .store (tgt + k + 8), .store (tgt + k + 12)]) ?_ ?_
    · simp [c₂, c₁, h0]
      omega
    · simp [c₂, c₁, h1]
      omega
    · simp [c₂, c₁]
    · simp [c₂, c₁]
    · simp [c₂, c₁, h0, h1]
    · intro a
      simp only [List.mem_cons, List.not_mem_nil, or_false]
      constructor
      · rintro (rfl | rfl | rfl | rfl | rfl | rfl | rfl | rfl)
        · exact ⟨0, by omega, .inl rfl⟩
        · exact ⟨1, by omega, .inl rfl⟩
        · exact ⟨2, by omega, .inl rfl⟩
        · exact ⟨3, by omega, .inl rfl⟩
        · exact ⟨0, by omega, .inr rfl⟩
        · exact ⟨1, by omega, .inr rfl⟩
        · exact ⟨2, by omega, .inr rfl⟩
        · exact ⟨3, by omega, .inr rfl⟩
      · rintro ⟨i, hi, ha⟩
        interval_cases i <;> rcases ha with rfl | rfl <;> simp
  · simp [c₂, hpc₁]
  · simp [c₂, c₁]

/-- The load and the store of the fine loop. -/
theorem loop_fine_word (h : Copied tgt buf size dest m k c) (hpc : c.pc = 9) (hk : k % 4 = 0)
    (hbuf : buf + k + 4 < 2 ^ 32) (hapart : tgt + k + 4 ≤ buf) :
    ∃ c', FlatRuns c c' ∧ Copied tgt buf size dest m (k + 4 * 1) c' ∧ c'.pc = 11 ∧
      c'.reg .r8 = c.reg .r8 := by
  have h0 := h.r0
  have h1 := h.r1
  let c₁ := ((c.load .r4 (c.reg .r1)).set .r1 ((c.reg .r1 + 4) % 2 ^ 32)).next
  let c₂ := ((c₁.store .r4 (c₁.reg .r0)).set .r0 ((c₁.reg .r0 + 4) % 2 ^ 32)).next
  have hpc₁ : c₁.pc = 10 := by simp [c₁, hpc]
  have h0₁ : c₁.reg .r0 = tgt + k := by simp [c₁, h0]
  have hmem : c₂.mem = write (2 ^ 32) c.mem (tgt + k) (read c.mem (buf + k) (4 * 1)) := by
    show write (2 ^ 32) c.mem (c₁.reg .r0) (Bytes.leBytes 4 (c₁.reg .r4)) = _
    rw [h0₁, ← h1, Nat.mul_one, ← c.leBytes_word]
    simp [c₁]
  refine ⟨c₂, ?_, ?_, ?_, ?_⟩
  · exact .head (step_at (i := .ldrPost .r4 .r1 4) hpc rfl) <|
      .head (step_at (i := .strPost .r4 .r0 4) hpc₁ rfl) (.refl c₂)
  · refine h.words hk (by omega) (by omega) ?_ ?_ ?_ ?_ hmem
      (l := [.load (buf + k), .store (tgt + k)]) ?_ ?_
    · simp [c₂, c₁, h0]
      omega
    · simp [c₂, c₁, h1]
      omega
    · simp [c₂, c₁]
    · simp [c₂, c₁]
    · simp [c₂, c₁, h0, h1]
    · intro a
      simp only [List.mem_cons, List.not_mem_nil, or_false]
      constructor
      · rintro (rfl | rfl)
        · exact ⟨0, by omega, .inl rfl⟩
        · exact ⟨0, by omega, .inr rfl⟩
      · rintro ⟨i, hi, ha⟩
        interval_cases i
        simpa using ha
  · simp [c₂, hpc₁]
  · simp [c₂, c₁]

/-- The coarse loop runs down to zero. -/
theorem loop_coarse (h : Copied tgt buf size dest m k c) (hpc : c.pc = 3) (hk : k % 4 = 0) {j : Nat}
    (h8 : c.reg .r8 = 16 * (j + 1)) (hbuf : buf + k + 16 * (j + 1) < 2 ^ 32)
    (hapart : tgt + k + 16 * (j + 1) ≤ buf) :
    ∃ c', FlatRuns c c' ∧ Copied tgt buf size dest m (k + 16 * (j + 1)) c' ∧ c'.pc = 7 := by
  induction j generalizing k c with
  | zero =>
      obtain ⟨c₁, hrun, hcopied, hpc₁, h8₁⟩ := loop_coarse_words h hpc hk (by omega) (by omega)
      obtain ⟨c₂, hrun', hpc₂, hreg, hmem, hlog⟩ :=
        count_down hpc₁ rfl rfl (by decide) (h8₁.trans h8) (by omega)
      exact ⟨c₂, hrun.trans hrun', hcopied.counted hreg hmem hlog, hpc₂⟩
  | succ j ih =>
      obtain ⟨c₁, hrun, hcopied, hpc₁, h8₁⟩ := loop_coarse_words h hpc hk (by omega) (by omega)
      obtain ⟨c₂, hrun', hpc₂, hreg, hmem, hlog⟩ :=
        count_down hpc₁ rfl rfl (by decide) (h8₁.trans h8) (by omega)
      obtain ⟨c₃, hrun'', hcopied', hpc₃⟩ := ih (hcopied.counted hreg hmem hlog) hpc₂ (by omega)
        (by simp [hreg]) (by omega) (by omega)
      refine ⟨c₃, hrun.trans (hrun'.trans hrun''), ?_, hpc₃⟩
      rwa [show k + 4 * 4 + 16 * (j + 1) = k + 16 * (j + 1 + 1) by omega] at hcopied'

/-- The fine loop runs down to zero. -/
theorem loop_fine (h : Copied tgt buf size dest m k c) (hpc : c.pc = 9) (hk : k % 4 = 0) {j : Nat}
    (h8 : c.reg .r8 = 4 * (j + 1)) (hbuf : buf + k + 4 * (j + 1) < 2 ^ 32)
    (hapart : tgt + k + 4 * (j + 1) ≤ buf) :
    ∃ c', FlatRuns c c' ∧ Copied tgt buf size dest m (k + 4 * (j + 1)) c' ∧ c'.pc = 13 := by
  induction j generalizing k c with
  | zero =>
      obtain ⟨c₁, hrun, hcopied, hpc₁, h8₁⟩ := loop_fine_word h hpc hk (by omega) (by omega)
      obtain ⟨c₂, hrun', hpc₂, hreg, hmem, hlog⟩ :=
        count_down hpc₁ rfl rfl (by decide) (h8₁.trans h8) (by omega)
      exact ⟨c₂, hrun.trans hrun', hcopied.counted hreg hmem hlog, hpc₂⟩
  | succ j ih =>
      obtain ⟨c₁, hrun, hcopied, hpc₁, h8₁⟩ := loop_fine_word h hpc hk (by omega) (by omega)
      obtain ⟨c₂, hrun', hpc₂, hreg, hmem, hlog⟩ :=
        count_down hpc₁ rfl rfl (by decide) (h8₁.trans h8) (by omega)
      obtain ⟨c₃, hrun'', hcopied', hpc₃⟩ := ih (hcopied.counted hreg hmem hlog) hpc₂ (by omega)
        (by simp [hreg]) (by omega) (by omega)
      refine ⟨c₃, hrun.trans (hrun'.trans hrun''), ?_, hpc₃⟩
      rwa [show k + 4 * 1 + 4 * (j + 1) = k + 4 * (j + 1 + 1) by omega] at hcopied'

/-- The head of the stub: the coarse loop, or straight to the fine part. -/
theorem try_coarse (h : Copied tgt buf size dest m 0 c) (hpc : c.pc = 0) (hsize : size < 2 ^ 32) :
    ∃ c', FlatRuns c c' ∧ Copied tgt buf size dest m 0 c' ∧ c'.reg .r8 = size / 16 * 16 ∧
      c'.pc = if size / 16 = 0 then 7 else 3 := by
  let c₁ := (c.set .r8 (2 ^ 32 - 1 - 0x0f)).next
  have hpc₁ : c₁.pc = 1 := by simp [c₁, hpc]
  have hand : c₁.reg .r2 &&& c₁.value (.reg .r8) = size / 16 * 16 := by
    rw [← and_mask_high hsize]
    simp [c₁, h.r2]
  let c₂ := ((c₁.set .r8 (size / 16 * 16)).flag (size / 16 * 16)).next
  have hpc₂ : c₂.pc = 2 := by simp [c₂, hpc₁]
  have hsecond : FlatStep c₁ = some c₂ := by
    rw [FlatStep, step_at (i := .ands .r8 .r2 (.reg .r8)) hpc₁ rfl, exec, hand]
  have hcopied : Copied tgt buf size dest m 0 c₂ := by
    refine ⟨?_, ?_, ?_, ?_, h.mem, h.log⟩
    · simpa [c₂, c₁] using h.r0
    · simpa [c₂, c₁] using h.r1
    · simpa [c₂, c₁] using h.r2
    · simpa [c₂, c₁] using h.r3
  have hstart : FlatRuns c c₂ :=
    .head (step_at (i := .mvn .r8 0x0f) hpc rfl) (.head hsecond (.refl c₂))
  have hthird : FlatStep c₂ = some (if c₂.z then c₂.jump 7 else c₂.next) :=
    step_at (i := .beq 7) hpc₂ rfl
  by_cases hzero : size / 16 = 0
  · rw [show c₂.z = true by simp [c₂, hzero], if_pos rfl] at hthird
    exact ⟨c₂.jump 7, hstart.trans (.head hthird (.refl _)),
      ⟨hcopied.r0, hcopied.r1, hcopied.r2, hcopied.r3, hcopied.mem, hcopied.log⟩,
      by simp [c₂], by simp [hzero]⟩
  · rw [show c₂.z = false by simp [c₂, hzero], if_neg (by decide)] at hthird
    exact ⟨c₂.next, hstart.trans (.head hthird (.refl _)),
      ⟨hcopied.r0, hcopied.r1, hcopied.r2, hcopied.r3, hcopied.mem, hcopied.log⟩,
      by simp [c₂], by simp [hzero, hpc₂]⟩

/-- Behind the coarse loop: the fine loop, or the end. -/
theorem try_fine (h : Copied tgt buf size dest m k c) (hpc : c.pc = 7) :
    ∃ c', FlatRuns c c' ∧ Copied tgt buf size dest m k c' ∧ c'.reg .r8 = size % 16 ∧
      c'.pc = if size % 16 = 0 then 13 else 9 := by
  have hand : c.reg .r2 &&& c.value (.imm 0x0f) = size % 16 := by
    rw [h.r2, Cpu.value_imm, and_mask_low]
  let c₁ := ((c.set .r8 (size % 16)).flag (size % 16)).next
  have hpc₁ : c₁.pc = 8 := by simp [c₁, hpc]
  have hfirst : FlatStep c = some c₁ := by
    rw [FlatStep, step_at (i := .ands .r8 .r2 (.imm 0x0f)) hpc rfl, exec, hand]
  have hcopied : Copied tgt buf size dest m k c₁ := h.counted rfl rfl rfl
  have hsecond : FlatStep c₁ = some (if c₁.z then c₁.jump 13 else c₁.next) :=
    step_at (i := .beq 13) hpc₁ rfl
  by_cases hzero : size % 16 = 0
  · rw [show c₁.z = true by simp [c₁, hzero], if_pos rfl] at hsecond
    exact ⟨c₁.jump 13, .head hfirst (.head hsecond (.refl _)),
      ⟨hcopied.r0, hcopied.r1, hcopied.r2, hcopied.r3, hcopied.mem, hcopied.log⟩,
      by simp [c₁], by simp [hzero]⟩
  · rw [show c₁.z = false by simp [c₁, hzero], if_neg (by decide)] at hsecond
    exact ⟨c₁.next, .head hfirst (.head hsecond (.refl _)),
      ⟨hcopied.r0, hcopied.r1, hcopied.r2, hcopied.r3, hcopied.mem, hcopied.log⟩,
      by simp [c₁], by simp [hzero, hpc₁]⟩

/-- One `mov r4, #0` with the `mcr` behind it. -/
theorem cache_pair {p : Nat} (h : Copied tgt buf size dest m k c) (hpc : c.pc = p)
    (hmov : flatTrampoline[p]? = some (.mov .r4 0))
    (hmcr : flatTrampoline[p + 1]? = some (.mcr .r4)) :
    ∃ c', FlatRuns c c' ∧ Copied tgt buf size dest m k c' ∧ c'.pc = p + 2 := by
  refine ⟨(c.set .r4 0).next.next, ?_, ⟨?_, ?_, ?_, ?_, h.mem, h.log⟩, by simp [hpc]⟩
  · exact .head (step_at hpc hmov) (.head (step_at (by simp [hpc]) hmcr) (.refl _))
  · simpa using h.r0
  · simpa using h.r1
  · simpa using h.r2
  · simpa using h.r3

/-- The end of the stub, up to the branch to the image. -/
theorem postreloc (h : Copied tgt buf size dest m k c) (hpc : c.pc = 13) :
    ∃ c', FlatRuns c c' ∧ Copied tgt buf size dest m k c' ∧ c'.pc = 26 := by
  have hjump : Copied tgt buf size dest m k (c.jump 14) := ⟨h.r0, h.r1, h.r2, h.r3, h.mem, h.log⟩
  obtain ⟨c₁, hrun₁, h₁, hpc₁⟩ := cache_pair hjump rfl rfl rfl
  obtain ⟨c₂, hrun₂, h₂, hpc₂⟩ := cache_pair h₁ hpc₁ rfl rfl
  obtain ⟨c₃, hrun₃, h₃, hpc₃⟩ := cache_pair h₂ hpc₂ rfl rfl
  obtain ⟨c₄, hrun₄, h₄, hpc₄⟩ := cache_pair h₃ hpc₃ rfl rfl
  obtain ⟨c₅, hrun₅, h₅, hpc₅⟩ := cache_pair h₄ hpc₄ rfl rfl
  obtain ⟨c₆, hrun₆, h₆, hpc₆⟩ := cache_pair h₅ hpc₅ rfl rfl
  refine ⟨c₆, ?_, h₆, hpc₆⟩
  exact .head (step_at (i := .b 14) hpc rfl) <|
    hrun₁.trans <| hrun₂.trans <| hrun₃.trans <| hrun₄.trans <| hrun₅.trans hrun₆

/-- A size that is a multiple of four is copied, and the stub gets to its last
instruction. -/
theorem stub_copies (h : Copied tgt buf size dest m 0 c) (hpc : c.pc = 0) (hsize : size % 4 = 0)
    (hbuf : buf + size < 2 ^ 32) (hapart : tgt + size ≤ buf) :
    ∃ c', FlatRuns c c' ∧ Copied tgt buf size dest m size c' ∧ c'.pc = 26 := by
  obtain ⟨c₁, hrun₁, h₁, h8₁, hpc₁⟩ := try_coarse h hpc (by omega)
  have hcoarse : ∃ c', FlatRuns c₁ c' ∧ Copied tgt buf size dest m (size / 16 * 16) c' ∧
      c'.pc = 7 := by
    by_cases hzero : size / 16 = 0
    · rw [if_pos hzero] at hpc₁
      rw [hzero]
      exact ⟨c₁, .refl _, h₁, hpc₁⟩
    · rw [if_neg hzero] at hpc₁
      obtain ⟨j, hj⟩ := Nat.exists_eq_add_one_of_ne_zero hzero
      have hend : size / 16 * 16 = 0 + 16 * (j + 1) := by omega
      rw [hend]
      exact loop_coarse h₁ hpc₁ rfl (by omega) (by omega) (by omega)
  obtain ⟨c₂, hrun₂, h₂, hpc₂⟩ := hcoarse
  obtain ⟨c₃, hrun₃, h₃, h8₃, hpc₃⟩ := try_fine h₂ hpc₂
  have hfine : ∃ c', FlatRuns c₃ c' ∧ Copied tgt buf size dest m size c' ∧ c'.pc = 13 := by
    by_cases hzero : size % 16 = 0
    · rw [if_pos hzero] at hpc₃
      rw [show size / 16 * 16 = size by omega] at h₃
      exact ⟨c₃, .refl _, h₃, hpc₃⟩
    · rw [if_neg hzero] at hpc₃
      obtain ⟨j, hj⟩ : ∃ j, size % 16 = 4 * (j + 1) := ⟨size % 16 / 4 - 1, by omega⟩
      have hloop := loop_fine h₃ hpc₃ (by omega) (h8₃.trans hj) (by omega) (by omega)
      rwa [show size / 16 * 16 + 4 * (j + 1) = size by omega] at hloop
  obtain ⟨c₄, hrun₄, h₄, hpc₄⟩ := hfine
  obtain ⟨c₅, hrun₅, h₅, hpc₅⟩ := postreloc h₄ hpc₄
  exact ⟨c₅, hrun₁.trans <| hrun₂.trans <| hrun₃.trans <| hrun₄.trans hrun₅, h₅, hpc₅⟩

end Copy

/-! ## Sizes that are no multiple of four -/

/-- In or before the fine loop, with a count that never becomes zero. -/
structure Stays (size : Nat) (c : Cpu) : Prop where
  r2 : c.reg .r2 = size
  pc : c.pc ≤ 12
  count : 8 ≤ c.pc → c.reg .r8 % 4 ≠ 0
  test : c.pc = 8 ∨ c.pc = 12 → c.z = false

/-- The count changes by multiples of four, modulo a multiple of four. -/
theorem fine_loop_stays {size : Nat} (hsize : size % 4 ≠ 0) {c c' : Cpu} (h : Stays size c)
    (hstep : FlatStep c = some c') : Stays size c' := by
  have h2 := h.r2
  have hle := h.pc
  have hcount := h.count
  have htest := h.test
  have hcode : ∀ n i, c.pc = n → flatTrampoline[n]? = some i →
      exec (fun _ c => c) c i = some c' := by
    intro n i hpc hi
    rw [← hstep, FlatStep, step_at hpc hi]
  obtain ⟨n, hpc⟩ : ∃ n, c.pc = n := ⟨_, rfl⟩
  rw [hpc] at hle hcount htest
  interval_cases n
  · cases hcode 0 _ hpc rfl
    exact ⟨by simpa using h2, by simp [hpc], by simp [hpc], by simp [hpc]⟩
  · cases hcode 1 _ hpc rfl
    exact ⟨by simpa using h2, by simp [hpc], by simp [hpc], by simp [hpc]⟩
  · cases hcode 2 _ hpc rfl
    split <;> exact ⟨by simpa using h2, by simp [hpc], by simp [hpc], by simp [hpc]⟩
  · cases hcode 3 _ hpc rfl
    exact ⟨by simpa using h2, by simp [hpc], by simp [hpc], by simp [hpc]⟩
  · cases hcode 4 _ hpc rfl
    exact ⟨by simpa using h2, by simp [hpc], by simp [hpc], by simp [hpc]⟩
  · cases hcode 5 _ hpc rfl
    exact ⟨by simpa using h2, by simp [hpc], by simp [hpc], by simp [hpc]⟩
  · cases hcode 6 _ hpc rfl
    split <;> exact ⟨by simpa using h2, by simp [hpc], by simp [hpc], by simp [hpc]⟩
  · -- the count of the fine loop is set
    cases hcode 7 _ hpc rfl
    have hand : c.reg .r2 &&& c.value (.imm 0x0f) = size % 16 := by
      rw [h2, Cpu.value_imm, and_mask_low]
    refine ⟨by simpa using h2, by simp [hpc], fun _ => ?_, fun _ => ?_⟩
    · simp only [hand, Cpu.next_reg, Cpu.flag_reg, Cpu.set_reg, Function.update_self]
      omega
    · simp only [hand, Cpu.next_z, Cpu.flag_z]
      exact decide_eq_false (by omega)
  · cases hcode 8 _ hpc rfl
    rw [htest (.inl rfl)]
    exact ⟨h2, by simp [hpc], fun _ => hcount (by decide), by simp [hpc]⟩
  · cases hcode 9 _ hpc rfl
    exact ⟨by simpa using h2, by simp [hpc], fun _ => by simpa using hcount (by decide),
      by simp [hpc]⟩
  · cases hcode 10 _ hpc rfl
    exact ⟨by simpa using h2, by simp [hpc], fun _ => by simpa using hcount (by decide),
      by simp [hpc]⟩
  · -- it is counted down
    cases hcode 11 _ hpc rfl
    have hne : (c.reg .r8 + 2 ^ 32 - 4) % 2 ^ 32 % 4 ≠ 0 := by
      have := hcount (by decide)
      omega
    refine ⟨by simpa using h2, by simp [hpc], fun _ => ?_, fun _ => ?_⟩
    · simpa using hne
    · simp only [Cpu.next_z, Cpu.flag_z]
      exact decide_eq_false (by omega)
  · cases hcode 12 _ hpc rfl
    rw [htest (.inr rfl)]
    exact ⟨h2, by simp, fun _ => hcount (by decide), by simp⟩

/-- Such a run never branches to the image. -/
theorem stub_never_leaves {size : Nat} (hsize : size % 4 ≠ 0) {c c' : Cpu} (hpc : c.pc = 0)
    (h2 : c.reg .r2 = size) (hrun : FlatRuns c c') (target : Nat) :
    ¬LeavesTo flatTrampoline c' target := by
  have hstays : Stays size c' :=
    hrun.invariant (fun _ _ h hstep => fine_loop_stays hsize h hstep)
      ⟨h2, by omega, by omega, by omega⟩
  rintro ⟨r, hcode, -⟩
  have hle := hstays.pc
  generalize c'.pc = n at hcode hle
  interval_cases n <;> simp [flatTrampoline] at hcode

end Bcm2835.Pup

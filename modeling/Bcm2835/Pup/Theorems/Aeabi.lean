import Bcm2835.Pup.AeabiSpec
import Bcm2835.Pup.Theorems.ElfStub

/-!
# The stub with the routines it is built with

`aeabi_memmove_moves` and `aeabi_memset_sets` say what the two routines of the library do, and
that they keep to the rules for calls. With them nothing is left open about the stub:
`safe_upload_boots` is about the code that is in the image.
-/

namespace Bcm2835.Pup

open Arm (Reg)
open ArmCond Mem FirstFit

section Calls

variable {code : List Instr} {fuel : Nat} {c : Arm.Cpu} {c' : Cpu}

/-- A run that is about to return is the whole call. -/
theorem callRoutine_eq {n ret : Nat} (h : Within code n (entering c) c')
    (hret : Returning code c' ret) (hfuel : n ≤ fuel) :
    run code fuel (entering c) = c' ∧ (callRoutine code fuel c).reg = c'.state.reg ∧
      (callRoutine code fuel c).mem = c'.state.mem := by
  have hrun := h.run_eq hret hfuel
  exact ⟨hrun, by rw [callRoutine, hrun], by rw [callRoutine, hrun]⟩

end Calls

/-! ## `__aeabi_memmove` -/

section Move

variable {c : Arm.Cpu}

theorem aeabi_memmove_run (hwords : Words c) (hdst : c.reg .r0 + c.reg .r2 ≤ 2 ^ 32)
    (hsrc : c.reg .r1 + c.reg .r2 ≤ 2 ^ 32) :
    ∃ c', run aeabi_memmove_arm (4 * c.reg .r2 + 10) (entering c) = c' ∧
      Returning aeabi_memmove_arm c' (c.reg .lr) ∧
      (aeabi_memmove c).mem = move c.mem (c.reg .r0) (c.reg .r1) (c.reg .r2) := by
  obtain ⟨c', hwithin, hret, hmem⟩ := memmove_run (s := (entering c).state) hwords hdst hsrc
  obtain ⟨hrun, -, hmem'⟩ := callRoutine_eq hwithin hret (Nat.le_refl _)
  exact ⟨c', hrun, hret, hmem'.trans hmem⟩

/-- The rules for calls are kept whatever is moved. -/
theorem aeabi_memmove_returns (hwords : Words c) : ReturnsTo c (aeabi_memmove c) := by
  refine ⟨rfl, fun r hr => ?_, run_words (c := entering c) (by decide) _ hwords, rfl⟩
  refine run_reg (c := entering c) ?_ _
  rcases hr with rfl | rfl | rfl | rfl | rfl | rfl | rfl | rfl | rfl <;> decide

/-- Blocks that do not run over the end of the address space are moved, however they overlap. -/
theorem aeabi_memmove_moves (c : Arm.Cpu) (hwords : Words c) (hdst : c.reg .r0 + c.reg .r2 ≤ 2 ^ 32)
    (hsrc : c.reg .r1 + c.reg .r2 ≤ 2 ^ 32) :
    Returning aeabi_memmove_arm (run aeabi_memmove_arm (4 * c.reg .r2 + 10) (entering c)) (c.reg .lr) ∧
      ReturnsTo c (aeabi_memmove c) ∧
      (aeabi_memmove c).mem = move c.mem (c.reg .r0) (c.reg .r1) (c.reg .r2) := by
  obtain ⟨c', rfl, hret, hmem⟩ := aeabi_memmove_run hwords hdst hsrc
  exact ⟨hret, aeabi_memmove_returns hwords, hmem⟩

/-- A state with arguments for a routine. -/
def callingCpu (r0 r1 r2 sp : Nat) : Arm.Cpu where
  pc := 0
  reg := fun
    | .r0 => r0
    | .r1 => r1
    | .r2 => r2
    | .sp => sp
    | _ => 0
  z := false
  mem := fun x => .ofNat x
  log := []

theorem callingCpu_words {r0 r1 r2 sp : Nat} (h : r0 < 2 ^ 32 ∧ r1 < 2 ^ 32 ∧ r2 < 2 ^ 32 ∧ sp < 2 ^ 32) :
    Words (callingCpu r0 r1 r2 sp) := by
  obtain ⟨h0, h1, h2, hsp⟩ := h
  intro r
  cases r with
  | r0 => exact h0
  | r1 => exact h1
  | r2 => exact h2
  | sp => exact hsp
  | _ => exact Nat.two_pow_pos 32

/-- Two bytes further up, over the end of the source. -/
theorem aeabi_memmove_moves_overlapping :
    (aeabi_memmove (callingCpu 0x1002 0x1000 5 0)).mem =
      move (fun x => .ofNat x) 0x1002 0x1000 5 :=
  (aeabi_memmove_moves (callingCpu 0x1002 0x1000 5 0) (callingCpu_words (by decide)) (by decide)
    (by decide)).2.2

theorem newlib_memmoves : Memmoves aeabi_memmove where
  returns _ hc _ := aeabi_memmove_returns hc.1
  moves c hc hmove i hi := by
    obtain ⟨-, -, -, hmem⟩ := aeabi_memmove_run hc.1 hmove.1.1 hmove.2.1
    rw [hmem]
    exact move_at hi
  outside c hc hmove x hx _ := by
    obtain ⟨-, -, -, hmem⟩ := aeabi_memmove_run hc.1 hmove.1.1 hmove.2.1
    rw [hmem]
    exact move_outside hx

end Move

/-! ## `__aeabi_memset` -/

section Set

variable {c : Arm.Cpu}

/-- The block is clear of the two words that the routine pushes. -/
def OffPushed (c : Arm.Cpu) : Prop :=
  ∀ x, c.reg .sp ≤ x + 8 → x < c.reg .sp → x < c.reg .r0 ∨ c.reg .r0 + c.reg .r1 ≤ x

theorem aeabi_memset_run (hwords : Words c) (hdst : c.reg .r0 + c.reg .r1 ≤ 2 ^ 32)
    (hroom : 8 ≤ c.reg .sp) (hoff : OffPushed c) :
    ∃ c', run aeabi_memset_arm (12 * c.reg .r1 + 60) (entering c) = c' ∧
      Returning aeabi_memset_arm c' (c.reg .lr) ∧ ReturnsTo c (aeabi_memset c) ∧
      ∀ x, c.reg .sp ≤ x ∨ x + 8 < c.reg .sp →
        (aeabi_memset c).mem x = fill c.mem (c.reg .r0) (c.reg .r1) (.ofNat (c.reg .r2)) x := by
  obtain ⟨c', hwithin, hret, h4, hsp, hmem⟩ :=
    memset_run (s := (entering c).state) hwords hdst hroom hoff
  obtain ⟨hrun, hreg, hmem'⟩ := callRoutine_eq hwithin hret (Nat.le_refl _)
  refine ⟨c', hrun, hret, ⟨rfl, fun r hr => ?_, run_words (c := entering c) (by decide) _ hwords, rfl⟩,
    fun x hx => ?_⟩
  · have hr4 : (aeabi_memset c).reg .r4 = c.reg .r4 := (congrFun hreg _).trans h4
    have hrsp : (aeabi_memset c).reg .sp = c.reg .sp := (congrFun hreg _).trans hsp
    have hkept : r ∉ written aeabi_memset_arm → (aeabi_memset c).reg r = c.reg r := fun hr =>
      run_reg (c := entering c) hr _
    rcases hr with rfl | rfl | rfl | rfl | rfl | rfl | rfl | rfl | rfl
    · exact hr4
    · exact hkept (by decide)
    · exact hkept (by decide)
    · exact hkept (by decide)
    · exact hkept (by decide)
    · exact hkept (by decide)
    · exact hkept (by decide)
    · exact hkept (by decide)
    · exact hrsp
  · have hlt := hwords .sp
    have hpush : (Op.apply (entering c).state (.push .r4 .lr)).mem x = c.mem x :=
      push_outside (s := (entering c).state) hroom hlt hx
    rw [show (aeabi_memset c).mem = _ from hmem'.trans hmem]
    by_cases hin : c.reg .r0 ≤ x ∧ x < c.reg .r0 + c.reg .r1
    · exact (if_pos hin).trans (if_pos hin).symm
    · exact ((if_neg hin).trans hpush).trans (if_neg hin).symm

/-- A block that does not run over the end of the address space is set, and the two pushed words
are all that changes besides. -/
theorem aeabi_memset_sets (c : Arm.Cpu) (hwords : Words c) (hdst : c.reg .r0 + c.reg .r1 ≤ 2 ^ 32)
    (hroom : 8 ≤ c.reg .sp) (hoff : OffPushed c) :
    Returning aeabi_memset_arm (run aeabi_memset_arm (12 * c.reg .r1 + 60) (entering c)) (c.reg .lr) ∧
      ReturnsTo c (aeabi_memset c) ∧
      ∀ x, c.reg .sp ≤ x ∨ x + 8 < c.reg .sp →
        (aeabi_memset c).mem x = fill c.mem (c.reg .r0) (c.reg .r1) (.ofNat (c.reg .r2)) x := by
  obtain ⟨c', rfl, hret, hreturns, hmem⟩ := aeabi_memset_run hwords hdst hroom hoff
  exact ⟨hret, hreturns, hmem⟩

/-- Bytes in front of the words, words and bytes behind them. -/
theorem aeabi_memset_sets_unaligned :
    (aeabi_memset (callingCpu 0x1003 30 7 0x2000)).mem 0x1020 =
      fill (fun x => .ofNat x) 0x1003 30 7 0x1020 :=
  (aeabi_memset_sets (callingCpu 0x1003 30 7 0x2000) (callingCpu_words (by decide)) (by decide)
    (by decide) fun x hlo _ => .inr (show 0x1003 + 30 ≤ x from by
      have hlo : 0x2000 ≤ x + 8 := hlo
      omega)).2.2 0x1020 (.inr (by decide))

/-- What the stub may use of its stack is more than is pushed. -/
theorem CanSet.offPushed (hc : Callable c) (hset : CanSet c) : 8 ≤ c.reg .sp ∧ OffPushed c := by
  obtain ⟨-, hroom⟩ := hc
  have hsize : stackSize = 256 := rfl
  refine ⟨by omega, fun x hlo hhi => ?_⟩
  by_contra hin
  obtain ⟨i, rfl⟩ : ∃ i, x = c.reg .r0 + i := ⟨x - c.reg .r0, by omega⟩
  exact hset.2 i (by omega) ⟨by omega, hhi⟩

theorem newlib_memsets : Memsets aeabi_memset where
  returns c hc hset := by
    obtain ⟨hroom, hoff⟩ := CanSet.offPushed hc hset
    obtain ⟨-, -, -, hreturns, -⟩ := aeabi_memset_run hc.1 hset.1 hroom hoff
    exact hreturns
  sets c hc hset i hi := by
    obtain ⟨hroom, hoff⟩ := CanSet.offPushed hc hset
    obtain ⟨-, -, -, -, hmem⟩ := aeabi_memset_run hc.1 hset.1 hroom hoff
    have hout : c.reg .sp ≤ c.reg .r0 + i ∨ c.reg .r0 + i + 8 < c.reg .sp := by
      by_contra hin
      have hclear := hoff (c.reg .r0 + i) (by omega) (by omega)
      omega
    exact (hmem _ hout).trans (fill_at hi)
  outside c hc hset x hx hstack := by
    obtain ⟨hroom, hoff⟩ := CanSet.offPushed hc hset
    obtain ⟨-, -, -, -, hmem⟩ := aeabi_memset_run hc.1 hset.1 hroom hoff
    have hsize : stackSize = 256 := rfl
    have hout : c.reg .sp ≤ x ∨ x + 8 < c.reg .sp := by
      by_contra hin
      exact hstack ⟨by omega, by omega⟩
    exact (hmem x hout).trans (fill_outside hx)

end Set

/-! ## The stub -/

/-- The routines the stub is built with. -/
def ElfEnv.newlib (waits : Waits) : ElfEnv where
  aeabi_memmove := Pup.aeabi_memmove
  aeabi_memset := Pup.aeabi_memset
  waits := waits

/-- From the upload of a well-formed image to its first instruction: if the loader takes it and
finds safe places, the code of the stub moves the file, fills the segments and branches to the entry
point. -/
theorem safe_upload_boots {L : Linked} (A : ElfLabels L) {m m' : Memory} {s s' : ElfLoader}
    {img_end : Nat} {p : Placement} (waits : Waits) (hwf : WellFormedElf m L.prog_end img_end)
    (h : load_elf_image L m s L.prog_end img_end true true EM_ARM DRAM_LIMIT [] =
      .ok (some p, m', s'))
    (hsafe : p.Safe L (loadRanges m L.prog_end) L.prog_end img_end) {c : Arm.Cpu}
    (hc : EntersElf m' c) :
    ∃ c', ElfStubRuns A p.boot_alloc (.newlib waits) c c' ∧ ElfBoots A m L.prog_end p c c' :=
  safe_placement_boots hwf h hsafe newlib_memmoves newlib_memsets hc

/-- A segment above the loader. -/
theorem safe_upload_boots_high_segment : ∃ m' s',
    load_elf_image .printing (oneSegmentMemory 0x10000 4) .zero 0x8008 (0x8008 + 84) true true EM_ARM
        DRAM_LIMIT [] = .ok (some ⟨0, 84, 84, 560⟩, m', s') ∧
      ∀ c, EntersElf m' c → ∃ c', ElfStubRuns ElfLabels.printing 84 (.newlib fun _ => 3) c c' ∧
        ElfBoots ElfLabels.printing (oneSegmentMemory 0x10000 4) 0x8008 ⟨0, 84, 84, 560⟩ c c' := by
  have hsegs : loadSegments (oneSegmentMemory 0x10000 4) 0x8008 = [⟨1, 0, 0x10000, 4, 4⟩] := by
    decide +kernel
  have hwf := oneSegment_wellFormed hsegs (by decide +kernel) (by decide +kernel) (by decide)
    (by decide)
  have hranges : loadRanges (oneSegmentMemory 0x10000 4) Linked.printing.prog_end =
      [⟨0x10000, 0x10004⟩] := by
    change (loadSegments (oneSegmentMemory 0x10000 4) 0x8008).map _ = _
    rw [hsegs]
    rfl
  obtain ⟨⟨r, m', s'⟩, h, hr⟩ := ok_of_toOption
    (show (load_elf_image .printing (oneSegmentMemory 0x10000 4) .zero 0x8008 (0x8008 + 84) true
      true EM_ARM DRAM_LIMIT []).toOption.map (·.1) = some (some ⟨0, 84, 84, 560⟩) by decide +kernel)
  obtain rfl : r = some ⟨0, 84, 84, 560⟩ := hr
  refine ⟨m', s', h, fun c hc => safe_upload_boots ElfLabels.printing (fun _ => 3) hwf h ?_ hc⟩
  have hstart : Linked.printing.prog_start = 0x8000 := rfl
  have hend : Linked.printing.prog_end = 0x8008 := rfl
  rw [hranges]
  refine ⟨by decide, ?_, by decide, by decide, ?_, ?_, ?_, ?_⟩
  all_goals simp only [Apart, Placement.elf, Placement.boot, List.mem_singleton, forall_eq]
  all_goals omega

end Bcm2835.Pup

import Bcm2835.Pup.Trampoline

/-!
# The flat-binary stub completes the image

For an accepted flat image that meets the loader, the stub copies the buffer to
its place, with aligned accesses only and without a store anywhere else, and
branches to the image; all this exactly when the size of the image and the end
of the loader are multiples of four (`flat_trampoline_relocates_iff`).
-/

namespace Bcm2835.Pup

open Arm Mem

/-- What the stub is for: entered in state `c` it leaves in state `c'`. -/
structure Board.Relocates (b : Board) (c c' : Cpu) : Prop where
  leaves : LeavesTo flatTrampoline c' b.img_start
  mem : c'.mem = write (2 ^ 32) c.mem b.reloc.tgt_start (read c.mem b.reloc.buf_start b.reloc.size)
  aligned : ∀ a ∈ c'.log, a.addr % 4 = 0
  inside : ∀ x, Access.store x ∈ c'.log →
    b.reloc.tgt_start ≤ x ∧ x + 4 ≤ b.reloc.tgt_start + b.reloc.size

variable {L : Linked} {xz : Bool} {m : Meta} {b₀ b : Board} {c : Cpu}

theorem Board.EntersStub.copied (h : b.EntersStub c) :
    Copied b.reloc.tgt_start b.reloc.buf_start b.reloc.size b.img_start c.mem 0 c where
  r0 := h.r0
  r1 := h.r1
  r2 := h.r2
  r3 := h.r3
  mem := rfl
  log a := by simp [h.log]

/-- What a complete copy amounts to, up to the alignment of the two ranges. -/
theorem Copied.relocates {c' : Cpu} (h : Copied b.reloc.tgt_start b.reloc.buf_start b.reloc.size
    b.img_start c.mem b.reloc.size c') (hpc : c'.pc = 26) (hsize : b.reloc.size % 4 = 0)
    (htgt : b.reloc.tgt_start % 4 = 0) (hbuf : b.reloc.buf_start % 4 = 0) : b.Relocates c c' := by
  refine ⟨⟨.r3, by rw [hpc]; rfl, h.r3⟩, h.mem, ?_, ?_⟩
  · intro a ha
    obtain ⟨i, -, rfl | rfl⟩ := (h.log a).mp ha
    · show (b.reloc.buf_start + 4 * i) % 4 = 0
      omega
    · show (b.reloc.tgt_start + 4 * i) % 4 = 0
      omega
  · intro x hx
    obtain ⟨i, hi, heq | heq⟩ := (h.log _).mp hx
    · cases heq
    · cases heq
      omega

/-- The stub does its work exactly for images and loaders whose ends are aligned. -/
theorem flat_trampoline_relocates_iff (h : platform_init_meta L xz m b₀ = (true, b))
    (hflat : m.image_format = IMAGE_FLAT_BINARY) (hreloc : b.reloc.size ≠ 0)
    (hc : b.EntersStub c) :
    (∃ c', FlatRuns c c' ∧ b.Relocates c c') ↔
      m.mem_size.toNat % 4 = 0 ∧ L.prog_end % 4 = 0 := by
  have hD : DRAM_LIMIT = 0x20000000 := rfl
  have hp := platform_init_meta_placed h
  have hr : b.Relocated L := by
    rcases hp.place with ⟨hzero, -⟩ | hr
    · exact absurd hzero hreloc
    · exact hr
  have halign : b.img_start % 4 = 0 := by
    rcases imageStart_some (platform_init_meta_relocation h).1 with ⟨-, -, -, h4⟩ | ⟨helf, -⟩
    · exact h4
    · rw [hflat] at helf
      cases helf
  have hend := (hp.img_end_flat hflat).1
  have hprog := L.prog_aligned
  have htgt := hr.tgt_start_eq
  have htgtend := hr.tgt_end_eq
  have hlt := hr.tgt_lt
  have hsize := hr.size_eq
  have hbuf := hr.buf_start_eq
  have hbufend := hr.buf_end_eq
  have hbuflt := hr.buf_lt
  have hcopies : b.reloc.size % 4 = 0 → ∃ c', FlatRuns c c' ∧
      Copied b.reloc.tgt_start b.reloc.buf_start b.reloc.size b.img_start c.mem b.reloc.size c' ∧
      c'.pc = 26 :=
    fun h4 => stub_copies hc.copied hc.pc h4 (by omega) (by omega)
  constructor
  · rintro ⟨c', hrun, hdone⟩
    -- the fine loop must have come to its end, so the run is the one of `stub_copies`
    have h4 : b.reloc.size % 4 = 0 := by
      by_contra hne
      exact stub_never_leaves hne hc.pc hc.r2 hrun _ hdone.leaves
    obtain ⟨c'', hrun', hcopied, hpc⟩ := hcopies h4
    have hstuck : FlatStep c'' = none := by
      rw [FlatStep, step_at (i := .bx .r3) hpc rfl, exec]
    have heq := hrun.stuck_unique hrun' hdone.leaves.stuck hstuck
    subst heq
    have hbuf4 : b.reloc.buf_start % 4 = 0 :=
      hdone.aligned _ ((hcopied.log _).mpr ⟨0, by omega, .inl rfl⟩)
    clear hcopies
    omega
  · rintro ⟨hmem, hprogend⟩
    have h4 : b.reloc.size % 4 = 0 := by omega
    obtain ⟨c', hrun, hcopied, hpc⟩ := hcopies h4
    clear hcopies
    exact ⟨c', hrun, hcopied.relocates hpc h4 (by omega) (by omega)⟩

/-! ## Two small images over a small loader -/

/-- A flat image of `n` bytes that starts four bytes below the loader. -/
def acrossLoader (n : UInt32) : Meta := ⟨IMAGE_FLAT_BINARY, COMPRESS_NONE, n, n, 0, 0, 0x7ffc⟩

/-- The board after it has accepted it. -/
def acrossLoaderBoard (n : UInt32) : Board :=
  (platform_init_meta .tiny true (acrossLoader n) (.zero (fun _ => 0) [])).2

/-- The state in which the stub is entered then. -/
def acrossLoaderCpu (n : UInt32) : Cpu where
  pc := 0
  reg
    | .r0 => (acrossLoaderBoard n).reloc.tgt_start
    | .r1 => (acrossLoaderBoard n).reloc.buf_start
    | .r2 => (acrossLoaderBoard n).reloc.size
    | .r3 => (acrossLoaderBoard n).img_start
    | _ => 0
  z := false
  mem := fun _ => 0
  log := []

theorem acrossLoader_enters (n : UInt32) :
    (acrossLoaderBoard n).EntersStub (acrossLoaderCpu n) where
  pc := rfl
  r0 := rfl
  r1 := rfl
  r2 := rfl
  r3 := rfl
  log := rfl

theorem flat_trampoline_relocates_twelve :
    ∃ c', FlatRuns (acrossLoaderCpu 12) c' ∧
      (acrossLoaderBoard 12).Relocates (acrossLoaderCpu 12) c' :=
  (flat_trampoline_relocates_iff
    (show platform_init_meta .tiny true (acrossLoader 12) (.zero (fun _ => 0) []) =
      (true, acrossLoaderBoard 12) from Prod.ext (by decide) rfl)
    rfl (by decide) (acrossLoader_enters 12)).mpr ⟨by decide, by decide⟩

/-- Of nine bytes five meet the loader, and the stub never gets out of its fine loop. -/
theorem flat_trampoline_nine_never_leaves :
    platform_init_meta .tiny true (acrossLoader 9) (.zero (fun _ => 0) []) =
        (true, acrossLoaderBoard 9) ∧
      (acrossLoaderBoard 9).reloc.size = 5 ∧
      (acrossLoaderBoard 9).EntersStub (acrossLoaderCpu 9) ∧
      ∀ c', FlatRuns (acrossLoaderCpu 9) c' → ∀ target, ¬LeavesTo flatTrampoline c' target := by
  refine ⟨Prod.ext (by decide) rfl, by decide, acrossLoader_enters 9, fun c' hrun target => ?_⟩
  have hsize : (acrossLoaderBoard 9).reloc.size = 5 := by decide
  exact stub_never_leaves (by omega) rfl ((acrossLoader_enters 9).r2.trans hsize) hrun target

end Bcm2835.Pup

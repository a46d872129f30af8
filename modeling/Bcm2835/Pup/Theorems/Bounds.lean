import Bcm2835.Pup.BoardSpec

/-!
# Where an accepted meta puts things

A flat image, its relocation buffer and the stub lie below `DRAM_LIMIT`, apart
from each other and from the loader. The end of an ELF image is not checked at
all, so for that format it is up to the peer (`platform_init_meta_in_bounds_iff`).
-/

namespace Bcm2835.Pup

open FirstFit

/-- The range `[start, end_)` is one, and it lies in the DRAM. -/
def Interval.InDram (r : Interval) : Prop := r.start ≤ r.end_ ∧ r.end_ ≤ DRAM_LIMIT

instance (r : Interval) : Decidable (Interval.InDram r) := inferInstanceAs (Decidable (_ ∧ _))

def Board.image (b : Board) : Interval := ⟨b.img_start, b.img_end⟩
def Board.buffer (b : Board) : Interval := ⟨b.reloc.buf_start, b.reloc.buf_end⟩
def Board.stub (b : Board) : Interval := ⟨b.reloc.stub_start, b.reloc.stub_end⟩
def Linked.prog (L : Linked) : Interval := ⟨L.prog_start, L.prog_end⟩

/-- Image, buffer and stub lie in the DRAM, and what is relocated stays apart. -/
structure Board.InBounds (L : Linked) (m : Meta) (b : Board) : Prop where
  no_wrap : b.img_end = b.img_start + m.mem_size.toNat
  image : Interval.InDram b.image
  buffer : Interval.InDram b.buffer
  stub : Interval.InDram b.stub
  apart : b.reloc.size ≠ 0 →
    Apart b.buffer b.stub ∧ Apart b.buffer b.image ∧ Apart b.stub b.image ∧
      Apart b.buffer L.prog ∧ Apart b.stub L.prog

variable {L : Linked} {xz : Bool} {m : Meta} {b₀ b : Board}

/-- The rounded stub still ends below the limit, as the limit is a multiple of
four and so is the size of the stub. -/
theorem Board.Relocated.stub_bounds (h : b.Relocated L)
    (hr : relocation L b.img_start b.img_end = some b.reloc) (hstub : L.trampoline.length % 4 = 0) :
    b.reloc.buf_end ≤ b.reloc.stub_start ∧ b.reloc.stub_start ≤ b.reloc.stub_end ∧
      b.reloc.stub_end ≤ DRAM_LIMIT := by
  have hD : DRAM_LIMIT = 0x20000000 := rfl
  have hfits := L.prog_fits
  have hlt := h.tgt_lt
  have hsize := h.size_eq
  have htgt := h.tgt_end_eq
  have hbuf := h.buf_end_eq
  have hbufstart := h.buf_start_eq
  have hbuflt := h.buf_lt
  rcases relocation_stub hr with hnone | ⟨-, hstart, hend, hcheck⟩
  · have hzero : b.reloc.size = 0 := by rw [hnone]; rfl
    omega
  -- none of the sums and differences wraps
  rw [sub32_eq (b := b.reloc.size) (by omega) (by omega), sub32_eq (by omega) (by omega)] at hcheck
  rw [add32_eq (by omega)] at hstart
  rw [add32_eq (by omega)] at hend
  omega

theorem apart_of_le {r s : Interval} (h : r.end_ ≤ s.start) : Apart r s := by
  intro a ha
  omega

theorem apart_of_ge {r s : Interval} (h : s.end_ ≤ r.start) : Apart r s := by
  intro a ha
  omega

/-- The places an accepted meta fixes are in bounds exactly when the image is a
flat one, or an ELF file that ends in the DRAM. -/
theorem platform_init_meta_in_bounds_iff (h : platform_init_meta L xz m b₀ = (true, b))
    (hstub : L.trampoline.length % 4 = 0) :
    b.InBounds L m ↔
      m.image_format = IMAGE_FLAT_BINARY ∨ L.prog_end + m.mem_size.toNat ≤ DRAM_LIMIT := by
  have hD : DRAM_LIMIT = 0x20000000 := rfl
  have hplaced := platform_init_meta_placed h
  obtain ⟨-, hrel⟩ := platform_init_meta_relocation h
  constructor
  · intro hin
    rcases hplaced.format with ⟨hflat, -⟩ | ⟨-, hstart⟩
    · exact .inl hflat
    · have hend := hin.no_wrap
      have hle : b.img_end ≤ DRAM_LIMIT := hin.image.2
      right
      omega
  · intro hcond
    have hsum : b.img_start + m.mem_size.toNat ≤ DRAM_LIMIT := by
      rcases hplaced.format with ⟨-, hlt⟩ | ⟨helf, hstart⟩
      · omega
      · rcases hcond with hflat | hle
        · rw [hflat] at helf
          cases helf
        · omega
    have hend : b.img_end = b.img_start + m.mem_size.toNat := by
      rw [hplaced.img_end_eq, add32_eq (by omega)]
    have himage : Interval.InDram b.image := by
      show b.img_start ≤ b.img_end ∧ b.img_end ≤ DRAM_LIMIT
      omega
    rcases hplaced.place with ⟨hsize, -⟩ | hreloc
    · have hnone : b.reloc = .none := by
        rcases relocation_stub hrel with hnone | ⟨hne, -⟩
        · exact hnone
        · exact absurd hsize hne
      refine ⟨hend, himage, ?_, ?_, fun hne => absurd hsize hne⟩
      · simp [Board.buffer, hnone, Reloc.none, Interval.InDram]
      · simp [Board.stub, hnone, Reloc.none, Interval.InDram]
    · obtain ⟨h1, h2, h3⟩ := hreloc.stub_bounds hrel hstub
      have hstart := hreloc.buf_start_eq
      have hbufend := hreloc.buf_end_eq
      have hbuflt := hreloc.buf_lt
      refine ⟨hend, himage, ?_, ⟨h2, h3⟩, fun _ => ⟨?_, ?_, ?_, ?_, ?_⟩⟩
      · show b.reloc.buf_start ≤ b.reloc.buf_end ∧ b.reloc.buf_end ≤ DRAM_LIMIT
        omega
      · exact apart_of_le h1
      · exact apart_of_ge (show b.img_end ≤ b.reloc.buf_start by omega)
      · exact apart_of_ge (show b.img_end ≤ b.reloc.stub_start by omega)
      · exact apart_of_ge (show L.prog_end ≤ b.reloc.buf_start by omega)
      · exact apart_of_ge (show L.prog_end ≤ b.reloc.stub_start by omega)

/-- A flat image of twelve bytes across the start of a loader. -/
def overlappingMeta : Meta := ⟨IMAGE_FLAT_BINARY, COMPRESS_NONE, 12, 12, 0, 0, 0x7ffc⟩

/-- The board after it has accepted `overlappingMeta`. -/
def overlappingBoard : Board :=
  (platform_init_meta .tiny true overlappingMeta (.zero (fun _ => 0) [])).2

theorem platform_init_meta_in_bounds_overlapping : overlappingBoard.InBounds .tiny overlappingMeta :=
  (platform_init_meta_in_bounds_iff
    (show platform_init_meta .tiny true overlappingMeta (.zero (fun _ => 0) []) =
      (true, overlappingBoard) from Prod.ext (by decide) rfl) (by decide)).mpr (.inl rfl)

/-- An ELF file that announces 512 MiB. -/
def hugeElfMeta : Meta := ⟨IMAGE_ELF, COMPRESS_NONE, 84, 0x20000000, 0, 0, 0⟩

/-- The board accepts it, and the image ends above the DRAM. -/
theorem platform_init_meta_huge_elf :
    let r := platform_init_meta .tiny true hugeElfMeta (.zero (fun _ => 0) [])
    r.1 = true ∧ Linked.tiny.trampoline.length % 4 = 0 ∧ ¬r.2.InBounds .tiny hugeElfMeta := by
  refine ⟨by decide, by decide, fun hin => ?_⟩
  have hle : (platform_init_meta .tiny true hugeElfMeta (.zero (fun _ => 0) [])).2.img_end ≤
      DRAM_LIMIT := hin.image.2
  exact absurd hle (by decide)

end Bcm2835.Pup

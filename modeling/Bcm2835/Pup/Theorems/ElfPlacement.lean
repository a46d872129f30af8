import Bcm2835.Pup.ElfSpec

/-!
# Where an ELF image and its boot stub end up

`load_elf_image_safe_iff` says for which well-formed images the places that
`load_elf_image` chooses are free: the search itself keeps them clear of what
it looks at, so what is left are the segments beyond the sixteenth, the ranges
it skips, the alignment of the stub, and the image that has not moved yet.
-/

namespace Bcm2835.Pup

open Mem FirstFit

/-- A well-formed ELF32 image at `[img_start, img_end)`. -/
structure WellFormedElf (m : Memory) (img_start img_end : Nat) : Prop where
  img_end_lt : img_end < 2 ^ 32
  header_inside : img_start + 52 ≤ img_end
  header_valid : validate_elf_header (.at m img_start) true true EM_ARM = true
  phentsize : 32 ≤ (Elf32_Ehdr.at m img_start).e_phentsize
  phdrs_inside :
    img_start + (Elf32_Ehdr.at m img_start).e_phoff +
      (Elf32_Ehdr.at m img_start).e_phnum * (Elf32_Ehdr.at m img_start).e_phentsize ≤ img_end
  file_inside : ∀ phdr ∈ loadSegments m img_start, img_start + phdr.p_offset + phdr.p_filesz ≤ img_end
  filesz_le : ∀ phdr ∈ loadSegments m img_start, phdr.p_filesz ≤ phdr.p_memsz
  below : ∀ phdr ∈ loadSegments m img_start, phdr.p_vaddr + phdr.p_memsz ≤ DRAM_LIMIT
  apart : ((loadSegments m img_start).map Elf32_Phdr.range).Pairwise Apart

/-- The memory ranges of the loadable segments. -/
def loadRanges (m : Memory) (img_start : Nat) : List Range :=
  (loadSegments m img_start).map Elf32_Phdr.range

def Placement.elf (p : Placement) : Range := ⟨p.elf_alloc, p.elf_alloc + p.elf_size⟩
def Placement.boot (p : Placement) : Range := ⟨p.boot_alloc, p.boot_alloc + p.boot_size⟩

/-- The file's new place and the stub's are in memory and free. -/
structure Placement.Safe (p : Placement) (L : Linked) (ranges : List Range)
    (img_start img_end : Nat) : Prop where
  elf_below : p.elf.end_ ≤ DRAM_LIMIT
  elf_segments : ∀ r ∈ ranges, Apart p.elf r
  boot_below : p.boot.end_ ≤ DRAM_LIMIT
  boot_aligned : p.boot_alloc % 4 = 0
  boot_segments : ∀ r ∈ ranges, Apart p.boot r
  boot_elf : Apart p.boot p.elf
  boot_loader : Apart p.boot ⟨L.prog_start, L.prog_end⟩
  boot_image : Apart p.boot ⟨img_start, img_end⟩

/-- What the first-fit search does not see to by itself, for a file placed at
`elf` and a stub placed at `boot`: the segments that were not claimed, the
ranges that start below the end of the loader and reach beyond it, the
alignment, the image behind the loader, and the end of memory. -/
structure SpotsSafe (L : Linked) (ranges : List Range) (img_end : Nat) (elf boot : Range) :
    Prop where
  unclaimed : ∀ r ∈ ranges.drop ELF_MAX_SEGMENTS, Apart elf r ∧ Apart boot r
  straddling : ∀ r ∈ insertStart elf (claims ranges), r.start < L.prog_end → L.prog_end < r.end_ →
    Apart boot r
  aligned : boot.start % 4 = 0
  outside : boot.end_ ≤ L.prog_start ∨ img_end ≤ boot.start
  below : boot.end_ ≤ DRAM_LIMIT

/-- The condition on a segment list, with the places in terms of it, in a map
that held `f` before. -/
def SafeLayout (L : Linked) (f : Nat → Range) (ranges : List Range) (img_end elf_size boot_size : Nat) :
    Prop :=
  ∀ e b, Lowest (claims ranges) elf_size 0 e →
    BootSpot L (insertStart ⟨e, e + elf_size⟩ (claims ranges)) boot_size b →
    SpotsSafe L ranges img_end ⟨e, e + elf_size⟩ ⟨b, b + boot_size⟩ ∧
      StubFits f ranges ⟨e, e + elf_size⟩ b

/-- A stub that meets neither the loader nor the image behind it lies below the
one or above the other. -/
theorem outside_of_apart {L : Linked} {b n img_end : Nat} (hn : n ≠ 0) (himg : L.prog_end < img_end)
    (h1 : Apart ⟨b, b + n⟩ ⟨L.prog_start, L.prog_end⟩) (h2 : Apart ⟨b, b + n⟩ ⟨L.prog_end, img_end⟩) :
    b + n ≤ L.prog_start ∨ img_end ≤ b := by
  by_contra hc
  have h1 := h1 (max b L.prog_start)
  have h2 := h2 (max b L.prog_start)
  have := L.prog_nonempty
  simp only at h1 h2
  omega

/-- A stub in its spot is clear of a range the search has seen, unless the range
straddles the end of the loader. -/
theorem BootSpot.apart {L : Linked} {C : List Range} {n b : Nat} (h : BootSpot L C n b)
    (hstraddle : ∀ r ∈ C, r.start < L.prog_end → L.prog_end < r.end_ → Apart ⟨b, b + n⟩ r)
    {r : Range} (hr : r ∈ C) : Apart ⟨b, b + n⟩ r := by
  obtain ⟨hlow, -⟩ | ⟨-, hlow⟩ := h
  · exact apart_of_clear (hlow.clear r hr (Nat.zero_le _))
  · by_cases hlo : L.prog_end ≤ r.start
    · exact apart_of_clear (hlow.clear r hr hlo)
    · by_cases hend : L.prog_end < r.end_
      · exact hstraddle r hr (by omega) hend
      · -- the range lies below the window
        have := hlow.le
        exact apart_of_clear (.inl (by omega))

/-- The spots of a well-formed image are free exactly if what the search does not see to is. -/
theorem Placement.safe_iff {L : Linked} {m : Memory} {img_end n e b : Nat}
    (hwf : WellFormedElf m L.prog_end img_end)
    (helf : Lowest (claims (loadRanges m L.prog_end)) n 0 e) (hfits : e + n ≤ DRAM_LIMIT)
    (hboot : BootSpot L (insertStart ⟨e, e + n⟩ (claims (loadRanges m L.prog_end)))
      L.elf_trampoline.length b) :
    (⟨e, n, b, L.elf_trampoline.length⟩ : Placement).Safe L (loadRanges m L.prog_end) L.prog_end
        img_end ↔
      SpotsSafe L (loadRanges m L.prog_end) img_end ⟨e, e + n⟩
        ⟨b, b + L.elf_trampoline.length⟩ := by
  have himg := hwf.header_inside
  have hproper : ∀ r ∈ loadRanges m L.prog_end, r.start ≤ r.end_ := by
    simp [loadRanges, Elf32_Phdr.range]
  obtain ⟨-, hclaimed⟩ := claims_sorted hwf.apart hproper
  have hclaimed : ∀ r ∈ claims (loadRanges m L.prog_end), r ∈ loadRanges m L.prog_end :=
    fun r hr => List.mem_of_mem_take (hclaimed r hr)
  constructor
  · intro hsafe
    have h1 := hsafe.boot_segments
    have h2 := hsafe.boot_elf
    refine ⟨fun r hr => ?_, fun r hr _ _ => ?_, hsafe.boot_aligned, ?_, hsafe.boot_below⟩
    · have hr := List.mem_of_mem_drop hr
      exact ⟨hsafe.elf_segments r hr, h1 r hr⟩
    · obtain rfl | hr := mem_insertStart.mp hr
      · exact h2
      · exact h1 r (hclaimed r hr)
    · exact outside_of_apart L.stub_pos (by omega) hsafe.boot_loader hsafe.boot_image
  · rintro ⟨hun, hstr, hal, hout, hbel⟩
    have hpl := L.prog_nonempty
    -- a segment is among the claimed ones or among the later ones
    have hsplit : ∀ r ∈ loadRanges m L.prog_end,
        r ∈ claims (loadRanges m L.prog_end) ∨ r ∈ (loadRanges m L.prog_end).drop ELF_MAX_SEGMENTS := by
      intro r hr
      rw [← List.take_append_drop ELF_MAX_SEGMENTS (loadRanges m L.prog_end)] at hr
      obtain hr | hr := List.mem_append.mp hr
      · exact .inl (mem_claims hr)
      · exact .inr hr
    refine ⟨hfits, fun r hr => ?_, hbel, hal, fun r hr => ?_, ?_, fun a => ?_, fun a => ?_⟩
    · obtain hr | hr := hsplit r hr
      · exact apart_of_clear (helf.clear r hr (Nat.zero_le _))
      · exact (hun r hr).1
    · obtain hr | hr := hsplit r hr
      · exact hboot.apart hstr (mem_insertStart.mpr (.inr hr))
      · exact (hun r hr).2
    · exact hboot.apart hstr (mem_insertStart.mpr (.inl rfl))
    all_goals
      simp only [Placement.boot] at hout ⊢
      omega

/-- `load_elf_image` stores the stub of the placement it has planned. -/
theorem load_elf_image_eq {L : Linked} {m : Memory} {s : ElfLoader} {img_start img_end : Nat}
    {elf32_p elfle_p : Bool} {machine mem_hi : Nat} {cmdline : List UInt8}
    {plan : Except ElfFault (Option Placement × ElfLoader)}
    (h : planElfImage L m s img_start img_end elf32_p elfle_p machine mem_hi cmdline = plan) :
    load_elf_image L m s img_start img_end elf32_p elfle_p machine mem_hi cmdline =
      plan.map fun r =>
        match r.1 with
        | none => (none, m, r.2)
        | some p => (some p, writeBoot L m r.2.ops img_start cmdline p,
            { r.2 with elf_trampoline_ptr := p.boot_alloc }) := by
  unfold load_elf_image
  rw [h]
  rcases plan with e | ⟨_ | p, s'⟩ <;> rfl

/-- `load_elf_image`, called as `platform_load_image` calls it, returns true with
free places, and without a store behind its map, exactly for the images with a
safe layout among those that it does not refuse. -/
theorem load_elf_image_safe_iff {L : Linked} {m : Memory} {s : ElfLoader} {img_end : Nat}
    (hwf : WellFormedElf m L.prog_end img_end)
    (hplaced : ∀ m' s', load_elf_image L m s L.prog_end img_end true true EM_ARM DRAM_LIMIT [] ≠
      .ok (none, m', s')) :
    (∃ p m' s', load_elf_image L m s L.prog_end img_end true true EM_ARM DRAM_LIMIT [] =
        .ok (some p, m', s') ∧ p.Safe L (loadRanges m L.prog_end) L.prog_end img_end) ↔
      SafeLayout L s.map.entry (loadRanges m L.prog_end) img_end (img_end - L.prog_end)
        L.elf_trampoline.length := by
  have himg := hwf.header_inside
  have hsize : sub32 img_end L.prog_end = img_end - L.prog_end := sub32_eq (by omega) hwf.img_end_lt
  have hne : sub32 img_end L.prog_end ≠ 0 := by omega
  obtain ⟨s₁, hplan⟩ | ⟨e, b, helf, hfits, hboot, hplan⟩ :=
    planElfImage_cases (L := L) (s := s) hwf.apart hwf.below hne
  · exact absurd (load_elf_image_eq hplan) (hplaced m s₁)
  rw [hsize] at helf hfits hboot hplan
  have hsafe := Placement.safe_iff hwf helf hfits hboot
  constructor
  · rintro ⟨p, m', s', hload, hp⟩ e' b' he hb
    -- the spots are those of the placement
    obtain rfl : e' = e := he.unique helf
    obtain rfl : b' = b := hb.unique hboot
    obtain ⟨hstub, s₁, hplan⟩ | ⟨-, hplan⟩ := hplan
    · rw [load_elf_image_eq hplan] at hload
      cases hload
      exact ⟨hsafe.mp hp, hstub⟩
    · rw [load_elf_image_eq hplan] at hload
      cases hload
  · intro hlayout
    obtain ⟨hspots, hstub⟩ := hlayout e b helf hboot
    obtain ⟨-, s₁, hplan⟩ | ⟨hnot, -⟩ := hplan
    · exact ⟨_, _, _, load_elf_image_eq hplan, hsafe.mpr hspots⟩
    · exact absurd hstub hnot

/-! ## Two images with one segment -/

/-- An ELF file of 84 bytes whose one segment is `memsz` bytes of the file. -/
def oneSegmentFile (vaddr memsz : Nat) : List UInt8 :=
  ELFMAG ++ [1, 1, 1, 0, 0, 0, 0, 0, 0, 0, 0, 0] ++ Bytes.leBytes 2 2 ++ Bytes.leBytes 2 40 ++
    Bytes.leBytes 4 1 ++ Bytes.leBytes 4 vaddr ++ Bytes.leBytes 4 52 ++ Bytes.leBytes 8 0 ++
    Bytes.leBytes 2 52 ++ Bytes.leBytes 2 32 ++ Bytes.leBytes 2 1 ++ Bytes.leBytes 6 0 ++
    Bytes.leBytes 4 1 ++ Bytes.leBytes 4 0 ++ Bytes.leBytes 4 vaddr ++ Bytes.leBytes 4 vaddr ++
    Bytes.leBytes 4 memsz ++ Bytes.leBytes 4 memsz ++ Bytes.leBytes 4 7 ++ Bytes.leBytes 4 1

/-- The memory with that file behind the loader. -/
def oneSegmentMemory (vaddr memsz : Nat) : Memory :=
  fun a => if 0x8008 ≤ a then (oneSegmentFile vaddr memsz).getD (a - 0x8008) 0 else 0

theorem oneSegment_wellFormed {vaddr memsz : Nat}
    (hsegs : loadSegments (oneSegmentMemory vaddr memsz) 0x8008 = [⟨1, 0, vaddr, memsz, memsz⟩])
    (hvalid : validate_elf_header (.at (oneSegmentMemory vaddr memsz) 0x8008) true true EM_ARM = true)
    (hph : (Elf32_Ehdr.at (oneSegmentMemory vaddr memsz) 0x8008).e_phoff = 52 ∧
      (Elf32_Ehdr.at (oneSegmentMemory vaddr memsz) 0x8008).e_phentsize = 32 ∧
      (Elf32_Ehdr.at (oneSegmentMemory vaddr memsz) 0x8008).e_phnum = 1)
    (hfile : memsz ≤ 84) (hmem : vaddr + memsz ≤ DRAM_LIMIT) :
    WellFormedElf (oneSegmentMemory vaddr memsz) 0x8008 (0x8008 + 84) where
  img_end_lt := by decide
  header_inside := by decide
  header_valid := hvalid
  phentsize := by rw [hph.2.1]
  phdrs_inside := by rw [hph.1, hph.2.1, hph.2.2]
  file_inside := by
    rw [hsegs]
    simp only [List.mem_singleton, forall_eq]
    omega
  filesz_le := by rw [hsegs]; simp
  below := by rw [hsegs]; simpa using hmem
  apart := by rw [hsegs]; simp

/-- A segment above the loader: the file goes to 0 and the stub right behind it. -/
theorem load_elf_image_high_segment :
    SafeLayout .tiny ElfLoader.zero.map.entry
      (loadRanges (oneSegmentMemory 0x10000 4) Linked.tiny.prog_end) (0x8008 + 84)
      (0x8008 + 84 - Linked.tiny.prog_end) Linked.tiny.elf_trampoline.length := by
  have hsegs : loadSegments (oneSegmentMemory 0x10000 4) 0x8008 = [⟨1, 0, 0x10000, 4, 4⟩] := by
    decide +kernel
  obtain ⟨⟨r, m', s'⟩, h, hr⟩ := ok_of_toOption
    (show (load_elf_image .tiny (oneSegmentMemory 0x10000 4) .zero 0x8008 (0x8008 + 84) true true
      EM_ARM DRAM_LIMIT []).toOption.map (·.1) = some (some ⟨0, 84, 84, 280⟩) by decide +kernel)
  obtain rfl : r = some ⟨0, 84, 84, 280⟩ := hr
  have hwf := oneSegment_wellFormed hsegs (by decide +kernel) (by decide +kernel) (by decide)
    (by decide)
  have hranges : loadRanges (oneSegmentMemory 0x10000 4) Linked.tiny.prog_end =
      [⟨0x10000, 0x10004⟩] := by
    change (loadSegments (oneSegmentMemory 0x10000 4) 0x8008).map _ = _
    rw [hsegs]
    rfl
  refine (load_elf_image_safe_iff (L := .tiny) hwf fun m₁ s₁ hfalse => by
    cases h.symm.trans hfalse).mp ⟨_, m', s', h, ?_⟩
  rw [hranges]
  have hstart : Linked.tiny.prog_start = 0x8000 := rfl
  have hend : Linked.tiny.prog_end = 0x8008 := rfl
  refine ⟨by decide, ?_, by decide, by decide, ?_, ?_, ?_, ?_⟩
  all_goals simp only [Apart, Placement.elf, Placement.boot, List.mem_singleton, forall_eq]
  all_goals omega

/-- A segment of 17 bytes at address 0: the file goes to 17, and the stub behind
it to 101, which is no multiple of four. -/
theorem load_elf_image_unaligned_boot :
    ∃ p m' s', WellFormedElf (oneSegmentMemory 0 17) Linked.tiny.prog_end (0x8008 + 84) ∧
      load_elf_image .tiny (oneSegmentMemory 0 17) .zero Linked.tiny.prog_end (0x8008 + 84) true true
        EM_ARM DRAM_LIMIT [] = .ok (some p, m', s') ∧
      p.boot_alloc = 101 ∧
      ¬p.Safe .tiny (loadRanges (oneSegmentMemory 0 17) 0x8008) Linked.tiny.prog_end
        (0x8008 + 84) := by
  obtain ⟨⟨r, m', s'⟩, h, hr⟩ := ok_of_toOption
    (show (load_elf_image .tiny (oneSegmentMemory 0 17) .zero 0x8008 (0x8008 + 84) true true
      EM_ARM DRAM_LIMIT []).toOption.map (·.1) = some (some ⟨17, 84, 101, 280⟩) by decide +kernel)
  obtain rfl : r = some ⟨17, 84, 101, 280⟩ := hr
  refine ⟨_, m', s', ?_, h, rfl, fun hsafe => ?_⟩
  · exact oneSegment_wellFormed (by decide +kernel) (by decide +kernel) (by decide +kernel)
      (by decide) (by decide)
  · have := hsafe.boot_aligned
    simp at this

end Bcm2835.Pup

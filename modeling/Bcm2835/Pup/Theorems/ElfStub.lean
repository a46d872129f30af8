import Bcm2835.Pup.ElfTrampolineSpec

/-!
# The ELF stub carries out what the loader has planned

For an image that was given free places, `elf_stub_boots_iff` says when the stub brings it to
life: every loadable segment is filled, the file is at its new place, nothing else has changed,
and control is at the entry point. The loader does not see to two of the conditions, that the
stub is aligned and that it does not lie on the file it is still to move.
-/

namespace Bcm2835.Pup

open Arm Mem FirstFit

/-- The segments, the new place of the file and the place of the stub keep clear of each other,
and the segments are filled from the file. -/
structure ElfLayout (m : Memory) (img_start : Nat) (p : Placement) : Prop where
  file : ∀ phdr ∈ loadSegments m img_start, phdr.p_offset + phdr.p_filesz ≤ p.elf_size
  filesz : ∀ phdr ∈ loadSegments m img_start, phdr.p_filesz ≤ phdr.p_memsz
  memory : ∀ phdr ∈ loadSegments m img_start, phdr.p_vaddr + phdr.p_memsz ≤ 2 ^ 32
  elf_end : p.elf.end_ ≤ 2 ^ 32
  boot_end : p.boot.end_ ≤ 2 ^ 32
  segments : (loadRanges m img_start).Pairwise Apart
  elf_segments : ∀ r ∈ loadRanges m img_start, Apart p.elf r
  boot_segments : ∀ r ∈ loadRanges m img_start, Apart p.boot r
  boot_elf : Apart p.boot p.elf

/-- The state in which the stub is entered. -/
structure EntersElf (m' : Memory) (c : Cpu) : Prop where
  pc : c.pc = 0
  mem : c.mem = m'
  log : c.log = []
  words : Words c

/-- What the stub is for: `m` is the memory with the image before it was loaded, `c` the state in
which the stub is entered and `c'` the one in which it is left. -/
structure ElfBoots {L : Linked} (A : ElfLabels L) (m : Memory) (img_start : Nat) (p : Placement)
    (c c' : Cpu) : Prop where
  leaves : LeavesTo (elfTrampoline A p.boot_alloc) c' (Elf32_Ehdr.at m img_start).e_entry
  boot_args : c'.reg .r0 = p.boot_alloc + L.elf_trampoline_params + 268
  file : ∀ phdr ∈ loadSegments m img_start, ∀ i < phdr.p_filesz,
    c'.mem (phdr.p_vaddr + i) = m (img_start + phdr.p_offset + i)
  zero : ∀ phdr ∈ loadSegments m img_start, ∀ i, phdr.p_filesz ≤ i → i < phdr.p_memsz →
    c'.mem (phdr.p_vaddr + i) = 0
  elf : ∀ i < p.elf_size, c'.mem (p.elf_alloc + i) = m (img_start + i)
  outside : ∀ x, (∀ r ∈ loadRanges m img_start, x < r.start ∨ r.end_ ≤ x) →
    x < p.elf.start ∨ p.elf.end_ ≤ x → x < stackLow A p.boot_alloc ∨ stackHigh A p.boot_alloc ≤ x →
    c'.mem x = c.mem x
  aligned : ∀ a ∈ c'.log, a.addr % 4 = 0
  stores : ∀ x, .store x ∈ c'.log → x = muart_base + muart_io ∨
    stackLow A p.boot_alloc ≤ x ∧ x + 4 ≤ stackHigh A p.boot_alloc

/-- What it takes, for the memory `m'` that the loader has left: an aligned stub, an image that
the stub has not been stored over, and that no routine called by the stub uses for its stack. -/
structure StubReady {L : Linked} (A : ElfLabels L) (m m' : Memory) (img_start : Nat) (p : Placement) :
    Prop where
  aligned : p.boot_alloc % 4 = 0
  off_stack : ∀ i < p.elf_size,
    img_start + i < stackLow A p.boot_alloc ∨ stackHigh A p.boot_alloc ≤ img_start + i
  image : ∀ i < p.elf_size, m' (img_start + i) = m (img_start + i)
  entry : field m' (p.boot_alloc + L.elf_trampoline_params + 264) 4 =
    (Elf32_Ehdr.at m img_start).e_entry

/-! ## Routines -/

section Loaded

variable {L : Linked} {A : ElfLabels L} {m m' : Memory} {s s' : ElfLoader} {img_start img_end : Nat}
  {elf32_p elfle_p : Bool} {machine mem_hi : Nat} {cmdline : List UInt8} {p : Placement}

theorem registerOps_count {ops : List LoaderOp} {s s' : LoaderOps} (hs : s.op_count ≤ ELF_MAX_SEGMENTS)
    (h : registerOps s ops = (true, s')) : s'.op_count ≤ ELF_MAX_SEGMENTS := by
  induction ops generalizing s with
  | nil =>
      obtain rfl : s = s' := congrArg Prod.snd h
      exact hs
  | cons op ops ih =>
      unfold registerOps register_loader_op at h
      by_cases hfull : ELF_MAX_SEGMENTS ≤ s.op_count
      · rw [if_pos hfull] at h
        cases h
      · rw [if_neg hfull] at h
        exact ih (Nat.succ_le_of_lt (Nat.lt_of_not_le hfull)) h

/-- A `load_elf_image` that returns true has stored the stub it has planned. -/
theorem load_elf_image_planned
    (h : load_elf_image L m s img_start img_end elf32_p elfle_p machine mem_hi cmdline =
      .ok (some p, m', s')) :
    ∃ s₁, planElfImage L m s img_start img_end elf32_p elfle_p machine mem_hi cmdline =
        .ok (some p, s₁) ∧ m' = writeBoot L m s₁.ops img_start cmdline p := by
  obtain ⟨⟨r, s₁⟩, hplan, h⟩ := bind_eq_ok.mp h
  cases r with
  | none => cases h
  | some q =>
      cases h
      exact ⟨s₁, hplan, rfl⟩

/-- The loader has stored the stub, with the operations of all segments. -/
theorem load_elf_image_stored (hle : img_start ≤ img_end) (hend : img_end < 2 ^ 32)
    (hlayout : ElfLayout m img_start p)
    (h : load_elf_image L m s img_start img_end elf32_p elfle_p machine mem_hi cmdline =
      .ok (some p, m', s')) :
    ∃ ops entry, StubStored L m' ops img_start entry p ∧ entry < 2 ^ 32 ∧
      ops.op_count ≤ ELF_MAX_SEGMENTS ∧
      ops.registered = (loadSegments m img_start).flatMap (segmentOps p.elf_alloc) ∧
      p.elf_size = img_end - img_start ∧ 0 < p.elf_size ∧
      p.boot_size = L.elf_trampoline.length + cmdline.length ∧
      (∀ x, x < p.boot.start ∨ p.boot.end_ ≤ x → m' x = m x) ∧
      ((∀ i < 46, img_start + i < p.boot.start ∨ p.boot.end_ ≤ img_start + i) →
        entry = (Elf32_Ehdr.at m img_start).e_entry) := by
  obtain ⟨s₁, hplan, hm'⟩ := load_elf_image_planned h
  obtain ⟨map, map₁, ops, -, helf, -, hops, -, -, hst, helfsize, hbootsize⟩ := planElfImage_true hplan
  have hregistered := registerOps_registered hops
  have hcount : ops.op_count ≤ ELF_MAX_SEGMENTS := registerOps_count (Nat.zero_le _) hops
  have hsize : p.elf_size = img_end - img_start := helfsize.trans (sub32_eq hle hend)
  have hpos : p.elf_size ≠ 0 := by
    intro hzero
    rw [allocate_space, if_pos (helfsize ▸ hzero)] at helf
    cases helf
  obtain ⟨⟨entry, hlt, hstored, hentry⟩, houtside⟩ := writeBoot_stored (L := L) m ops
    img_start hbootsize hlayout.boot_end
  rw [hst] at hm'
  rw [← hm'] at hstored houtside
  exact ⟨ops, entry, hstored, hlt, hcount, hregistered, hsize, Nat.pos_of_ne_zero hpos, hbootsize,
    houtside, hentry⟩

/-- The fields of a program header are words. -/
theorem loadSegments_words {phdr : Elf32_Phdr} (h : phdr ∈ loadSegments m img_start) :
    phdr.p_vaddr < 2 ^ 32 ∧ phdr.p_filesz < 2 ^ 32 ∧ phdr.p_memsz < 2 ^ 32 := by
  obtain ⟨i, -, rfl⟩ := List.mem_map.mp (List.mem_of_mem_filter h)
  have hfield : ∀ a, field m a 4 < 2 ^ 32 := fun a => by
    have hlt := Bytes.ofLe_lt (read m a 4)
    rwa [read_length] at hlt
  exact ⟨hfield _, hfield _, hfield _⟩

theorem ElfLayout.fits (h : ElfLayout m img_start p) {phdr : Elf32_Phdr}
    (hphdr : phdr ∈ loadSegments m img_start) : SegmentFits p.elf_alloc p.elf_size phdr :=
  ⟨h.file phdr hphdr, h.filesz phdr hphdr, h.memory phdr hphdr⟩

/-- The registered operations can be carried out by the stub. -/
theorem ElfLayout.opFits (h : ElfLayout m img_start p) (hboot : L.elf_trampoline.length ≤ p.boot_size)
    {op : LoaderOp} (hop : op ∈ (loadSegments m img_start).flatMap (segmentOps p.elf_alloc)) :
    OpFits L p.boot_alloc op := by
  obtain ⟨phdr, hphdr, hop⟩ := List.mem_flatMap.mp hop
  have hfits := h.fits hphdr
  have helf : p.elf_alloc + p.elf_size ≤ 2 ^ 32 := h.elf_end
  obtain ⟨hlo, hup⟩ := segmentOps_dst hfits hop
  obtain ⟨hvaddr, hfilesz, hmemsz⟩ := loadSegments_words hphdr
  have hmemory := h.memory phdr hphdr
  have hclear : ∀ x, p.boot_alloc ≤ x → x < p.boot_alloc + L.elf_trampoline.length →
      x < op.dst ∨ op.dst + op.size ≤ x := by
    intro x hx hx'
    have hapart := h.boot_segments phdr.range (List.mem_map_of_mem hphdr) x
    simp only [Placement.boot, Elf32_Phdr.range] at hapart
    omega
  have hadd : ∀ a b, add32 a b < 2 ^ 32 := fun a b => Nat.mod_lt _ (by decide)
  refine ⟨?_, by omega, hclear, fun dst src size heq => ?_⟩
  · unfold segmentOps at hop
    rcases List.mem_append.mp hop with hop | hop
    · split at hop
      · obtain rfl := List.mem_singleton.mp hop
        exact ⟨hvaddr, hadd _ _, hfilesz⟩
      · cases hop
    · split at hop
      · obtain rfl := List.mem_singleton.mp hop
        exact ⟨hadd _ _, Nat.lt_of_le_of_lt (Nat.sub_le _ _) hmemsz, Nat.two_pow_pos 32⟩
      · cases hop
  · subst heq
    obtain ⟨hsrc, hsrc'⟩ := segmentOps_src hfits helf hop
    refine ⟨by omega, fun x hx hx' => ?_⟩
    have hapart := h.boot_elf x
    simp only [Placement.boot, Placement.elf] at hapart
    omega

/-- The run of the stub that the loader has left, for a move that stores to the new place alone. -/
theorem elf_stub_run {E : ElfEnv} {c : Cpu} (hle : img_start ≤ img_end) (hend : img_end < 2 ^ 32)
    (hlayout : ElfLayout m img_start p)
    (h : load_elf_image L m s img_start img_end elf32_p elfle_p machine mem_hi cmdline =
      .ok (some p, m', s'))
    (hmove : Memmoves E.aeabi_memmove) (hset : Memsets E.aeabi_memset) (hc : EntersElf m' c)
    (hkept : ∀ c₁, AtMove A m' img_start p c₁ → ReturnsTo c₁ (E.aeabi_memmove c₁) ∧
      ∀ x, x < p.elf_alloc ∨ p.elf_alloc + p.elf_size ≤ x → ¬OnStack c₁ x →
        (E.aeabi_memmove c₁).mem x = c₁.mem x) :
    ∃ c₁ c', AtMove A m' img_start p c₁ ∧
      ElfStubRuns A p.boot_alloc E c c' ∧ c'.pc = 45 ∧
      c'.reg .r9 = field m' (p.boot_alloc + L.elf_trampoline_params + 264) 4 ∧
      c'.reg .r0 = p.boot_alloc + L.elf_trampoline_params + 268 ∧
      SameOff A p.boot_alloc c'.mem (((loadSegments m img_start).flatMap
        (segmentOps p.elf_alloc)).foldl LoaderOp.run (E.aeabi_memmove c₁).mem) ∧
      Accesses A p.boot_alloc c'.log ∧
      .load (p.boot_alloc + L.elf_trampoline_params + 264) ∈ c'.log := by
  obtain ⟨ops, entry, hstored, hentry, hcount, hregistered, hsize, hpos, hboot, -, -⟩ :=
    load_elf_image_stored hle hend hlayout h
  have helf : p.elf_alloc + p.elf_size ≤ 2 ^ 32 := hlayout.elf_end
  have hbootend : p.boot_alloc + p.boot_size ≤ 2 ^ 32 := hlayout.boot_end
  have hfits : ∀ op ∈ ops.registered, OpFits L p.boot_alloc op := by
    rw [hregistered]
    exact fun op hop => hlayout.opFits (by omega) hop
  obtain ⟨c₁, hat, hrest⟩ := stub_runs (A := A) hmove hset hstored (by omega) hcount hfits hentry
    (by omega) (by omega) (by omega) hc.pc hc.mem hc.log hc.words
  obtain ⟨hret, hout⟩ := hkept c₁ hat
  obtain ⟨c', hrun, hpc, h9, h0', hmem, hlog, hload⟩ := hrest hret fun x hlo hhi => by
    refine hout x ?_ fun hstack => ?_
    · have hapart := hlayout.boot_elf x
      simp only [Placement.boot, Placement.elf] at hapart
      omega
    · have hin := (onStack_iff hat.sp).mp hstack
      have hhigh : stackHigh A p.boot_alloc = p.boot_alloc + A.stack + 256 := rfl
      have hbelow := A.stack_below
      have htext := A.text_below
      omega
  have hword : field m' (p.boot_alloc + L.elf_trampoline_params + 264) 4 = entry := by
    have hargs := hstored.args
    rw [List.append_assoc] at hargs
    exact (words_of_read (b := Bytes.leBytes 4 p.elf_alloc ++ Bytes.leBytes 4 p.elf_size) hargs
      hentry).1
  rw [hregistered] at hmem
  exact ⟨c₁, c', hat, hrun, hpc, h9.trans hword.symm, h0', hmem, hlog, hload⟩

/-- What the stub does not store to when it carries out the operations. -/
theorem ElfLayout.ops_clear (h : ElfLayout m img_start p) {x : Nat}
    (hx : ∀ r ∈ loadRanges m img_start, x < r.start ∨ r.end_ ≤ x) (M : Memory) :
    ((loadSegments m img_start).flatMap (segmentOps p.elf_alloc)).foldl LoaderOp.run M x = M x := by
  refine runs_outside fun op hop => ?_
  obtain ⟨phdr, hphdr, hop⟩ := List.mem_flatMap.mp hop
  obtain ⟨hlo, hup⟩ := segmentOps_dst (h.fits hphdr) hop
  have hout := hx phdr.range (List.mem_map_of_mem hphdr)
  simp only [Elf32_Phdr.range] at hout
  omega

/-- The new place of the file is off the stack, and no segment meets it. -/
theorem ElfLayout.elf_clear (h : ElfLayout m img_start p)
    (hboot : p.boot_size = L.elf_trampoline.length + cmdline.length) {i : Nat} (hi : i < p.elf_size) :
    (∀ r ∈ loadRanges m img_start, p.elf_alloc + i < r.start ∨ r.end_ ≤ p.elf_alloc + i) ∧
      (p.elf_alloc + i < stackLow A p.boot_alloc ∨ stackHigh A p.boot_alloc ≤ p.elf_alloc + i) := by
  constructor
  · intro r hr
    have hapart := h.elf_segments r hr (p.elf_alloc + i)
    simp only [Placement.elf] at hapart
    omega
  · have hapart := h.boot_elf (p.elf_alloc + i)
    simp only [Placement.boot, Placement.elf] at hapart
    have hhigh : stackHigh A p.boot_alloc = p.boot_alloc + A.stack + 256 := rfl
    have hlow : stackLow A p.boot_alloc = p.boot_alloc + A.stack := rfl
    have hbelow := A.stack_below
    have htext := A.text_below
    have hlast := L.params_last
    omega

theorem ElfLayout.given_elf (h : ElfLayout m img_start p)
    (hboot : p.boot_size = L.elf_trampoline.length + cmdline.length) {c : Cpu}
    (hsp : c.reg .sp = stackHigh A p.boot_alloc) : Given c p.elf_alloc p.elf_size := by
  refine ⟨h.elf_end, fun i hi hstack => ?_⟩
  have hin := (onStack_iff hsp).mp hstack
  obtain ⟨-, hout⟩ := h.elf_clear (A := A) hboot hi
  omega

/-- The image can be given to a routine that has no use for its bytes as a stack. -/
theorem given_image {c : Cpu} (himg : img_start + p.elf_size ≤ 2 ^ 32)
    (hsp : c.reg .sp = stackHigh A p.boot_alloc)
    (hoff : ∀ i < p.elf_size,
      img_start + i < stackLow A p.boot_alloc ∨ stackHigh A p.boot_alloc ≤ img_start + i) :
    Given c img_start p.elf_size := by
  refine ⟨himg, fun i hi hstack => ?_⟩
  have hin := (onStack_iff hsp).mp hstack
  have hout := hoff i hi
  omega

/-- The stub may call for the move, if no routine uses the image for its stack. -/
theorem AtMove.canMove {c₁ : Cpu} (hat : AtMove A m' img_start p c₁) (hlayout : ElfLayout m img_start p)
    (hboot : p.boot_size = L.elf_trampoline.length + cmdline.length)
    (himg : img_start + p.elf_size ≤ 2 ^ 32)
    (hoff : ∀ i < p.elf_size,
      img_start + i < stackLow A p.boot_alloc ∨ stackHigh A p.boot_alloc ≤ img_start + i) :
    Callable c₁ ∧ CanMove c₁ := by
  refine ⟨callable_of_sp hat.words hat.sp, ?_⟩
  rw [CanMove, hat.dst, hat.src, hat.size]
  exact ⟨hlayout.given_elf hboot hat.sp, given_image himg hat.sp hoff⟩

theorem AtMove.kept {E : ElfEnv} {c₁ : Cpu} (hat : AtMove A m' img_start p c₁)
    (hmove : Memmoves E.aeabi_memmove) (hcan : Callable c₁ ∧ CanMove c₁) :
    ReturnsTo c₁ (E.aeabi_memmove c₁) ∧
      ∀ x, x < p.elf_alloc ∨ p.elf_alloc + p.elf_size ≤ x → ¬OnStack c₁ x →
        (E.aeabi_memmove c₁).mem x = c₁.mem x := by
  refine ⟨hmove.returns c₁ hcan.1 hcan.2, fun x hx hstack =>
    hmove.outside c₁ hcan.1 hcan.2 x ?_ hstack⟩
  rw [hat.dst, hat.size]
  exact hx

theorem AtMove.moved {E : ElfEnv} {c₁ : Cpu} (hat : AtMove A m' img_start p c₁)
    (hmove : Memmoves E.aeabi_memmove) (hcan : Callable c₁ ∧ CanMove c₁)
    (hoff : ∀ i < p.elf_size,
      img_start + i < stackLow A p.boot_alloc ∨ stackHigh A p.boot_alloc ≤ img_start + i)
    {i : Nat} (hi : i < p.elf_size) :
    (E.aeabi_memmove c₁).mem (p.elf_alloc + i) = m' (img_start + i) := by
  have hmoved := hmove.moves c₁ hcan.1 hcan.2 i (hat.size ▸ hi)
  rw [hat.dst, hat.src] at hmoved
  exact hmoved.trans (hat.mem _ (hoff i hi))

/-- A stub that is ready does what it is for, whatever its routines do. -/
theorem StubReady.boots {E : ElfEnv} {c : Cpu} (hready : StubReady A m m' img_start p)
    (hle : img_start ≤ img_end) (hend : img_end < 2 ^ 32) (hlayout : ElfLayout m img_start p)
    (h : load_elf_image L m s img_start img_end elf32_p elfle_p machine mem_hi cmdline =
      .ok (some p, m', s'))
    (hmove : Memmoves E.aeabi_memmove) (hset : Memsets E.aeabi_memset) (hc : EntersElf m' c) :
    ∃ c', ElfStubRuns A p.boot_alloc E c c' ∧ ElfBoots A m img_start p c c' := by
  obtain ⟨-, -, -, -, -, -, hsize, -, hboot, -, -⟩ := load_elf_image_stored hle hend hlayout h
  have himg : img_start + p.elf_size ≤ 2 ^ 32 := by omega
  obtain ⟨c₁, c', hat, hrun, hpc, h9, h0', hmem, hlog, -⟩ :=
    elf_stub_run (A := A) hle hend hlayout h hmove hset hc fun c₁ hat =>
      hat.kept hmove (hat.canMove hlayout hboot himg hready.off_stack)
  have hcan := hat.canMove hlayout hboot himg hready.off_stack
  have hmoved : ∀ i < p.elf_size, (E.aeabi_memmove c₁).mem (p.elf_alloc + i) = m' (img_start + i) :=
    fun i hi => hat.moved hmove hcan hready.off_stack hi
  have hlast := L.params_last
  have hfilled := segments_run (m := (E.aeabi_memmove c₁).mem) (fun phdr hphdr => hlayout.fits hphdr)
    hlayout.elf_end (List.pairwise_map.mp hlayout.segments)
    (fun phdr hphdr => hlayout.elf_segments phdr.range (List.mem_map_of_mem hphdr))
  -- no segment meets the stack
  have hsegment : ∀ phdr ∈ loadSegments m img_start, ∀ i < phdr.p_memsz,
      phdr.p_vaddr + i < stackLow A p.boot_alloc ∨ stackHigh A p.boot_alloc ≤ phdr.p_vaddr + i := by
    intro phdr hphdr i hi
    by_contra hon
    have hstack : stackLow A p.boot_alloc ≤ phdr.p_vaddr + i ∧
      phdr.p_vaddr + i < stackHigh A p.boot_alloc := by omega
    have hin := stack_inside hstack
    have hapart := hlayout.boot_segments phdr.range (List.mem_map_of_mem hphdr) (phdr.p_vaddr + i)
    simp only [Placement.boot, Elf32_Phdr.range] at hapart
    omega
  refine ⟨c', hrun, ⟨⟨.r9, by rw [hpc]; rfl, h9.trans hready.entry⟩, h0', ?_, ?_, ?_, ?_,
    hlog.aligned hready.aligned, hlog.stores⟩⟩
  · intro phdr hphdr i hi
    have hfilesz := hlayout.filesz phdr hphdr
    have hfile := hlayout.file phdr hphdr
    rw [hmem _ (hsegment phdr hphdr i (by omega)), (hfilled phdr hphdr).1 i hi,
      Nat.add_assoc, hmoved _ (by omega), hready.image _ (by omega), Nat.add_assoc]
  · intro phdr hphdr i hlo hhi
    rw [hmem _ (hsegment phdr hphdr i hhi), (hfilled phdr hphdr).2 i hlo hhi]
  · intro i hi
    obtain ⟨hclear, hoff⟩ := hlayout.elf_clear (A := A) hboot hi
    rw [hmem _ hoff, hlayout.ops_clear hclear, hmoved i hi, hready.image i hi]
  · intro x hclear hx hoff
    have hstack : ¬OnStack c₁ x := fun hstack => by
      have hin := (onStack_iff hat.sp).mp hstack
      omega
    rw [hmem x hoff, hlayout.ops_clear hclear, (hat.kept hmove hcan).2 x hx hstack, hat.mem x hoff, hc.mem]

/-! ## When it does -/

/-- An aligned stub that keeps clear of the image is ready. -/
theorem StubReady.of_apart (hle : img_start ≤ img_end) (hend : img_end < 2 ^ 32)
    (hlayout : ElfLayout m img_start p)
    (h : load_elf_image L m s img_start img_end elf32_p elfle_p machine mem_hi cmdline =
      .ok (some p, m', s'))
    (hheader : img_start + 46 ≤ img_end) (haligned : p.boot_alloc % 4 = 0)
    (hapart : Apart p.boot ⟨img_start, img_end⟩) : StubReady A m m' img_start p := by
  obtain ⟨ops, entry, hstored, hlt, -, -, hsize, -, hboot, houtside, hentry⟩ :=
    load_elf_image_stored hle hend hlayout h
  have hclear : ∀ i < p.elf_size, img_start + i < p.boot.start ∨ p.boot.end_ ≤ img_start + i := by
    intro i hi
    have hout := hapart (img_start + i)
    simp only at hout
    omega
  refine ⟨haligned, fun i hi => ?_, fun i hi => houtside _ (hclear i hi), ?_⟩
  · have hout : img_start + i < p.boot_alloc ∨ p.boot_alloc + p.boot_size ≤ img_start + i := hclear i hi
    have hlast := L.params_last
    by_contra hon
    have hstack : stackLow A p.boot_alloc ≤ img_start + i ∧
      img_start + i < stackHigh A p.boot_alloc := by omega
    have hin := stack_inside hstack
    omega
  · rw [← hentry fun i hi => hclear i (by omega)]
    have hargs := hstored.args
    rw [List.append_assoc] at hargs
    exact (words_of_read (b := Bytes.leBytes 4 p.elf_alloc ++ Bytes.leBytes 4 p.elf_size) hargs hlt).1

end Loaded

/-- Places that are safe for a well-formed image are all it takes. -/
theorem safe_placement_boots {L : Linked} {A : ElfLabels L} {m m' : Memory} {s s' : ElfLoader}
    {img_end : Nat} {p : Placement} {E : ElfEnv} {c : Cpu} (hwf : WellFormedElf m L.prog_end img_end)
    (h : load_elf_image L m s L.prog_end img_end true true EM_ARM DRAM_LIMIT [] =
      .ok (some p, m', s'))
    (hsafe : p.Safe L (loadRanges m L.prog_end) L.prog_end img_end)
    (hmove : Memmoves E.aeabi_memmove) (hset : Memsets E.aeabi_memset) (hc : EntersElf m' c) :
    ∃ c', ElfStubRuns A p.boot_alloc E c c' ∧ ElfBoots A m L.prog_end p c c' := by
  have hD : DRAM_LIMIT = 0x20000000 := rfl
  have hheader := hwf.header_inside
  have hend := hwf.img_end_lt
  have hsize : p.elf_size = img_end - L.prog_end := by
    obtain ⟨s₁, hplan, -⟩ := load_elf_image_planned h
    obtain ⟨-, -, -, -, -, -, -, -, -, -, helfsize, -⟩ := planElfImage_true hplan
    exact helfsize.trans (sub32_eq (by omega) hend)
  have hbelow := hsafe.elf_below
  have hbootbelow := hsafe.boot_below
  have hlayout : ElfLayout m L.prog_end p :=
    { file := fun phdr hphdr => by
        have hfile := hwf.file_inside phdr hphdr
        omega
      filesz := hwf.filesz_le
      memory := fun phdr hphdr => by
        have hphdr := hwf.below phdr hphdr
        omega
      elf_end := by omega
      boot_end := by omega
      segments := hwf.apart
      elf_segments := hsafe.elf_segments
      boot_segments := hsafe.boot_segments
      boot_elf := hsafe.boot_elf }
  exact (StubReady.of_apart (by omega) hend hlayout h (by omega) hsafe.boot_aligned
    hsafe.boot_image).boots (by omega) hend hlayout h hmove hset hc

/-! ## A stub of its text alone -/

/-- A loader of eight bytes whose ELF stub has a stack, the text and the block. -/
def Linked.printing : Linked where
  prog_start := 0x8000
  prog_end := 0x8008
  trampoline := []
  elf_trampoline := List.replicate 256 0 ++ enteredText ++ List.replicate 283 0
  elf_trampoline_params := 280
  prog_nonempty := Linked.tiny.prog_nonempty
  prog_aligned := Linked.tiny.prog_aligned
  prog_fits := Linked.tiny.prog_fits
  params_last := by decide +kernel
  stub_fits := by decide +kernel

def ElfLabels.printing : ElfLabels Linked.printing where
  S_PRINT_HEX := 0
  stack := 0
  S_INVALID_OPCODE := 0
  S_0 := 256
  P_0 := 280
  stack_aligned := rfl
  params_aligned := rfl
  stack_below := Nat.le_refl _
  P_0_below := Nat.le_refl _
  text_below := by decide
  text_eq := by decide

end Bcm2835.Pup

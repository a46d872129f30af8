import Bcm2835.Pup.Theorems.ElfPlacement

/-!
# What the ELF loader takes on trust

`load_elf_image` checks the identification of an image and takes its tables, offsets and sizes
as they are. `load_elf_image_trusts` says what follows when these fit the image and the memory,
and which images end the call instead.
-/

namespace Bcm2835.Pup

open Mem FirstFit

/-! ## Reads -/

/-- The header fields that are read: of `Elf32_Ehdr` up to `e_phnum`, and of each `Elf32_Phdr` all. -/
def headerReads (m : Memory) (img_start : Nat) : List Range :=
  ⟨img_start, img_start + 46⟩ :: (List.range (Elf32_Ehdr.at m img_start).e_phnum).map fun i =>
    let phdr := add32 (add32 img_start (Elf32_Ehdr.at m img_start).e_phoff)
      (i * (Elf32_Ehdr.at m img_start).e_phentsize)
    ⟨phdr, phdr + 32⟩

theorem read_congr {m m' : Memory} {a n : Nat} (h : ∀ i < n, m' (a + i) = m (a + i)) :
    read m' a n = read m a n := by
  refine List.map_congr_left fun i hi => ?_
  exact h i (List.mem_range.mp hi)

theorem field_congr {m m' : Memory} {a n : Nat} (h : ∀ i < n, m' (a + i) = m (a + i)) :
    field m' a n = field m a n := congrArg Bytes.ofLe (read_congr h)

theorem ehdr_congr {m m' : Memory} {a : Nat} (h : ∀ i < 46, m' (a + i) = m (a + i)) :
    Elf32_Ehdr.at m' a = Elf32_Ehdr.at m a := by
  have hfield : ∀ o n, o + n ≤ 46 → field m' (a + o) n = field m (a + o) n := by
    intro o n hn
    refine field_congr fun i hi => ?_
    rw [Nat.add_assoc]
    exact h (o + i) (by omega)
  unfold Elf32_Ehdr.at
  rw [read_congr fun i hi => h i (by omega), hfield 16 2 (by decide), hfield 18 2 (by decide),
    hfield 20 4 (by decide), hfield 24 4 (by decide), hfield 28 4 (by decide), hfield 42 2 (by decide),
    hfield 44 2 (by decide)]

theorem phdr_congr {m m' : Memory} {a : Nat} (h : ∀ i < 32, m' (a + i) = m (a + i)) :
    Elf32_Phdr.at m' a = Elf32_Phdr.at m a := by
  have hfield : ∀ o n, o + n ≤ 32 → field m' (a + o) n = field m (a + o) n := by
    intro o n hn
    refine field_congr fun i hi => ?_
    rw [Nat.add_assoc]
    exact h (o + i) (by omega)
  unfold Elf32_Phdr.at
  rw [field_congr fun i hi => h i (by omega), hfield 4 4 (by decide), hfield 8 4 (by decide),
    hfield 16 4 (by decide), hfield 20 4 (by decide)]

/-- Nothing else of the memory has a part in what the loader decides. -/
theorem planElfImage_congr (L : Linked) {m m' : Memory} {img_start : Nat} (s : ElfLoader)
    (img_end : Nat) (elf32_p elfle_p : Bool) (machine mem_hi : Nat) (cmdline : List UInt8)
    (h : ∀ r ∈ headerReads m img_start, ∀ a, r.start ≤ a → a < r.end_ → m' a = m a) :
    planElfImage L m' s img_start img_end elf32_p elfle_p machine mem_hi cmdline =
      planElfImage L m s img_start img_end elf32_p elfle_p machine mem_hi cmdline := by
  have hehdr : Elf32_Ehdr.at m' img_start = Elf32_Ehdr.at m img_start :=
    ehdr_congr fun i hi => h _ List.mem_cons_self _ (Nat.le_add_right _ _) (Nat.add_lt_add_left hi _)
  have hphdrs : phdrs m' img_start (Elf32_Ehdr.at m img_start) =
      phdrs m img_start (Elf32_Ehdr.at m img_start) := by
    refine List.map_congr_left fun i hi => phdr_congr fun j hj => ?_
    exact h _ (List.mem_cons_of_mem _ (List.mem_map_of_mem hi)) _ (Nat.le_add_right _ _)
      (Nat.add_lt_add_left hj _)
  unfold planElfImage
  simp only [hehdr, hphdrs]

/-! ## Operations -/

/-- The registered operations. -/
def LoaderOps.registered (s : LoaderOps) : List LoaderOp := Buf.taken s.loader_ops s.op_count

def LoaderOp.dst : LoaderOp → Nat
  | .copy dst _ _ => dst
  | .zero dst _ _ => dst

def LoaderOp.size : LoaderOp → Nat
  | .copy _ _ size => size
  | .zero _ size _ => size

theorem registerOps_registered : ∀ {ops : List LoaderOp} {s s' : LoaderOps},
    registerOps s ops = (true, s') → s'.registered = s.registered ++ ops := by
  intro ops
  induction ops with
  | nil =>
      intro s s' h
      obtain rfl : s = s' := congrArg Prod.snd h
      exact (List.append_nil _).symm
  | cons op ops ih =>
      intro s s' h
      unfold registerOps at h
      unfold register_loader_op at h
      by_cases hfull : ELF_MAX_SEGMENTS ≤ s.op_count
      · rw [if_pos hfull] at h
        cases h
      · rw [if_neg hfull] at h
        rw [ih h]
        show Buf.taken (Function.update s.loader_ops s.op_count op) (s.op_count + 1) ++ ops = _
        rw [Buf.taken_update, List.append_assoc]
        rfl

/-- A segment's operations start in its memory, and end there if the file has no more than it holds. -/
theorem segmentOps_inside {elf_alloc : Nat} {phdr : Elf32_Phdr} {op : LoaderOp}
    (hop : op ∈ segmentOps elf_alloc phdr) (hfile : phdr.p_filesz ≤ phdr.p_memsz)
    (hwrap : phdr.p_vaddr + phdr.p_memsz < 2 ^ 32) :
    phdr.range.start ≤ op.dst ∧ op.dst + op.size ≤ phdr.range.end_ := by
  show phdr.p_vaddr ≤ op.dst ∧ op.dst + op.size ≤ phdr.p_vaddr + phdr.p_memsz
  unfold segmentOps at hop
  rcases List.mem_append.mp hop with h | h
  · split at h
    · obtain rfl := List.mem_singleton.mp h
      exact ⟨Nat.le_refl _, Nat.add_le_add_left hfile _⟩
    · cases h
  · split at h
    · obtain rfl := List.mem_singleton.mp h
      show phdr.p_vaddr ≤ add32 phdr.p_vaddr phdr.p_filesz ∧
        add32 phdr.p_vaddr phdr.p_filesz + (phdr.p_memsz - phdr.p_filesz) ≤ _
      rw [add32_eq (by omega)]
      omega
    · cases h

/-- What a segment copies is in the file if its part of the file is. -/
theorem segmentOps_copy {elf_alloc elf_size : Nat} {phdr : Elf32_Phdr} {dst src size : Nat}
    (hop : .copy dst src size ∈ segmentOps elf_alloc phdr)
    (hfile : phdr.p_offset + phdr.p_filesz ≤ elf_size) :
    span (2 ^ 32) src size ⊆ span (2 ^ 32) elf_alloc elf_size := by
  unfold segmentOps at hop
  rcases List.mem_append.mp hop with h | h
  · split at h
    · obtain ⟨rfl, rfl, rfl⟩ : dst = phdr.p_vaddr ∧ src = add32 elf_alloc phdr.p_offset ∧
          size = phdr.p_filesz := by
        have heq := List.mem_singleton.mp h
        injection heq with h1 h2 h3
        exact ⟨h1, h2, h3⟩
      intro a ha
      obtain ⟨i, hi, rfl⟩ := mem_span.mp ha
      refine mem_span.mpr ⟨phdr.p_offset + i, by omega, ?_⟩
      unfold add32
      rw [Nat.mod_add_mod, Nat.add_assoc]
    · cases h
  · split at h
    · cases List.mem_singleton.mp h
    · cases h

/-! ## The memory map -/

theorem claim_space_keeps {s s' : MemoryMap} {r : Range} {force ok : Bool}
    (h : claim_space s r force = .ok (ok, s')) : ∀ x ∈ s.claimed, x ∈ s'.claimed := by
  intro x hx
  by_cases hok : s.Takes force
  · have hcount : s.range_count < ELF_MAX_SEGMENTS + 2 := by
      obtain ⟨hno, -⟩ | ⟨-, -, hcount, -⟩ := claim_space_ok h
      · exact absurd hok hno
      · exact hcount
    have hspares : s.Spares r.start := by
      by_contra hnot
      rw [claim_space_overruns hok hnot] at h
      cases h
    obtain ⟨s₁, hs₁, hclaimed, -⟩ := claim_space_claimed hcount hok hspares
    obtain ⟨-, rfl⟩ := Prod.mk.inj (Except.ok.inj (hs₁.symm.trans h))
    rw [hclaimed]
    exact mem_insertStart.mpr (.inr hx)
  · rw [claim_space_refused hok] at h
    obtain ⟨-, rfl⟩ := Prod.mk.inj (Except.ok.inj h)
    exact hx

theorem allocate_space_keeps {s s' : MemoryMap} {n p : Nat} {allowed : Range} {force : Bool}
    (h : allocate_space s n allowed force = .ok (p, s')) : ∀ x ∈ s.claimed, x ∈ s'.claimed := by
  unfold allocate_space at h
  split at h
  · cases h
  · split at h
    · cases h
      exact fun x hx => hx
    · obtain ⟨⟨ok, s₁⟩, hclaim, h⟩ := bind_eq_ok.mp h
      cases h
      exact claim_space_keeps hclaim

theorem allocateBoot_keeps {L : Linked} {s s' : MemoryMap} {n mem_hi p : Nat}
    (h : allocateBoot L s n mem_hi = .ok (p, s')) : ∀ x ∈ s.claimed, x ∈ s'.claimed := by
  unfold allocateBoot at h
  obtain ⟨⟨b, s₁⟩, hbelow, h⟩ := bind_eq_ok.mp h
  simp only at h
  split at h
  · exact fun x hx => allocate_space_keeps h x (allocate_space_keeps hbelow x hx)
  · cases h
    exact allocate_space_keeps hbelow

/-! ## Calls that do not come back -/

/-- A claim comes back unless seventeen ranges are in the map. -/
theorem claim_space_error {s : MemoryMap} {r : Range} {force : Bool} {e : ElfFault}
    (h : claim_space s r force = .error e) : ELF_MAX_SEGMENTS + 1 ≤ s.range_count := by
  by_contra hlt
  rw [Nat.not_le] at hlt
  by_cases hok : s.Takes force
  · obtain ⟨s', hs', -⟩ := claim_space_claimed (r := r) (Nat.lt_succ_of_lt hlt) hok (.of_lt hlt)
    rw [hs'] at h
    cases h
  · rw [claim_space_refused hok] at h
    cases h

theorem claim_space_count {s s' : MemoryMap} {r : Range} {force ok : Bool}
    (h : claim_space s r force = .ok (ok, s')) : s'.range_count ≤ s.range_count + 1 := by
  obtain ⟨-, -, rfl⟩ | ⟨-, -, hcount, ⟨-, rfl⟩ | ⟨-, i, -, rfl⟩⟩ := claim_space_ok h
  · exact Nat.le_succ _
  · exact Nat.le_refl _
  · exact Nat.le_refl _

theorem allocate_space_error {s : MemoryMap} {n : Nat} {allowed : Range} {force : Bool}
    {e : ElfFault} (h : allocate_space s n allowed force = .error e) :
    (e = .assert ∧ n = 0) ∨ ELF_MAX_SEGMENTS + 1 ≤ s.range_count := by
  by_cases hn : n = 0
  · rw [allocate_space, if_pos hn] at h
    exact .inl ⟨(Except.error.inj h).symm, hn⟩
  · cases hloop : allocateLoop s.entry n allowed s.range_count 0 allowed.start with
    | none =>
        rw [allocate_space_none hn hloop] at h
        cases h
    | some p =>
        rw [allocate_space_some hn hloop] at h
        obtain h | ⟨_, -, h⟩ := bind_eq_error.mp h
        · exact .inr (claim_space_error h)
        · cases h

theorem allocate_space_count {s s' : MemoryMap} {n p : Nat} {allowed : Range} {force : Bool}
    (h : allocate_space s n allowed force = .ok (p, s')) : s'.range_count ≤ s.range_count + 1 := by
  unfold allocate_space at h
  split at h
  · cases h
  · split at h
    · cases h
      exact Nat.le_succ _
    · obtain ⟨⟨ok, s₁⟩, hclaim, h⟩ := bind_eq_ok.mp h
      cases h
      exact claim_space_count hclaim

/-- The stub is placed in at most two attempts, each with a claim. -/
theorem allocateBoot_error {L : Linked} {s : MemoryMap} {n mem_hi : Nat} {e : ElfFault} (hn : n ≠ 0)
    (h : allocateBoot L s n mem_hi = .error e) : ELF_MAX_SEGMENTS ≤ s.range_count := by
  unfold allocateBoot at h
  obtain h | ⟨⟨b, s₁⟩, hbelow, h⟩ := bind_eq_error.mp h
  · have := (allocate_space_error h).resolve_left fun h => hn h.2
    omega
  · have hcount := allocate_space_count hbelow
    simp only at h
    split at h
    · have := (allocate_space_error h).resolve_left fun h => hn h.2
      omega
    · cases h

/-- With fewer than fifteen segments, the loader comes back from every image that is not empty. -/
theorem load_elf_image_error {L : Linked} {m : Memory} {s : ElfLoader} {img_start img_end : Nat}
    {elf32_p elfle_p : Bool} {machine mem_hi : Nat} {cmdline : List UInt8} {e : ElfFault}
    (h : load_elf_image L m s img_start img_end elf32_p elfle_p machine mem_hi cmdline = .error e) :
    (e = .assert ∧ sub32 img_end img_start = 0) ∨
      ELF_MAX_SEGMENTS - 1 ≤ (loadSegments m img_start).length := by
  have hplan : planElfImage L m s img_start img_end elf32_p elfle_p machine mem_hi cmdline =
      .error e := by
    obtain h | ⟨⟨r, s₁⟩, -, h⟩ := bind_eq_error.mp h
    · exact h
    · cases r <;> cases h
  obtain ⟨map, hmap, hcount, -⟩ :=
    claimSegments_lists (loadSegments m img_start) (Nat.zero_le _) s.map.lists_reset
  have hcount : map.range_count ≤ (loadSegments m img_start).length := by
    rw [hcount, MemoryMap.reset_range_count]
    omega
  unfold planElfImage at hplan
  simp only at hplan
  split at hplan
  · cases hplan
  change claimSegments s.map.reset (loadSegments m img_start) >>= _ = _ at hplan
  rw [hmap, ok_bind] at hplan
  obtain hplan | ⟨⟨p, map₁⟩, helf, hplan⟩ := bind_eq_error.mp hplan
  · obtain hempty | hfull := allocate_space_error hplan
    · exact .inl hempty
    · right
      omega
  · right
    have hcount₁ := allocate_space_count helf
    simp only at hplan
    split at hplan
    · cases hplan
    split at hplan
    · cases hplan
    obtain hplan | ⟨⟨b, map₂⟩, -, hplan⟩ := bind_eq_error.mp hplan
    · have hstub : L.elf_trampoline.length + cmdline.length ≠ 0 := by
        have := L.stub_pos
        omega
      have := allocateBoot_error hstub hplan
      omega
    · simp only at hplan
      split at hplan <;> cases hplan

/-! ## Consistent images -/

/-- Tables, offsets and sizes fit the image and the memory, and the map has room for the segments. -/
structure ConsistentElf (m : Memory) (img_start img_end mem_hi : Nat) : Prop where
  header : img_start + 52 ≤ img_end
  phentsize : 32 ≤ (Elf32_Ehdr.at m img_start).e_phentsize
  phdrs : img_start + (Elf32_Ehdr.at m img_start).e_phoff +
    (Elf32_Ehdr.at m img_start).e_phnum * (Elf32_Ehdr.at m img_start).e_phentsize ≤ img_end
  file : ∀ phdr ∈ loadSegments m img_start, phdr.p_offset + phdr.p_filesz ≤ img_end - img_start
  filesz : ∀ phdr ∈ loadSegments m img_start, phdr.p_filesz ≤ phdr.p_memsz
  below : ∀ phdr ∈ loadSegments m img_start, phdr.p_vaddr + phdr.p_memsz ≤ mem_hi
  count : (loadSegments m img_start).length ≤ ELF_MAX_SEGMENTS

/-- Reads in the image, copies out of the file, stores into segments, and every segment recorded. -/
structure LoadInside (m : Memory) (s : ElfLoader) (p : Placement) (img_start img_end mem_hi : Nat) :
    Prop where
  reads : ∀ r ∈ headerReads m img_start, img_start ≤ r.start ∧ r.end_ ≤ img_end
  copies : ∀ dst src size, .copy dst src size ∈ s.ops.registered →
    span (2 ^ 32) src size ⊆ span (2 ^ 32) p.elf_alloc p.elf_size
  dests : ∀ op ∈ s.ops.registered, ∃ phdr ∈ loadSegments m img_start,
    phdr.range ∈ s.map.claimed ∧ phdr.range.end_ ≤ mem_hi ∧
      phdr.range.start ≤ op.dst ∧ op.dst + op.size ≤ phdr.range.end_
  recorded : ∀ phdr ∈ loadSegments m img_start, phdr.range ∈ s.map.claimed

variable {m : Memory} {img_start img_end mem_hi : Nat}

theorem ConsistentElf.reads_inside (h : ConsistentElf m img_start img_end mem_hi)
    (hend : img_end < 2 ^ 32) : ∀ r ∈ headerReads m img_start, img_start ≤ r.start ∧ r.end_ ≤ img_end := by
  have hheader := h.header
  have hphdrs := h.phdrs
  have hsize := h.phentsize
  intro r hr
  rcases List.mem_cons.mp hr with rfl | hr
  · exact ⟨Nat.le_refl _, show img_start + 46 ≤ img_end by omega⟩
  · obtain ⟨i, hi, rfl⟩ := List.mem_map.mp hr
    have hnum : i < (Elf32_Ehdr.at m img_start).e_phnum := List.mem_range.mp hi
    -- header `i` ends before the table does
    have htable : i * (Elf32_Ehdr.at m img_start).e_phentsize + (Elf32_Ehdr.at m img_start).e_phentsize ≤
        (Elf32_Ehdr.at m img_start).e_phnum * (Elf32_Ehdr.at m img_start).e_phentsize := by
      rw [← Nat.succ_mul]
      exact Nat.mul_le_mul_right _ hnum
    show img_start ≤ add32 (add32 img_start _) _ ∧ add32 (add32 img_start _) _ + 32 ≤ img_end
    have hfirst : add32 img_start (Elf32_Ehdr.at m img_start).e_phoff =
        img_start + (Elf32_Ehdr.at m img_start).e_phoff := add32_eq (by omega)
    rw [hfirst, add32_eq (by omega)]
    omega

/-- The loader checks the identification alone. A call that does not come back has been given an
empty image or fifteen segments at least. What a call that returns true registers is what the
segments say, in their order, and an image that is consistent is loaded inside its bounds. -/
theorem load_elf_image_trusts {L : Linked} {s : ElfLoader} {elf32_p elfle_p : Bool}
    {machine : Nat} {cmdline : List UInt8} (hle : img_start ≤ img_end)
    (hend : img_end < 2 ^ 32) (hhi : mem_hi < 2 ^ 32) :
    (∀ e, load_elf_image L m s img_start img_end elf32_p elfle_p machine mem_hi cmdline = .error e →
      (e = .assert ∧ img_start = img_end) ∨
        ELF_MAX_SEGMENTS - 1 ≤ (loadSegments m img_start).length) ∧
    ∀ p m' s', load_elf_image L m s img_start img_end elf32_p elfle_p machine mem_hi cmdline =
        .ok (some p, m', s') →
      s'.ops.registered = (loadSegments m img_start).flatMap (segmentOps p.elf_alloc) ∧
      p.elf_size = img_end - img_start ∧
      (ConsistentElf m img_start img_end mem_hi → LoadInside m s' p img_start img_end mem_hi ∧
        ∀ m₂, (∀ a, img_start ≤ a → a < img_end → m₂ a = m a) →
          planElfImage L m₂ s img_start img_end elf32_p elfle_p machine mem_hi cmdline =
            planElfImage L m s img_start img_end elf32_p elfle_p machine mem_hi cmdline) := by
  refine ⟨fun e he => ?_, fun p m' s' h => ?_⟩
  · obtain ⟨rfl, hempty⟩ | hmany := load_elf_image_error he
    · rw [sub32_eq hle hend] at hempty
      exact .inl ⟨rfl, by omega⟩
    · exact .inr hmany
  obtain ⟨⟨r, s₁⟩, hplan, h⟩ := bind_eq_ok.mp h
  obtain ⟨rfl, hs'⟩ : r = some p ∧ s' = { s₁ with elf_trampoline_ptr := p.boot_alloc } := by
    cases r with
    | none => cases h
    | some q =>
        cases h
        exact ⟨rfl, rfl⟩
  have hops' : s'.ops = s₁.ops := by rw [hs']
  have hmap' : s'.map = s₁.map := by rw [hs']
  obtain ⟨map, map₁, ops, hmap, helf, -, hops, hboot, -, hst, helfsize, -⟩ := planElfImage_true hplan
  have hregistered : s'.ops.registered =
      (loadSegments m img_start).flatMap (segmentOps p.elf_alloc) := by
    rw [hops', hst, registerOps_registered hops]
    rfl
  have hsize : p.elf_size = img_end - img_start := helfsize.trans (sub32_eq hle hend)
  refine ⟨hregistered, hsize, fun hcons => ?_⟩
  -- all segments are claimed, and no allocation takes a claim back
  obtain ⟨map', hmap₂, -, hclaims, -⟩ := @claimSegments_reset s.map (loadSegments m img_start)
    fun phdr hphdr => Nat.lt_of_le_of_lt (hcons.below phdr hphdr) hhi
  obtain rfl : map' = map := Except.ok.inj (hmap₂.symm.trans hmap)
  have hrecorded : ∀ phdr ∈ loadSegments m img_start, phdr.range ∈ s'.map.claimed := by
    intro phdr hphdr
    rw [hmap']
    refine allocateBoot_keeps hboot _ (allocate_space_keeps helf _ ?_)
    rw [hclaims]
    refine mem_claims ?_
    rw [List.take_of_length_le (by rw [List.length_map]; exact hcons.count)]
    exact List.mem_map_of_mem hphdr
  have hreads := hcons.reads_inside hend
  refine ⟨⟨hreads, ?_, ?_, hrecorded⟩, fun m₂ hsame => ?_⟩
  · intro dst src size hcopy
    rw [hregistered] at hcopy
    obtain ⟨phdr, hphdr, hop⟩ := List.mem_flatMap.mp hcopy
    rw [hsize]
    exact segmentOps_copy hop (hcons.file phdr hphdr)
  · intro op hop
    rw [hregistered] at hop
    obtain ⟨phdr, hphdr, hop⟩ := List.mem_flatMap.mp hop
    have hbelow := hcons.below phdr hphdr
    obtain ⟨hlo, hup⟩ := segmentOps_inside hop (hcons.filesz phdr hphdr) (Nat.lt_of_le_of_lt hbelow hhi)
    exact ⟨phdr, hphdr, hrecorded phdr hphdr, hbelow, hlo, hup⟩
  · refine planElfImage_congr L s img_end elf32_p elfle_p machine mem_hi cmdline fun r hr a hlo hup => ?_
    obtain ⟨hstart, hstop⟩ := hreads r hr
    exact hsame a (by omega) (by omega)

theorem load_elf_image_trusts_one_segment : ∃ p s', p.elf_alloc = 0 ∧
    LoadInside (oneSegmentMemory 0x10000 4) s' p 0x8008 (0x8008 + 84) DRAM_LIMIT := by
  obtain ⟨⟨r, m', s'⟩, h, hr⟩ := ok_of_toOption
    (show (load_elf_image .tiny (oneSegmentMemory 0x10000 4) .zero 0x8008 (0x8008 + 84) true true
      EM_ARM DRAM_LIMIT []).toOption.map (·.1) = some (some ⟨0, 84, 84, 280⟩) by decide +kernel)
  obtain rfl : r = some ⟨0, 84, 84, 280⟩ := hr
  have hsegs : loadSegments (oneSegmentMemory 0x10000 4) 0x8008 = [⟨1, 0, 0x10000, 4, 4⟩] := by
    decide +kernel
  have hcons : ConsistentElf (oneSegmentMemory 0x10000 4) 0x8008 (0x8008 + 84) DRAM_LIMIT :=
    { header := by decide
      phentsize := by decide +kernel
      phdrs := by decide +kernel
      file := by rw [hsegs]; decide
      filesz := by rw [hsegs]; decide
      below := by rw [hsegs]; decide
      count := by rw [hsegs]; decide }
  exact ⟨_, s', rfl,
    (((load_elf_image_trusts (by decide) (by decide) (by decide)).2 _ m' s' h).2.2 hcons).1⟩

/-- A segment of 85 bytes of a file of 84. -/
theorem load_elf_image_reads_behind : ∃ p m' s',
    load_elf_image .tiny (oneSegmentMemory 0x10000 85) .zero 0x8008 (0x8008 + 84) true true EM_ARM
      DRAM_LIMIT [] = .ok (some p, m', s') ∧
    .copy 0x10000 0 85 ∈ s'.ops.registered ∧
    ¬span (2 ^ 32) 0 85 ⊆ span (2 ^ 32) p.elf_alloc p.elf_size := by
  obtain ⟨⟨r, m', s'⟩, h, hr⟩ := ok_of_toOption
    (show (load_elf_image .tiny (oneSegmentMemory 0x10000 85) .zero 0x8008 (0x8008 + 84) true
      true EM_ARM DRAM_LIMIT []).toOption.map (fun r => (r.1, r.2.2.ops.registered)) =
        some (some ⟨0, 84, 84, 280⟩, [.copy 0x10000 0 85]) by decide +kernel)
  obtain ⟨rfl, hops⟩ := Prod.mk.inj hr
  refine ⟨_, m', s', h, ?_, ?_⟩
  · rw [hops]
    exact List.mem_singleton_self _
  · intro hsub
    have hlast : 84 ∈ span (2 ^ 32) 0 84 := hsub (mem_span.mpr ⟨84, by decide, by decide⟩)
    obtain ⟨i, hi, heq⟩ := mem_span.mp hlast
    omega

end Bcm2835.Pup

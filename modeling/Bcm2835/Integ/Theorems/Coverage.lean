import Bcm2835.Integ.CoverageSpec

/-!
# When `integ_check_coverage` is right

The sort exchanges a region with the element behind the last one. With sorted regions
the function misses that a region begins below `dram_start` and that the header is
outside of the DRAM, and does not expect the header at the end of the DRAM; and empty
regions are not left out of the tests.
-/

namespace Bcm2835.Integ

/-- The regions that are not empty and the header are apart, and are the DRAM
together. -/
structure Covers (ihdr header_end dram_start dram_end : Nat) (rs : List IntegRegion) : Prop where
  apart : rs.Pairwise fun r s => ∀ x, r.Has x → ¬s.Has x
  header : ∀ r ∈ rs, ∀ x, r.Has x → ¬(ihdr ≤ x ∧ x < header_end)
  union : ∀ x, dram_start ≤ x ∧ x < dram_end ↔
    (ihdr ≤ x ∧ x < header_end) ∨ ∃ r ∈ rs, r.Has x

section Tiles

variable {ihdr header_end dram_start dram_end q : Nat} {rs : List IntegRegion}

/-- The regions are in place one behind the other, up to the end of the DRAM. -/
structure Linked (ihdr header_end dram_start dram_end : Nat) (rs : List IntegRegion) : Prop where
  all : AllInPlace ihdr header_end dram_start dram_start rs
  last : lastEnd dram_start rs = dram_end

/-- Regions in place behind `q`, none of which begins below the DRAM: by induction on the
regions, they and the header are what is between `q` and their last end. -/
theorem inPlace_tiles (hq : dram_start ≤ q) (hall : AllInPlace ihdr header_end dram_start q rs)
    (hlow : ∀ r ∈ rs, r.size ≠ 0 → dram_start ≤ r.p) :
    q ≤ lastEnd q rs ∧ (∀ r ∈ rs, ∀ x, r.Has x → q ≤ x ∧ x < lastEnd q rs) ∧
    rs.Pairwise (fun r s => ∀ x, r.Has x → ¬s.Has x) ∧
    ∀ x, q ≤ x → x < lastEnd q rs → (ihdr ≤ x ∧ x < header_end) ∨ ∃ r ∈ rs, r.Has x := by
  induction rs generalizing q with
  | nil =>
      refine ⟨Nat.le_refl _, fun r hr => absurd hr List.not_mem_nil, List.Pairwise.nil, ?_⟩
      intro x hx hx'
      exact absurd hx' (Nat.not_lt.mpr hx)
  | cons r rs ih =>
      obtain ⟨hplace, hrest⟩ := allInPlace_cons.mp hall
      have hlow' : ∀ s ∈ rs, s.size ≠ 0 → dram_start ≤ s.p :=
        fun s hs => hlow s (List.mem_cons_of_mem _ hs)
      rw [lastEnd]
      by_cases hzero : r.size = 0
      · rw [if_pos hzero] at hrest ⊢
        have hnone : ∀ x, ¬r.Has x := by
          intro x hx
          have hlt := hx.2
          rw [hzero] at hlt
          exact absurd hx.1 (Nat.not_le.mpr hlt)
        obtain ⟨hle, hin, hapart, hcover⟩ := ih hq hrest hlow'
        refine ⟨hle, fun s hs x hx => ?_, List.pairwise_cons.mpr ⟨fun s _ x hx => absurd hx (hnone x),
          hapart⟩, fun x hx hx' => ?_⟩
        · rcases List.mem_cons.mp hs with rfl | hs
          · exact absurd hx (hnone x)
          · exact hin s hs x hx
        · rcases hcover x hx hx' with hhead | ⟨s, hs, hsx⟩
          · exact .inl hhead
          · exact .inr ⟨s, List.mem_cons_of_mem _ hs, hsx⟩
      · rw [if_neg hzero] at hrest ⊢
        have hp := hlow r List.mem_cons_self hzero
        have hqp : q ≤ r.p ∧ ∀ x, q ≤ x → x < r.p → ihdr ≤ x ∧ x < header_end := by
          rw [InPlace] at hplace
          rcases hplace with hplace | ⟨hlt, rfl, hend⟩ | ⟨hlt, rfl⟩
          · refine ⟨Nat.le_of_eq hplace.symm, fun x hx hx' => ?_⟩
            omega
          · exact ⟨Nat.le_of_lt hlt, fun x hx hx' => ⟨hx, hend ▸ hx'⟩⟩
          · exact absurd hlt (Nat.not_lt.mpr hp)
        obtain ⟨hle, hin, hapart, hcover⟩ := ih (q := r.p + r.size) (by omega) hrest hlow'
        refine ⟨by omega, fun s hs x hx => ?_, List.pairwise_cons.mpr ⟨fun s hs x hx hx' => ?_,
          hapart⟩, fun x hx hx' => ?_⟩
        · rcases List.mem_cons.mp hs with rfl | hs
          · have hfirst := hx.1
            have hlast := hx.2
            omega
          · have hsx := hin s hs x hx
            omega
        · have hlast := hx.2
          have hsx := hin s hs x hx'
          omega
        · by_cases hbefore : x < r.p
          · exact .inl (hqp.2 x hx hbefore)
          by_cases hr : x < r.p + r.size
          · exact .inr ⟨r, List.mem_cons_self, Nat.le_of_not_lt hbefore, hr⟩
          rcases hcover x (Nat.le_of_not_lt hr) hx' with hhead | ⟨s, hs, hsx⟩
          · exact .inl hhead
          · exact .inr ⟨s, List.mem_cons_of_mem _ hs, hsx⟩

/-- The regions are linked, do not begin below the DRAM and have the header between them:
they cover it. -/
theorem Linked.covers (h : Linked ihdr header_end dram_start dram_end rs)
    (hheader : ∀ r ∈ rs, ∀ x, r.Has x → ¬(ihdr ≤ x ∧ x < header_end))
    (hlow : ∀ r ∈ rs, r.size ≠ 0 → dram_start ≤ r.p) (hfirst : dram_start ≤ ihdr)
    (hlast : header_end ≤ dram_end) : Covers ihdr header_end dram_start dram_end rs := by
  obtain ⟨-, hin, hapart, hcover⟩ := inPlace_tiles (Nat.le_refl _) h.all hlow
  rw [h.last] at hin hcover
  refine ⟨hapart, hheader, fun x => ⟨fun hx => hcover x hx.1 hx.2, ?_⟩⟩
  rintro (⟨hx, hx'⟩ | ⟨r, hr, hx⟩)
  · exact ⟨Nat.le_trans hfirst hx, Nat.lt_of_lt_of_le hx' hlast⟩
  · exact hin r hr x hx

/-- The last byte of a cover by linked regions is in a region, and not in the header. -/
theorem Linked.header_end_ne (h : Linked ihdr header_end dram_start dram_end rs)
    (hcovers : Covers ihdr header_end dram_start dram_end rs) (hlt : ihdr < header_end) :
    header_end ≠ dram_end := by
  intro heq
  have hfirst := (hcovers.union ihdr).mpr (.inl ⟨Nat.le_refl _, hlt⟩)
  have hlast := h.last
  rcases lastEnd_cases dram_start rs with hnone | ⟨r, hr, hsize, hend⟩
  · omega
  · exact hcovers.header r hr (dram_end - 1) ⟨by omega, by omega⟩ ⟨by omega, by omega⟩

/-! ## A cover is linked -/

section Cover

variable (h : Covers ihdr header_end dram_start dram_end rs)
  (hsorted : rs.Pairwise fun r s => r.p ≤ s.p)
  {pre post : List IntegRegion} {r : IntegRegion}

include h hsorted

/-- What is in front of a region that is not empty is below it. -/
theorem Covers.below (hsplit : rs = pre ++ r :: post) (hsize : r.size ≠ 0) {s : IntegRegion}
    (hs : s ∈ pre) {x : Nat} (hx : s.Has x) : x < r.p := by
  subst hsplit
  have hle := (List.pairwise_append.mp hsorted).2.2 s hs r List.mem_cons_self
  have hapart := (List.pairwise_append.mp h.apart).2.2 s hs r List.mem_cons_self
  by_contra hge
  have hlast := hx.2
  exact hapart r.p ⟨hle, by omega⟩ (IntegRegion.has_first hsize)

theorem Covers.mem_pre (hsplit : rs = pre ++ r :: post) {s : IntegRegion} (hs : s ∈ rs)
    (hlt : s.p < r.p) : s ∈ pre := by
  subst hsplit
  rcases List.mem_append.mp hs with hs | hs
  · exact hs
  rcases List.mem_cons.mp hs with rfl | hs
  · exact absurd hlt (Nat.lt_irrefl _)
  · have hle := (List.pairwise_cons.mp (List.pairwise_append.mp hsorted).2.1).1 s hs
    exact absurd hlt (Nat.not_lt.mpr hle)

theorem Covers.rising_pre (hsplit : rs = pre ++ r :: post) : Rising pre := by
  subst hsplit
  exact ⟨(List.pairwise_append.mp hsorted).1, (List.pairwise_append.mp h.apart).1⟩

/-- What is in front of a region ends at `e`, if all of it is below `e`, and a byte is at
`e - 1` if `e` is not the start of the DRAM. -/
theorem Covers.lastEnd_pre (hsplit : rs = pre ++ r :: post) {e : Nat} (hle : e ≤ r.p)
    (hbelow : ∀ s ∈ pre, ∀ x, s.Has x → x < e) (hstart : dram_start ≤ e)
    (hbyte : dram_start < e → ∃ s ∈ rs, s.Has (e - 1)) : lastEnd dram_start pre = e := by
  rcases Nat.eq_or_lt_of_le hstart with heq | hlt
  · rw [← heq]
    apply lastEnd_empty
    intro s hs
    by_contra hne
    have hfirst := IntegRegion.has_first hne
    have hin := (h.union s.p).mpr (.inr ⟨s, by rw [hsplit]; exact List.mem_append_left _ hs, hfirst⟩)
    have hlow := hbelow s hs s.p hfirst
    omega
  · obtain ⟨s, hs, hfirst, hlast⟩ := hbyte hlt
    have hpre : s ∈ pre := h.mem_pre hsorted hsplit hs (by omega)
    have hend : s.p + s.size = e := by
      have htop := hbelow s hpre (s.p + s.size - 1) ⟨by omega, by omega⟩
      omega
    rw [lastEnd_of_top (h.rising_pre hsorted hsplit) hpre (by omega) fun t ht x hx => by
      rw [hend]
      exact hbelow t ht x hx]
    exact hend

/-- A region that is not empty begins where the one before it ends, or where the header
does. -/
theorem Covers.inPlace (hlt : ihdr < header_end) (hsplit : rs = pre ++ r :: post)
    (hsize : r.size ≠ 0) : InPlace ihdr header_end dram_start (lastEnd dram_start pre) r.p := by
  have hr : r ∈ rs := by
    rw [hsplit]
    exact List.mem_append_right _ List.mem_cons_self
  have hfirst := IntegRegion.has_first hsize
  have hin := (h.union r.p).mpr (.inr ⟨r, hr, hfirst⟩)
  have hbelow : ∀ s ∈ pre, ∀ x, s.Has x → x < r.p := fun s hs x hx =>
    h.below hsorted hsplit hsize hs hx
  -- is the header in front of the region?
  by_cases hhead : dram_start < r.p ∧ ihdr ≤ r.p - 1 ∧ r.p - 1 < header_end
  · obtain ⟨hlow, hge, hlt'⟩ := hhead
    have hend : header_end = r.p := by
      by_contra hne
      exact h.header r hr r.p hfirst ⟨by omega, by omega⟩
    have hstart := ((h.union ihdr).mpr (.inl ⟨Nat.le_refl _, hlt⟩)).1
    refine .inr (.inl ?_)
    rw [h.lastEnd_pre hsorted hsplit (e := ihdr) (by omega) ?_ hstart ?_]
    · exact ⟨by omega, rfl, hend.symm⟩
    · intro s hs x hx
      have hxr := hbelow s hs x hx
      have hout := h.header s (by rw [hsplit]; exact List.mem_append_left _ hs) x hx
      omega
    · intro hlow'
      rcases (h.union (ihdr - 1)).mp ⟨by omega, by omega⟩ with hx | hx
      · omega
      · exact hx
  · refine .inl (h.lastEnd_pre hsorted hsplit (Nat.le_refl _) hbelow hin.1 ?_).symm
    intro hlow
    rcases (h.union (r.p - 1)).mp ⟨by omega, by omega⟩ with hx | hx
    · exact absurd ⟨hlow, hx⟩ hhead
    · exact hx

/-- A cover is linked if the header is not at its end and the empty regions are in
place. -/
theorem Covers.linked (hlt : ihdr < header_end) (hend : header_end ≠ dram_end)
    (hempty : ∀ pre r post, rs = pre ++ r :: post → r.size = 0 →
      InPlace ihdr header_end dram_start (lastEnd dram_start pre) r.p) :
    Linked ihdr header_end dram_start dram_end rs := by
  refine ⟨fun pre r post hsplit => ?_, ?_⟩
  · by_cases hsize : r.size = 0
    · exact hempty pre r post hsplit hsize
    · exact h.inPlace hsorted hlt hsplit hsize
  · -- the last byte of the DRAM is in a region
    have hhead := (h.union (header_end - 1)).mpr (.inl ⟨by omega, by omega⟩)
    rcases (h.union (dram_end - 1)).mp ⟨by omega, by omega⟩ with hx | ⟨r, hr, hx⟩
    · omega
    · have hfirst := hx.1
      have hlast := hx.2
      have htop : ∀ s ∈ rs, ∀ x, s.Has x → x < dram_end := fun s hs x hx =>
        ((h.union x).mpr (.inr ⟨s, hs, hx⟩)).2
      have hr' : r.p + r.size = dram_end := by
        have hbyte := htop r hr (r.p + r.size - 1) ⟨by omega, by omega⟩
        omega
      rw [lastEnd_of_top ⟨hsorted, h.apart⟩ hr (by omega) (by rwa [hr'])]
      exact hr'

end Cover

end Tiles

/-! ## The whole function -/

section Whole

variable {ihdr n region_cap dram_start dram_end : Nat} {regions : Nat → IntegRegion}

/-- `regions[0]` to `regions[n - 1]`. -/
def regionList (n : Nat) (regions : Nat → IntegRegion) : List IntegRegion := (upTo 0 n).map regions

/-- `integ_check_coverage` finds out whether the regions cover the DRAM, accesses no
element behind them, and leaves the same regions, perhaps in another order. -/
structure ChecksCoverage (ihdr n region_cap dram_start dram_end : Nat)
    (regions : Nat → IntegRegion) : Prop where
  result : (integ_check_coverage ihdr n region_cap dram_start dram_end ⟨regions, []⟩).1 = true ↔
    Covers ihdr (headerEnd ihdr region_cap) dram_start dram_end (regionList n regions)
  inside : ∀ i ∈ (integ_check_coverage ihdr n region_cap dram_start dram_end ⟨regions, []⟩).2.log,
    i < n
  perm : (regionList n (integ_check_coverage ihdr n region_cap dram_start dram_end
    ⟨regions, []⟩).2.regions).Perm (regionList n regions)

/-- None of the inputs on which the function goes wrong. -/
structure Careful (ihdr n region_cap dram_start dram_end : Nat) (regions : Nat → IntegRegion) :
    Prop where
  /-- The sort has nothing to do, unless a region is on the header. -/
  sorted : ¬Crossing ⟨ihdr, headerEnd ihdr region_cap⟩ n regions → Sorted n regions
  /-- If the regions cover the DRAM, the header is not at its end, and the empty regions
  are in place, and not in the header. -/
  covered : Covers ihdr (headerEnd ihdr region_cap) dram_start dram_end (regionList n regions) →
    headerEnd ihdr region_cap ≠ dram_end ∧
    (∀ r ∈ regionList n regions, r.size = 0 → ¬(ihdr < r.p ∧ r.p < headerEnd ihdr region_cap)) ∧
    ∀ pre r post, regionList n regions = pre ++ r :: post → r.size = 0 →
      InPlace ihdr (headerEnd ihdr region_cap) dram_start (lastEnd dram_start pre) r.p
  /-- If the regions are in place up to the end of the DRAM, they do not begin below it,
  and the header is in it. -/
  linked : ¬Crossing ⟨ihdr, headerEnd ihdr region_cap⟩ n regions →
    Linked ihdr (headerEnd ihdr region_cap) dram_start dram_end (regionList n regions) →
    (∀ r ∈ regionList n regions, r.size ≠ 0 → dram_start ≤ r.p) ∧ dram_start ≤ ihdr ∧
      headerEnd ihdr region_cap ≤ dram_end

theorem mem_regionList {r : IntegRegion} : r ∈ regionList n regions ↔ ∃ i < n, regions i = r := by
  rw [regionList, List.mem_map]
  constructor
  · rintro ⟨i, hi, hr⟩
    exact ⟨i, (mem_upTo.mp hi).2, hr⟩
  · rintro ⟨i, hi, hr⟩
    exact ⟨i, mem_upTo.mpr ⟨Nat.zero_le i, hi⟩, hr⟩

theorem Sorted.pairwise (h : Sorted n regions) :
    (regionList n regions).Pairwise fun r s => r.p ≤ s.p := by
  refine List.pairwise_map.mpr (List.Pairwise.imp_of_mem ?_ List.pairwise_lt_range')
  intro i j hi hj hij
  exact h i (mem_upTo.mp hi).2 j hij (mem_upTo.mp hj).2

/-- Whether a region overlaps the header, for ranges that do not wrap. -/
theorem overlap_iff {r : IntegRegion} {header : Range} (hfit : r.p + r.size < 2 ^ 32) :
    range_overlap (region_range r) header ↔ r.p < header.stop ∧ header.start < r.p + r.size := by
  rw [range_overlap, region_range, Nat.mod_eq_of_lt hfit]

/-- A region on the header has a byte in it, or is empty and begins inside. -/
theorem overlap_cases {r : IntegRegion} {header : Range} (hfit : r.p + r.size < 2 ^ 32)
    (hheader : header.start < header.stop) (h : range_overlap (region_range r) header) :
    (∃ x, r.Has x ∧ header.start ≤ x ∧ x < header.stop) ∨
      r.size = 0 ∧ header.start < r.p ∧ r.p < header.stop := by
  rw [overlap_iff hfit] at h
  by_cases hsize : r.size = 0
  · exact .inr ⟨hsize, by omega, h.1⟩
  · exact .inl ⟨max r.p header.start, ⟨by omega, by omega⟩, by omega, by omega⟩

/-- The function on regions one of which is on the header. -/
theorem coverage_crossing (dram_start dram_end : Nat)
    (h : Crossing ⟨ihdr, headerEnd ihdr region_cap⟩ n regions) :
    (integ_check_coverage ihdr n region_cap dram_start dram_end ⟨regions, []⟩).1 = false ∧
    (integ_check_coverage ihdr n region_cap dram_start dram_end ⟨regions, []⟩).2.regions = regions ∧
    ∀ i ∈ (integ_check_coverage ihdr n region_cap dram_start dram_end ⟨regions, []⟩).2.log,
      i < n := by
  obtain ⟨i, hi, hover⟩ := h
  obtain ⟨hfound, hregs, hlog⟩ := headerLoop_spec ⟨ihdr, headerEnd ihdr region_cap⟩
    (upTo 0 n) ⟨regions, []⟩
  have htrue := hfound.mpr ⟨i, mem_upTo.mpr ⟨Nat.zero_le i, hi⟩, hover⟩
  rw [integ_check_coverage]
  generalize headerLoop ⟨ihdr, headerEnd ihdr region_cap⟩ (upTo 0 n) ⟨regions, []⟩ = t at *
  obtain ⟨b, t⟩ := t
  obtain rfl : b = true := htrue
  refine ⟨rfl, hregs, fun x hx => ?_⟩
  rcases hlog x hx with hx | hx
  · exact absurd hx List.not_mem_nil
  · exact (mem_upTo.mp hx).2

/-- The function on regions none of which is on the header. -/
theorem coverage_clear (dram_start dram_end : Nat)
    (h : ¬Crossing ⟨ihdr, headerEnd ihdr region_cap⟩ n regions)
    (hfit : ∀ i < n, (regions i).p + (regions i).size < 2 ^ 32) :
    (¬Sorted n regions →
      n ∈ (integ_check_coverage ihdr n region_cap dram_start dram_end ⟨regions, []⟩).2.log) ∧
    (Sorted n regions →
      ((integ_check_coverage ihdr n region_cap dram_start dram_end ⟨regions, []⟩).1 = true ↔
        Linked ihdr (headerEnd ihdr region_cap) dram_start dram_end (regionList n regions)) ∧
      (integ_check_coverage ihdr n region_cap dram_start dram_end ⟨regions, []⟩).2.regions = regions ∧
      ∀ i ∈ (integ_check_coverage ihdr n region_cap dram_start dram_end ⟨regions, []⟩).2.log,
        i < n) := by
  obtain ⟨hfound, hregs, hlog⟩ := headerLoop_spec ⟨ihdr, headerEnd ihdr region_cap⟩
    (upTo 0 n) ⟨regions, []⟩
  rw [integ_check_coverage]
  generalize headerLoop ⟨ihdr, headerEnd ihdr region_cap⟩ (upTo 0 n) ⟨regions, []⟩ = t at *
  obtain ⟨b, t⟩ := t
  obtain rfl : b = false := by
    cases b with
    | false => rfl
    | true =>
        obtain ⟨i, hi, hover⟩ := hfound.mp rfl
        exact absurd ⟨i, (mem_upTo.mp hi).2, hover⟩ h
  have hregs : t.regions = regions := hregs
  have hlog : ∀ x ∈ t.log, x < n := by
    intro x hx
    rcases hlog x hx with hx | hx
    · exact absurd hx List.not_mem_nil
    · exact (mem_upTo.mp hx).2
  simp only
  constructor
  · intro hunsorted
    have htrace := coverLoop_log ihdr (headerEnd ihdr region_cap) dram_start (upTo 0 n) (q := dram_start) (j := 0)
      (sortLoop_unsorted (c := t) (by rwa [hregs]))
    generalize coverLoop ihdr (headerEnd ihdr region_cap) dram_start (upTo 0 n) dram_start 0
      (sortLoop n t) = u at htrace
    obtain ⟨_ | q, u⟩ := u
    · exact htrace
    · exact htrace
  · intro hsorted
    obtain ⟨hsregs, hslog⟩ := sortLoop_sorted (c := t) (by rwa [hregs])
    rw [hregs] at hsregs
    obtain ⟨hsome, hcregs, hclog⟩ := coverLoop_spec ihdr
      (headerEnd ihdr region_cap) dram_start (upTo 0 n) (n := n)
      (q := dram_start) (j := 0) (c := sortLoop n t)
      (fun i hi => by rw [hsregs]; exact hfit i (mem_upTo.mp hi).2)
      (fun i hi => (mem_upTo.mp hi).2) fun hne => by
        by_contra hn
        obtain rfl : n = 0 := by omega
        exact hne rfl
    rw [hsregs] at hsome hcregs
    have hin : ∀ x ∈ (coverLoop ihdr (headerEnd ihdr region_cap) dram_start (upTo 0 n) dram_start 0
        (sortLoop n t)).2.log, x < n := by
      intro x hx
      rcases hclog x hx with hx | hx
      · rcases hslog x hx with hx | hx
        · exact hlog x hx
        · exact hx
      · exact hx
    generalize coverLoop ihdr (headerEnd ihdr region_cap) dram_start (upTo 0 n) dram_start 0
      (sortLoop n t) = u at *
    obtain ⟨_ | q, u⟩ := u
    · refine ⟨iff_of_false Bool.false_ne_true fun hlinked => ?_, hcregs, hin⟩
      exact absurd ((hsome dram_end).mpr ⟨hlinked.all, hlinked.last.symm⟩) (Option.some_ne_none _).symm
    · refine ⟨?_, hcregs, hin⟩
      have hq := (hsome q).mp rfl
      rw [decide_eq_true_iff]
      constructor
      · rintro rfl
        exact ⟨hq.1, hq.2.symm⟩
      · intro hlinked
        exact hq.2.trans hlinked.last

/-- `integ_check_coverage` does what it is for if and only if the regions are sorted or
one of them is on the header, and they are none of the covers that it rejects and none of
the other regions that it accepts. -/
theorem checksCoverage_iff (hheader : ihdr + 40 + 16 * region_cap < 2 ^ 32)
    (hfit : ∀ i < n, (regions i).p + (regions i).size < 2 ^ 32) :
    ChecksCoverage ihdr n region_cap dram_start dram_end regions ↔
      Careful ihdr n region_cap dram_start dram_end regions := by
  have hend : headerEnd ihdr region_cap = ihdr + 40 + 16 * region_cap := Nat.mod_eq_of_lt hheader
  have hlt : ihdr < headerEnd ihdr region_cap := by omega
  by_cases hcross : Crossing ⟨ihdr, headerEnd ihdr region_cap⟩ n regions
  · obtain ⟨hresult, hregs, hlog⟩ := coverage_crossing dram_start dram_end hcross
    constructor
    · rintro ⟨hiff, -, -⟩
      have hnot : ¬Covers ihdr (headerEnd ihdr region_cap) dram_start dram_end
          (regionList n regions) := fun hcovers => by
        have htrue := hiff.mpr hcovers
        rw [hresult] at htrue
        cases htrue
      exact ⟨fun h => absurd hcross h, fun h => absurd h hnot, fun h => absurd hcross h⟩
    · intro hcareful
      refine ⟨?_, hlog, by rw [hregs]⟩
      rw [hresult]
      refine iff_of_false Bool.false_ne_true fun hcovers => ?_
      -- only an empty region can be on the header of a cover
      obtain ⟨i, hi, hover⟩ := hcross
      have hmem : regions i ∈ regionList n regions := mem_regionList.mpr ⟨i, hi, rfl⟩
      rcases overlap_cases (hfit i hi) hlt hover with ⟨x, hx, hx'⟩ | ⟨hsize, hin⟩
      · exact hcovers.header _ hmem x hx hx'
      · exact (hcareful.covered hcovers).2.1 _ hmem hsize hin
  · obtain ⟨hunsorted, hsorted⟩ := coverage_clear dram_start dram_end hcross hfit
    by_cases hs : Sorted n regions
    · obtain ⟨hresult, hregs, hlog⟩ := hsorted hs
      have hout : ∀ r ∈ regionList n regions, ∀ x, r.Has x →
          ¬(ihdr ≤ x ∧ x < headerEnd ihdr region_cap) := by
        intro r hr x hx hin
        obtain ⟨i, hi, rfl⟩ := mem_regionList.mp hr
        have hlow := hx.1
        have hhigh := hx.2
        refine hcross ⟨i, hi, (overlap_iff (hfit i hi)).mpr ⟨?_, ?_⟩⟩
        · exact Nat.lt_of_le_of_lt hlow hin.2
        · exact Nat.lt_of_le_of_lt hin.1 hhigh
      constructor
      · rintro ⟨hiff, -, -⟩
        rw [hresult] at hiff
        refine ⟨fun _ => hs, fun hcovers => ?_, fun _ hlinked => ?_⟩
        · have hlinked := hiff.mpr hcovers
          refine ⟨fun heq => ?_, fun r hr hsize hin => ?_, fun pre r post hsplit _ =>
            hlinked.all pre r post hsplit⟩
          · exact hlinked.header_end_ne hcovers hlt heq
          · obtain ⟨i, hi, rfl⟩ := mem_regionList.mp hr
            refine hcross ⟨i, hi, (overlap_iff (hfit i hi)).mpr ⟨hin.2, ?_⟩⟩
            exact Nat.lt_of_lt_of_le hin.1 (Nat.le_add_right _ _)
        · have hcovers := hiff.mp hlinked
          refine ⟨fun r hr hne => ?_, ?_, ?_⟩
          · exact ((hcovers.union r.p).mpr (.inr ⟨r, hr, IntegRegion.has_first hne⟩)).1
          · exact ((hcovers.union ihdr).mpr (.inl ⟨Nat.le_refl _, hlt⟩)).1
          · have hlast := ((hcovers.union (headerEnd ihdr region_cap - 1)).mpr
              (.inl ⟨by omega, by omega⟩)).2
            omega
      · intro hcareful
        refine ⟨hresult.trans ⟨fun hlinked => ?_, fun hcovers => ?_⟩, hlog, by rw [hregs]⟩
        · obtain ⟨hlow, hfirst, hlast⟩ := hcareful.linked hcross hlinked
          exact hlinked.covers hout hlow hfirst hlast
        · obtain ⟨hend', -, hempty⟩ := hcareful.covered hcovers
          exact hcovers.linked hs.pairwise hlt hend' hempty
    · constructor
      · rintro ⟨-, hinside, -⟩
        exact absurd (hinside n (hunsorted hs)) (Nat.lt_irrefl n)
      · intro hcareful
        exact absurd (hcareful.sorted hcross) hs

end Whole

/-- The header at the start of the DRAM, and the rest of it in two halves `r` and `s`. -/
def halves (r s : IntegRegion) (i : Nat) : IntegRegion :=
  if i = 0 then r else if i = 1 then s else ⟨0, 0, 0, 0⟩

theorem checksCoverage_iff_halves :
    ChecksCoverage 0x1000 2 2 0x1000 0x2000 (halves ⟨0x1048, 0x7b8, 4, 1⟩ ⟨0x1800, 0x800, 2, 2⟩) ↔
      Careful 0x1000 2 2 0x1000 0x2000 (halves ⟨0x1048, 0x7b8, 4, 1⟩ ⟨0x1800, 0x800, 2, 2⟩) :=
  checksCoverage_iff (by decide) (by decide)

/-- With the upper half first the sort accesses `regions[2]`, and leaves it in the array in
place of the upper half. -/
theorem coverage_swaps :
    2 ∈ (integ_check_coverage 0x1000 2 2 0x1000 0x2000
      ⟨halves ⟨0x1800, 0x800, 2, 2⟩ ⟨0x1048, 0x7b8, 4, 1⟩, []⟩).2.log ∧
    (integ_check_coverage 0x1000 2 2 0x1000 0x2000
      ⟨halves ⟨0x1800, 0x800, 2, 2⟩ ⟨0x1048, 0x7b8, 4, 1⟩, []⟩).2.regions 0 = ⟨0, 0, 0, 0⟩ ∧
    ¬ChecksCoverage 0x1000 2 2 0x1000 0x2000
      (halves ⟨0x1800, 0x800, 2, 2⟩ ⟨0x1048, 0x7b8, 4, 1⟩) := by
  have htrace : 2 ∈ (integ_check_coverage 0x1000 2 2 0x1000 0x2000
      ⟨halves ⟨0x1800, 0x800, 2, 2⟩ ⟨0x1048, 0x7b8, 4, 1⟩, []⟩).2.log := by decide
  refine ⟨htrace, by decide, ?_⟩
  rintro ⟨-, hinside, -⟩
  exact absurd (hinside 2 htrace) (Nat.lt_irrefl 2)

end Bcm2835.Integ

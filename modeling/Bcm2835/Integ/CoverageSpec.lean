import Bcm2835.Integ.Coverage
import Mathlib.Data.List.Perm.Basic

/-!
# What the loops of `integ_check_coverage` do

The sort leaves sorted regions alone, and of any others it swaps one with the element
behind the last region. The last loop accepts regions each of which is in place.
-/

namespace Bcm2835.Integ

theorem mem_upTo {i n x : Nat} : x ∈ upTo i n ↔ i ≤ x ∧ x < n := by
  rw [upTo, List.mem_range'_1]
  omega

/-! ## The header -/

variable {c : Cells}

/-- A region overlaps the header. -/
def Crossing (header : Range) (n : Nat) (regions : Nat → IntegRegion) : Prop :=
  ∃ i < n, range_overlap (region_range (regions i)) header

theorem headerLoop_spec (header : Range) (is : List Nat) (c : Cells) :
    ((headerLoop header is c).1 = true ↔
      ∃ i ∈ is, range_overlap (region_range (c.regions i)) header) ∧
    (headerLoop header is c).2.regions = c.regions ∧
    ∀ x ∈ (headerLoop header is c).2.log, x ∈ c.log ∨ x ∈ is := by
  induction is generalizing c with
  | nil => exact ⟨⟨fun h => absurd h Bool.false_ne_true, fun ⟨i, hi, _⟩ => absurd hi List.not_mem_nil⟩,
      rfl, fun x hx => .inl hx⟩
  | cons i is ih =>
      have hlog : ∀ x ∈ (c.touch i).log, x ∈ c.log ∨ x = i := by
        intro x hx
        rcases List.mem_append.mp hx with hx | hx
        · exact .inl hx
        · exact .inr (List.mem_singleton.mp hx)
      rw [headerLoop]
      split
      · next h =>
        refine ⟨⟨fun _ => ⟨i, List.mem_cons_self, h⟩, fun _ => rfl⟩, rfl, fun x hx => ?_⟩
        rcases hlog x hx with hx | rfl
        · exact .inl hx
        · exact .inr List.mem_cons_self
      · next h =>
        obtain ⟨hfound, hregs, hin⟩ := ih (c.touch i)
        refine ⟨hfound.trans ?_, hregs, fun x hx => ?_⟩
        · constructor
          · rintro ⟨j, hj, hover⟩
            exact ⟨j, List.mem_cons_of_mem _ hj, hover⟩
          · rintro ⟨j, hj, hover⟩
            rcases List.mem_cons.mp hj with rfl | hj
            · exact absurd hover h
            · exact ⟨j, hj, hover⟩
        · rcases hin x hx with hx | hx
          · rcases hlog x hx with hx | rfl
            · exact .inl hx
            · exact .inr List.mem_cons_self
          · exact .inr (List.mem_cons_of_mem _ hx)

/-! ## The sort -/

/-- The least start is not that of `i` if a later region starts lower. -/
theorem minLoop_spec (js : List Nat) (hjs : ∀ j ∈ js, j ≠ 0) (p k : Nat) (c : Cells) :
    ((minLoop js p k c).1 = 0 ↔ k = 0 ∧ ∀ j ∈ js, p ≤ (c.regions j).p) ∧
    (minLoop js p k c).2.regions = c.regions ∧
    (∀ x ∈ c.log, x ∈ (minLoop js p k c).2.log) ∧
    ∀ x ∈ (minLoop js p k c).2.log, x ∈ c.log ∨ x ∈ js := by
  induction js generalizing p k c with
  | nil => exact ⟨⟨fun h => ⟨h, fun j hj => absurd hj List.not_mem_nil⟩, fun h => h.1⟩, rfl,
      fun x hx => hx, fun x hx => .inl hx⟩
  | cons j js ih =>
      have hj := hjs j List.mem_cons_self
      have hrest : ∀ j ∈ js, j ≠ 0 := fun j hj => hjs j (List.mem_cons_of_mem _ hj)
      have hlog : ∀ x ∈ (c.touch j).log, x ∈ c.log ∨ x ∈ j :: js := by
        intro x hx
        rcases List.mem_append.mp hx with hx | hx
        · exact .inl hx
        · rw [List.mem_singleton.mp hx]
          exact .inr List.mem_cons_self
      have hkeep : ∀ x ∈ c.log, x ∈ (c.touch j).log := fun x hx => List.mem_append_left _ hx
      rw [minLoop]
      split
      · next hlt =>
        obtain ⟨hk, hregs, hgrow, hin⟩ := ih hrest (c.regions j).p j (c.touch j)
        refine ⟨hk.trans ?_, hregs, fun x hx => hgrow x (hkeep x hx), fun x hx => ?_⟩
        · constructor
          · rintro ⟨h0, _⟩
            exact absurd h0 hj
          · rintro ⟨_, hall⟩
            exact absurd (hall j List.mem_cons_self) (Nat.not_le.mpr hlt)
        · rcases hin x hx with hx | hx
          · exact hlog x hx
          · exact .inr (List.mem_cons_of_mem _ hx)
      · next hge =>
        obtain ⟨hk, hregs, hgrow, hin⟩ := ih hrest p k (c.touch j)
        refine ⟨hk.trans (and_congr_right fun _ => ?_), hregs, fun x hx => hgrow x (hkeep x hx),
          fun x hx => ?_⟩
        · constructor
          · intro hall x hx
            rcases List.mem_cons.mp hx with rfl | hx
            · exact Nat.le_of_not_lt hge
            · exact hall x hx
          · exact fun hall x hx => hall x (List.mem_cons_of_mem _ hx)
        · rcases hin x hx with hx | hx
          · exact hlog x hx
          · exact .inr (List.mem_cons_of_mem _ hx)

/-- No later region starts below region `i`. -/
def Least (n : Nat) (regions : Nat → IntegRegion) (i : Nat) : Prop :=
  ∀ j, i < j → j < n → (regions i).p ≤ (regions j).p

/-- The regions are sorted by their starts. -/
def Sorted (n : Nat) (regions : Nat → IntegRegion) : Prop := ∀ i < n, Least n regions i

variable {n i : Nat}

/-- A turn of the sort that has something to do swaps with element `n`. -/
theorem sortTurn_spec (hi : i < n) (c : Cells) :
    (∀ x ∈ c.log, x ∈ (sortTurn n c i).log) ∧
    (Least n c.regions i → (sortTurn n c i).regions = c.regions ∧
      ∀ x ∈ (sortTurn n c i).log, x ∈ c.log ∨ x < n) ∧
    (¬Least n c.regions i → n ∈ (sortTurn n c i).log) := by
  have hjs : ∀ j ∈ upTo (i + 1) n, j ≠ 0 := fun j hj => by
    have hle := (mem_upTo.mp hj).1
    omega
  obtain ⟨hk, hregs, hgrow, hin⟩ := minLoop_spec (upTo (i + 1) n) hjs (c.regions i).p 0 (c.touch i)
  have hleast : (minLoop (upTo (i + 1) n) (c.regions i).p 0 (c.touch i)).1 = 0 ↔
      Least n c.regions i := by
    refine hk.trans ⟨fun h j hij hjn => h.2 j (mem_upTo.mpr ⟨hij, hjn⟩), fun h => ⟨rfl, fun j hj => ?_⟩⟩
    exact h j (mem_upTo.mp hj).1 (mem_upTo.mp hj).2
  have hlast : i + 1 + (n - (i + 1)) = n := by omega
  rw [sortTurn, hlast]
  generalize minLoop (upTo (i + 1) n) (c.regions i).p 0 (c.touch i) = t at hregs hgrow hin hleast
  obtain ⟨k, t⟩ := t
  have hkeep : ∀ x ∈ c.log, x ∈ t.log := fun x hx => hgrow x (List.mem_append_left _ hx)
  by_cases hk : k = 0
  · have hif : (if k ≠ 0 then t.region_swap i n else t) = t := if_neg (not_not.mpr hk)
    simp only [hif]
    refine ⟨hkeep, fun _ => ⟨hregs, fun x hx => ?_⟩, fun h => absurd (hleast.mp hk) h⟩
    rcases hin x hx with hx | hx
    · rcases List.mem_append.mp hx with hx | hx
      · exact .inl hx
      · rw [List.mem_singleton.mp hx]
        exact .inr hi
    · exact .inr (mem_upTo.mp hx).2
  · have hif : (if k ≠ 0 then t.region_swap i n else t) = t.region_swap i n := if_pos hk
    simp only [hif]
    refine ⟨fun x hx => List.mem_append_left _ (hkeep x hx), fun h => absurd (hleast.mpr h) hk,
      fun _ => ?_⟩
    exact List.mem_append_right _ (List.mem_cons_of_mem _ List.mem_cons_self)

/-- Turns for some indices. Up to the first that has something to do nothing changes, and
that turn leaves a trace. -/
theorem sortTurns_spec (is : List Nat) (his : ∀ i ∈ is, i < n) (c : Cells) :
    (∀ x ∈ c.log, x ∈ (is.foldl (sortTurn n) c).log) ∧
    ((∀ i ∈ is, Least n c.regions i) → (is.foldl (sortTurn n) c).regions = c.regions ∧
      ∀ x ∈ (is.foldl (sortTurn n) c).log, x ∈ c.log ∨ x < n) ∧
    ((∃ i ∈ is, ¬Least n c.regions i) → n ∈ (is.foldl (sortTurn n) c).log) := by
  induction is generalizing c with
  | nil => exact ⟨fun x hx => hx, fun _ => ⟨rfl, fun x hx => .inl hx⟩,
      fun ⟨i, hi, _⟩ => absurd hi List.not_mem_nil⟩
  | cons i is ih =>
      obtain ⟨hgrow, hsame, htrace⟩ := sortTurn_spec (his i List.mem_cons_self) c
      obtain ⟨hgrow', hsame', htrace'⟩ :=
        ih (fun i hi => his i (List.mem_cons_of_mem _ hi)) (sortTurn n c i)
      rw [List.foldl_cons]
      refine ⟨fun x hx => hgrow' x (hgrow x hx), fun hall => ?_, ?_⟩
      · obtain ⟨hregs, hin⟩ := hsame (hall i List.mem_cons_self)
        rw [hregs] at hsame'
        obtain ⟨hregs', hin'⟩ := hsame' fun i hi => hall i (List.mem_cons_of_mem _ hi)
        refine ⟨hregs', fun x hx => ?_⟩
        rcases hin' x hx with hx | hx
        · exact hin x hx
        · exact .inr hx
      · rintro ⟨j, hj, hnot⟩
        by_cases hfirst : Least n c.regions i
        · rcases List.mem_cons.mp hj with rfl | hj
          · exact absurd hfirst hnot
          · rw [(hsame hfirst).1] at htrace'
            exact htrace' ⟨j, hj, hnot⟩
        · exact hgrow' n (htrace hfirst)

theorem sortLoop_sorted (h : Sorted n c.regions) :
    (sortLoop n c).regions = c.regions ∧ ∀ x ∈ (sortLoop n c).log, x ∈ c.log ∨ x < n :=
  (sortTurns_spec (upTo 0 n) (fun _ hi => (mem_upTo.mp hi).2) c).2.1
    fun i hi => h i (mem_upTo.mp hi).2

theorem sortLoop_unsorted (h : ¬Sorted n c.regions) : n ∈ (sortLoop n c).log := by
  obtain ⟨i, hi⟩ := not_forall.mp h
  obtain ⟨hin, hnot⟩ := Classical.not_imp.mp hi
  exact (sortTurns_spec (upTo 0 n) (fun _ hi => (mem_upTo.mp hi).2) c).2.2
    ⟨i, mem_upTo.mpr ⟨Nat.zero_le i, hin⟩, hnot⟩

/-! ## The cover -/

section Cover

variable {ihdr header_end dram_start q p : Nat} {r : IntegRegion} {rs : List IntegRegion}

/-- A region that begins at `p` is in place behind one that ends at `q`: it begins there,
or they have the header between them, or it begins below `dram_start` and that is
`q`. -/
def InPlace (ihdr header_end dram_start q p : Nat) : Prop :=
  p = q ∨ (q < p ∧ q = ihdr ∧ p = header_end) ∨ (p < q ∧ q = dram_start)

/-- Where the last of the regions that are not empty ends; `q` if there is none. -/
def lastEnd (q : Nat) : List IntegRegion → Nat
  | [] => q
  | r :: rs => lastEnd (if r.size = 0 then q else r.p + r.size) rs

/-- All regions are in place behind one that ends at `q`. -/
def AllInPlace (ihdr header_end dram_start q : Nat) (rs : List IntegRegion) : Prop :=
  ∀ pre r post, rs = pre ++ r :: post → InPlace ihdr header_end dram_start (lastEnd q pre) r.p

theorem allInPlace_nil : AllInPlace ihdr header_end dram_start q [] := by
  intro pre r post h
  exact absurd h.symm (List.append_ne_nil_of_right_ne_nil _ (List.cons_ne_nil _ _))

theorem allInPlace_cons : AllInPlace ihdr header_end dram_start q (r :: rs) ↔
    InPlace ihdr header_end dram_start q r.p ∧
      AllInPlace ihdr header_end dram_start (if r.size = 0 then q else r.p + r.size) rs := by
  constructor
  · intro h
    refine ⟨h [] r rs rfl, fun pre s post hsplit => ?_⟩
    exact h (r :: pre) s post (by rw [hsplit]; rfl)
  · rintro ⟨hr, hrs⟩ pre s post hsplit
    cases pre with
    | nil =>
        obtain ⟨rfl, -⟩ := List.cons.inj hsplit
        exact hr
    | cons r' pre =>
        obtain ⟨rfl, hrest⟩ := List.cons.inj hsplit
        exact hrs pre s post hrest

/-- The tests of the loop, one for each side. -/
theorem inPlace_iff : InPlace ihdr header_end dram_start q p ↔
    ¬(p < q ∧ q ≠ dram_start) ∧ ¬(q < p ∧ ¬(q = ihdr ∧ p = header_end)) := by
  rw [InPlace]
  omega

/-- The last loop goes through if all regions are in place, and ends with the end of the
last one. -/
theorem coverLoop_spec (ihdr header_end dram_start : Nat) (is : List Nat) {n q j : Nat} {c : Cells}
    (hfit : ∀ i ∈ is, (c.regions i).p + (c.regions i).size < 2 ^ 32) (his : ∀ i ∈ is, i < n)
    (hj : is ≠ [] → j < n) :
    (∀ e, (coverLoop ihdr header_end dram_start is q j c).1 = some e ↔
      AllInPlace ihdr header_end dram_start q (is.map c.regions) ∧
        e = lastEnd q (is.map c.regions)) ∧
    (coverLoop ihdr header_end dram_start is q j c).2.regions = c.regions ∧
    ∀ x ∈ (coverLoop ihdr header_end dram_start is q j c).2.log, x ∈ c.log ∨ x < n := by
  induction is generalizing q j c with
  | nil =>
      refine ⟨fun e => ⟨fun h => ⟨allInPlace_nil, (Option.some.inj h).symm⟩, fun h => ?_⟩, rfl,
        fun x hx => .inl hx⟩
      rw [h.2]
      rfl
  | cons i is ih =>
      have hi := his i List.mem_cons_self
      have hj' := hj (List.cons_ne_nil _ _)
      have htouch : ∀ {c' : Cells} {k : Nat}, k < n → (∀ x ∈ c'.log, x ∈ c.log ∨ x < n) →
          ∀ x ∈ (c'.touch k).log, x ∈ c.log ∨ x < n := by
        intro c' k hk hc' x hx
        rcases List.mem_append.mp hx with hx | hx
        · exact hc' x hx
        · rw [List.mem_singleton.mp hx]
          exact .inr hk
      have hfirst := @htouch c i hi fun x hx => .inl hx
      have hsize : ((c.regions i).p + (c.regions i).size) % 2 ^ 32 =
          (c.regions i).p + (c.regions i).size := Nat.mod_eq_of_lt (hfit i List.mem_cons_self)
      have hnone : ∀ e, ¬InPlace ihdr header_end dram_start q (c.regions i).p →
          ((none : Option Nat) = some e ↔
            AllInPlace ihdr header_end dram_start q ((i :: is).map c.regions) ∧
              e = lastEnd q ((i :: is).map c.regions)) := by
        intro e hnot
        refine iff_of_false (fun h => Option.some_ne_none _ h.symm) fun h => ?_
        exact hnot (allInPlace_cons.mp h.1).1
      rw [coverLoop, hsize, List.map_cons] at *
      by_cases hlow : (c.regions i).p < q ∧ q ≠ dram_start
      · rw [if_pos hlow]
        exact ⟨fun e => hnone e fun h => (inPlace_iff.mp h).1 hlow, rfl, hfirst⟩
      by_cases hgap : q < (c.regions i).p ∧ ¬(q = ihdr ∧ (c.regions i).p = header_end)
      · rw [if_neg hlow, if_pos hgap]
        exact ⟨fun e => hnone e fun h => (inPlace_iff.mp h).2 hgap, rfl,
          htouch hi (htouch hj' hfirst)⟩
      have hplace := inPlace_iff.mpr ⟨hlow, hgap⟩
      have hrest : ∀ k ∈ is, (c.regions k).p + (c.regions k).size < 2 ^ 32 :=
        fun k hk => hfit k (List.mem_cons_of_mem _ hk)
      have hin : ∀ k ∈ is, k < n := fun k hk => his k (List.mem_cons_of_mem _ hk)
      have hcons : ∀ e, (AllInPlace ihdr header_end dram_start q
            (c.regions i :: is.map c.regions) ∧ e = lastEnd q (c.regions i :: is.map c.regions)) ↔
          AllInPlace ihdr header_end dram_start
              (if (c.regions i).size = 0 then q else (c.regions i).p + (c.regions i).size)
              (is.map c.regions) ∧
            e = lastEnd (if (c.regions i).size = 0 then q else
              (c.regions i).p + (c.regions i).size) (is.map c.regions) := by
        intro e
        rw [allInPlace_cons, and_iff_right hplace]
        rfl
      rw [if_neg hlow, if_neg hgap]
      simp only [hcons]
      split
      · obtain ⟨hsome, hregs, hlog⟩ := ih (c := c.touch i) (q := q) (j := j) hrest hin fun _ => hj'
        refine ⟨hsome, hregs, fun x hx => ?_⟩
        rcases hlog x hx with hx | hx
        · exact hfirst x hx
        · exact .inr hx
      · obtain ⟨hsome, hregs, hlog⟩ := ih (c := c.touch i)
          (q := (c.regions i).p + (c.regions i).size) (j := i) hrest hin fun _ => hi
        refine ⟨hsome, hregs, fun x hx => ?_⟩
        rcases hlog x hx with hx | hx
        · exact hfirst x hx
        · exact .inr hx

/-- What has been accessed stays so. -/
theorem coverLoop_log (ihdr header_end dram_start : Nat) (is : List Nat) {q j : Nat} {c : Cells} {x : Nat} (hx : x ∈ c.log) :
    x ∈ (coverLoop ihdr header_end dram_start is q j c).2.log := by
  induction is generalizing q j c with
  | nil => exact hx
  | cons i is ih =>
      have htouch : ∀ {c' : Cells} {k : Nat}, x ∈ c'.log → x ∈ (c'.touch k).log :=
        fun h => List.mem_append_left _ h
      rw [coverLoop]
      split
      · exact htouch hx
      split
      · exact htouch (htouch (htouch hx))
      split
      · exact ih (htouch hx)
      · exact ih (htouch hx)

/-! ### Ends -/

theorem lastEnd_append (q : Nat) (rs ss : List IntegRegion) :
    lastEnd q (rs ++ ss) = lastEnd (lastEnd q rs) ss := by
  induction rs generalizing q with
  | nil => rfl
  | cons r rs ih => exact ih _

theorem lastEnd_empty (h : ∀ r ∈ rs, r.size = 0) : lastEnd q rs = q := by
  induction rs with
  | nil => rfl
  | cons r rs ih =>
      rw [lastEnd, if_pos (h r List.mem_cons_self)]
      exact ih fun s hs => h s (List.mem_cons_of_mem _ hs)

/-- The last end is that of a region that is not empty, if there is one. -/
theorem lastEnd_cases (q : Nat) (rs : List IntegRegion) :
    lastEnd q rs = q ∨ ∃ r ∈ rs, r.size ≠ 0 ∧ r.p + r.size = lastEnd q rs := by
  induction rs generalizing q with
  | nil => exact .inl rfl
  | cons r rs ih =>
      rw [lastEnd]
      rcases ih (if r.size = 0 then q else r.p + r.size) with heq | ⟨s, hs, hsize, heq⟩
      · rw [heq]
        by_cases hzero : r.size = 0
        · exact .inl (if_pos hzero)
        · exact .inr ⟨r, List.mem_cons_self, hzero, (if_neg hzero).symm⟩
      · exact .inr ⟨s, List.mem_cons_of_mem _ hs, hsize, heq⟩

/-- The bytes of a region. -/
def IntegRegion.Has (r : IntegRegion) (x : Nat) : Prop := r.p ≤ x ∧ x < r.p + r.size

theorem IntegRegion.has_first (h : r.size ≠ 0) : r.Has r.p := ⟨Nat.le_refl _, by omega⟩

/-- The regions are sorted and apart. -/
structure Rising (rs : List IntegRegion) : Prop where
  sorted : rs.Pairwise fun r s => r.p ≤ s.p
  apart : rs.Pairwise fun r s => ∀ x, r.Has x → ¬s.Has x

/-- The last end is that of a region behind which there is nothing. -/
theorem lastEnd_of_top (h : Rising rs) (hr : r ∈ rs) (hsize : r.size ≠ 0)
    (htop : ∀ s ∈ rs, ∀ x, s.Has x → x < r.p + r.size) : lastEnd q rs = r.p + r.size := by
  obtain ⟨pre, post, rfl⟩ := List.append_of_mem hr
  have hempty : ∀ s ∈ post, s.size = 0 := by
    intro s hs
    by_contra hne
    have hle := (List.pairwise_cons.mp (List.pairwise_append.mp h.sorted).2.1).1 s hs
    have hapart := (List.pairwise_cons.mp (List.pairwise_append.mp h.apart).2.1).1 s hs
    have hmem : s ∈ pre ++ r :: post := List.mem_append_right _ (List.mem_cons_of_mem _ hs)
    have hlt := htop s hmem s.p (IntegRegion.has_first hne)
    exact hapart s.p ⟨hle, hlt⟩ (IntegRegion.has_first hne)
  rw [lastEnd_append, lastEnd, if_neg hsize, lastEnd_empty hempty]

end Cover

end Bcm2835.Integ

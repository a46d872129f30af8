import Bcm2835.Pup.ElfSpec

/-!
# What `allocate_space` finds

In a map of any ranges, and in any window. The search skips a range that starts below
the place it has come to without looking at where that range ends, takes an empty range
for an obstacle, and tests the room behind the last range with a subtraction that wraps
when that range ends beyond the window; and the claim of what it finds can overrun the
map. `allocate_space_ok_iff` says exactly when none of this matters.
-/

namespace Bcm2835.Pup

open FirstFit

/-! ## The search on a list -/

/-- The loop of `allocate_space` as a search through a list. -/
def windowSearch (n hi : Nat) : List Range → Nat → Option Nat
  | [], p => if n ≤ sub32 hi p then some p else none
  | r :: rs, p =>
      if r.start < p then windowSearch n hi rs p
      else if hi < add32 p n then none
      else if n ≤ r.start - p then some p
      else windowSearch n hi rs r.end_

theorem allocateLoop_eq_windowSearch {f : Nat → Range} {size : Nat} {allowed : Range} {k i p : Nat} :
    allocateLoop f size allowed k i p =
      windowSearch size allowed.end_ (Buf.taken (fun j => f (i + j)) k) p := by
  induction k generalizing i p with
  | zero => rfl
  | succ k ih =>
      have hhead : Buf.taken (fun j => f (i + j)) (k + 1) =
          f i :: Buf.taken (fun j => f (i + 1 + j)) k := by
        rw [Nat.add_comm k 1, Buf.taken_add]
        simp [Buf.taken_succ, Nat.add_assoc]
      rw [hhead, allocateLoop, windowSearch, ih, ih]

variable {n lo hi p q : Nat} {C : List Range}

/-- The ranges that are skipped do not matter. -/
theorem windowSearch_visited : windowSearch n hi (visited C p) p = windowSearch n hi C p := by
  induction C generalizing p with
  | nil => rfl
  | cons r C ih =>
      unfold visited
      by_cases hr : r.start < p
      · rw [if_pos hr, ih, windowSearch, if_pos hr]
      · rw [if_neg hr, windowSearch, if_neg hr, ih, windowSearch, if_neg hr]

/-- Each place tried leaves too small a gap and is not refused, and the last range ends beyond
the window, by less than the wrapped difference hides. -/
def RunsOver (n hi : Nat) : List Range → Nat → Prop
  | [], p => hi < p ∧ p + n ≤ 2 ^ 32 + hi
  | r :: rs, p => (p + n) % 2 ^ 32 ≤ hi ∧ r.start < p + n ∧ RunsOver n hi rs r.end_

instance decRunsOver (n hi : Nat) (H : List Range) (p : Nat) : Decidable (RunsOver n hi H p) :=
  match H with
  | [] => inferInstanceAs (Decidable (_ ∧ _))
  | r :: rs =>
      have := decRunsOver n hi rs r.end_
      inferInstanceAs (Decidable (_ ∧ _ ∧ RunsOver n hi rs r.end_))

/-- Ranges of 32-bit addresses. -/
def Ranges (C : List Range) : Prop := ∀ r ∈ C, r.start ≤ r.end_ ∧ r.end_ < 2 ^ 32

instance (C : List Range) : Decidable (Ranges C) := inferInstanceAs (Decidable (∀ r ∈ C, _))

theorem Ranges.proper (h : Ranges C) : ∀ r ∈ C, r.start ≤ r.end_ := fun r hr => (h r hr).1

theorem Ranges.visited (h : Ranges C) : Ranges (visited C p) :=
  fun r hr => h r (mem_of_mem_visited hr)

/-- Without the skipped ranges, what the search finds is what a search finds that never gives up. -/
theorem search_of_windowSearch (h : windowSearch n hi C p = some q) (hC : Ranges C) (hp : p < 2 ^ 32)
    (hn : n < 2 ^ 32) : search n (2 ^ 33) (fun p => decide (n ≤ sub32 hi p)) C p = some q := by
  induction C generalizing p with
  | nil => simpa [windowSearch, search] using h
  | cons r C ih =>
      obtain ⟨hr, hC⟩ := List.forall_mem_cons.mp hC
      unfold windowSearch at h
      unfold search
      split at h
      · rename_i hskip
        rw [if_pos hskip]
        exact ih h hC hp
      · rename_i hskip
        rw [if_neg hskip, if_neg (by omega)]
        split at h
        · cases h
        split at h
        · rename_i hgap
          rw [if_pos hgap, h]
        · rename_i hgap
          rw [if_neg hgap]
          exact ih h hC hr.2

/-- And what a search finds that gives up at the window's end. -/
theorem windowSearch_of_search (h : search n hi (fun p => decide (n ≤ sub32 hi p)) C p = some q)
    (hhi : hi < 2 ^ 32) : windowSearch n hi C p = some q := by
  induction C generalizing p with
  | nil => simpa [windowSearch, search] using h
  | cons r C ih =>
      unfold search at h
      unfold windowSearch
      split at h
      · rename_i hskip
        rw [if_pos hskip]
        exact ih h
      · rename_i hskip
        rw [if_neg hskip]
        split at h
        · cases h
        rename_i hquit
        rw [add32_eq (by omega), if_neg hquit]
        split at h
        · rename_i hgap
          rw [if_pos hgap, h]
        · rename_i hgap
          rw [if_neg hgap]
          exact ih h

/-- What is found lies in the window, or beyond it. -/
theorem windowSearch_fits (h : windowSearch n hi C p = some q) (hC : Ranges C) (hhi : hi < 2 ^ 32) :
    q + n ≤ hi ∨ hi < q := by
  induction C generalizing p with
  | nil =>
      unfold windowSearch at h
      split at h
      · rename_i hlast
        obtain rfl := Option.some.inj h
        by_cases hp : p ≤ hi
        · rw [sub32_eq hp hhi] at hlast
          omega
        · omega
      · cases h
  | cons r C ih =>
      obtain ⟨hr, hC⟩ := List.forall_mem_cons.mp hC
      unfold windowSearch at h
      split at h
      · exact ih h hC
      split at h
      · cases h
      split at h
      · rename_i hquit hgap
        obtain rfl := Option.some.inj h
        rw [add32_eq (by omega)] at hquit
        omega
      · exact ih h hC

/-- On ranges none of which is skipped, a place beyond the window is found exactly by running over
its end. -/
theorem windowSearch_over (hC : C.Pairwise fun r s => r.end_ ≤ s.start) (hp : ∀ r ∈ C, p ≤ r.start)
    (hr32 : Ranges C) (hp32 : p < 2 ^ 32) (hn : n ≤ 2 ^ 32) (hhi : hi < 2 ^ 32) :
    (∃ q, windowSearch n hi C p = some q ∧ hi < q) ↔ RunsOver n hi C p := by
  induction C generalizing p with
  | nil =>
      unfold windowSearch RunsOver
      constructor
      · rintro ⟨q, hq, hlt⟩
        split at hq
        · rename_i hlast
          obtain rfl := Option.some.inj hq
          rw [sub32_of_lt hlt] at hlast
          exact ⟨hlt, by omega⟩
        · cases hq
      · rintro ⟨hlt, hle⟩
        exact ⟨p, by rw [if_pos (by rw [sub32_of_lt hlt]; omega)], hlt⟩
  | cons r C ih =>
      obtain ⟨hr, hrs⟩ := List.forall_mem_cons.mp hp
      obtain ⟨hr32, hC32⟩ := List.forall_mem_cons.mp hr32
      obtain ⟨hrC, hC⟩ := List.pairwise_cons.mp hC
      have hih := ih hC hrC hC32 hr32.2
      unfold windowSearch RunsOver
      rw [if_neg (Nat.not_lt.mpr hr), ← hih]
      by_cases hquit : hi < add32 p n
      · rw [if_pos hquit]
        constructor
        · rintro ⟨q, hq, -⟩
          cases hq
        · rintro ⟨hle, -⟩
          exact absurd hle (Nat.not_le.mpr hquit)
      · rw [if_neg hquit]
        by_cases hgap : n ≤ r.start - p
        · rw [if_pos hgap]
          constructor
          · rintro ⟨q, hq, hlt⟩
            obtain rfl := Option.some.inj hq
            rw [add32_eq (by omega)] at hquit
            omega
          · rintro ⟨-, hstart, -⟩
            omega
        · rw [if_neg hgap]
          exact ⟨fun h => ⟨Nat.not_lt.mp hquit, by omega, h⟩, fun h => h.2.2⟩

/-! ## The allocation -/

/-- `n` bytes at `p` lie in the window `[lo, hi)` and share none with a range. -/
def FreeIn (C : List Range) (n lo hi p : Nat) : Prop :=
  lo ≤ p ∧ p + n ≤ hi ∧ ∀ r ∈ C, Apart ⟨p, p + n⟩ r

/-- The map takes no more claims that are not forced. -/
def MemoryMap.Full (s : MemoryMap) (force : Bool) : Prop :=
  ELF_MAX_SEGMENTS ≤ s.range_count ∧ force = false

instance (s : MemoryMap) (force : Bool) : Decidable (s.Full force) := inferInstanceAs (Decidable (_ ∧ _))

/-- The call returns a free place of the window, which it has claimed, or it returns `UINTPTR_MAX`,
with the map unchanged and for a reason. -/
def AllocateOk (s : MemoryMap) (size lo hi : Nat) (force : Bool) : Prop :=
  ∃ p s', allocate_space s size ⟨lo, hi⟩ force = .ok (p, s') ∧
    ((FreeIn s.claimed size lo hi p ∧ s'.claimed.Perm (⟨p, p + size⟩ :: s.claimed)) ∨
      (p = UINTPTR_MAX ∧ s' = s ∧ ((∀ v, ¬FreeIn s.claimed size lo hi v) ∨ s.Full force)))

/-- Where the search does right by the window: it does not run over its end, what is clear of the
ranges it looks at is also apart from those it skips, and a free place is not hidden by an empty
range inside it. -/
structure SearchSound (C : List Range) (n lo hi : Nat) : Prop where
  inside : ¬RunsOver n hi (visited C lo) lo
  skipped : ∀ q, Lowest (visited C lo) n lo q → q + n ≤ hi → ∀ r ∈ C, Apart ⟨q, q + n⟩ r
  empties : (∃ v, FreeIn C n lo hi v) →
    ∃ v, lo ≤ v ∧ v + n ≤ hi ∧ ∀ r ∈ visited C lo, Clear n v r

/-- And the claim of the place that it finds does not overrun the map. -/
structure AllocateSound (s : MemoryMap) (n lo hi : Nat) : Prop extends
    SearchSound s.claimed n lo hi where
  spares : ∀ q, Lowest (visited s.claimed lo) n lo q → q + n ≤ hi → s.Spares q

variable {s : MemoryMap} {force : Bool}

theorem MemoryMap.takes_iff : s.Takes force ↔ ¬s.Full force := by
  unfold MemoryMap.Takes MemoryMap.Full
  rw [not_and_or, Nat.not_le, Bool.not_eq_false]

theorem allocateLoop_eq_visited (s : MemoryMap) (n lo hi : Nat) :
    allocateLoop s.entry n ⟨lo, hi⟩ s.range_count 0 lo =
      windowSearch n hi (visited s.claimed lo) lo := by
  rw [windowSearch_visited, allocateLoop_eq_windowSearch]
  simp only [Nat.zero_add, MemoryMap.claimed]

/-- A place found and claimed. -/
theorem allocate_space_found (hn : n ≠ 0) (hfull : ¬s.Full force)
    (hroom : s.range_count < ELF_MAX_SEGMENTS + 2) (hspares : s.Spares p)
    (h : windowSearch n hi (visited s.claimed lo) lo = some p) :
    ∃ s', allocate_space s n ⟨lo, hi⟩ force = .ok (p, s') ∧
      s'.claimed = insertStart ⟨p, add32 p n⟩ s.claimed ∧ s'.range_count = s.range_count + 1 := by
  obtain ⟨s', hs', hclaimed, hcount⟩ := claim_space_claimed (r := ⟨p, add32 p n⟩) hroom
    (MemoryMap.takes_iff.mpr hfull) hspares
  refine ⟨s', allocate_space_claimed hn ?_ hs', hclaimed, hcount⟩
  rw [allocateLoop_eq_visited, h]

theorem allocate_space_refused (hn : n ≠ 0)
    (h : windowSearch n hi (visited s.claimed lo) lo = none ∨ s.Full force) :
    allocate_space s n ⟨lo, hi⟩ force = .ok (UINTPTR_MAX, s) := by
  cases hsearch : windowSearch n hi (visited s.claimed lo) lo with
  | none => exact allocate_space_none hn ((allocateLoop_eq_visited s n lo hi).trans hsearch)
  | some p =>
      have hfull : s.Full force := by
        rcases h with h | h
        · rw [h] at hsearch
          cases hsearch
        · exact h
      rw [allocate_space_some hn ((allocateLoop_eq_visited s n lo hi).trans hsearch),
        claim_space_refused fun h => MemoryMap.takes_iff.mp h hfull]
      rfl

/-- A place found whose claim overruns the map. -/
theorem not_allocateOk (hn : n ≠ 0) (hfull : ¬s.Full force)
    (h : windowSearch n hi (visited s.claimed lo) lo = some p) (hspares : ¬s.Spares p) :
    ¬AllocateOk s n lo hi force := by
  rintro ⟨q, s', hq, -⟩
  rw [allocate_space_overruns hn ((allocateLoop_eq_visited s n lo hi).trans h)
    (MemoryMap.takes_iff.mpr hfull) hspares] at hq
  cases hq

/-- The map has room, and the search of the window is exact. -/
theorem windowSearch_iff (hC : Ranges C) (hlo : lo < 2 ^ 32) (hhi : hi < 2 ^ 32) (hn : n ≤ 2 ^ 32)
    (hfit : q + n ≤ hi) :
    windowSearch n hi (visited C lo) lo = some q ↔ Lowest (visited C lo) n lo q := by
  have hsorted := visited_sorted (p := lo) hC.proper
  constructor
  · intro h
    exact search_lowest hsorted (search_of_windowSearch h hC.visited hlo (by omega))
  · intro h
    refine windowSearch_of_search (search_eq_some hsorted h hfit ?_) hhi
    rw [decide_eq_true_eq, sub32_eq (by omega) hhi]
    omega

theorem allocate_ok_of_full (hn : n ≠ 0) (hfull : s.Full force) : AllocateOk s n lo hi force :=
  ⟨_, s, allocate_space_refused hn (.inr hfull), .inr ⟨rfl, rfl, .inr hfull⟩⟩

/-- What running over the window's end means for the whole search. -/
theorem windowSearch_over_visited (hC : Ranges C) (hn32 : n < 2 ^ 32) (hlo : lo < 2 ^ 32)
    (hhi : hi < 2 ^ 32) :
    (∃ q, windowSearch n hi (visited C lo) lo = some q ∧ hi < q) ↔ RunsOver n hi (visited C lo) lo :=
  windowSearch_over (visited_chain hC.proper) (fun _ hr => le_of_mem_visited hC.proper hr) hC.visited
    hlo (Nat.le_of_lt hn32) hhi

section Search

variable (hC : Ranges s.claimed) (hn : n ≠ 0) (hn32 : n < 2 ^ 32) (hle : lo ≤ hi) (hhi : hi < 2 ^ 32)
include hC hn hn32 hle hhi

/-- A search that finds nothing is right if the window has no free place. -/
theorem allocate_ok_iff_of_none (hfull : ¬s.Full force)
    (hsearch : windowSearch n hi (visited s.claimed lo) lo = none) :
    AllocateOk s n lo hi force ↔ AllocateSound s n lo hi := by
  have hret : allocate_space s n ⟨lo, hi⟩ force = .ok (UINTPTR_MAX, s) :=
    allocate_space_refused hn (.inl hsearch)
  have hnone : ∀ q, Lowest (visited s.claimed lo) n lo q → ¬q + n ≤ hi := by
    intro q hq hfit
    rw [(windowSearch_iff hC (by omega) hhi (Nat.le_of_lt hn32) hfit).mpr hq] at hsearch
    cases hsearch
  constructor
  · rintro ⟨p, s', heq, hres⟩
    rw [hret] at heq
    obtain ⟨rfl, rfl⟩ := Prod.mk.inj (Except.ok.inj heq)
    have hfree : ∀ v, ¬FreeIn s.claimed n lo hi v := by
      rcases hres with ⟨hfree, -⟩ | ⟨-, -, hfree | hf⟩
      · have hmax : UINTPTR_MAX = 2 ^ 32 - 1 := rfl
        have := hfree.2.1
        omega
      · exact hfree
      · exact absurd hf hfull
    refine ⟨⟨fun hruns => ?_, fun q hq hfit => absurd hfit (hnone q hq),
      fun ⟨v, hv⟩ => absurd hv (hfree v)⟩, fun q hq hfit => absurd hfit (hnone q hq)⟩
    obtain ⟨q, hq, -⟩ := (windowSearch_over_visited hC hn32 (by omega) hhi).mpr hruns
    rw [hq] at hsearch
    cases hsearch
  · intro hsound
    refine ⟨_, s, hret, .inr ⟨rfl, rfl, .inl fun v hv => ?_⟩⟩
    obtain ⟨u, hlo, hfit, hclear⟩ := hsound.empties ⟨v, hv⟩
    obtain ⟨q, hq, hqu⟩ := exists_lowest hlo fun r hr _ => hclear r hr
    exact hnone q hq (by omega)

/-- A place in the window is right if it is apart from the ranges that the search has skipped and
its claim stays in the map. -/
theorem allocate_ok_iff_of_inside (hfull : ¬s.Full force) (hcount : s.range_count < ELF_MAX_SEGMENTS + 2)
    (hsearch : windowSearch n hi (visited s.claimed lo) lo = some q) (hfit : q + n ≤ hi) :
    AllocateOk s n lo hi force ↔ AllocateSound s n lo hi := by
  have hlow := (windowSearch_iff hC (by omega) hhi (Nat.le_of_lt hn32) hfit).mp hsearch
  by_cases hspares : s.Spares q
  · obtain ⟨s₁, hret, hclaimed, hcount₁⟩ := allocate_space_found hn hfull hcount hspares hsearch
    rw [add32_eq (by omega)] at hclaimed
    constructor
    · rintro ⟨p, s', heq, hres⟩
      rw [hret] at heq
      obtain ⟨rfl, rfl⟩ := Prod.mk.inj (Except.ok.inj heq)
      have hfree : FreeIn s.claimed n lo hi q := by
        rcases hres with ⟨hfree, -⟩ | ⟨-, hs, -⟩
        · exact hfree
        · rw [hs] at hcount₁
          omega
      have hmem : ∀ r ∈ visited s.claimed lo, Clear n q r := fun r hr =>
        hlow.clear r hr (le_of_mem_visited hC.proper hr)
      refine ⟨⟨fun hruns => ?_, fun q' hq' _ => ?_, fun _ => ⟨q, hlow.le, hfit, hmem⟩⟩,
        fun q' hq' _ => ?_⟩
      · obtain ⟨q', hq', hlt⟩ := (windowSearch_over_visited hC hn32 (by omega) hhi).mpr hruns
        rw [hq'] at hsearch
        obtain rfl := Option.some.inj hsearch
        omega
      · rw [hq'.unique hlow]
        exact hfree.2.2
      · rw [hq'.unique hlow]
        exact hspares
    · intro hsound
      refine ⟨q, s₁, hret, .inl ⟨⟨hlow.le, hfit, hsound.skipped q hlow hfit⟩, ?_⟩⟩
      rw [hclaimed]
      exact insertStart_perm _ _
  · exact ⟨fun hok => absurd hok (not_allocateOk hn hfull hsearch hspares),
      fun hsound => absurd (hsound.spares q hlow hfit) hspares⟩

/-- A place beyond the window is wrong, and the search has run over the window's end. -/
theorem allocate_ok_iff_of_over (hfull : ¬s.Full force) (hcount : s.range_count < ELF_MAX_SEGMENTS + 2)
    (hsearch : windowSearch n hi (visited s.claimed lo) lo = some q) (hlt : hi < q) :
    AllocateOk s n lo hi force ↔ AllocateSound s n lo hi := by
  have hruns := (windowSearch_over_visited hC hn32 (by omega) hhi).mp ⟨q, hsearch, hlt⟩
  refine ⟨fun hok => ?_, fun hsound => absurd hruns hsound.inside⟩
  by_cases hspares : s.Spares q
  · obtain ⟨s₁, hret, -, hcount₁⟩ := allocate_space_found hn hfull hcount hspares hsearch
    obtain ⟨p, s', heq, hres⟩ := hok
    rw [hret] at heq
    obtain ⟨rfl, rfl⟩ := Prod.mk.inj (Except.ok.inj heq)
    rcases hres with ⟨hfree, -⟩ | ⟨-, hs, -⟩
    · have := hfree.2.1
      omega
    · rw [hs] at hcount₁
      omega
  · exact absurd hok (not_allocateOk hn hfull hsearch hspares)

end Search

/-- For every map of ranges, size and window: the allocation is right if and only if the map is full,
or the search does right by the window and the claim stays in the map. -/
theorem allocate_space_ok_iff (hC : Ranges s.claimed) (hn : n ≠ 0) (hn32 : n < 2 ^ 32) (hle : lo ≤ hi)
    (hhi : hi < 2 ^ 32) (hroom : s.range_count < ELF_MAX_SEGMENTS + 2 ∨ force = false) :
    AllocateOk s n lo hi force ↔ s.Full force ∨ AllocateSound s n lo hi := by
  by_cases hfull : s.Full force
  · exact ⟨fun _ => .inl hfull, fun _ => allocate_ok_of_full hn hfull⟩
  have hcount : s.range_count < ELF_MAX_SEGMENTS + 2 := by
    rcases hroom with hlt | hforce
    · exact hlt
    · have : s.range_count < ELF_MAX_SEGMENTS := Nat.lt_of_not_le fun hle => hfull ⟨hle, hforce⟩
      omega
  rw [or_iff_right hfull]
  cases hsearch : windowSearch n hi (visited s.claimed lo) lo with
  | none => exact allocate_ok_iff_of_none hC hn hn32 hle hhi hfull hsearch
  | some q =>
      rcases windowSearch_fits hsearch hC.visited hhi with hfit | hlt
      · exact allocate_ok_iff_of_inside hC hn hn32 hle hhi hfull hcount hsearch hfit
      · exact allocate_ok_iff_of_over hC hn hn32 hle hhi hfull hcount hsearch hlt

/-- A map of these ranges. -/
def MemoryMap.ofRanges (C : List Range) (h : C.length ≤ ELF_MAX_SEGMENTS + 2) : MemoryMap :=
  .of (Buf.ofList C ⟨0, 0⟩) C.length h

theorem MemoryMap.claimed_ofRanges {C : List Range} (h : C.length ≤ ELF_MAX_SEGMENTS + 2) :
    (MemoryMap.ofRanges C h).claimed = C :=
  (MemoryMap.claimed_of h).trans (Buf.taken_ofList C _)

/-- A window that starts behind one range and just before another. -/
theorem allocate_space_ok_iff_sample :
    AllocateOk (.ofRanges [⟨0x1000, 0x2000⟩, ⟨0x2100, 0x3000⟩] (by decide)) 0x200 0x2000 0x8000
      true := by
  have hlow : Lowest (visited [⟨0x1000, 0x2000⟩, ⟨0x2100, 0x3000⟩] 0x2000) 0x200 0x2000 0x3000 := by
    refine ⟨by decide, by decide, fun q h1 h2 => ⟨⟨0x2100, 0x3000⟩, by decide, by decide, ?_⟩⟩
    show ¬(0x3000 ≤ q ∨ q + 0x200 ≤ 0x2100)
    omega
  refine (allocate_space_ok_iff (by decide) (by decide) (by decide) (by decide) (by decide)
    (.inl (by decide))).mpr (.inr ⟨?_, fun _ _ _ => .of_lt (by decide)⟩)
  rw [MemoryMap.claimed_ofRanges]
  refine ⟨by decide, fun q hq _ => ?_, fun _ => ⟨0x3000, by decide, by decide, by decide⟩⟩
  rw [hq.unique hlow]
  intro r hr a
  rcases List.mem_cons.mp hr with rfl | hr
  · dsimp only
    omega
  · rw [List.mem_singleton.mp hr]
    dsimp only
    omega

/-- A window that starts inside a range, and one that a range leaves: the first place returned is
taken, the second lies behind the window. -/
theorem allocate_space_wrong :
    ((allocate_space (.ofRanges [⟨0x1000, 0x3000⟩] (by decide)) 0x100 ⟨0x2000, 0x8000⟩ true).map
        (·.1) = .ok 0x2000 ∧ ¬Apart ⟨0x2000, 0x2100⟩ ⟨0x1000, 0x3000⟩) ∧
      (allocate_space (.ofRanges [⟨0x10, 0x9000⟩] (by decide)) 0x100 ⟨0, 0x8000⟩ true).map (·.1) =
        .ok 0x9000 :=
  ⟨⟨by decide, fun h => h 0x2000 (by decide)⟩, by decide⟩

end Bcm2835.Pup

import Mathlib.Data.List.Basic
import Mathlib.Data.List.Pairwise

/-!
# First-fit search among intervals

`search` walks a list of intervals, sorted by their starts and pairwise apart,
and looks for `n` free cells in a window `[lo, hi)`. Intervals that start below
the place reached so far are skipped. What it finds is the lowest free place
(`search_lowest`); when it finds something depends on a check it makes before
each interval and on the test `last` it makes at the end of the list.
-/

namespace FirstFit

/-- The cells from `start` up to, not including, `end_`. -/
structure Interval where
  start : Nat
  end_ : Nat
deriving DecidableEq

/-- `n` cells at `p` are clear of `r`. An empty interval is an obstacle only
strictly inside them. -/
def Clear (n p : Nat) (r : Interval) : Prop := r.end_ ≤ p ∨ p + n ≤ r.start

instance (n p : Nat) (r : Interval) : Decidable (Clear n p r) := inferInstanceAs (Decidable (_ ∨ _))

/-- No cell belongs to both. -/
def Apart (r s : Interval) : Prop :=
  ∀ a, ¬(r.start ≤ a ∧ a < r.end_ ∧ s.start ≤ a ∧ a < s.end_)

/-- `p` is the lowest place from `lo` on at which `n` cells are clear of the
intervals that start at `lo` or above. -/
structure Lowest (C : List Interval) (n lo p : Nat) : Prop where
  le : lo ≤ p
  clear : ∀ r ∈ C, lo ≤ r.start → Clear n p r
  least : ∀ q, lo ≤ q → q < p → ∃ r ∈ C, lo ≤ r.start ∧ ¬Clear n q r

theorem Lowest.le_of_clear {C : List Interval} {n lo p q : Nat} (h : Lowest C n lo p)
    (hq : lo ≤ q) (hclear : ∀ r ∈ C, lo ≤ r.start → Clear n q r) : p ≤ q := by
  by_contra hlt
  obtain ⟨r, hr, hlo, hn⟩ := h.least q hq (by omega)
  exact hn (hclear r hr hlo)

theorem Lowest.unique {C : List Interval} {n lo p q : Nat} (hp : Lowest C n lo p)
    (hq : Lowest C n lo q) : p = q :=
  Nat.le_antisymm (hp.le_of_clear hq.le hq.clear) (hq.le_of_clear hp.le hp.clear)

/-- The search, from `p` on. -/
def search (n hi : Nat) (last : Nat → Bool) : List Interval → Nat → Option Nat
  | [], p => if last p then some p else none
  | r :: rs, p =>
      if r.start < p then search n hi last rs p
      else if hi < p + n then none
      else if n ≤ r.start - p then some p
      else search n hi last rs r.end_

/-- A list of intervals fit for the search. -/
structure Sorted (C : List Interval) : Prop where
  starts : C.Pairwise fun r s => r.start ≤ s.start
  apart : C.Pairwise Apart
  proper : ∀ r ∈ C, r.start ≤ r.end_

/-- The search has come to `p` past the intervals `P`. -/
structure Walked (n lo : Nat) (P : List Interval) (p : Nat) : Prop where
  le : lo ≤ p
  origin : p = lo ∨ ∃ r ∈ P, lo ≤ r.start ∧ r.end_ = p
  past : ∀ r ∈ P, lo ≤ r.start → r.end_ ≤ p
  tight : ∀ q, lo ≤ q → q < p → ∃ r ∈ P, lo ≤ r.start ∧ ¬Clear n q r

section Walk

variable {n lo hi p q : Nat} {last : Nat → Bool} {P rs : List Interval} {r : Interval}

theorem Walked.nil : Walked n lo [] lo where
  le := Nat.le_refl _
  origin := .inl rfl
  past := by simp
  tight q h1 h2 := absurd h1 (by omega)

/-- An interval that starts below the place reached also ends there: otherwise
it would meet the interval whose end that place is. -/
theorem Walked.skip (h : Walked n lo P p) (hC : Sorted (P ++ r :: rs)) (hr : r.start < p) :
    Walked n lo (P ++ [r]) p := by
  have hpast : lo ≤ r.start → r.end_ ≤ p := by
    intro hlo
    obtain rfl | ⟨s, hs, -, rfl⟩ := h.origin
    · omega
    · have hstart := (List.pairwise_append.mp hC.starts).2.2 s hs r (by simp)
      have hapart := (List.pairwise_append.mp hC.apart).2.2 s hs r (by simp)
      have := hapart r.start
      omega
  refine ⟨h.le, ?_, ?_, fun q h1 h2 => ?_⟩
  · obtain h0 | ⟨s, hs, h1, h2⟩ := h.origin
    · exact .inl h0
    · exact .inr ⟨s, by simp [hs], h1, h2⟩
  · intro s hs hlo
    obtain hs | hs := List.mem_append.mp hs
    · exact h.past s hs hlo
    · simp only [List.mem_singleton] at hs
      subst hs
      exact hpast hlo
  · obtain ⟨s, hs, hns⟩ := h.tight q h1 h2
    exact ⟨s, by simp [hs], hns⟩

/-- An interval that leaves no room before it moves the search to its end. -/
theorem Walked.move (h : Walked n lo P p) (hC : Sorted (P ++ r :: rs)) (hr : p ≤ r.start)
    (hn : ¬n ≤ r.start - p) : Walked n lo (P ++ [r]) r.end_ := by
  have hprop := hC.proper r (by simp)
  have hle := h.le
  refine ⟨by omega, .inr ⟨r, by simp, by omega, rfl⟩, ?_, fun q h1 h2 => ?_⟩
  · intro s hs hlo
    obtain hs | hs := List.mem_append.mp hs
    · have := h.past s hs hlo
      omega
    · simp only [List.mem_singleton] at hs
      subst hs
      exact Nat.le_refl _
  · by_cases hq : q < p
    · obtain ⟨s, hs, hns⟩ := h.tight q h1 hq
      exact ⟨s, by simp [hs], hns⟩
    · refine ⟨r, by simp, by omega, ?_⟩
      unfold Clear
      omega

/-- Enough room before the next interval is the lowest room. -/
theorem Walked.gap (h : Walked n lo P p) (hC : Sorted (P ++ r :: rs)) (hr : p ≤ r.start)
    (hn : n ≤ r.start - p) : Lowest (P ++ r :: rs) n lo p := by
  refine ⟨h.le, fun s hs hlo => ?_, fun q h1 h2 => ?_⟩
  · obtain hs | hs := List.mem_append.mp hs
    · exact .inl (h.past s hs hlo)
    · have hstart : r.start ≤ s.start := by
        obtain rfl | hs := List.mem_cons.mp hs
        · exact Nat.le_refl _
        · exact (List.pairwise_cons.mp (List.pairwise_append.mp hC.starts).2.1).1 s hs
      exact .inr (by omega)
  · obtain ⟨s, hs, hns⟩ := h.tight q h1 h2
    exact ⟨s, List.mem_append_left _ hs, hns⟩

/-- So is the place behind all intervals. -/
theorem Walked.done (h : Walked n lo P p) : Lowest P n lo p :=
  ⟨h.le, fun s hs hlo => .inl (h.past s hs hlo), h.tight⟩

theorem search_lowest_from (h : Walked n lo P p) (hC : Sorted (P ++ rs))
    (hs : search n hi last rs p = some q) : Lowest (P ++ rs) n lo q := by
  induction rs generalizing P p with
  | nil =>
      simp only [search] at hs
      split at hs
      · cases hs
        simpa using h.done
      · cases hs
  | cons r rs ih =>
      have hC' : Sorted ((P ++ [r]) ++ rs) := by simpa using hC
      simp only [search] at hs
      split at hs
      · rename_i hr
        simpa using ih (h.skip hC hr) hC' hs
      rename_i hr
      split at hs
      · cases hs
      split at hs
      · rename_i hn
        cases hs
        exact h.gap hC (by omega) hn
      · rename_i hn
        simpa using ih (h.move hC (by omega) hn) hC' hs

/-- What the search finds is the lowest free place. -/
theorem search_lowest {C : List Interval} (hC : Sorted C)
    (hs : search n hi last C lo = some p) : Lowest C n lo p :=
  search_lowest_from (P := []) .nil hC hs

/-- It finds that place if the place lies in the window. -/
theorem search_eq_some_from (h : Walked n lo P p) (hC : Sorted (P ++ rs))
    (hq : Lowest (P ++ rs) n lo q) (hhi : q + n ≤ hi) (hlast : last q = true) :
    search n hi last rs p = some q := by
  have hpq : p ≤ q := by
    by_contra hlt
    obtain ⟨s, hs, hlo, hns⟩ := h.tight q hq.le (by omega)
    exact hns (hq.clear s (List.mem_append_left _ hs) hlo)
  induction rs generalizing P p with
  | nil =>
      have hp : p = q := h.done.unique (by simpa using hq)
      subst hp
      simp [search, hlast]
  | cons r rs ih =>
      have hC' : Sorted ((P ++ [r]) ++ rs) := by simpa using hC
      have hq' : Lowest ((P ++ [r]) ++ rs) n lo q := by simpa using hq
      simp only [search]
      split
      · rename_i hr
        exact ih (h.skip hC hr) hC' hq' hpq
      rename_i hr
      rw [if_neg (by omega)]
      split
      · rename_i hn
        rw [(h.gap hC (by omega) hn).unique hq]
      · rename_i hn
        have hm := h.move hC (by omega) hn
        refine ih hm hC' hq' ?_
        have hclear := hq.clear r (by simp) (by have := h.le; omega)
        unfold Clear at hclear
        omega

theorem search_eq_some {C : List Interval} (hC : Sorted C) (hq : Lowest C n lo q)
    (hhi : q + n ≤ hi) (hlast : last q = true) : search n hi last C lo = some q :=
  search_eq_some_from (P := []) .nil hC hq hhi hlast

/-- A place is found by a gap inside the window or by the last test. -/
theorem search_fits (hs : search n hi last rs p = some q) : last q = true ∨ q + n ≤ hi := by
  induction rs generalizing p with
  | nil =>
      simp only [search] at hs
      split at hs
      · cases hs
        exact .inl (by assumption)
      · cases hs
  | cons r rs ih =>
      simp only [search] at hs
      split at hs
      · exact ih hs
      split at hs
      · cases hs
      split at hs
      · cases hs
        exact .inr (by omega)
      · exact ih hs

/-- A search whose last test is the window's bound finds the lowest free place
exactly if it lies in the window. -/
theorem search_iff_of_last {C : List Interval} (hC : Sorted C)
    (hlast : ∀ p, Lowest C n lo p → (last p = true ↔ p + n ≤ hi)) :
    search n hi last C lo = some q ↔ Lowest C n lo q ∧ q + n ≤ hi := by
  refine ⟨fun hs => ?_, fun ⟨hq, hhi⟩ => search_eq_some hC hq hhi ((hlast q hq).mpr hhi)⟩
  have hq := search_lowest hC hs
  refine ⟨hq, ?_⟩
  obtain h | h := search_fits hs
  · exact (hlast q hq).mp h
  · exact h

/-! ## Running off the end of the window

With a last test that also accepts places beyond the window, the search can
return one: when the last interval it does not skip is reached inside the
window and ends outside. -/

/-- `q` lies beyond `hi`, at the end of an interval that the search from 0
reaches before `hi` and behind which no other starts. -/
def Overrun (C : List Interval) (n hi q : Nat) : Prop :=
  hi < q ∧ n ≤ hi ∧ ∃ A t B, C = A ++ t :: B ∧ t.end_ = q ∧ (∀ r ∈ A, r.end_ + n ≤ hi) ∧
    ∀ r ∈ B, r.start < q

theorem search_overrun_from (h : Walked n 0 P p) (hC : Sorted (P ++ rs))
    (hs : search n hi last rs p = some q) (hq : hi < q) :
    (q = p ∧ ∀ r ∈ rs, r.start < p) ∨
      (p + n ≤ hi ∧ ∃ A t B, rs = A ++ t :: B ∧ t.end_ = q ∧ (∀ r ∈ A, r.end_ + n ≤ hi) ∧
        ∀ r ∈ B, r.start < q) := by
  induction rs generalizing P p with
  | nil =>
      simp only [search] at hs
      split at hs
      · cases hs
        exact .inl ⟨rfl, by simp⟩
      · cases hs
  | cons r rs ih =>
      have hC' : Sorted ((P ++ [r]) ++ rs) := by simpa using hC
      simp only [search] at hs
      split at hs
      · rename_i hr
        have hskip := h.skip hC hr
        obtain ⟨rfl, hall⟩ | ⟨hp, A, t, B, rfl, ht, hA, hB⟩ := ih hskip hC' hs
        · exact .inl ⟨rfl, by simpa [hr] using hall⟩
        · have hend := hskip.past r (by simp) (Nat.zero_le _)
          refine .inr ⟨hp, r :: A, t, B, rfl, ht, ?_, hB⟩
          intro s hs
          obtain rfl | hs := List.mem_cons.mp hs
          · omega
          · exact hA s hs
      rename_i hr
      split at hs
      · cases hs
      split at hs
      · cases hs
        omega
      rename_i hp hn
      obtain ⟨rfl, hall⟩ | ⟨hp', A, t, B, rfl, ht, hA, hB⟩ :=
        ih (h.move hC (by omega) hn) hC' hs
      · exact .inr ⟨by omega, [], r, rs, rfl, rfl, by simp, hall⟩
      · refine .inr ⟨by omega, r :: A, t, B, rfl, ht, ?_, hB⟩
        intro s hs
        obtain rfl | hs := List.mem_cons.mp hs
        · exact hp'
        · exact hA s hs

/-- A list of intervals all of which are skipped. -/
theorem search_skip (hall : ∀ r ∈ rs, r.start < p) (hlast : last p = true) :
    search n hi last rs p = some p := by
  induction rs with
  | nil => simp [search, hlast]
  | cons r rs ih =>
      obtain ⟨hr, hrs⟩ := List.forall_mem_cons.mp hall
      rw [search, if_pos hr, ih hrs]

theorem search_of_overrun_from {A B : List Interval} {t : Interval} (h : Walked n 0 P p)
    (hC : Sorted (P ++ (A ++ t :: B))) (hlow : Lowest (P ++ (A ++ t :: B)) n 0 q)
    (hp : p + n ≤ hi) (hq : hi < q) (ht : t.end_ = q) (hA : ∀ r ∈ A, r.end_ + n ≤ hi)
    (hB : ∀ r ∈ B, r.start < q) (hlast : last q = true) :
    search n hi last (A ++ t :: B) p = some q := by
  induction A generalizing P p with
  | nil =>
      simp only [List.nil_append, search] at hC hlow ⊢
      have htp : ¬t.start < p := fun hr => by
        have := (h.skip hC hr).past t (by simp) (Nat.zero_le _)
        omega
      have hn : ¬n ≤ t.start - p := fun hn => by
        have := (h.gap hC (by omega) hn).unique hlow
        omega
      rw [if_neg htp, if_neg (by omega), if_neg hn, ht]
      exact search_skip hB hlast
  | cons a A ih =>
      obtain ⟨ha, hA⟩ := List.forall_mem_cons.mp hA
      have hC' : Sorted ((P ++ [a]) ++ (A ++ t :: B)) := by simpa using hC
      have hlow' : Lowest ((P ++ [a]) ++ (A ++ t :: B)) n 0 q := by simpa using hlow
      simp only [List.cons_append, search] at hC hlow ⊢
      split
      · rename_i hr
        exact ih (h.skip hC hr) hC' hlow' hp hA
      rename_i hr
      have hn : ¬n ≤ a.start - p := fun hn => by
        have := (h.gap hC (by omega) hn).unique hlow
        omega
      rw [if_neg (by omega), if_neg hn]
      exact ih (h.move hC (by omega) hn) hC' hlow' ha hA

/-- With a last test that accepts what lies in the window or beyond it, the
search from 0 returns the lowest free place exactly if that place lies in the
window or the search overruns. -/
theorem search_iff_overrun {C : List Interval} (hC : Sorted C)
    (hlast : ∀ p, Lowest C n 0 p → (last p = true ↔ p + n ≤ hi ∨ hi < p)) :
    search n hi last C 0 = some q ↔ Lowest C n 0 q ∧ (q + n ≤ hi ∨ Overrun C n hi q) := by
  constructor
  · intro hs
    have hq := search_lowest hC hs
    refine ⟨hq, ?_⟩
    by_cases hhi : hi < q
    · obtain ⟨rfl, -⟩ | ⟨hp, hex⟩ := search_overrun_from (P := []) .nil hC hs hhi
      · omega
      · exact .inr ⟨hhi, by omega, hex⟩
    · obtain h | h := search_fits hs
      · have := (hlast q hq).mp h
        exact .inl (by omega)
      · exact .inl h
  · rintro ⟨hq, hhi | ⟨hhi, hn, A, t, B, rfl, ht, hA, hB⟩⟩
    · exact search_eq_some hC hq hhi ((hlast q hq).mpr (.inl hhi))
    · exact search_of_overrun_from (P := []) .nil hC hq (by omega) hhi ht hA hB
        ((hlast q hq).mpr (.inr hhi))

end Walk

/-! ## The intervals looked at

Of any list of intervals the search from `p` looks at those that start neither below `p`
nor below the end of one it has looked at before. These are always fit for the search. -/

/-- The intervals the search from `p` does not skip, should it come so far. -/
def visited : List Interval → Nat → List Interval
  | [], _ => []
  | r :: rs, p => if r.start < p then visited rs p else r :: visited rs r.end_

section Visited

variable {n lo p q : Nat} {C : List Interval} {r : Interval}

theorem mem_of_mem_visited (h : r ∈ visited C p) : r ∈ C := by
  induction C generalizing p with
  | nil => cases h
  | cons t C ih =>
      unfold visited at h
      split at h
      · exact List.mem_cons_of_mem _ (ih h)
      · rcases List.mem_cons.mp h with rfl | h
        · exact List.mem_cons_self
        · exact List.mem_cons_of_mem _ (ih h)

theorem le_of_mem_visited (hproper : ∀ r ∈ C, r.start ≤ r.end_) (h : r ∈ visited C p) : p ≤ r.start := by
  induction C generalizing p with
  | nil => cases h
  | cons t C ih =>
      obtain ⟨ht, hC⟩ := List.forall_mem_cons.mp hproper
      unfold visited at h
      split at h
      · exact ih hC h
      · rename_i hp
        rcases List.mem_cons.mp h with rfl | h
        · exact Nat.le_of_not_lt hp
        · have := ih hC h
          omega

/-- One of them ends where the next starts, or before. -/
theorem visited_chain (hproper : ∀ r ∈ C, r.start ≤ r.end_) :
    (visited C p).Pairwise fun r s => r.end_ ≤ s.start := by
  induction C generalizing p with
  | nil => exact .nil
  | cons t C ih =>
      obtain ⟨-, hC⟩ := List.forall_mem_cons.mp hproper
      unfold visited
      split
      · exact ih hC
      · exact List.pairwise_cons.mpr ⟨fun r hr => le_of_mem_visited hC hr, ih hC⟩

theorem visited_sorted (hproper : ∀ r ∈ C, r.start ≤ r.end_) : Sorted (visited C p) where
  starts := (visited_chain hproper).imp_of_mem fun {r s} hr _ hrs =>
    Nat.le_trans (hproper r (mem_of_mem_visited hr)) hrs
  apart := (visited_chain hproper).imp fun {r s} hrs a ha => by omega
  proper r hr := hproper r (mem_of_mem_visited hr)

/-- Some place being clear, there is a lowest one. -/
theorem exists_lowest (hq : lo ≤ q) (hclear : ∀ r ∈ C, lo ≤ r.start → Clear n q r) :
    ∃ p, Lowest C n lo p ∧ p ≤ q := by
  induction q using Nat.strongRecOn with
  | ind q ih =>
      by_cases h : ∃ v < q, lo ≤ v ∧ ∀ r ∈ C, lo ≤ r.start → Clear n v r
      · obtain ⟨v, hv, hlo, hclear⟩ := h
        obtain ⟨p, hp, hle⟩ := ih v hv hlo hclear
        exact ⟨p, hp, Nat.le_trans hle (Nat.le_of_lt hv)⟩
      · refine ⟨q, ⟨hq, hclear, fun v hlo hv => ?_⟩, Nat.le_refl q⟩
        by_contra hno
        exact h ⟨v, hv, hlo, fun r hr hr' => by
          by_contra hbad
          exact hno ⟨r, hr, hr', hbad⟩⟩

end Visited

/-! ## Sorted insertion -/

/-- Puts `r` in front of the first interval that starts behind it. -/
def insertStart (r : Interval) : List Interval → List Interval
  | [] => [r]
  | s :: C => if r.start < s.start then r :: s :: C else s :: insertStart r C

theorem mem_insertStart {r s : Interval} {C : List Interval} :
    s ∈ insertStart r C ↔ s = r ∨ s ∈ C := by
  induction C with
  | nil => simp [insertStart]
  | cons t C ih =>
      simp only [insertStart]
      split
      · simp
      · simp only [List.mem_cons, ih]
        exact or_left_comm

theorem insertStart_perm (r : Interval) (C : List Interval) : (insertStart r C).Perm (r :: C) := by
  induction C with
  | nil => exact .refl _
  | cons t C ih =>
      unfold insertStart
      split
      · exact .refl _
      · exact (ih.cons t).trans (.swap r t C)

theorem pairwise_insertStart {R : Interval → Interval → Prop} (hsymm : ∀ r s, R r s → R s r)
    {r : Interval} {C : List Interval} (hC : C.Pairwise R) (hr : ∀ s ∈ C, R r s) :
    (insertStart r C).Pairwise R := by
  induction C with
  | nil => simp [insertStart]
  | cons t C ih =>
      obtain ⟨ht, hC'⟩ := List.pairwise_cons.mp hC
      simp only [insertStart]
      split
      · exact List.pairwise_cons.mpr ⟨hr, hC⟩
      · refine List.pairwise_cons.mpr ⟨fun s hs => ?_, ih hC' fun s hs => hr s (by simp [hs])⟩
        obtain rfl | hs := mem_insertStart.mp hs
        · exact hsymm _ _ (hr t (by simp))
        · exact ht s hs

theorem starts_insertStart {r : Interval} {C : List Interval}
    (hC : C.Pairwise fun r s => r.start ≤ s.start) :
    (insertStart r C).Pairwise fun r s => r.start ≤ s.start := by
  induction C with
  | nil => simp [insertStart]
  | cons t C ih =>
      obtain ⟨ht, hC'⟩ := List.pairwise_cons.mp hC
      simp only [insertStart]
      split
      · rename_i hlt
        refine List.pairwise_cons.mpr ⟨fun s hs => ?_, hC⟩
        obtain rfl | hs := List.mem_cons.mp hs
        · omega
        · have := ht s hs
          omega
      · rename_i hge
        refine List.pairwise_cons.mpr ⟨fun s hs => ?_, ih hC'⟩
        obtain rfl | hs := mem_insertStart.mp hs
        · omega
        · exact ht s hs

/-- Insertion keeps a list fit for the search. -/
theorem Sorted.insertStart {r : Interval} {C : List Interval} (hC : Sorted C)
    (hr : r.start ≤ r.end_) (hapart : ∀ s ∈ C, Apart r s) : Sorted (insertStart r C) where
  starts := starts_insertStart hC.starts
  apart := pairwise_insertStart (fun r s h a => by have := h a; omega) hC.apart hapart
  proper s hs := by
    obtain rfl | hs := mem_insertStart.mp hs
    · exact hr
    · exact hC.proper s hs

end FirstFit

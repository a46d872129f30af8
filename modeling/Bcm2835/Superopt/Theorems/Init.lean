import Bcm2835.Superopt.PpaSpec
import Mathlib.Data.Set.Card

/-!
# What `ppa_init` makes of the preclaims

The loop over the pages has no exit but the read of the entry behind the last
preclaim: its test comes after the increment, and the last page ends at 512 MB.
So no list of ranges below 512 MB but the empty one is read within its bounds.
-/

namespace Bcm2835.Superopt

open RegionKind

/-- The page meets no preclaim. -/
def PageFree (preclaims : List (Nat × Nat)) (p : Nat) : Prop :=
  ∀ r ∈ preclaims, r.2 ≤ 4096 * p ∨ 4096 * (p + 1) ≤ r.1

/-- The region is free of preclaims. -/
def EntirelyFree (preclaims : List (Nat × Nat)) (rk : RegionKind) (n : Nat) : Prop :=
  ∀ p, n * rk.pages ≤ p → p < (n + 1) * rk.pages → PageFree preclaims p

/-- The bitmaps, the mask and the counts say what is free of preclaims. -/
structure Represents (preclaims : List (Nat × Nat)) (ppa : PhysicalPageAllocator) : Prop where
  bits : ∀ rk ≠ RK_SmallPage, ∀ n < rk.count, ∀ b < 16,
    ((ppa.regions (rk.index n)).bitmap.testBit b = true ↔ EntirelyFree preclaims rk.child (16 * n + b))
  mask : ∀ i < 32, (ppa.supersection_mask.testBit i = true ↔ EntirelyFree preclaims RK_Supersection i)
  counts : ∀ rk : RegionKind,
    ppa.allocated_counts rk.no = {n | n < rk.count ∧ ¬EntirelyFree preclaims rk n}.ncard

/-- Ranges below 512 MB, none of them empty, each behind the one before it. -/
structure Preclaims (preclaims : List (Nat × Nat)) : Prop where
  nonempty : ∀ r ∈ preclaims, r.1 < r.2
  inside : ∀ r ∈ preclaims, r.2 ≤ 0x20000000
  sorted : preclaims.Pairwise fun r s => r.2 ≤ s.1

/-! ## No preclaims -/

theorem entirelyFree_nil (rk : RegionKind) (n : Nat) : EntirelyFree [] rk n := by
  intro p _ _ r hr
  cases hr

theorem represents_nil : Represents [] .empty where
  bits rk hrk n hn b hb := by
    have hbit : (0xffff : Nat).testBit b = true := (eq_full_iff (by decide)).mp rfl b hb
    show (0xffff : Nat).testBit b = true ↔ _
    exact ⟨fun _ => entirelyFree_nil _ _, fun _ => hbit⟩
  mask i hi := by
    have hmask : (0xffffffff : Nat) = 2 ^ 32 - 1 := by decide
    have hbit : (0xffffffff : Nat).testBit i = true := by
      rw [hmask, Nat.testBit_two_pow_sub_one]
      exact decide_eq_true hi
    show (0xffffffff : Nat).testBit i = true ↔ _
    exact ⟨fun _ => entirelyFree_nil _ _, fun _ => hbit⟩
  counts rk := by
    have hnone : {n | n < rk.count ∧ ¬EntirelyFree [] rk n} = ∅ := by
      apply Set.eq_empty_of_forall_notMem
      rintro n ⟨_, hn⟩
      exact hn (entirelyFree_nil rk n)
    rw [hnone, Set.ncard_empty]
    rfl

/-! ## The read behind the last preclaim -/

section Overrun

variable {start n j r1 : Nat} {ps : List (Nat × Nat)} {ppa : PhysicalPageAllocator}

/-- All the ranges that are left end below. -/
theorem advance_overruns (h : ∀ r ∈ ps, r.2 ≤ r1) :
    advance r1 j ps = .error (.preclaims (j + ps.length)) := by
  induction ps generalizing j with
  | nil => rfl
  | cons p ps ih =>
      rw [advance, if_pos (h p List.mem_cons_self),
        ih fun r hr => h r (List.mem_cons_of_mem _ hr), List.length_cons]
      congr 2
      omega

/-- The index is the number of ranges that have been passed. -/
theorem advance_cases (r1 j : Nat) (ps : List (Nat × Nat)) :
    advance r1 j ps = .error (.preclaims (j + ps.length)) ∨
      ∃ j' ps', advance r1 j ps = .ok (j', ps') ∧ j' + ps'.length = j + ps.length ∧ ps' ⊆ ps := by
  induction ps generalizing j with
  | nil => exact .inl rfl
  | cons p ps ih =>
      have hlen : j + (p :: ps).length = j + 1 + ps.length := by
        rw [List.length_cons]
        omega
      rw [advance, hlen]
      split
      · rcases ih (j + 1) with herr | ⟨j', ps', hok, hsum, hsub⟩
        · exact .inl herr
        · exact .inr ⟨j', ps', hok, hsum, fun r hr => List.mem_cons_of_mem _ (hsub hr)⟩
      · exact .inr ⟨j, p :: ps, rfl, hlen, fun r hr => hr⟩

/-- Whatever the pages before it did: the last page goes beyond all ranges. -/
theorem claimPages_overruns (hn : n < 0x20000) (hstart : start < 0x20000000)
    (hps : ∀ r ∈ ps, r.2 ≤ 0x20000000) :
    claimPages start (n + 1) j ps ppa = .error (.preclaims (j + ps.length)) := by
  induction n generalizing j ps ppa with
  | zero =>
      have hr1 : get_region_ptr (0x20000 - 1 + 1) RK_SmallPage = 0x20000000 := rfl
      have hlp : RK_LargePage ≠ RK_SmallPage := by decide
      have hcount : (0x20000 - 1) / 16 < RK_LargePage.count := by decide
      have hnot : ¬ 0x20000000 ≤ start := by omega
      simp only [claimPages, Nat.zero_add, hr1, if_neg hnot, region_index_eq hlp hcount, ok_bind,
        region_eq (index_lt hlp hcount), setRegion_eq (index_lt hlp hcount), advance_overruns hps]
      rfl
  | succ n ih =>
      have hlp : RK_LargePage ≠ RK_SmallPage := by decide
      have hcount : (0x20000 - (n + 1 + 1)) / 16 < RK_LargePage.count := by
        simp only [count]
        omega
      rw [claimPages]
      dsimp only
      split
      · exact ih (by omega) hps
      · simp only [region_index_eq hlp hcount, ok_bind, region_eq (index_lt hlp hcount),
          setRegion_eq (index_lt hlp hcount)]
        rcases advance_cases (get_region_ptr (0x20000 - (n + 1 + 1) + 1) RK_SmallPage) j ps with
          herr | ⟨j', ps', hok, hsum, hsub⟩
        · rw [herr]
          rfl
        · rw [hok, ok_bind]
          dsimp only
          rw [ih (by omega) fun r hr => hps r (hsub hr), hsum]

end Overrun

/-- A list of ranges below 512 MB is read beyond its end. -/
theorem ppa_init_overruns {preclaims : List (Nat × Nat)} (h : Preclaims preclaims)
    (hne : preclaims ≠ []) : ppa_init preclaims = .error (.preclaims preclaims.length) := by
  cases preclaims with
  | nil => exact absurd rfl hne
  | cons p ps =>
      have hlt := h.nonempty p List.mem_cons_self
      have hle := h.inside p List.mem_cons_self
      have hpages : claimPages p.1 (0x1ffff + 1) 0 (p :: ps) .empty =
          .error (.preclaims (0 + (p :: ps).length)) :=
        claimPages_overruns (by decide) (by omega) h.inside
      rw [Nat.zero_add] at hpages
      rw [ppa_init, hpages]
      rfl

/-- `ppa_init` leaves what it should, reading no entry but those it was given, if and
only if it is given none. -/
theorem ppa_init_represents_iff {preclaims : List (Nat × Nat)} (h : Preclaims preclaims) :
    (∃ ppa, ppa_init preclaims = .ok ppa ∧ Represents preclaims ppa) ↔ preclaims = [] := by
  constructor
  · rintro ⟨ppa, hok, _⟩
    by_contra hne
    rw [ppa_init_overruns h hne] at hok
    cases hok
  · rintro rfl
    exact ⟨_, rfl, represents_nil⟩

/-- With nothing preclaimed it does; with two ranges it does not. -/
theorem ppa_init_represents_iff_two :
    ((∃ ppa, ppa_init [] = .ok ppa ∧ Represents [] ppa) ↔ ([] : List (Nat × Nat)) = []) ∧
    ((∃ ppa, ppa_init [(0, 0x1000), (0x8000, 0x9800)] = .ok ppa ∧
      Represents [(0, 0x1000), (0x8000, 0x9800)] ppa) ↔ [(0, 0x1000), (0x8000, 0x9800)] = []) :=
  ⟨ppa_init_represents_iff ⟨by decide, by decide, .nil⟩,
    ppa_init_represents_iff ⟨by decide, by decide, by simp⟩⟩

/-- One page is preclaimed: the entry behind the only one is read. -/
theorem ppa_init_one_page : Preclaims [(0, 0x1000)] ∧
    ppa_init [(0, 0x1000)] = .error (.preclaims 1) ∧
    ¬ ∃ ppa, ppa_init [(0, 0x1000)] = .ok ppa ∧ Represents [(0, 0x1000)] ppa := by
  have h : Preclaims [(0, 0x1000)] :=
    ⟨by decide, by decide, List.pairwise_singleton _ _⟩
  have herr := ppa_init_overruns h (by decide)
  refine ⟨h, herr, ?_⟩
  rintro ⟨ppa, hok, _⟩
  rw [herr] at hok
  cases hok

end Bcm2835.Superopt

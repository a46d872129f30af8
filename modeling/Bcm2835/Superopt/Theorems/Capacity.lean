import Mathlib.Data.List.Count
import Bcm2835.Superopt.PpaRuns

/-!
# Capacity

An allocation in a careful run fails only when no block of the kind is free, and
when everything is given back the allocator is as it was at first. A block
smaller than a supersection cannot be given back: its region is unlinked through
a floating list that does not exist. And `ppa_init` takes everything behind the
start of the first preclaim, so that gaps between preclaims are lost.
-/

namespace Bcm2835.Superopt

open RegionKind

section Capacity

variable {start : PhysicalPageAllocator} {s : PpaState} {rk : RegionKind} {n p0 : Nat}

/-- A kind with an empty floating list has no partial region. -/
theorem no_partial (hinit : Initial p0 start) (hrk : rk ≠ RK_SmallPage)
    (hempty : start.floating_lists rk.no = SIZE_MAX) (hn : n < rk.count) : ¬Partial p0 rk n := by
  rcases hinit.floats rk hrk with ⟨m, hm, -, -, hhead, -⟩ | ⟨hnone, -, -⟩
  · have hlt := index_lt hrk hm
    rw [← hhead, hempty] at hlt
    exact absurd hlt (by decide)
  · exact hnone n hn hn

/-- Then a child that ends before page `p0` has a parent that does. -/
theorem parent_fits (rk : RegionKind) (hinit : Initial p0 start) (hrk : rk ≠ RK_SmallPage)
    (hempty : start.floating_lists rk.no = SIZE_MAX) (hn : n < rk.child.count)
    (hfit : (n + 1) * rk.child.pages ≤ p0) : (n / 16 + 1) * rk.pages ≤ p0 := by
  have hcount := count_child hrk
  by_contra hlt
  refine no_partial hinit hrk hempty (n := n / 16) (by omega) ⟨?_, by omega⟩
  have hmono : (16 * (n / 16) + 1) * rk.child.pages ≤ (n + 1) * rk.child.pages :=
    Nat.mul_le_mul_right _ (by omega)
  omega

theorem supersection_parent (rk : RegionKind) (hrk : rk ≠ RK_SmallPage) (n : Nat) :
    supersection rk.child n = supersection rk (n / 16) := by
  cases rk with
  | RK_SmallPage => exact absurd rfl hrk
  | _ =>
      simp only [supersection, child, pages]
      omega

theorem supersection_self (n : Nat) : supersection RK_Supersection n = n :=
  Nat.mul_div_cancel _ (by decide)

/-- With the lists above empty, a block before page `p0` is in a supersection
before it. -/
theorem supersection_fits (hinit : Initial p0 start) (hnone : NoneAbove start rk)
    (hn : n < rk.count) (hfit : (n + 1) * rk.pages ≤ p0) :
    (supersection rk n + 1) * 4096 ≤ p0 := by
  have hss : ∀ {m : Nat}, (m + 1) * RK_Supersection.pages ≤ p0 →
      (supersection RK_Supersection m + 1) * 4096 ≤ p0 := by
    intro m hm
    rwa [supersection_self]
  have hsec : ∀ {m : Nat}, start.floating_lists 0 = SIZE_MAX → m < RK_Section.count →
      (m + 1) * RK_Section.pages ≤ p0 → (supersection RK_Section m + 1) * 4096 ≤ p0 := by
    intro m h0 hm hfit
    have hparent : supersection RK_Section m = supersection RK_Supersection (m / 16) :=
      supersection_parent RK_Supersection (by decide) m
    rw [hparent]
    exact hss (parent_fits RK_Supersection hinit (by decide) h0 hm hfit)
  have hlarge : ∀ {m : Nat}, start.floating_lists 0 = SIZE_MAX →
      start.floating_lists 1 = SIZE_MAX → m < RK_LargePage.count →
      (m + 1) * RK_LargePage.pages ≤ p0 → (supersection RK_LargePage m + 1) * 4096 ≤ p0 := by
    intro m h0 h1 hm hfit
    have hparent : supersection RK_LargePage m = supersection RK_Section (m / 16) :=
      supersection_parent RK_Section (by decide) m
    rw [hparent]
    exact hsec h0 (Nat.div_lt_of_lt_mul hm)
      (parent_fits RK_Section hinit (by decide) h1 hm hfit)
  cases rk with
  | RK_Supersection => exact hss hfit
  | RK_Section => exact hsec (hnone 0 (by decide)) hn hfit
  | RK_LargePage => exact hlarge (hnone 0 (by decide)) (hnone 1 (by decide)) hn hfit
  | RK_SmallPage =>
      have hparent : supersection RK_SmallPage n = supersection RK_LargePage (n / 16) :=
        supersection_parent RK_LargePage (by decide) n
      rw [hparent]
      exact hlarge (hnone 0 (by decide)) (hnone 1 (by decide)) (Nat.div_lt_of_lt_mul hn)
        (parent_fits RK_LargePage hinit (by decide) (hnone 2 (by decide)) hn hfit)

/-- A live block in the supersection of a block is in its way, if there is
nothing above. -/
theorem Kept.not_free (h : Kept start p0 s) (hnone : NoneAbove s.ppa rk) {b : RegionKind × Nat}
    (hb : b ∈ s.live) (heq : b.2 = supersection rk n * 2 ^ 24) : ¬Free s rk n := by
  intro hfree
  by_cases hrk : rk = RK_Supersection
  · subst hrk
    have hpos : 0 < b.1.scale := by cases b.1 <;> decide
    rw [supersection_self] at heq
    refine (hfree b.2 ⟨?_, ?_⟩).2 b hb ⟨le_refl _, by omega⟩
    · simp only [heq, scale]
      omega
    · simp only [heq, scale]
      omega
  · have hpos : 0 < rk.no := by cases rk <;> simp_all [no]
    have hwhole : b.1 = RK_Supersection := by
      rcases h.lists with ⟨-, -, hall⟩ | ⟨hne, -⟩
      · exact hall b hb
      · exact absurd (hnone 0 hpos) hne
    have hscale : 0 < rk.scale := by cases rk <;> decide
    have hfirst : Within (rk, rk.scale * n) (rk.scale * n) :=
      ⟨le_refl _, Nat.lt_add_of_pos_right hscale⟩
    have hin := within_supersection hfirst
    refine (hfree _ hfirst).2 b hb ?_
    rw [Within, hwhole, heq, ← hin]
    simp only [scale]
    omega

/-- When a careful allocation fails there is no free block of the kind. -/
theorem Kept.none_left (h : Kept start (firstPage s.preclaims) s)
    (hinit : Initial (firstPage s.preclaims) start) (hgap : GapFree s.preclaims)
    (hnone : NoneAbove s.ppa rk) (hmask : s.ppa.supersection_mask = 0) (hn : n < rk.count) :
    ¬Free s rk n := by
  intro hfree
  have hfit := (unclaimed_iff hgap hn).mp fun x hx => (hfree x hx).1
  have hfits : (supersection rk n + 1) * 4096 ≤ firstPage s.preclaims := by
    by_cases hrk : rk = RK_Supersection
    · subst hrk
      exact supersection_fits hinit (fun k hk => absurd hk (Nat.not_lt_zero k)) hn hfit
    · have hpos : 0 < rk.no := by cases rk <;> simp_all [no]
      rcases h.lists with ⟨hlists, -, -⟩ | ⟨hne, -⟩
      · exact supersection_fits hinit (fun k hk => hlists ▸ hnone k hk) hn hfit
      · exact absurd (hnone 0 hpos) hne
  have hlt : supersection rk n < 32 := by
    have hcount := pages_le_count hn
    cases rk <;> simp only [supersection, pages] at hcount ⊢ <;> omega
  have hbit := h.mask (supersection rk n)
  rw [hmask, Nat.zero_testBit, eq_comm, decide_eq_false_iff_not] at hbit
  refine hbit ⟨hlt, hfits, fun b hb heq => ?_⟩
  exact h.not_free hnone hb heq hfree

/-! ## The counts -/

/-- The allocations that are counted are the live ones. -/
def Counted (s : PpaState) : Prop :=
  ∀ k, s.ppa.allocated_counts k = s.live.countP (fun b => b.1.no = k) % 2 ^ 32

theorem Counted.take {ppa' : PhysicalPageAllocator} {p : Nat} (h : Counted s)
    (hcounts : ppa'.allocated_counts = (s.ppa.countAllocated rk.no 1).allocated_counts) :
    Counted { s with ppa := ppa', live := (rk, p) :: s.live } := by
  intro k
  show ppa'.allocated_counts k = _
  rw [hcounts, List.countP_cons]
  have hk := h k
  simp only [PhysicalPageAllocator.countAllocated, Function.update_apply, decide_eq_true_eq]
  by_cases hno : k = rk.no
  · subst hno
    rw [if_pos rfl, if_pos rfl, hk, Nat.mod_add_mod]
  · rw [if_neg hno, if_neg (Ne.symm hno), hk, Nat.add_zero]

theorem Counted.give {ppa' : PhysicalPageAllocator} {b : RegionKind × Nat} (h : Counted s)
    (hb : b ∈ s.live)
    (hcounts : ppa'.allocated_counts = (s.ppa.countAllocated b.1.no MINUS_ONE).allocated_counts) :
    Counted { s with ppa := ppa', live := s.live.erase b } := by
  intro k
  show ppa'.allocated_counts k = _
  rw [hcounts, List.countP_erase]
  have hk := h k
  simp only [PhysicalPageAllocator.countAllocated, Function.update_apply, decide_eq_true_eq]
  by_cases hno : k = b.1.no
  · subst hno
    have hpos : 0 < s.live.countP (fun c => c.1.no = b.1.no) :=
      List.countP_pos_iff.mpr ⟨b, hb, by simp⟩
    rw [if_pos rfl, if_pos ⟨hb, rfl⟩, hk]
    simp only [MINUS_ONE]
    omega
  · rw [if_neg hno, if_neg (fun hc => hno hc.2.symm), hk]
    rfl

end Capacity

/-- Without preclaims `ppa_init` leaves the empty allocator. -/
theorem kept_empty : ∀ s, ((ppaSystem []).restrict Careful).Reachable s →
    Kept .empty (firstPage []) s ∧ s.preclaims = [] :=
  kept_of_careful rfl initial_empty

theorem counted_of_careful :
    ∀ s, ((ppaSystem []).restrict Careful).Reachable s → Counted s := by
  apply TSys.invariant_of
  · rintro s ⟨ppa, hppa, rfl⟩ k
    cases hppa
    rfl
  · rintro s c s' hs h ⟨hcare, hvalid, hnext⟩
    obtain ⟨hkept, -⟩ := kept_empty s hs
    cases c with
    | alloc rk =>
        rcases hkept.alloc initial_empty hcare with ⟨-, hfail⟩ | ⟨hmask, ppa', hok, hcounts, -⟩
        · rw [ppaNext, hfail] at hnext
          cases hnext
          exact h
        · rw [ppaNext, hok, ok_bind] at hnext
          simp only [if_neg (top_ne_uintptrMax (hkept.top hmask).1)] at hnext
          cases hnext
          exact h.take hcounts
    | free p rk =>
        obtain rfl : rk = RK_Supersection := hcare
        obtain ⟨i, -, -, rfl⟩ := hkept.live _ hvalid
        rw [ppaNext, free_supersection] at hnext
        cases hnext
        exact h.give hvalid rfl

/-! ## The runs -/

/-- With nothing live the allocator without preclaims is as at first. -/
theorem start_of_freed {s : PpaState} (hs : ((ppaSystem []).restrict Careful).Reachable s)
    (hlive : s.live = []) : s = .start := by
  obtain ⟨h, hpre⟩ := kept_empty s hs
  have hcounted := counted_of_careful s hs
  have hlists : s.ppa.floating_lists = PhysicalPageAllocator.empty.floating_lists ∧
      s.ppa.floating_counts = PhysicalPageAllocator.empty.floating_counts := by
    apply h.unsplit
    rw [hlive]
    exact fun b hb => absurd hb List.not_mem_nil
  have hmask : s.ppa.supersection_mask = 0xffffffff := by
    apply Nat.eq_of_testBit_eq
    intro i
    have hfull : (0xffffffff : Nat) = 2 ^ 32 - 1 := by decide
    rw [h.mask i, hlive, hfull, Nat.testBit_two_pow_sub_one, decide_eq_decide]
    simp only [firstPage, List.not_mem_nil, false_implies, implies_true, and_true]
    omega
  have hcounts : s.ppa.allocated_counts = PhysicalPageAllocator.empty.allocated_counts := by
    funext k
    rw [hcounted k, hlive]
    rfl
  have hregions := h.regions
  obtain ⟨⟨regions, mask, lists, counts, allocated⟩, live, preclaims⟩ := s
  simp only at hlists hmask hcounts hregions hlive hpre
  rw [hregions, hmask, hlists.1, hlists.2, hcounts, hlive, hpre]
  rfl

/-- Then all supersections can be had. -/
theorem all_supersections : ∃ t,
    TSys.exec ppaStep .start (List.replicate 32 (.alloc RK_Supersection)) = some t ∧
      t.live = (List.range 32).map fun i => (RK_Supersection, i * 2 ^ 24) := by
  have hrun : (TSys.exec ppaStep .start (List.replicate 32 (.alloc RK_Supersection))).map
      PpaState.live = some ((List.range 32).map fun i => (RK_Supersection, i * 2 ^ 24)) := by
    decide +kernel
  exact Option.map_eq_some_iff.mp hrun

/-- In a careful run, over preclaims that `ppa_init` reads within and that leave
no gap, an allocation fails only without a free block of its kind. Without
preclaims, the allocator is as at first when nothing is live, so that all
supersections can be allocated. -/
theorem careful_runs_capacity (preclaims : List (Nat × Nat)) (hread : ReadsInside preclaims)
    (hgap : GapFree preclaims) :
    ∀ s, ((ppaSystem preclaims).restrict Careful).Reachable s →
      (∀ rk ppa', Careful s (.alloc rk) → ppa_alloc s.ppa rk = .ok (UINTPTR_MAX, ppa') →
        ∀ n < rk.count, ¬Free s rk n) ∧
      (preclaims = [] → s.live = [] → s = .start ∧ ∃ t,
        TSys.exec ppaStep s (List.replicate 32 (.alloc RK_Supersection)) = some t ∧
          t.live = (List.range 32).map fun i => (RK_Supersection, i * 2 ^ 24)) := by
  obtain ⟨start, hstart, hinit⟩ := ppa_init_spec hread
  intro s hs
  constructor
  · obtain ⟨h, hpre⟩ := kept_of_careful hstart hinit s hs
    rw [← hpre] at h hinit hgap
    intro rk ppa' hcare halloc n hn
    rcases h.alloc hinit hcare with ⟨hmask, -⟩ | ⟨hmask, ppa'', hok, -⟩
    · exact h.none_left hinit hgap hcare hmask hn
    · have hptr := congrArg Prod.fst (Except.ok.inj (hok.symm.trans halloc))
      exact absurd hptr (top_ne_uintptrMax (h.top hmask).1)
  · rintro rfl hlive
    obtain rfl := start_of_freed hs hlive
    exact ⟨rfl, all_supersections⟩

/-- Everything from the third supersection on is preclaimed. -/
def lastPreclaimed : List (Nat × Nat) := [(0x2000000, 0x20000001)]

theorem lastPreclaimed_gapFree : GapFree lastPreclaimed := by
  intro page hpage
  show _ ↔ 0x2000 ≤ page
  constructor
  · rintro ⟨x, hx, r, hr, hlow, -⟩
    obtain rfl := List.mem_singleton.mp hr
    simp only at hlow
    omega
  · intro hle
    refine ⟨page * 4096, by omega, _, List.mem_singleton_self _, ?_⟩
    simp only
    omega

/-- The first two supersections can be had, the second one first, and then no more. -/
theorem two_supersections : ∃ s, ((ppaSystem lastPreclaimed).restrict Careful).Reachable s ∧
    s.live = [(RK_Supersection, 0), (RK_Supersection, 2 ^ 24)] ∧
      ppa_alloc s.ppa RK_Supersection = .ok (UINTPTR_MAX, s.ppa) := by
  have hread : ReadsInside lastPreclaimed := .inr ⟨_, List.mem_singleton_self _, by decide⟩
  obtain ⟨start, hstart, hinit⟩ := ppa_init_spec hread
  have hmask : start.supersection_mask = 2 ^ 2 - 1 := by
    apply Nat.eq_of_testBit_eq
    intro i
    rw [hinit.mask i, Nat.testBit_two_pow_sub_one, decide_eq_decide]
    simp only [count, pages, firstPage, lastPreclaimed]
    omega
  -- an allocation of the highest one of those that are left
  have hstep : ∀ (s : PpaState) (mask : Nat), ((ppaSystem lastPreclaimed).restrict Careful).Reachable s →
      s.ppa.supersection_mask = mask → mask ≠ 0 → mask < 2 ^ 32 → Nat.log2 mask < 32 →
      ∃ s', ((ppaSystem lastPreclaimed).restrict Careful).Reachable s' ∧
        s'.ppa.supersection_mask = mask &&& not32 (1 <<< Nat.log2 mask) ∧
        s'.live = (RK_Supersection, Nat.log2 mask * 2 ^ 24) :: s.live := by
    rintro s mask hs rfl hne hlt hlog
    have hcare : Careful s (.alloc RK_Supersection) := fun k hk => absurd hk (Nat.not_lt_zero k)
    have hnext : ppaNext s (.alloc RK_Supersection) = .ok { s with
        ppa := (dropTop s.ppa).countAllocated 0 1
        live := (RK_Supersection, Nat.log2 s.ppa.supersection_mask * 2 ^ 24) :: s.live } := by
      rw [ppaNext, alloc_supersection hlt hne, ok_bind]
      simp only [if_neg (top_ne_uintptrMax hlog)]
      rfl
    exact ⟨_, .step hs ⟨hcare, trivial, hnext⟩, rfl, rfl⟩
  obtain ⟨s, hs, hmask1, hlive1⟩ := hstep ⟨start, [], lastPreclaimed⟩ 3 (.init ⟨start, hstart, rfl⟩)
    hmask (by decide) (by decide) (by decide)
  obtain ⟨t, ht, hmask2, hlive2⟩ := hstep s 1 hs hmask1 (by decide) (by decide) (by decide)
  refine ⟨t, ht, ?_, alloc_fails (fun k hk => absurd hk (Nat.not_lt_zero k)) hmask2⟩
  rw [hlive2, hlive1]
  rfl

/-- Two supersections taken, and given back. -/
def takenAndGiven : List PpaCall :=
  [.alloc RK_Supersection, .alloc RK_Supersection, .free 0x1f000000 RK_Supersection,
    .free 0x1e000000 RK_Supersection]

/-- With preclaims, when all supersections are taken none is free; and without, after
two were given back all can be had. -/
theorem careful_runs_capacity_taken :
    (∃ s, ((ppaSystem lastPreclaimed).restrict Careful).Reachable s ∧
      s.live = [(RK_Supersection, 0), (RK_Supersection, 2 ^ 24)] ∧
      ppa_alloc s.ppa RK_Supersection = .ok (UINTPTR_MAX, s.ppa) ∧
      ∀ n < RK_Supersection.count, ¬Free s RK_Supersection n) ∧
    ∃ s, TSys.exec ppaStep .start takenAndGiven = some s ∧ ∃ t,
      TSys.exec ppaStep s (List.replicate 32 (.alloc RK_Supersection)) = some t ∧
        t.live = (List.range 32).map fun i => (RK_Supersection, i * 2 ^ 24) := by
  constructor
  · obtain ⟨s, hs, hlive, hfail⟩ := two_supersections
    have hread : ReadsInside lastPreclaimed := .inr ⟨_, List.mem_singleton_self _, by decide⟩
    exact ⟨s, hs, hlive, hfail, (careful_runs_capacity lastPreclaimed hread lastPreclaimed_gapFree s
      hs).1 RK_Supersection s.ppa (fun k hk => absurd hk (Nat.not_lt_zero k)) hfail⟩
  · have hrun : (TSys.exec ppaStep .start takenAndGiven).map PpaState.live = some [] := by
      decide +kernel
    obtain ⟨s, hexec, hlive⟩ := Option.map_eq_some_iff.mp hrun
    have hcareful : ∀ c ∈ takenAndGiven, ∀ s, Careful s c := by
      intro c hc s
      simp only [takenAndGiven, List.mem_cons, List.not_mem_nil, or_false] at hc
      rcases hc with rfl | rfl | rfl | rfl
      · exact fun k hk => absurd hk (Nat.not_lt_zero k)
      · exact fun k hk => absurd hk (Nat.not_lt_zero k)
      · rfl
      · rfl
    have hs : ((ppaSystem []).restrict Careful).Reachable s :=
      ((TSys.steps_of_next step_of_ppaStep hexec).restrict hcareful).reachable
        (.init ⟨.empty, rfl, rfl⟩)
    exact ⟨s, hexec, ((careful_runs_capacity [] trivial gapFree_nil s hs).2 rfl hlive).2⟩

/-- The one section that is live cannot be given back; and a supersection in the
gap between two preclaims is free, but cannot be had. -/
theorem capacity_lost :
    (∃ s, (ppaSystem []).Reachable s ∧ s.live = [(RK_Section, 0x1f000000)] ∧
      ppaNext s (.free 0x1f000000 RK_Section) = .error (.floating_lists 0x221f)) ∧
    ∃ s, (ppaSystem [(0, 0x1000), (0x1ffff000, 0x20000001)]).Reachable s ∧
      ppa_alloc s.ppa RK_Supersection = .ok (UINTPTR_MAX, s.ppa) ∧ Free s RK_Supersection 1 := by
  constructor
  · have hrun : (TSys.exec ppaStep .start [.alloc RK_Section]).map
        (fun s => (s.live, match ppaNext s (.free 0x1f000000 RK_Section) with
          | .error e => some e
          | .ok _ => none)) =
          some ([(RK_Section, 0x1f000000)], some (.floating_lists 0x221f)) := by
      decide +kernel
    obtain ⟨s, hs, hstate⟩ := Option.map_eq_some_iff.mp hrun
    obtain ⟨hlive, hfault⟩ := Prod.mk.inj hstate
    refine ⟨s, reachable_of_exec hs, hlive, ?_⟩
    cases hnext : ppaNext s (.free 0x1f000000 RK_Section) with
    | error e =>
        rw [hnext] at hfault
        exact congrArg Except.error (Option.some.inj hfault)
    | ok t =>
        rw [hnext] at hfault
        cases hfault
  · have hread : ReadsInside [(0, 0x1000), (0x1ffff000, 0x20000001)] :=
      .inr ⟨_, List.mem_cons_of_mem _ (List.mem_singleton_self _), by decide⟩
    obtain ⟨ppa, hppa, hinit⟩ := ppa_init_spec hread
    have hmask : ppa.supersection_mask = 0 := by
      apply Nat.eq_of_testBit_eq
      intro i
      rw [hinit.mask i, Nat.zero_testBit, decide_eq_false_iff_not]
      simp only [count, pages, firstPage]
      omega
    refine ⟨_, .init ⟨ppa, hppa, rfl⟩,
      alloc_fails (fun k hk => absurd hk (Nat.not_lt_zero k)) hmask, fun x hx => ?_⟩
    refine ⟨?_, fun b hb => absurd hb List.not_mem_nil⟩
    rintro ⟨r, hr, hlow, hhigh⟩
    obtain ⟨hx1, hx2⟩ := hx
    simp only [scale] at hx1 hx2
    rcases List.mem_cons.mp hr with rfl | hr
    · simp only at hhigh
      omega
    · obtain rfl := List.mem_singleton.mp hr
      simp only at hlow
      omega

end Bcm2835.Superopt

import Bcm2835.Superopt.PpaRuns

/-!
# The floating lists and the bitmaps

The representation of the allocator: each floating list is a doubly linked chain
of the regions of its kind that are split and have a free child, and the bits
say which children are free. Splitting a region breaks it at once, since the
commit leaves the bit of the child set. It holds as long as supersections are
handed out and given back whole.
-/

namespace Bcm2835.Superopt

open RegionKind

/-- The records from `head` on are those of the list, each linked to the one
before it. -/
def Chain (regions : Nat → RegionInfo) : (prev head : Nat) → List Nat → Prop
  | _, head, [] => head = CHAIN_END
  | prev, head, i :: is =>
      head = i ∧ i < REGION_COUNT ∧ (regions i).prev = prev ∧ Chain regions i (regions i).next is

/-- The head of a list has a sentinel of its own. -/
def headOf (v : Nat) : Nat := if v = SIZE_MAX then CHAIN_END else v

/-- The region is in a live block as a whole. -/
def HandedOut (s : PpaState) (rk : RegionKind) (n : Nat) : Prop :=
  ∃ b ∈ s.live, ∀ x, Within (rk, rk.scale * n) x → Within b x

/-- The region is in use, but not as a whole. -/
def Split (s : PpaState) (rk : RegionKind) (n : Nat) : Prop :=
  ¬Free s rk n ∧ ¬HandedOut s rk n

/-- The floating list of a kind holds the regions `l`. -/
structure Listed (s : PpaState) (rk : RegionKind) (l : List Nat) : Prop where
  chain : Chain s.ppa.regions CHAIN_END (headOf (s.ppa.floating_lists rk.no)) (l.map rk.index)
  acyclic : l.Nodup
  mem : ∀ n, n ∈ l ↔ n < rk.count ∧ Split s rk n ∧ ∃ c < 16, Free s rk.child (16 * n + c)
  count : s.ppa.floating_counts rk.no = l.length

/-- The representation invariant. The bitmap of a region that is handed out as a
whole is not read until it is given back. -/
structure RepInv (s : PpaState) : Prop where
  lists : ∀ rk ≠ RK_SmallPage, ∃ l, Listed s rk l
  bits : ∀ rk ≠ RK_SmallPage, ∀ n < rk.count, ¬HandedOut s rk n → ∀ c < 16,
    ((s.ppa.regions (rk.index n)).bitmap.testBit c = true ↔ Free s rk.child (16 * n + c))
  mask : ∀ i < 32, (s.ppa.supersection_mask.testBit i = true ↔ Free s RK_Supersection i)

/-- Nothing is split: an allocation of a smaller kind comes only when there is
nothing left for it, and what is freed is a supersection. -/
def Whole (s : PpaState) : PpaCall → Prop
  | .alloc rk => rk = RK_Supersection ∨ (NoneAbove s.ppa rk ∧ s.ppa.supersection_mask = 0)
  | .free _ rk => rk = RK_Supersection

theorem Whole.careful {s : PpaState} {c : PpaCall} (h : Whole s c) : Careful s c := by
  cases c with
  | alloc rk =>
      rcases h with rfl | ⟨hnone, -⟩
      · exact fun k hk => absurd hk (Nat.not_lt_zero k)
      · exact hnone
  | free p rk => exact h

/-- The runs of such calls have live supersections only. -/
theorem whole_runs {preclaims : List (Nat × Nat)} {start : PhysicalPageAllocator}
    (hstart : ppa_init preclaims = .ok start) (hinit : Initial (firstPage preclaims) start) :
    ∀ s, ((ppaSystem preclaims).restrict Whole).Reachable s →
      (Kept start (firstPage preclaims) s ∧ s.preclaims = preclaims) ∧
        ∀ b ∈ s.live, b.1 = RK_Supersection := by
  apply TSys.invariant_of
  · rintro s ⟨ppa, hppa, rfl⟩
    obtain rfl : start = ppa := Except.ok.inj (hstart.symm.trans hppa)
    exact ⟨⟨kept_init hinit preclaims, rfl⟩, fun b hb => absurd hb List.not_mem_nil⟩
  · rintro s c s' - ⟨⟨h, hpre⟩, hall⟩ ⟨hwhole, hvalid, hnext⟩
    obtain ⟨t, ht, hkept, hpre'⟩ := h.next hinit hvalid hwhole.careful
    obtain rfl : t = s' := Except.ok.inj (ht.symm.trans hnext)
    refine ⟨⟨hkept, hpre'.trans hpre⟩, ?_⟩
    cases c with
    | alloc rk =>
        rcases h.alloc hinit hwhole.careful with ⟨-, hfail⟩ | ⟨hmask, ppa', hok, -, -⟩
        · rw [ppaNext, hfail] at hnext
          cases hnext
          exact hall
        · rcases hwhole with rfl | ⟨-, hmask'⟩
          · rw [ppaNext, hok, ok_bind] at hnext
            simp only [if_neg (top_ne_uintptrMax (h.top hmask).1)] at hnext
            cases hnext
            exact List.forall_mem_cons.mpr ⟨rfl, hall⟩
          · exact absurd hmask' hmask
    | free p rk =>
        obtain rfl : rk = RK_Supersection := hwhole
        obtain ⟨i, -, -, rfl⟩ := h.live _ hvalid
        rw [ppaNext, free_supersection] at hnext
        cases hnext
        exact fun b hb => hall b (List.mem_of_mem_erase hb)

section Whole

variable {start : PhysicalPageAllocator} {s : PpaState} {rk : RegionKind} {n : Nat}

theorem supersection_child (hrk : rk ≠ RK_SmallPage) {c : Nat} (hc : c < 16) :
    supersection rk.child (16 * n + c) = supersection rk n := by
  cases rk with
  | RK_SmallPage => exact absurd rfl hrk
  | _ =>
      simp only [supersection, child, pages]
      omega

/-- A region is handed out when its supersection is. -/
theorem handedOut_of_live {b : RegionKind × Nat} (hb : b ∈ s.live) (hss : b.1 = RK_Supersection)
    (heq : b.2 = supersection rk n * 2 ^ 24) : HandedOut s rk n := by
  refine ⟨b, hb, fun x hx => ?_⟩
  have hin := within_supersection hx
  rw [Within, hss, heq, ← hin]
  simp only [scale]
  omega

/-- A region that is handed out ends before page `p0`. -/
theorem Kept.handedOut_le {p0 : Nat} (h : Kept start p0 s) (hout : HandedOut s rk n) :
    (n + 1) * rk.pages ≤ p0 := by
  obtain ⟨b, hb, hin⟩ := hout
  have hpos : 0 < rk.pages := by cases rk <;> decide
  have hmul : (n + 1) * rk.pages = n * rk.pages + rk.pages := Nat.succ_mul ..
  have hlast : Within (rk, rk.scale * n) (4096 * ((n + 1) * rk.pages - 1)) := by
    rw [within_iff, Nat.mul_div_cancel_left _ (by decide)]
    omega
  have hpage := (h.within hb (hin _ hlast)).2
  rw [Nat.mul_div_cancel_left _ (by decide)] at hpage
  omega

/-- The regions that a floating list should hold are the partial ones. -/
theorem Kept.partial_iff_split (h : Kept start (firstPage s.preclaims) s)
    (hgap : GapFree s.preclaims) (hwhole : ∀ b ∈ s.live, b.1 = RK_Supersection)
    (hrk : rk ≠ RK_SmallPage) (hn : n < rk.count) :
    Partial (firstPage s.preclaims) rk n ↔
      Split s rk n ∧ ∃ c < 16, Free s rk.child (16 * n + c) := by
  have hcount := count_child hrk
  have hchild : ∀ c < 16, (Free s rk.child (16 * n + c) ↔
      (16 * n + c + 1) * rk.child.pages ≤ firstPage s.preclaims ∧
        ∀ b ∈ s.live, b.2 ≠ supersection rk n * 2 ^ 24) := by
    intro c hc
    rw [h.free_iff hgap hwhole (by omega), supersection_child hrk hc]
  have hself := h.free_iff hgap hwhole hn
  constructor
  · rintro ⟨hlow, hhigh⟩
    refine ⟨⟨fun hfree => ?_, fun hout => ?_⟩, 0, by decide, (hchild 0 (by decide)).mpr ⟨hlow, ?_⟩⟩
    · have hle := (hself.mp hfree).1
      omega
    · have hle := h.handedOut_le hout
      omega
    · intro b hb heq
      have hout : HandedOut s rk n := handedOut_of_live hb (hwhole b hb) heq
      have hle := h.handedOut_le hout
      omega
  · rintro ⟨⟨hfree, -⟩, c, hc, hc'⟩
    obtain ⟨hlow, hlive⟩ := (hchild c hc).mp hc'
    constructor
    · have hmono : (16 * n + 1) * rk.child.pages ≤ (16 * n + c + 1) * rk.child.pages :=
        Nat.mul_le_mul_right _ (by omega)
      omega
    · by_contra hge
      exact hfree (hself.mpr ⟨by omega, hlive⟩)

/-- The floating list of a kind is the partial region or empty. -/
theorem Kept.listed (h : Kept start (firstPage s.preclaims) s)
    (hinit : Initial (firstPage s.preclaims) start) (hgap : GapFree s.preclaims)
    (hwhole : ∀ b ∈ s.live, b.1 = RK_Supersection) (hrk : rk ≠ RK_SmallPage) :
    ∃ l, Listed s rk l := by
  obtain ⟨hlists, hcounts⟩ := h.unsplit hwhole
  rcases hinit.floats rk hrk with ⟨n, hn, -, hpart, hhead, hone⟩ | ⟨hnone, hhead, hzero⟩
  · refine ⟨[n], ?_, List.nodup_singleton n, fun m => ?_, ?_⟩
    · have hlt := index_lt hrk hn
      have hne : rk.index n ≠ SIZE_MAX := by
        simp only [REGION_COUNT] at hlt
        simp only [SIZE_MAX]
        omega
      rw [hlists, hhead, headOf, if_neg hne, h.regions]
      exact ⟨rfl, hlt, (hinit.links _).2, (hinit.links _).1⟩
    · rw [List.mem_singleton]
      constructor
      · rintro rfl
        exact ⟨hn, (h.partial_iff_split hgap hwhole hrk hn).mp hpart⟩
      · rintro ⟨hm, hsplit⟩
        exact partial_unique hrk ((h.partial_iff_split hgap hwhole hrk hm).mpr hsplit) hpart
    · rw [hcounts, hone]
      rfl
  · refine ⟨[], ?_, List.nodup_nil, fun m => ?_, ?_⟩
    · rw [hlists, hhead]
      rfl
    · refine ⟨fun hm => absurd hm List.not_mem_nil, ?_⟩
      rintro ⟨hm, hsplit⟩
      exact absurd ((h.partial_iff_split hgap hwhole hrk hm).mpr hsplit) (hnone m hm hm)
    · rw [hcounts, hzero]
      rfl

theorem Kept.repInv (h : Kept start (firstPage s.preclaims) s)
    (hinit : Initial (firstPage s.preclaims) start) (hgap : GapFree s.preclaims)
    (hwhole : ∀ b ∈ s.live, b.1 = RK_Supersection) : RepInv s where
  lists rk hrk := h.listed hinit hgap hwhole hrk
  bits rk hrk n hn hout c hc := by
    have hcount := count_child hrk
    rw [h.regions, Taken.bit hinit hrk (le_refl _) hn hc, decide_eq_true_eq,
      h.free_iff hgap hwhole (by omega), supersection_child hrk hc]
    refine ⟨fun hle => ⟨hle, fun b hb heq => ?_⟩, fun hboth => hboth.1⟩
    exact hout (handedOut_of_live hb (hwhole b hb) heq)
  mask i hi := by
    have hself : supersection RK_Supersection i = i := by
      simp only [supersection, pages]
      omega
    rw [h.mask i, decide_eq_true_eq, h.free_iff hgap hwhole hi, hself]
    exact and_iff_right hi

end Whole

/-- Runs that split nothing keep the representation, and none of their calls
goes outside an array. -/
theorem whole_runs_represented (preclaims : List (Nat × Nat)) (hread : ReadsInside preclaims)
    (hgap : GapFree preclaims) :
    (∃ s, (ppaSystem preclaims).init s) ∧
    ∀ s, ((ppaSystem preclaims).restrict Whole).Reachable s →
      RepInv s ∧ ∀ c : PpaCall, c.Valid s → Whole s c → ∃ s', ppaNext s c = .ok s' := by
  obtain ⟨start, hstart, hinit⟩ := ppa_init_spec hread
  refine ⟨⟨_, start, hstart, rfl⟩, fun s hs => ?_⟩
  obtain ⟨⟨hkept, hpre⟩, hwhole⟩ := whole_runs hstart hinit s hs
  constructor
  · rw [← hpre] at hkept hinit hgap
    exact hkept.repInv hinit hgap hwhole
  · intro c hvalid hc
    obtain ⟨s', hs', -⟩ := hkept.next hinit hvalid hc.careful
    exact ⟨s', hs'⟩

/-- The page at 496 MB and everything behind it preclaimed. -/
theorem whole_runs_represented_high :
    (∃ s, (ppaSystem [(0x1f000000, 0x20000001)]).init s) ∧
    ∀ s, ((ppaSystem [(0x1f000000, 0x20000001)]).restrict Whole).Reachable s →
      RepInv s ∧ ∀ c : PpaCall, c.Valid s → Whole s c → ∃ s', ppaNext s c = .ok s' := by
  apply whole_runs_represented [(0x1f000000, 0x20000001)]
  · exact .inr ⟨_, List.mem_singleton_self _, by decide⟩
  · intro page hpage
    constructor
    · rintro ⟨x, rfl, r, hr, hlow, -⟩
      obtain rfl := List.mem_singleton.mp hr
      exact Nat.div_le_div_right hlow
    · intro hle
      have hfirst : firstPage [(0x1f000000, 0x20000001)] = 0x1f000 := rfl
      refine ⟨page * 4096, by omega, _, List.mem_singleton_self _, ?_⟩
      omega

/-- After one section the bit of the section is still set. -/
theorem section_bit_stays : ∃ s, (ppaSystem []).Reachable s ∧
    s.live = [(RK_Section, 0x1f000000)] ∧ ¬RepInv s := by
  have hrun : (TSys.exec ppaStep .start [.alloc RK_Section]).map
      (fun s => (s.live, (s.ppa.regions (RK_Supersection.index 31)).bitmap)) =
        some ([(RK_Section, 0x1f000000)], 0xffff) := by
    decide +kernel
  obtain ⟨s, hs, hstate⟩ := Option.map_eq_some_iff.mp hrun
  obtain ⟨hlive, hbitmap⟩ := Prod.mk.inj hstate
  refine ⟨s, reachable_of_exec hs, hlive, fun hinv => ?_⟩
  have hout : ¬HandedOut s RK_Supersection 31 := by
    rintro ⟨b, hb, hin⟩
    rw [hlive] at hb
    obtain rfl := List.mem_singleton.mp hb
    exact absurd (hin 0x1ff00000 ⟨by decide, by decide⟩).2 (by decide)
  have hbit := hinv.bits RK_Supersection (by decide) 31 (by decide) hout 0 (by decide)
  rw [hbitmap] at hbit
  have hfree := (hbit.mp (by decide) 0x1f000000 ⟨by decide, by decide⟩).2
  rw [hlive] at hfree
  exact hfree _ (List.mem_singleton_self _) ⟨by decide, by decide⟩

end Bcm2835.Superopt

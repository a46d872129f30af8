import Mathlib.Data.List.Nodup
import Bcm2835.Lib.TSys
import Bcm2835.Superopt.PpaSpec

/-!
# Runs of the page allocator

A commit never clears the bit of the child it hands out, and the head of a
floating list is looked up by the index of a region. So the calls that stay
clear of the two are those that take a whole supersection (split into at most
one smaller block, its first) and give a whole supersection back (`Careful`). In
the runs of such calls the regions stay as `ppa_init` left them, and the mask
says which supersections are in use (`Kept`).
-/

namespace Bcm2835.Superopt

open RegionKind

/-! ## The system -/

/-- The allocator behind `ppa_init`, and the calls that free only what is live. -/
def ppaSystem (preclaims : List (Nat × Nat)) : TSys PpaState PpaCall where
  init s := ∃ ppa, ppa_init preclaims = .ok ppa ∧ s = ⟨ppa, [], preclaims⟩
  step s c s' := c.Valid s ∧ ppaNext s c = .ok s'

/-- The state after a valid call that returns. -/
def ppaStep (s : PpaState) (c : PpaCall) : Option PpaState :=
  if c.Valid s then (ppaNext s c).toOption else none

/-- The allocator without preclaims. -/
def PpaState.start : PpaState := ⟨.empty, [], []⟩

theorem step_of_ppaStep {preclaims : List (Nat × Nat)} {s s' : PpaState} {c : PpaCall}
    (h : ppaStep s c = some s') : (ppaSystem preclaims).step s c s' := by
  rw [ppaStep] at h
  split at h
  · rename_i hvalid
    refine ⟨hvalid, ?_⟩
    cases hnext : ppaNext s c with
    | error e =>
        rw [hnext] at h
        cases h
    | ok t =>
        rw [hnext] at h
        exact congrArg Except.ok (Option.some.inj h)
  · cases h

/-- A run of calls without preclaims. -/
theorem reachable_of_exec {calls : List PpaCall} {s : PpaState}
    (h : TSys.exec ppaStep .start calls = some s) : (ppaSystem []).Reachable s :=
  (TSys.steps_of_next step_of_ppaStep h).reachable (.init ⟨.empty, rfl, rfl⟩)

/-- No region of a larger kind is on its floating list. -/
def NoneAbove (ppa : PhysicalPageAllocator) (rk : RegionKind) : Prop :=
  ∀ k < rk.no, ppa.floating_lists k = SIZE_MAX

/-- An allocation is not taken from a region that floats already, and what is
freed is a supersection. -/
def Careful (s : PpaState) : PpaCall → Prop
  | .alloc rk => NoneAbove s.ppa rk
  | .free _ rk => rk = RK_Supersection

/-- The bytes of a block. -/
def Within (b : RegionKind × Nat) (x : Nat) : Prop := b.2 ≤ x ∧ x < b.2 + b.1.scale

/-- The bytes of the preclaimed ranges. -/
def Preclaimed (preclaims : List (Nat × Nat)) (x : Nat) : Prop :=
  ∃ r ∈ preclaims, r.1 ≤ x ∧ x < r.2

/-- No byte of the `n`th block of the kind is in use. -/
def Free (s : PpaState) (rk : RegionKind) (n : Nat) : Prop :=
  ∀ x, Within (rk, rk.scale * n) x → ¬Preclaimed s.preclaims x ∧ ∀ b ∈ s.live, ¬Within b x

/-! ## Bits of the mask -/

theorem clz_top {x : Nat} (hlt : x < 2 ^ 32) (hx : x ≠ 0) :
    31 - clz x = Nat.log2 x ∧ 0x80000000 >>> clz x = 1 <<< Nat.log2 x := by
  have hlog : Nat.log2 x < 32 := (Nat.log2_lt hx).mpr hlt
  have hclz : clz x = 31 - Nat.log2 x := rfl
  constructor
  · omega
  · have hpow : (0x80000000 : Nat) = 2 ^ Nat.log2 x * 2 ^ (31 - Nat.log2 x) := by
      rw [← Nat.pow_add, Nat.add_sub_cancel' (by omega)]
    rw [hclz, Nat.shiftRight_eq_div_pow, hpow, Nat.mul_div_cancel _ (Nat.two_pow_pos _),
      Nat.shiftLeft_eq, Nat.one_mul]

theorem setBit_testBit (x k b : Nat) : (x ||| 1 <<< k).testBit b = (x.testBit b || decide (k = b)) := by
  rw [Nat.testBit_or, Nat.shiftLeft_eq, Nat.one_mul, Nat.testBit_two_pow]

/-! ## Calls -/

section Calls

variable {ppa : PhysicalPageAllocator} {rk : RegionKind}

theorem nearestFloating_none {m : Nat} (h : ∀ k < m, ppa.floating_lists k = SIZE_MAX) :
    nearestFloating ppa m = none := by
  induction m with
  | zero => rfl
  | succ m ih =>
      rw [nearestFloating, if_neg (not_not.mpr (h m (by omega)))]
      exact ih fun k hk => h k (by omega)

/-- The lists above are empty but the one of the supersections. -/
theorem nearestFloating_zero {m : Nat} (hm : 0 < m) (h : ∀ k, 0 < k → k < m →
    ppa.floating_lists k = SIZE_MAX) (h0 : ppa.floating_lists 0 ≠ SIZE_MAX) :
    nearestFloating ppa m = some 0 := by
  induction m with
  | zero => omega
  | succ m ih =>
      rw [nearestFloating]
      by_cases hm0 : m = 0
      · subst hm0
        rw [if_pos h0]
      · rw [if_neg (not_not.mpr (h m (by omega) (by omega)))]
        exact ih (by omega) fun k hk hk' => h k hk (by omega)

/-- With nothing above and no supersection left an allocation fails. -/
theorem alloc_fails (hnone : NoneAbove ppa rk) (hmask : ppa.supersection_mask = 0) :
    ppa_alloc ppa rk = .ok (UINTPTR_MAX, ppa) := by
  rw [ppa_alloc, allocTurns, nearestFloating_none hnone]
  exact if_pos hmask

/-- The mask without its highest supersection. -/
def dropTop (ppa : PhysicalPageAllocator) : PhysicalPageAllocator :=
  ppa.setMask (ppa.supersection_mask &&& not32 (1 <<< Nat.log2 ppa.supersection_mask))

/-- A supersection is the highest free one. -/
theorem alloc_supersection (hlt : ppa.supersection_mask < 2 ^ 32) (hmask : ppa.supersection_mask ≠ 0) :
    ppa_alloc ppa RK_Supersection =
      .ok (Nat.log2 ppa.supersection_mask * 2 ^ 24, (dropTop ppa).countAllocated 0 1) := by
  obtain ⟨hno, hbit⟩ := clz_top hlt hmask
  have hlog : Nat.log2 ppa.supersection_mask < 32 := (Nat.log2_lt hmask).mpr hlt
  rw [ppa_alloc, allocTurns, nearestFloating_none (by simp [no])]
  simp only [if_neg hmask, if_true, hno, hbit, get_region_ptr, scale]
  rw [Nat.mod_eq_of_lt (by omega), Nat.mul_comm]
  rfl

/-- A commit from a region that is all free leaves it so and hands out its first
child. -/
theorem commit_region_full {k : RegionKind} {n gap : Nat} (hk : ofNo (rk.no - (gap + 1)) = k)
    (hks : k ≠ RK_SmallPage) (hn : n < k.count)
    (hfull : (ppa.regions (k.index n)).bitmap = 0xffff) :
    commit_region rk (gap + 1) ppa (k.index n) =
      if gap = 0 then .ok (get_region_ptr (16 * n) rk, ppa)
      else region_index (16 * n) (ofNo (k.no + 1)) >>= commit_region rk gap ppa := by
  have hi := index_lt hks hn
  have hlz : (if (0xffff : Nat) ≠ 0 then clz 0xffff else 0) = 16 := by decide
  have hbitmap : (0xffff : Nat) &&& not32 (0x8000 >>> 16) = 0xffff := by decide
  have hsame : Function.update ppa.regions (k.index n) { ppa.regions (k.index n) with
      bitmap := 0xffff } = ppa.regions := by
    rw [Function.update_eq_self_iff, ← hfull]
  have hregion : (k.index n + 2 ^ 32 - k.indexOffset) % 2 ^ 32 = n := by
    cases k with
    | RK_SmallPage => exact absurd rfl hks
    | _ =>
        simp only [index, indexOffset, count] at hn ⊢
        omega
  have hchild : ((16 + 2 ^ 32 - 16) % 2 ^ 32 + n * 16) % 2 ^ 32 = 16 * n := by
    have hcount : k.count ≤ 0x20000 := by cases k <;> decide
    omega
  simp only [commit_region, hk, region_eq hi, ok_bind, hlz, hfull, hbitmap, setRegion_eq hi, hsame,
    hregion, hchild]
  rfl

/-- A supersection that is all free gives its first block of any smaller kind. -/
theorem commit_supersection {ss : Nat} (hrk : rk ≠ RK_Supersection) (hss : ss < 32)
    (hfull : ∀ k ≠ RK_SmallPage, ∀ n < k.count, n * k.pages = ss * 4096 →
      (ppa.regions (k.index n)).bitmap = 0xffff) :
    commit_region rk rk.no ppa (RK_Supersection.index ss) = .ok (ss * 2 ^ 24, ppa) := by
  have hsup := hfull RK_Supersection (by decide) ss hss rfl
  have hsec : 16 * ss < RK_Section.count := by
    simp only [count]
    omega
  have hlarge : 16 * (16 * ss) < RK_LargePage.count := by
    simp only [count]
    omega
  have hsec' := hfull RK_Section (by decide) _ hsec (by simp only [pages]; omega)
  have hlarge' := hfull RK_LargePage (by decide) _ hlarge (by simp only [pages]; omega)
  have hlast : ∀ (n : Nat), rk.scale * n = ss * 2 ^ 24 → get_region_ptr n rk = ss * 2 ^ 24 := by
    intro n hn
    rw [get_region_ptr, hn, Nat.mod_eq_of_lt (by omega)]
  cases rk with
  | RK_Supersection => exact absurd rfl hrk
  | RK_Section =>
      show commit_region RK_Section (0 + 1) ppa _ = _
      rw [commit_region_full (by rfl) (by decide) hss hsup, if_pos rfl]
      rw [hlast _ (by simp only [scale]; omega)]
  | RK_LargePage =>
      show commit_region RK_LargePage (1 + 1) ppa _ = _
      rw [commit_region_full (by rfl) (by decide) hss hsup, if_neg (by decide)]
      show region_index (16 * ss) RK_Section >>= _ = _
      rw [region_index_eq (by decide) hsec, ok_bind]
      show commit_region RK_LargePage (0 + 1) ppa _ = _
      rw [commit_region_full (by rfl) (by decide) hsec hsec', if_pos rfl]
      rw [hlast _ (by simp only [scale]; omega)]
  | RK_SmallPage =>
      show commit_region RK_SmallPage (2 + 1) ppa _ = _
      rw [commit_region_full (by rfl) (by decide) hss hsup, if_neg (by decide)]
      show region_index (16 * ss) RK_Section >>= _ = _
      rw [region_index_eq (by decide) hsec, ok_bind]
      show commit_region RK_SmallPage (1 + 1) ppa _ = _
      rw [commit_region_full (by rfl) (by decide) hsec hsec', if_neg (by decide)]
      show region_index (16 * (16 * ss)) RK_LargePage >>= _ = _
      rw [region_index_eq (by decide) hlarge, ok_bind]
      show commit_region RK_SmallPage (0 + 1) ppa _ = _
      rw [commit_region_full (by rfl) (by decide) hlarge hlarge', if_pos rfl]
      rw [hlast _ (by simp only [scale]; omega)]

/-- What an allocation of a smaller kind leaves: the supersection it has split
floats. -/
def splitTop (ppa : PhysicalPageAllocator) : PhysicalPageAllocator :=
  { (dropTop ppa).countFloating 0 1 with
    floating_lists := Function.update ppa.floating_lists 0
      (RK_Supersection.index (Nat.log2 ppa.supersection_mask)) }

/-- A record that is on no list already has both ends as its neighbours. -/
theorem offList_eq {r : RegionInfo} (h : r.next = CHAIN_END ∧ r.prev = CHAIN_END) :
    ⟨r.bitmap, CHAIN_END, CHAIN_END⟩ = r := by
  obtain ⟨hnext, hprev⟩ := h
  cases r
  simp_all

theorem splitTop_lists : (splitTop ppa).floating_lists = Function.update ppa.floating_lists 0
    (RK_Supersection.index (Nat.log2 ppa.supersection_mask)) := rfl

theorem float_top (hlt : ppa.supersection_mask < 2 ^ 32) (hmask : ppa.supersection_mask ≠ 0)
    (hempty : ppa.floating_lists 0 = SIZE_MAX)
    (hlinks : ∀ i, (ppa.regions i).next = CHAIN_END ∧ (ppa.regions i).prev = CHAIN_END) :
    float_region (dropTop ppa) (Nat.log2 ppa.supersection_mask) RK_Supersection =
      .ok (splitTop ppa) := by
  have hlog : Nat.log2 ppa.supersection_mask < 32 := (Nat.log2_lt hmask).mpr hlt
  rw [float_region_eq (by decide) hlog hempty]
  have hsame : Function.update ppa.regions (RK_Supersection.index (Nat.log2 ppa.supersection_mask))
      ⟨(ppa.regions (RK_Supersection.index (Nat.log2 ppa.supersection_mask))).bitmap, CHAIN_END,
        CHAIN_END⟩ = ppa.regions := by
    rw [Function.update_eq_self_iff]
    exact offList_eq (hlinks _)
  simp only [dropTop, splitTop, PhysicalPageAllocator.setMask, PhysicalPageAllocator.countFloating,
    hsame]
  rfl

theorem index_ne_sizeMax {ss : Nat} (hss : ss < 32) : RK_Supersection.index ss ≠ SIZE_MAX := by
  simp only [index, indexOffset, SIZE_MAX]
  omega

/-- With nothing above, a smaller block is the first of the highest free
supersection. -/
theorem alloc_smaller (hrk : rk ≠ RK_Supersection) (hnone : NoneAbove ppa rk)
    (hlt : ppa.supersection_mask < 2 ^ 32) (hmask : ppa.supersection_mask ≠ 0)
    (hlinks : ∀ i, (ppa.regions i).next = CHAIN_END ∧ (ppa.regions i).prev = CHAIN_END)
    (hfull : ∀ k ≠ RK_SmallPage, ∀ n < k.count,
      n * k.pages = Nat.log2 ppa.supersection_mask * 4096 →
        (ppa.regions (k.index n)).bitmap = 0xffff) :
    ppa_alloc ppa rk = .ok (Nat.log2 ppa.supersection_mask * 2 ^ 24,
      (splitTop ppa).countAllocated rk.no 1) := by
  obtain ⟨hno, hbit⟩ := clz_top hlt hmask
  have hpos : 0 < rk.no := by cases rk <;> simp_all [no]
  have hlog : Nat.log2 ppa.supersection_mask < 32 := (Nat.log2_lt hmask).mpr hlt
  have hnear : nearestFloating (splitTop ppa) rk.no = some 0 := by
    apply nearestFloating_zero hpos
    · intro k hk hk'
      rw [splitTop_lists, Function.update_of_ne (by omega)]
      exact hnone k hk'
    · rw [splitTop_lists, Function.update_self]
      exact index_ne_sizeMax hlog
  have hhead : (splitTop ppa).floating_lists 0 =
      RK_Supersection.index (Nat.log2 ppa.supersection_mask) := by
    rw [splitTop_lists, Function.update_self]
  rw [ppa_alloc, allocTurns, nearestFloating_none hnone]
  simp only [if_neg hmask, if_neg hrk, hno, hbit]
  show (float_region (dropTop ppa) _ _ >>= fun ppa => allocTurns rk 1 ppa) = _
  rw [float_top hlt hmask (hnone 0 hpos) hlinks, ok_bind, allocTurns, hnear]
  simp only [hhead, Nat.sub_zero]
  have hcommit : commit_region rk rk.no (splitTop ppa) (RK_Supersection.index _) = _ :=
    commit_supersection hrk hlog hfull
  rw [hcommit]
  rfl

/-- A supersection goes back into the mask. -/
theorem free_supersection {ss : Nat} :
    ppa_free ppa (ss * 2 ^ 24) RK_Supersection =
      .ok ((ppa.setMask (ppa.supersection_mask ||| 1 <<< ss)).countAllocated 0 MINUS_ONE) := by
  have halign : ss * 2 ^ 24 &&& (RK_Supersection.scale - 1) = 0 := by
    have hscale : RK_Supersection.scale - 1 = 2 ^ 24 - 1 := rfl
    rw [hscale, Nat.and_two_pow_sub_one_eq_mod, Nat.mul_mod_left]
  have hno : ss * 2 ^ 24 / RK_Supersection.scale = ss := by
    have hscale : RK_Supersection.scale = 2 ^ 24 := rfl
    rw [hscale, Nat.mul_div_cancel _ (by decide)]
  rw [ppa_free, if_neg (not_not.mpr halign), hno]
  rfl

end Calls

/-! ## The invariant -/

/-- How a run has left the allocator that `ppa_init` left as `start`, with the
pages from `p0` on taken: the live blocks are at the starts of different
supersections before that page, and the floating lists are as they were until a
supersection has been split. -/
structure Kept (start : PhysicalPageAllocator) (p0 : Nat) (s : PpaState) : Prop where
  regions : s.ppa.regions = start.regions
  mask : ∀ i, s.ppa.supersection_mask.testBit i =
    decide (i < 32 ∧ (i + 1) * 4096 ≤ p0 ∧ ∀ b ∈ s.live, b.2 ≠ i * 2 ^ 24)
  live : ∀ b ∈ s.live, ∃ i < 32, (i + 1) * 4096 ≤ p0 ∧ b.2 = i * 2 ^ 24
  nodup : (s.live.map Prod.snd).Nodup
  lists : (s.ppa.floating_lists = start.floating_lists ∧
      s.ppa.floating_counts = start.floating_counts ∧ ∀ b ∈ s.live, b.1 = RK_Supersection) ∨
    (s.ppa.floating_lists 0 ≠ SIZE_MAX ∧ ∃ b ∈ s.live, b.1 ≠ RK_Supersection)

section Kept

variable {start : PhysicalPageAllocator} {p0 : Nat} {s : PpaState}

theorem kept_init (h : Initial p0 start) (preclaims : List (Nat × Nat)) :
    Kept start p0 ⟨start, [], preclaims⟩ where
  regions := rfl
  mask i := by
    rw [h.mask i, decide_eq_decide]
    simp only [count, pages, List.not_mem_nil, false_implies, implies_true, and_true]
    omega
  live _ hb := absurd hb (List.not_mem_nil)
  nodup := List.nodup_nil
  lists := .inl ⟨rfl, rfl, fun _ hb => absurd hb (List.not_mem_nil)⟩

theorem Kept.mask_lt (h : Kept start p0 s) : s.ppa.supersection_mask < 2 ^ 32 := by
  apply Nat.lt_pow_two_of_testBit
  intro i hi
  rw [h.mask i, decide_eq_false_iff_not]
  omega

/-- The highest bit of the mask is a supersection that nothing uses. -/
theorem Kept.top (h : Kept start p0 s) (hmask : s.ppa.supersection_mask ≠ 0) :
    Nat.log2 s.ppa.supersection_mask < 32 ∧
      (Nat.log2 s.ppa.supersection_mask + 1) * 4096 ≤ p0 ∧
      ∀ b ∈ s.live, b.2 ≠ Nat.log2 s.ppa.supersection_mask * 2 ^ 24 := by
  have hbit := Nat.testBit_log2 hmask
  rwa [h.mask, decide_eq_true_eq] at hbit

/-- Everything in a supersection before page `p0` is free in the bitmaps. -/
theorem Kept.full (h : Kept start p0 s) (hinit : Initial p0 start) {i : Nat}
    (hfit : (i + 1) * 4096 ≤ p0) {k : RegionKind} (hk : k ≠ RK_SmallPage) {n : Nat}
    (hn : n < k.count) (heq : n * k.pages = i * 4096) :
    (s.ppa.regions (k.index n)).bitmap = 0xffff := by
  rw [h.regions, Taken.full_iff hinit hk (le_refl _) hn]
  have hpages : k.pages ≤ 4096 := by cases k <;> decide
  rw [Nat.succ_mul, heq]
  omega

/-- A block in the highest free supersection. -/
theorem Kept.take (h : Kept start p0 s) (hmask : s.ppa.supersection_mask ≠ 0) (rk : RegionKind)
    {ppa' : PhysicalPageAllocator} (hregions : ppa'.regions = s.ppa.regions)
    (hmask' : ppa'.supersection_mask = (dropTop s.ppa).supersection_mask)
    (hlists : (ppa'.floating_lists = s.ppa.floating_lists ∧
      ppa'.floating_counts = s.ppa.floating_counts ∧ rk = RK_Supersection) ∨
      (ppa'.floating_lists 0 ≠ SIZE_MAX ∧ rk ≠ RK_Supersection)) :
    Kept start p0 { s with
      ppa := ppa', live := (rk, Nat.log2 s.ppa.supersection_mask * 2 ^ 24) :: s.live } where
  regions := hregions.trans h.regions
  mask i := by
    show ppa'.supersection_mask.testBit i = _
    rw [hmask']
    show (s.ppa.supersection_mask &&& not32 (1 <<< _)).testBit i = _
    rw [clear_testBit h.mask_lt, h.mask i, ← Bool.decide_and, decide_eq_decide]
    simp only [List.forall_mem_cons]
    have hinj : i ≠ Nat.log2 s.ppa.supersection_mask ↔
        Nat.log2 s.ppa.supersection_mask * 2 ^ 24 ≠ i * 2 ^ 24 := by omega
    rw [hinj]
    constructor
    · rintro ⟨⟨hlt, hfit, hall⟩, hne⟩
      exact ⟨hlt, hfit, hne, hall⟩
    · rintro ⟨hlt, hfit, hne, hall⟩
      exact ⟨⟨hlt, hfit, hall⟩, hne⟩
  live := by
    obtain ⟨hlt, hfit, -⟩ := h.top hmask
    exact List.forall_mem_cons.mpr ⟨⟨_, hlt, hfit, rfl⟩, h.live⟩
  nodup := by
    obtain ⟨-, -, hfresh⟩ := h.top hmask
    refine List.nodup_cons.mpr ⟨fun hmem => ?_, h.nodup⟩
    obtain ⟨b, hb, heq⟩ := List.mem_map.mp hmem
    exact hfresh b hb heq
  lists := by
    rcases hlists with ⟨hl, hc, rfl⟩ | ⟨hl, hne⟩
    · rcases h.lists with ⟨hl', hc', hall⟩ | ⟨hl', b, hb, hne⟩
      · exact .inl ⟨hl.trans hl', hc.trans hc', List.forall_mem_cons.mpr ⟨rfl, hall⟩⟩
      · exact .inr ⟨hl ▸ hl', b, List.mem_cons_of_mem _ hb, hne⟩
    · exact .inr ⟨hl, _, List.mem_cons_self, hne⟩

/-- A supersection that is given back. -/
theorem Kept.give (h : Kept start p0 s) {i : Nat} (hmem : (RK_Supersection, i * 2 ^ 24) ∈ s.live)
    (d : Nat) :
    Kept start p0 { s with
      ppa := (s.ppa.setMask (s.ppa.supersection_mask ||| 1 <<< i)).countAllocated 0 d
      live := s.live.erase (RK_Supersection, i * 2 ^ 24) } where
  regions := h.regions
  mask j := by
    show (s.ppa.supersection_mask ||| 1 <<< i).testBit j = _
    rw [setBit_testBit, h.mask j, ← Bool.decide_or, decide_eq_decide]
    obtain ⟨i', hlt, hfit, heq⟩ := h.live _ hmem
    obtain rfl : i = i' := by
      simp only at heq
      omega
    have hnodup : s.live.Nodup := List.Nodup.of_map _ h.nodup
    have hinj := List.inj_on_of_nodup_map h.nodup
    constructor
    · rintro (⟨hlt, hfit, hall⟩ | rfl)
      · exact ⟨hlt, hfit, fun b hb => hall b (List.mem_of_mem_erase hb)⟩
      · refine ⟨hlt, hfit, fun b hb heq => ?_⟩
        obtain ⟨hne, hb⟩ := (hnodup.mem_erase_iff).mp hb
        exact hne (hinj hb hmem heq)
    · rintro ⟨hlt, hfit, hall⟩
      by_cases hij : i = j
      · exact .inr hij
      · refine .inl ⟨hlt, hfit, fun b hb heq => ?_⟩
        refine hall b ((hnodup.mem_erase_iff).mpr ⟨?_, hb⟩) heq
        rintro rfl
        simp only at heq
        omega
  live b hb := h.live b (List.mem_of_mem_erase hb)
  nodup := h.nodup.sublist (List.erase_sublist.map _)
  lists := by
    rcases h.lists with ⟨hl, hc, hall⟩ | ⟨hl, b, hb, hne⟩
    · exact .inl ⟨hl, hc, fun b hb => hall b (List.mem_of_mem_erase hb)⟩
    · refine .inr ⟨hl, b, ?_, hne⟩
      refine (List.mem_erase_of_ne ?_).mpr hb
      rintro rfl
      exact hne rfl

/-- A careful allocation fails without a free supersection and otherwise takes
the highest. -/
theorem Kept.alloc (h : Kept start p0 s) (hinit : Initial p0 start) {rk : RegionKind}
    (hnone : NoneAbove s.ppa rk) :
    (s.ppa.supersection_mask = 0 ∧ ppa_alloc s.ppa rk = .ok (UINTPTR_MAX, s.ppa)) ∨
    (s.ppa.supersection_mask ≠ 0 ∧ ∃ ppa',
      ppa_alloc s.ppa rk = .ok (Nat.log2 s.ppa.supersection_mask * 2 ^ 24, ppa') ∧
      ppa'.allocated_counts = (s.ppa.countAllocated rk.no 1).allocated_counts ∧
      Kept start p0 { s with
        ppa := ppa', live := (rk, Nat.log2 s.ppa.supersection_mask * 2 ^ 24) :: s.live }) := by
  by_cases hmask : s.ppa.supersection_mask = 0
  · exact .inl ⟨hmask, alloc_fails hnone hmask⟩
  · obtain ⟨hlt, hfit, -⟩ := h.top hmask
    refine .inr ⟨hmask, ?_⟩
    by_cases hrk : rk = RK_Supersection
    · subst hrk
      exact ⟨_, alloc_supersection h.mask_lt hmask, rfl,
        h.take hmask _ rfl rfl (.inl ⟨rfl, rfl, rfl⟩)⟩
    · have hlinks : ∀ i, (s.ppa.regions i).next = CHAIN_END ∧ (s.ppa.regions i).prev = CHAIN_END :=
        h.regions ▸ hinit.links
      have hfloats : (splitTop s.ppa).floating_lists 0 ≠ SIZE_MAX := by
        rw [splitTop_lists, Function.update_self]
        exact index_ne_sizeMax hlt
      exact ⟨_, alloc_smaller hrk hnone h.mask_lt hmask hlinks
          (fun k hk n hn heq => h.full hinit hfit hk hn heq), rfl,
        h.take hmask rk rfl rfl (.inr ⟨hfloats, hrk⟩)⟩

theorem top_ne_uintptrMax {i : Nat} (hi : i < 32) : i * 2 ^ 24 ≠ UINTPTR_MAX := by
  simp only [UINTPTR_MAX]
  omega

/-- One step: a careful call returns, and what it leaves is kept. -/
theorem Kept.next (h : Kept start p0 s) (hinit : Initial p0 start) {c : PpaCall}
    (hvalid : c.Valid s) (hcare : Careful s c) :
    ∃ s', ppaNext s c = .ok s' ∧ Kept start p0 s' ∧ s'.preclaims = s.preclaims := by
  cases c with
  | alloc rk =>
      rcases h.alloc hinit hcare with ⟨-, hfail⟩ | ⟨hmask, ppa', hok, -, hkept⟩
      · exact ⟨s, by rw [ppaNext, hfail]; rfl, h, rfl⟩
      · refine ⟨_, ?_, hkept, rfl⟩
        rw [ppaNext, hok, ok_bind]
        simp only [if_neg (top_ne_uintptrMax (h.top hmask).1)]
        rfl
  | free p rk =>
      obtain rfl : rk = RK_Supersection := hcare
      obtain ⟨i, -, -, rfl⟩ := h.live _ hvalid
      exact ⟨_, by rw [ppaNext, free_supersection]; rfl, h.give hvalid MINUS_ONE, rfl⟩

/-- A live block lies in the supersection it starts. -/
theorem Kept.within (h : Kept start p0 s) {b : RegionKind × Nat} (hb : b ∈ s.live) {x : Nat}
    (hx : Within b x) :
    x / 2 ^ 24 * 2 ^ 24 = b.2 ∧ x / 4096 < p0 := by
  obtain ⟨i, -, hfit, heq⟩ := h.live b hb
  have hscale : b.1.scale ≤ 2 ^ 24 := by cases b.1 <;> decide
  obtain ⟨hlow, hhigh⟩ := hx
  omega

/-- With whole supersections in use the floating lists are those of `ppa_init`. -/
theorem Kept.unsplit (h : Kept start p0 s)
    (hwhole : ∀ b ∈ s.live, b.1 = RK_Supersection) :
    s.ppa.floating_lists = start.floating_lists ∧
      s.ppa.floating_counts = start.floating_counts := by
  rcases h.lists with ⟨hl, hc, -⟩ | ⟨-, b, hb, hne⟩
  · exact ⟨hl, hc⟩
  · exact absurd (hwhole b hb) hne

end Kept

/-- Careful runs keep the invariant. -/
theorem kept_of_careful {preclaims : List (Nat × Nat)} {start : PhysicalPageAllocator}
    (hstart : ppa_init preclaims = .ok start) (hinit : Initial (firstPage preclaims) start) :
    ∀ s, ((ppaSystem preclaims).restrict Careful).Reachable s →
      Kept start (firstPage preclaims) s ∧ s.preclaims = preclaims := by
  apply TSys.invariant_of
  · rintro s ⟨ppa, hppa, rfl⟩
    obtain rfl : start = ppa := Except.ok.inj (hstart.symm.trans hppa)
    exact ⟨kept_init hinit preclaims, rfl⟩
  · rintro s c s' - ⟨h, hpre⟩ ⟨hcare, hvalid, hnext⟩
    obtain ⟨t, ht, hkept, hpre'⟩ := h.next hinit hvalid hcare
    obtain rfl : t = s' := Except.ok.inj (ht.symm.trans hnext)
    exact ⟨hkept, hpre'.trans hpre⟩

/-! ## Free blocks -/

/-- The preclaims touch just the pages from the first one's on. -/
def GapFree (preclaims : List (Nat × Nat)) : Prop :=
  ∀ page < 0x20000, (∃ x, x / 4096 = page ∧ Preclaimed preclaims x) ↔ firstPage preclaims ≤ page

theorem gapFree_nil : GapFree [] := by
  intro page hpage
  constructor
  · rintro ⟨x, -, r, hr, -⟩
    exact absurd hr List.not_mem_nil
  · intro hle
    exact absurd hpage (Nat.not_lt.mpr hle)

/-- The supersection that a region is in. -/
def supersection (rk : RegionKind) (n : Nat) : Nat := n * rk.pages / 4096

theorem within_iff {rk : RegionKind} {n x : Nat} :
    Within (rk, rk.scale * n) x ↔ n * rk.pages ≤ x / 4096 ∧ x / 4096 < (n + 1) * rk.pages := by
  cases rk <;> simp only [Within, scale, pages] <;> omega

theorem within_supersection {rk : RegionKind} {n x : Nat} (h : Within (rk, rk.scale * n) x) :
    x / 2 ^ 24 = supersection rk n := by
  rw [within_iff] at h
  cases rk <;> simp only [supersection, pages] at h ⊢ <;> omega

theorem pages_le_count {rk : RegionKind} {n : Nat} (hn : n < rk.count) :
    (n + 1) * rk.pages ≤ 0x20000 := by
  cases rk <;> simp only [count, pages] at hn ⊢ <;> omega

section Free

variable {start : PhysicalPageAllocator} {s : PpaState} {rk : RegionKind} {n : Nat}

theorem unclaimed_iff (hgap : GapFree s.preclaims) (hn : n < rk.count) :
    (∀ x, Within (rk, rk.scale * n) x → ¬Preclaimed s.preclaims x) ↔
      (n + 1) * rk.pages ≤ firstPage s.preclaims := by
  have hcount := pages_le_count hn
  have hpos : 0 < rk.pages := by cases rk <;> decide
  have hmul : (n + 1) * rk.pages = n * rk.pages + rk.pages := Nat.succ_mul ..
  constructor
  · intro hall
    by_contra hlt
    -- the last page of the block is touched
    obtain ⟨x, hx, hpre⟩ := (hgap ((n + 1) * rk.pages - 1) (by omega)).mpr (by omega)
    exact hall x (within_iff.mpr (by omega)) hpre
  · intro hle x hx hpre
    have hpage := within_iff.mp hx
    have hfirst := (hgap (x / 4096) (by omega)).mp ⟨x, rfl, hpre⟩
    omega

/-- A free block ends before page `firstPage`, and no live block is in its
supersection as a whole. -/
theorem Kept.free_iff (h : Kept start (firstPage s.preclaims) s) (hgap : GapFree s.preclaims)
    (hwhole : ∀ b ∈ s.live, b.1 = RK_Supersection) (hn : n < rk.count) :
    Free s rk n ↔ (n + 1) * rk.pages ≤ firstPage s.preclaims ∧
      ∀ b ∈ s.live, b.2 ≠ supersection rk n * 2 ^ 24 := by
  have hscale : 0 < rk.scale := by cases rk <;> decide
  have hfirst : Within (rk, rk.scale * n) (rk.scale * n) :=
    ⟨le_refl _, Nat.lt_add_of_pos_right hscale⟩
  rw [← unclaimed_iff hgap hn]
  constructor
  · intro hfree
    refine ⟨fun x hx => (hfree x hx).1, fun b hb heq => ?_⟩
    have hin := within_supersection hfirst
    refine (hfree _ hfirst).2 b hb ?_
    rw [Within, hwhole b hb, heq, ← hin]
    simp only [scale]
    omega
  · rintro ⟨hclaim, hlive⟩ x hx
    refine ⟨hclaim x hx, fun b hb hb' => hlive b hb ?_⟩
    rw [← within_supersection hx]
    exact (h.within hb hb').1.symm

end Free

end Bcm2835.Superopt

import Mathlib.Tactic.Ring
import Bcm2835.Superopt.Ppa

/-!
# What `ppa_init` leaves

The loop over the small pages takes every page from the one with the start of
the first preclaim on (`firstPage`), and the loops over the larger kinds follow
suit. So a region of any kind is free, partly free or taken according to where
it lies from that page; at most one region of each kind is partly free, and it
floats (`Initial`).
-/

namespace Bcm2835.Superopt

open RegionKind

/-! ## Bits -/

theorem not32_testBit (x b : Nat) : (not32 x).testBit b = (x.testBit b ^^ decide (b < 32)) := by
  have hmask : (0xffffffff : Nat) = 2 ^ 32 - 1 := by decide
  rw [not32, Nat.testBit_xor, hmask, Nat.testBit_two_pow_sub_one]

theorem testBit_of_le {x n b : Nat} (hx : x < 2 ^ n) (hb : n ≤ b) : x.testBit b = false :=
  Nat.testBit_lt_two_pow (lt_of_lt_of_le hx (Nat.pow_le_pow_right (by decide) hb))

/-- `x &= ~(1 << k)`. -/
theorem clear_testBit {x : Nat} (hx : x < 2 ^ 32) (k b : Nat) :
    (x &&& not32 (1 <<< k)).testBit b = (x.testBit b && decide (b ≠ k)) := by
  rw [Nat.testBit_and, not32_testBit, Nat.shiftLeft_eq, Nat.one_mul, Nat.testBit_two_pow]
  by_cases hb : b < 32
  · by_cases hk : k = b
    · simp [hb, hk]
    · simp [hb, hk, Ne.symm hk]
  · rw [testBit_of_le hx (by omega)]
    simp

theorem clear_lt {x n : Nat} (hx : x < 2 ^ n) (y : Nat) : x &&& y < 2 ^ n :=
  lt_of_le_of_lt Nat.and_le_left hx

/-- A bitmap of sixteen children is full if they are all free. -/
theorem eq_full_iff {x : Nat} (hx : x < 2 ^ 16) : x = 0xffff ↔ ∀ b < 16, x.testBit b = true := by
  have hmask : (0xffff : Nat) = 2 ^ 16 - 1 := by decide
  constructor
  · rintro rfl b hb
    rw [hmask, Nat.testBit_two_pow_sub_one]
    exact decide_eq_true hb
  · intro h
    apply Nat.eq_of_testBit_eq
    intro b
    rw [hmask, Nat.testBit_two_pow_sub_one]
    by_cases hb : b < 16
    · rw [h b hb, decide_eq_true hb]
    · rw [testBit_of_le hx (by omega), decide_eq_false hb]

/-- It is empty if none is. -/
theorem eq_zero_iff {x : Nat} (hx : x < 2 ^ 16) : x = 0 ↔ ∀ b < 16, x.testBit b = false := by
  constructor
  · rintro rfl b -
    exact Nat.zero_testBit b
  · intro h
    apply Nat.eq_of_testBit_eq
    intro b
    rw [Nat.zero_testBit]
    by_cases hb : b < 16
    · exact h b hb
    · exact testBit_of_le hx (by omega)

/-- What a computation does after a step that succeeded. -/
@[simp] theorem ok_bind {α β : Type} (a : α) (f : α → Except Fault β) :
    (Except.ok a >>= f) = f a := rfl

/-! ## Kinds -/

namespace RegionKind

/-- How many small pages a region has. -/
def pages : RegionKind → Nat
  | RK_Supersection => 4096
  | RK_Section => 256
  | RK_LargePage => 16
  | RK_SmallPage => 1

/-- How many regions of the kind there are. -/
def count : RegionKind → Nat
  | RK_Supersection => 32
  | RK_Section => 512
  | RK_LargePage => 8192
  | RK_SmallPage => 131072

/-- The next smaller kind. -/
def child : RegionKind → RegionKind
  | RK_Supersection => RK_Section
  | RK_Section => RK_LargePage
  | _ => RK_SmallPage

/-- Where the records of the kind start in `regions`. -/
def index (rk : RegionKind) (n : Nat) : Nat := n + rk.indexOffset

theorem mul_pages_child {rk : RegionKind} (hrk : rk ≠ RK_SmallPage) (n : Nat) :
    16 * n * rk.child.pages = n * rk.pages := by
  have hpages : 16 * rk.child.pages = rk.pages := by
    cases rk with
    | RK_SmallPage => exact absurd rfl hrk
    | _ => rfl
  rw [← hpages]
  ring

theorem count_child {rk : RegionKind} (hrk : rk ≠ RK_SmallPage) :
    16 * rk.count = rk.child.count := by
  cases rk with
  | RK_SmallPage => exact absurd rfl hrk
  | _ => rfl

end RegionKind

theorem region_index_eq {n : Nat} {rk : RegionKind} (hrk : rk ≠ RK_SmallPage) (hn : n < rk.count) :
    region_index n rk = .ok (rk.index n) := by
  unfold region_index
  rw [if_neg hrk]
  cases rk with
  | RK_SmallPage => exact absurd rfl hrk
  | _ =>
      simp only [count, index, indexOffset] at hn ⊢
      rw [Nat.mod_eq_of_lt (by omega)]

theorem index_lt {n : Nat} {rk : RegionKind} (hrk : rk ≠ RK_SmallPage) (hn : n < rk.count) :
    rk.index n < REGION_COUNT := by
  cases rk with
  | RK_SmallPage => exact absurd rfl hrk
  | _ =>
      simp only [count, index, indexOffset, REGION_COUNT] at hn ⊢
      omega

/-- Records of different regions are different records. -/
theorem index_inj {n n' : Nat} {rk rk' : RegionKind} (hrk : rk ≠ RK_SmallPage)
    (hrk' : rk' ≠ RK_SmallPage) (hn : n < rk.count) (hn' : n' < rk'.count)
    (h : rk.index n = rk'.index n') : rk = rk' ∧ n = n' := by
  cases rk <;> cases rk' <;> first
    | exact absurd rfl hrk
    | exact absurd rfl hrk'
    | (simp only [count, index, indexOffset] at hn hn' h
       first | exact ⟨rfl, by omega⟩ | omega)

/-! ## Single steps -/

section Steps

variable {ppa : PhysicalPageAllocator}

theorem region_eq {i : Nat} (hi : i < REGION_COUNT) : ppa.region i = .ok (ppa.regions i) := if_pos hi

theorem setRegion_eq {i : Nat} (hi : i < REGION_COUNT) (r : RegionInfo) :
    ppa.setRegion i r = .ok { ppa with regions := Function.update ppa.regions i r } := if_pos hi

theorem setFloating_eq {i : Nat} (hi : i < 3) (v : Nat) :
    ppa.setFloating i v = .ok { ppa with floating_lists := Function.update ppa.floating_lists i v } :=
  if_pos hi

theorem no_lt {rk : RegionKind} (hrk : rk ≠ RK_SmallPage) : rk.no < 3 := by
  cases rk <;> simp_all [no]

/-- The first region on an empty floating list. -/
theorem float_region_eq {n : Nat} {rk : RegionKind} (hrk : rk ≠ RK_SmallPage) (hn : n < rk.count)
    (hempty : ppa.floating_lists rk.no = SIZE_MAX) :
    float_region ppa n rk = .ok
      { ppa.countFloating rk.no 1 with
        regions := Function.update ppa.regions (rk.index n)
          ⟨(ppa.regions (rk.index n)).bitmap, CHAIN_END, CHAIN_END⟩
        floating_lists := Function.update ppa.floating_lists rk.no (rk.index n) } := by
  have hi := index_lt hrk hn
  simp only [float_region, region_index_eq hrk hn, ok_bind, region_eq hi, hempty, if_true,
    setRegion_eq hi, setFloating_eq (no_lt hrk)]
  rfl

end Steps

/-! ## What has been taken -/

/-- The page with the start of the first preclaim; the number of pages if there
is none. -/
def firstPage : List (Nat × Nat) → Nat
  | [] => 0x20000
  | p :: _ => p.1 / 4096

/-- The region ends behind page `p0` but its first child does not. -/
def Partial (p0 : Nat) (rk : RegionKind) (n : Nat) : Prop :=
  (16 * n + 1) * rk.child.pages ≤ p0 ∧ p0 < (n + 1) * rk.pages

/-- Of the regions of the kind below the `m`th, the partial one floats. -/
def FloatedTo (p0 : Nat) (rk : RegionKind) (m : Nat) (ppa : PhysicalPageAllocator) : Prop :=
  (∃ n < m, n < rk.count ∧ Partial p0 rk n ∧ ppa.floating_lists rk.no = rk.index n ∧
    ppa.floating_counts rk.no = 1) ∨
  ((∀ n < m, n < rk.count → ¬Partial p0 rk n) ∧ ppa.floating_lists rk.no = SIZE_MAX ∧
    ppa.floating_counts rk.no = 0)

/-- The regions of kind `k` below the `v k`th that do not end before page `p0`
are taken from their parents, and those below the `w k`th have floated if they
are partly free. No record has a neighbour on its list. -/
structure Taken (p0 : Nat) (v w : RegionKind → Nat) (ppa : PhysicalPageAllocator) : Prop where
  links : ∀ i, (ppa.regions i).next = CHAIN_END ∧ (ppa.regions i).prev = CHAIN_END
  lt : ∀ i, (ppa.regions i).bitmap < 2 ^ 16
  bits : ∀ k ≠ RK_SmallPage, ∀ n < k.count, ∀ b < 16,
    (ppa.regions (k.index n)).bitmap.testBit b =
      decide (v k.child ≤ 16 * n + b ∨ (16 * n + b + 1) * k.child.pages ≤ p0)
  mask : ∀ i, ppa.supersection_mask.testBit i =
    decide (i < 32 ∧ (v RK_Supersection ≤ i ∨ (i + 1) * RK_Supersection.pages ≤ p0))
  floats : ∀ k ≠ RK_SmallPage, FloatedTo p0 k (w k) ppa

/-- What `ppa_init` leaves if the pages from `p0` on are taken. -/
def Initial (p0 : Nat) (ppa : PhysicalPageAllocator) : Prop :=
  Taken p0 RegionKind.count RegionKind.count ppa

theorem taken_empty (p0 : Nat) : Taken p0 (fun _ => 0) (fun _ => 0) .empty where
  links _ := ⟨rfl, rfl⟩
  lt _ := by
    show 0xffff < 2 ^ 16
    decide
  bits k _ n _ b hb := by
    show (0xffff : Nat).testBit b = _
    rw [(eq_full_iff (by decide)).mp rfl b hb]
    simp
  mask i := by
    have hmask : (0xffffffff : Nat) = 2 ^ 32 - 1 := by decide
    show (0xffffffff : Nat).testBit i = _
    rw [hmask, Nat.testBit_two_pow_sub_one]
    simp
  floats k _ := .inr ⟨by simp, rfl, rfl⟩

/-- Without preclaims everything is as it is behind the loops. -/
theorem initial_empty : Initial 0x20000 .empty where
  links _ := ⟨rfl, rfl⟩
  lt _ := by
    show 0xffff < 2 ^ 16
    decide
  bits k hk n hn b hb := by
    show (0xffff : Nat).testBit b = _
    rw [(eq_full_iff (by decide)).mp rfl b hb, eq_comm, decide_eq_true_eq]
    cases k with
    | RK_SmallPage => exact absurd rfl hk
    | _ =>
        simp only [count, child, pages] at hn ⊢
        omega
  mask i := by
    have hmask : (0xffffffff : Nat) = 2 ^ 32 - 1 := by decide
    show (0xffffffff : Nat).testBit i = _
    rw [hmask, Nat.testBit_two_pow_sub_one, decide_eq_decide]
    simp only [count, pages]
    omega
  floats k hk := by
    refine .inr ⟨fun n hn _ hpart => ?_, rfl, rfl⟩
    cases k with
    | RK_SmallPage => exact absurd rfl hk
    | _ =>
        simp only [Partial, count, child, pages] at hn hpart
        omega

/-! ## One region -/

section Turn

variable {p0 j : Nat} {v w : RegionKind → Nat} {ppa : PhysicalPageAllocator} {rk par : RegionKind}

/-- A region before page `p0` stays with its parent. -/
theorem Taken.skip (h : Taken p0 v w ppa) (hv : v rk = j) (hfit : (j + 1) * rk.pages ≤ p0) :
    Taken p0 (Function.update v rk (j + 1)) w ppa where
  links := h.links
  lt := h.lt
  bits k hk n hn b hb := by
    rw [h.bits k hk n hn b hb, decide_eq_decide]
    by_cases hkr : k.child = rk
    · rw [hkr, Function.update_self, hv]
      rcases Nat.lt_trichotomy (16 * n + b) j with hlt | heq | hgt
      · omega
      · rw [heq]
        simp [hfit]
      · omega
    · rw [Function.update_of_ne hkr]
  mask i := by
    rw [h.mask i, decide_eq_decide]
    by_cases hkr : RK_Supersection = rk
    · subst hkr
      rw [Function.update_self, hv]
      rcases Nat.lt_trichotomy i j with hlt | heq | hgt
      · omega
      · rw [heq]
        simp [hfit]
      · omega
    · rw [Function.update_of_ne hkr]
  floats := h.floats

/-- Any other is taken from it. -/
theorem Taken.clear (h : Taken p0 v w ppa) (hpar : par ≠ RK_SmallPage) (hv : v par.child = j)
    (hj : j / 16 < par.count) (hfit : ¬(j + 1) * par.child.pages ≤ p0)
    (hinj : ∀ k, k ≠ RK_SmallPage → k.child = par.child → k = par) (d : Nat) :
    Taken p0 (Function.update v par.child (j + 1)) w { ppa.countAllocated par.child.no d with
      regions := Function.update ppa.regions (par.index (j / 16))
        { ppa.regions (par.index (j / 16)) with
          bitmap := (ppa.regions (par.index (j / 16))).bitmap &&& not32 (1 <<< (j % 16)) } }
    where
  links i := by
    by_cases hi : i = par.index (j / 16)
    · subst hi
      simpa using h.links (par.index (j / 16))
    · simpa [Function.update_of_ne hi] using h.links i
  lt i := by
    by_cases hi : i = par.index (j / 16)
    · subst hi
      simpa using clear_lt (h.lt (par.index (j / 16))) _
    · simpa [Function.update_of_ne hi] using h.lt i
  bits k hk n hn b hb := by
    have hbits := h.bits k hk n hn b hb
    by_cases hi : k.index n = par.index (j / 16)
    · obtain ⟨rfl, rfl⟩ := index_inj hk hpar hn hj hi
      simp only [Function.update_self]
      rw [clear_testBit (lt_trans (h.lt _) (by decide)), hbits, ← Bool.decide_and, decide_eq_decide,
        hv]
      rcases Nat.lt_trichotomy (16 * (j / 16) + b) j with hlt | heq | hgt
      · omega
      · rw [heq]
        simp only [hfit, or_false]
        omega
      · omega
    · simp only [Function.update_of_ne hi]
      rw [hbits, decide_eq_decide]
      by_cases hkr : k.child = par.child
      · obtain rfl := hinj k hk hkr
        have hn' : n ≠ j / 16 := fun heq => hi (heq ▸ rfl)
        rw [Function.update_self, hv]
        omega
      · rw [Function.update_of_ne hkr]
  mask i := by
    have hne : RK_Supersection ≠ par.child := by cases par <;> simp [child]
    rw [Function.update_of_ne hne]
    exact h.mask i
  floats := h.floats

/-- The same for a supersection and the mask. -/
theorem Taken.clearMask (h : Taken p0 v w ppa) (hv : v RK_Supersection = j) (hj : j < 32)
    (hfit : ¬(j + 1) * RK_Supersection.pages ≤ p0) (d : Nat) :
    Taken p0 (Function.update v RK_Supersection (j + 1)) w
      ((ppa.countAllocated RK_Supersection.no d).setMask
        (ppa.supersection_mask &&& not32 (1 <<< j))) where
  links := h.links
  lt := h.lt
  bits k hk n hn b hb := by
    have hne : k.child ≠ RK_Supersection := by cases k <;> simp [child]
    rw [Function.update_of_ne hne]
    exact h.bits k hk n hn b hb
  mask i := by
    have hlt : ppa.supersection_mask < 2 ^ 32 := by
      apply Nat.lt_pow_two_of_testBit
      intro b hb
      rw [h.mask b, decide_eq_false]
      omega
    show (ppa.supersection_mask &&& not32 (1 <<< j)).testBit i = _
    rw [clear_testBit hlt, h.mask i, ← Bool.decide_and, decide_eq_decide, Function.update_self, hv]
    rcases Nat.lt_trichotomy i j with hlt | heq | hgt
    · omega
    · rw [heq]
      simp only [hfit, or_false]
      omega
    · omega
  floats := h.floats

/-- A region that is not partly free does not float. -/
theorem Taken.keep (h : Taken p0 v w ppa) (hw : w rk = j) (hpart : ¬Partial p0 rk j) :
    Taken p0 v (Function.update w rk (j + 1)) ppa := by
  refine { h with floats := fun k hk => ?_ }
  by_cases hkr : k = rk
  · subst hkr
    rw [Function.update_self]
    rcases hw ▸ h.floats k hk with ⟨n, hn, hrest⟩ | ⟨hnone, hrest⟩
    · exact .inl ⟨n, by omega, hrest⟩
    · refine .inr ⟨fun n hn => ?_, hrest⟩
      rcases Nat.lt_succ_iff_lt_or_eq.mp hn with hlt | rfl
      · exact hnone n hlt
      · exact fun _ => hpart
  · rw [Function.update_of_ne hkr]
    exact h.floats k hk

/-- Two regions of a kind are not both partly free. -/
theorem partial_unique {n n' : Nat} (hrk : rk ≠ RK_SmallPage) (h : Partial p0 rk n)
    (h' : Partial p0 rk n') : n = n' := by
  cases rk with
  | RK_SmallPage => exact absurd rfl hrk
  | _ =>
      simp only [Partial, child, pages] at h h'
      omega

/-- The partial region of a kind floats. -/
theorem Taken.float (h : Taken p0 v w ppa) (hrk : rk ≠ RK_SmallPage) (hw : w rk = j)
    (hj : j < rk.count) (hpart : Partial p0 rk j) :
    ∃ ppa', float_region ppa j rk = .ok ppa' ∧
      Taken p0 v (Function.update w rk (j + 1)) ppa' := by
  have hlist : ppa.floating_lists rk.no = SIZE_MAX ∧ ppa.floating_counts rk.no = 0 := by
    rcases hw ▸ h.floats rk hrk with ⟨n, hn, -, hp, -⟩ | ⟨-, hlist⟩
    · exact absurd (partial_unique hrk hp hpart) (by omega)
    · exact hlist
  refine ⟨_, float_region_eq hrk hj hlist.1, ?_⟩
  have hsame : Function.update ppa.regions (rk.index j)
      ⟨(ppa.regions (rk.index j)).bitmap, CHAIN_END, CHAIN_END⟩ = ppa.regions := by
    rw [Function.update_eq_self_iff]
    obtain ⟨hnext, hprev⟩ := h.links (rk.index j)
    cases hr : ppa.regions (rk.index j) with
    | mk bitmap next prev =>
        rw [hr] at hnext hprev
        simp only at hnext hprev
        rw [hnext, hprev]
  rw [hsame]
  refine ⟨h.links, h.lt, h.bits, h.mask, fun k hk => ?_⟩
  by_cases hkr : k = rk
  · subst hkr
    refine .inl ⟨j, ?_, hj, hpart, ?_, ?_⟩
    · rw [Function.update_self]
      omega
    · exact Function.update_self ..
    · show Function.update _ _ _ _ = _
      rw [Function.update_self, hlist.2]
      rfl
  · have hno : k.no ≠ rk.no := by
      cases k <;> cases rk <;> simp_all [no]
    rw [Function.update_of_ne hkr]
    simpa only [FloatedTo, PhysicalPageAllocator.countFloating, Function.update_of_ne hno]
      using h.floats k hk

end Turn

/-! ## The loops -/

section Loops

variable {p0 j : Nat} {v w : RegionKind → Nat} {ppa : PhysicalPageAllocator} {rk par : RegionKind}

/-- When the children of a kind have been visited, its bitmaps say where the
regions lie from page `p0`. -/
theorem Taken.bit (h : Taken p0 v w ppa) (hrk : rk ≠ RK_SmallPage)
    (hv : rk.child.count ≤ v rk.child) (hj : j < rk.count) {b : Nat} (hb : b < 16) :
    (ppa.regions (rk.index j)).bitmap.testBit b =
      decide ((16 * j + b + 1) * rk.child.pages ≤ p0) := by
  rw [h.bits rk hrk j hj b hb, decide_eq_decide]
  have hcount := count_child hrk
  have : ¬v rk.child ≤ 16 * j + b := by omega
  simp [this]

theorem Taken.full_iff (h : Taken p0 v w ppa) (hrk : rk ≠ RK_SmallPage)
    (hv : rk.child.count ≤ v rk.child) (hj : j < rk.count) :
    (ppa.regions (rk.index j)).bitmap = 0xffff ↔ (j + 1) * rk.pages ≤ p0 := by
  rw [eq_full_iff (h.lt _)]
  have hpages := mul_pages_child hrk (j + 1)
  constructor
  · intro hall
    have hlast := hall 15 (by decide)
    rw [h.bit hrk hv hj (by decide), decide_eq_true_eq] at hlast
    exact hpages ▸ hlast
  · intro hfit b hb
    rw [h.bit hrk hv hj hb, decide_eq_true_eq]
    calc (16 * j + b + 1) * rk.child.pages
        ≤ 16 * (j + 1) * rk.child.pages := Nat.mul_le_mul_right _ (by omega)
      _ = (j + 1) * rk.pages := hpages
      _ ≤ p0 := hfit

theorem Taken.zero_iff (h : Taken p0 v w ppa) (hrk : rk ≠ RK_SmallPage)
    (hv : rk.child.count ≤ v rk.child) (hj : j < rk.count) :
    (ppa.regions (rk.index j)).bitmap = 0 ↔ p0 < (16 * j + 1) * rk.child.pages := by
  rw [eq_zero_iff (h.lt _)]
  constructor
  · intro hall
    have hfirst := hall 0 (by decide)
    rw [h.bit hrk hv hj (by decide), decide_eq_false_iff_not] at hfirst
    exact lt_of_not_ge hfirst
  · intro hout b hb
    rw [h.bit hrk hv hj hb, decide_eq_false_iff_not]
    have : (16 * j + 1) * rk.child.pages ≤ (16 * j + b + 1) * rk.child.pages :=
      Nat.mul_le_mul_right _ (by omega)
    omega

theorem Taken.partial_iff (h : Taken p0 v w ppa) (hrk : rk ≠ RK_SmallPage)
    (hv : rk.child.count ≤ v rk.child) (hj : j < rk.count) :
    Partial p0 rk j ↔ (ppa.regions (rk.index j)).bitmap ≠ 0 ∧
      (ppa.regions (rk.index j)).bitmap ≠ 0xffff := by
  rw [ne_eq, ne_eq, h.full_iff hrk hv hj, h.zero_iff hrk hv hj, Partial]
  omega

/-- One turn of the loop from a kind to its parent. -/
theorem claimParent_spec (h : Taken p0 v w ppa) (hchild : par.child = rk)
    (hpar : par ≠ RK_SmallPage) (hrk : rk ≠ RK_SmallPage) (hv : rk.child.count ≤ v rk.child)
    (hvj : v rk = j) (hwj : w rk = j) (hj : j < rk.count) :
    ∃ ppa', claimParent rk par ppa j = .ok ppa' ∧
      Taken p0 (Function.update v rk (j + 1)) (Function.update w rk (j + 1)) ppa' := by
  have hlt := index_lt hrk hj
  have hfull := h.full_iff hrk hv hj
  have hpart := h.partial_iff hrk hv hj
  simp only [claimParent, region_index_eq hrk hj, ok_bind, region_eq hlt]
  by_cases hb : (ppa.regions (rk.index j)).bitmap = 0xffff
  · rw [if_neg (not_not.mpr hb)]
    exact ⟨ppa, rfl, (h.skip hvj (hfull.mp hb)).keep hwj (fun hp => (hpart.mp hp).2 hb)⟩
  · subst hchild
    have hj' : j / 16 < par.count := by
      have hcount := count_child hpar
      omega
    have hclear := h.clear hpar hvj hj' (fun hfit => hb (hfull.mpr hfit))
      (fun k _ hk' => by cases k <;> cases par <;> simp_all [child]) 1
    rw [if_pos hb, region_index_eq hpar hj']
    simp only [ok_bind, region_eq (index_lt hpar hj'), setRegion_eq (index_lt hpar hj'),
      PhysicalPageAllocator.countAllocated]
    by_cases hz : (ppa.regions (par.child.index j)).bitmap = 0
    · rw [if_neg (not_not.mpr hz)]
      exact ⟨_, rfl, hclear.keep hwj (fun hp => (hpart.mp hp).1 hz)⟩
    · rw [if_pos hz]
      exact hclear.float hrk hwj hj (hpart.mpr ⟨hz, hb⟩)

/-- One turn of the loop over the supersections. -/
theorem claimSupersection_spec (h : Taken p0 v w ppa)
    (hv : RK_Section.count ≤ v RK_Section) (hvj : v RK_Supersection = j)
    (hwj : w RK_Supersection = j) (hj : j < 32) :
    ∃ ppa', claimSupersection ppa j = .ok ppa' ∧
      Taken p0 (Function.update v RK_Supersection (j + 1))
        (Function.update w RK_Supersection (j + 1)) ppa' := by
  have hss : RK_Supersection ≠ RK_SmallPage := by decide
  have hfull := h.full_iff hss hv hj
  have hpart := h.partial_iff hss hv hj
  simp only [claimSupersection, region_index_eq hss hj, ok_bind, region_eq (index_lt hss hj)]
  by_cases hb : (ppa.regions (RK_Supersection.index j)).bitmap = 0xffff
  · rw [if_neg (not_not.mpr hb)]
    exact ⟨ppa, rfl, (h.skip hvj (hfull.mp hb)).keep hwj (fun hp => (hpart.mp hp).2 hb)⟩
  · have hclear := h.clearMask hvj hj (fun hfit => hb (hfull.mpr hfit)) 1
    rw [if_pos hb]
    by_cases hz : (ppa.regions (RK_Supersection.index j)).bitmap = 0
    · rw [if_neg (not_not.mpr hz)]
      exact ⟨_, rfl, hclear.keep hwj (fun hp => (hpart.mp hp).1 hz)⟩
    · rw [if_pos hz]
      exact hclear.float hss hwj hj (hpart.mpr ⟨hz, hb⟩)

/-- A loop whose turn `j` takes the state from `I j` to `I (j + 1)`. -/
theorem foldlM_range {α : Type} {f : α → Nat → Except Fault α} {I : Nat → α → Prop} {n : Nat}
    (hstep : ∀ j < n, ∀ a, I j a → ∃ a', f a j = .ok a' ∧ I (j + 1) a') {a : α} (h0 : I 0 a) :
    ∃ a', (List.range n).foldlM f a = .ok a' ∧ I n a' := by
  induction n with
  | zero => exact ⟨a, rfl, h0⟩
  | succ n ih =>
      obtain ⟨b, hb, hI⟩ := ih fun j hj => hstep j (by omega)
      obtain ⟨c, hc, hI'⟩ := hstep n (by omega) b hI
      refine ⟨c, ?_, hI'⟩
      rw [List.range_succ, List.foldlM_append, hb, ok_bind, List.foldlM_cons, hc, ok_bind]
      rfl

theorem update_zero {u : RegionKind → Nat} (hu : u rk = 0) : Function.update u rk 0 = u := by
  rw [← hu, Function.update_eq_self]

/-- The loop from a kind to its parent. -/
theorem claimParents_spec (h : Taken p0 v w ppa) (hchild : par.child = rk)
    (hpar : par ≠ RK_SmallPage) (hrk : rk ≠ RK_SmallPage) (hv : rk.child.count ≤ v rk.child)
    (hv0 : v rk = 0) (hw0 : w rk = 0) :
    ∃ ppa', (List.range rk.count).foldlM (claimParent rk par) ppa = .ok ppa' ∧
      Taken p0 (Function.update v rk rk.count) (Function.update w rk rk.count) ppa' := by
  have hne : rk.child ≠ rk := by cases rk <;> simp_all [child]
  refine foldlM_range (I := fun j a =>
    Taken p0 (Function.update v rk j) (Function.update w rk j) a) (fun j hj a ha => ?_) ?_
  · have hturn := claimParent_spec ha hchild hpar hrk
      (by rwa [Function.update_of_ne hne]) (Function.update_self ..) (Function.update_self ..) hj
    rwa [Function.update_idem, Function.update_idem] at hturn
  · rwa [update_zero hv0, update_zero hw0]

/-- The loop over the supersections. -/
theorem claimSupersections_spec (h : Taken p0 v w ppa) (hv : RK_Section.count ≤ v RK_Section)
    (hv0 : v RK_Supersection = 0) (hw0 : w RK_Supersection = 0) :
    ∃ ppa', (List.range 32).foldlM claimSupersection ppa = .ok ppa' ∧
      Taken p0 (Function.update v RK_Supersection 32) (Function.update w RK_Supersection 32)
        ppa' := by
  have hne : RK_Section ≠ RK_Supersection := by decide
  refine foldlM_range (I := fun j a => Taken p0 (Function.update v RK_Supersection j)
    (Function.update w RK_Supersection j) a) (fun j hj a ha => ?_) ?_
  · have hturn := claimSupersection_spec ha (by rwa [Function.update_of_ne hne])
      (Function.update_self ..) (Function.update_self ..) hj
    rwa [Function.update_idem, Function.update_idem] at hturn
  · rwa [update_zero hv0, update_zero hw0]

end Loops

/-! ## The whole initialisation -/

/-- `ppa_init` does not read behind the preclaims. -/
def ReadsInside : List (Nat × Nat) → Prop
  | [] => True
  | p :: ps => 0x20000000 ≤ p.1 ∨ ∃ r ∈ p :: ps, 0x20000000 < r.2

theorem advance_spec {r1 j : Nat} {ps : List (Nat × Nat)} (hr1 : r1 ≤ 0x20000000)
    (h : ∃ r ∈ ps, 0x20000000 < r.2) :
    ∃ j' ps', advance r1 j ps = .ok (j', ps') ∧ ∃ r ∈ ps', 0x20000000 < r.2 := by
  induction ps generalizing j with
  | nil =>
      obtain ⟨r, hr, -⟩ := h
      cases hr
  | cons p ps ih =>
      rw [advance]
      split
      · rename_i hle
        apply ih
        obtain ⟨r, hr, hlt⟩ := h
        rcases List.mem_cons.mp hr with rfl | hr
        · omega
        · exact ⟨r, hr, hlt⟩
      · exact ⟨j, p :: ps, rfl, h⟩

/-- What has been taken when the loop over the small pages comes to page `m`. -/
def pagesTo (m : Nat) : RegionKind → Nat := Function.update (fun _ => 0) RK_SmallPage m

theorem claimPages_spec {start n j : Nat} {ps : List (Nat × Nat)} {ppa : PhysicalPageAllocator}
    (hn : n ≤ 0x20000) (h : Taken (start / 4096) (pagesTo (0x20000 - n)) (fun _ => 0) ppa)
    (hps : 0x20000000 ≤ start ∨ ∃ r ∈ ps, 0x20000000 < r.2) :
    ∃ ppa', claimPages start n j ps ppa = .ok ppa' ∧
      Taken (start / 4096) (pagesTo 0x20000) (fun _ => 0) ppa' := by
  induction n generalizing j ps ppa with
  | zero => exact ⟨ppa, rfl, h⟩
  | succ n ih =>
      have hnext : 0x20000 - n = 0x20000 - (n + 1) + 1 := by omega
      rw [hnext] at ih
      generalize hi : 0x20000 - (n + 1) = i at h ih
      have hv : pagesTo i RK_SmallPage = i := Function.update_self ..
      have hupd : Function.update (pagesTo i) RK_SmallPage (i + 1) = pagesTo (i + 1) :=
        Function.update_idem ..
      have hr1 : get_region_ptr (i + 1) RK_SmallPage = 4096 * (i + 1) := by
        simp only [get_region_ptr, scale]
        omega
      simp only [claimPages, hi, hr1]
      split
      · refine ih (by omega) ?_ hps
        rw [← hupd]
        apply h.skip hv
        simp only [pages]
        omega
      · have hlp : RK_LargePage ≠ RK_SmallPage := by decide
        have hcount : i / 16 < RK_LargePage.count := by
          simp only [count]
          omega
        have hin : 4096 * (i + 1) ≤ 0x20000000 := by omega
        obtain ⟨j', ps', hadv, hps'⟩ := advance_spec (j := j) hin (hps.resolve_left (by omega))
        simp only [region_index_eq hlp hcount, ok_bind, region_eq (index_lt hlp hcount),
          setRegion_eq (index_lt hlp hcount), hadv, PhysicalPageAllocator.countAllocated]
        refine ih (by omega) ?_ (.inr hps')
        rw [← hupd]
        refine h.clear hlp hv hcount ?_
          (fun k _ hk' => by cases k <;> simp_all [child]) 1
        simp only [child, pages]
        omega

theorem ppa_init_spec {preclaims : List (Nat × Nat)} (h : ReadsInside preclaims) :
    ∃ ppa, ppa_init preclaims = .ok ppa ∧ Initial (firstPage preclaims) ppa := by
  cases preclaims with
  | nil => exact ⟨_, rfl, initial_empty⟩
  | cons p ps =>
      have h0 : pagesTo (0x20000 - 0x20000) = fun _ => 0 := Function.update_eq_self ..
      have hempty : Taken (p.1 / 4096) (pagesTo (0x20000 - 0x20000)) (fun _ => 0) .empty := by
        rw [h0]
        exact taken_empty _
      have hsec : RK_Section.child = RK_LargePage := rfl
      have hsup : RK_Supersection.child = RK_Section := rfl
      obtain ⟨a, ha, hpages⟩ := claimPages_spec (j := 0) (le_refl _) hempty h
      obtain ⟨b, hb, hlarge⟩ := claimParents_spec hpages hsec (by decide) (by decide) (le_refl _)
        rfl rfl
      obtain ⟨c, hc, hsections⟩ := claimParents_spec hlarge hsup (by decide) (by decide) (le_refl _)
        rfl rfl
      obtain ⟨d, hd, hall⟩ := claimSupersections_spec hsections (le_refl _) rfl rfl
      refine ⟨d, ?_, ?_⟩
      · rw [ppa_init, ha, ok_bind]
        show (List.range RK_LargePage.count).foldlM _ a >>= _ = _
        rw [hb, ok_bind]
        show (List.range RK_Section.count).foldlM _ b >>= _ = _
        rw [hc, ok_bind]
        exact hd
      · refine ⟨hall.links, hall.lt, fun k hk n hn b hb => ?_, hall.mask, fun k hk => ?_⟩
        · rw [hall.bits k hk n hn b hb]
          cases k <;> rfl
        · have hfloats := hall.floats k hk
          cases k with
          | RK_SmallPage => exact absurd rfl hk
          | _ => exact hfloats

end Bcm2835.Superopt

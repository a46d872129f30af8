import Bcm2835.Integ.CheckSpec

/-!
# The verdict of `integ_chk`

Each region that fails sets the state anew, so what is returned says how bad the last
failing region is, not the worst.
-/

namespace Bcm2835.Integ

open Mem Bytes

section Spec

variable (ihdr i : Nat) (m : Memory)

/-- Region `i` is not usable after its check failed. -/
def Critical : Prop := region_flags m ihdr i &&& IRF_Critical ≠ 0

/-- The hash of a range is not the checksum of region `i`. -/
def Mismatch (p size : Nat) : Prop :=
  (hash_memory m (seedOf m ihdr) p size).toNat ≠ region_cksum m ihdr i

/-- Region `i` is a stack that contains the stack pointer. -/
def OnStack : Prop :=
  region_flags m ihdr i &&& IRF_Stack ≠ 0 ∧ range_contains m ihdr i (spOf m ihdr)

/-- Region `i` is a stack that ends below the stack pointer: there is a panic. -/
def Overrun : Prop :=
  region_flags m ihdr i &&& IRF_Mutable = 0 ∧ region_flags m ihdr i &&& IRF_Purgable = 0 ∧
    ¬OnStack ihdr i m ∧ region_flags m ihdr i &&& IRF_Stack ≠ 0 ∧
      range_end m ihdr i ≤ spOf m ihdr

/-- Region `i` fails its check. -/
def Fails : Prop :=
  region_flags m ihdr i &&& IRF_Mutable = 0 ∧
  (region_flags m ihdr i &&& IRF_Purgable ≠ 0 →
    ¬check_purgable m (region_p m ihdr i) (region_size m ihdr i)) ∧
  (region_flags m ihdr i &&& IRF_Purgable = 0 → OnStack ihdr i m →
    Mismatch ihdr i m (spOf m ihdr)
      (stackSize (region_p m ihdr i) (region_size m ihdr i) (spOf m ihdr)) ∨
    flagsOf m ihdr &&& IHF_ExpectStackCleanup ≠ 0 ∧
      ¬check_purgable m (region_p m ihdr i) (spOf m ihdr - region_p m ihdr i)) ∧
  (region_flags m ihdr i &&& IRF_Purgable = 0 → ¬OnStack ihdr i m →
    Mismatch ihdr i m (region_p m ihdr i) (region_size m ihdr i))

/-- The memory behind the turn of region `i`: the flags of a region that fails are
changed. -/
def checked : Memory :=
  match chkRegion ihdr i (m, .IS_Clean) with
  | .ok s => s.1
  | .error _ => m

/-- The memory in which region `i` is checked. -/
def memAt : Nat → Memory
  | 0 => m
  | i + 1 => checked ihdr i (memAt i)

/-- Region `i` fails its check in the memory it is checked in. -/
def FailsAt : Prop := Fails ihdr i (memAt ihdr m i)

/-- How bad it is if region `i` fails. -/
def severity : IntegStatus :=
  if region_flags m ihdr i &&& IRF_Critical ≠ 0 then .IS_AbEnd else .IS_AbCon

/-- The state is about all regions. -/
structure Verdict (ihdr : Nat) (m : Memory) (state : IntegStatus) : Prop where
  abEnd : state = .IS_AbEnd ↔ ∃ i < region_count m ihdr, FailsAt ihdr i m ∧ Critical ihdr i m
  abCon : state = .IS_AbCon ↔ (∃ i < region_count m ihdr, FailsAt ihdr i m) ∧
    ¬∃ i < region_count m ihdr, FailsAt ihdr i m ∧ Critical ihdr i m
  clean : state = .IS_Clean ↔ ¬∃ i < region_count m ihdr, FailsAt ihdr i m

end Spec

/-! ## What an alarm keeps -/

variable {ihdr i : Nat} {m m' m'' : Memory}

/-- What the checks of later regions read of the header, apart from the marks in the
flags. -/
structure Kept (ihdr : Nat) (m m' : Memory) : Prop where
  count : region_count m' ihdr = region_count m ihdr
  sp : spOf m' ihdr = spOf m ihdr
  p : ∀ j, region_p m' ihdr j = region_p m ihdr j
  size : ∀ j, region_size m' ihdr j = region_size m ihdr j
  flags : ∀ j, region_flags m' ihdr j &&& 15 = region_flags m ihdr j &&& 15

theorem Kept.refl : Kept ihdr m m := ⟨rfl, rfl, fun _ => rfl, fun _ => rfl, fun _ => rfl⟩

theorem Kept.trans (h : Kept ihdr m m') (h' : Kept ihdr m' m'') : Kept ihdr m m'' where
  count := h'.count.trans h.count
  sp := h'.sp.trans h.sp
  p := fun j => (h'.p j).trans (h.p j)
  size := fun j => (h'.size j).trans (h.size j)
  flags := fun j => (h'.flags j).trans (h.flags j)

/-- The flags that are not marks. -/
theorem Kept.flag (h : Kept ihdr m m') {f : Nat} (hf : 15 &&& f = f) (j : Nat) :
    region_flags m' ihdr j &&& f = region_flags m ihdr j &&& f := by
  have hlow : ∀ x : Nat, x &&& f = x &&& 15 &&& f := fun x => by rw [Nat.and_assoc, hf]
  rw [hlow, h.flags, ← hlow]

theorem Kept.overrun (h : Kept ihdr m m') (j : Nat) : Overrun ihdr j m' ↔ Overrun ihdr j m := by
  simp only [Overrun, OnStack, range_contains, range_end, h.sp, h.p, h.size,
    h.flag (f := IRF_Mutable) (by decide), h.flag (f := IRF_Purgable) (by decide),
    h.flag (f := IRF_Stack) (by decide)]

/-- The flags a failing check sets. -/
def IsMark (f : Nat) : Prop := f < 2 ^ 32 ∧ f &&& 15 = 0

theorem orFlags_kept (hfit : regionAt ihdr i + 16 ≤ 2 ^ 32) {f : Nat} (hf : IsMark f) :
    Kept ihdr m (orFlags m ihdr i f) := by
  have hstore : regionAt ihdr i + 8 + 4 ≤ 2 ^ 32 := by omega
  have hapart : ∀ b, (b + 4 ≤ regionAt ihdr i + 8 ∨ regionAt ihdr i + 8 + 4 ≤ b) →
      field (orFlags m ihdr i f) b = field m b := fun b hb => field_store_of_apart hstore hb
  refine ⟨hapart _ ?_, hapart _ ?_, fun j => hapart _ ?_, fun j => hapart _ ?_, fun j => ?_⟩
  · exact .inl (by rw [regionAt]; omega)
  · exact .inl (by rw [regionAt]; omega)
  · rw [regionAt, regionAt]
    omega
  · rw [regionAt, regionAt]
    omega
  · rcases eq_or_ne j i with rfl | hne
    · have hown : region_flags (orFlags m ihdr j f) ihdr j = region_flags m ihdr j ||| f :=
        field_store hstore (Nat.or_lt_two_pow (field_lt _ _) hf.1)
      rw [hown, Nat.and_or_distrib_right, hf.2, Nat.or_zero]
    · refine congrArg (· &&& 15) (hapart _ ?_)
      rw [regionAt, regionAt]
      omega

/-- An alarm sets the state to how bad the region is. -/
theorem alarm_eq (hfit : regionAt ihdr i + 16 ≤ 2 ^ 32) {f : Nat} (hf : IsMark f) :
    alarm ihdr i f m = (orFlags m ihdr i f, severity ihdr i m) := by
  have hcrit := (orFlags_kept (m := m) hfit hf).flag (f := IRF_Critical) (by decide) i
  show (orFlags m ihdr i f, if region_flags (orFlags m ihdr i f) ihdr i &&& IRF_Critical ≠ 0
    then IntegStatus.IS_AbEnd else .IS_AbCon) = _
  rw [hcrit]
  rfl

theorem Kept.severity (h : Kept ihdr m m') (j : Nat) : severity ihdr j m' = severity ihdr j m := by
  rw [Integ.severity, Integ.severity, h.flag (by decide)]

theorem isMark_Corrupted : IsMark IRF_Corrupted := ⟨by decide, rfl⟩

theorem isMark_CorruptedSomewhere : IsMark IRF_CorruptedSomewhere := ⟨by decide, rfl⟩

/-! ## One turn -/

/-- A check of region `i` that finds something if `F` holds: then it sets the state,
whatever it was, and it does nothing otherwise. -/
def Checks (ihdr i : Nat) (m : Memory) (g : Memory × IntegStatus → Memory × IntegStatus)
    (F : Prop) : Prop :=
  (¬F ∧ ∀ st, g (m, st) = (m, st)) ∨
    (F ∧ ∃ m', Kept ihdr m m' ∧ ∀ st, g (m, st) = (m', severity ihdr i m))

theorem chkHash_checks (hfit : regionAt ihdr i + 16 ≤ 2 ^ 32) (p size : Nat) :
    Checks ihdr i m (chkHash ihdr i p size) (Mismatch ihdr i m p size) := by
  by_cases hbad : Mismatch ihdr i m p size
  · refine .inr ⟨hbad, _, orFlags_kept hfit isMark_CorruptedSomewhere, fun st => ?_⟩
    exact (if_pos hbad).trans (alarm_eq hfit isMark_CorruptedSomewhere)
  · exact .inl ⟨hbad, fun st => if_neg hbad⟩

theorem chkClear_checks (hfit : regionAt ihdr i + 16 ≤ 2 ^ 32) (p size : Nat) :
    Checks ihdr i m (chkClear ihdr i p size) (¬check_purgable m p size) := by
  by_cases hclear : check_purgable m p size
  · exact .inl ⟨not_not.mpr hclear, fun st => if_pos hclear⟩
  · refine .inr ⟨hclear, _, orFlags_kept hfit isMark_Corrupted, fun st => ?_⟩
    exact (if_neg hclear).trans (alarm_eq hfit isMark_Corrupted)

theorem chkCleanup_checks (hfit : regionAt ihdr i + 16 ≤ 2 ^ 32) (p : Nat) :
    Checks ihdr i m (chkCleanup ihdr i p) (flagsOf m ihdr &&& IHF_ExpectStackCleanup ≠ 0 ∧
      ¬check_purgable m p (spOf m ihdr - p)) := by
  by_cases hflag : flagsOf m ihdr &&& IHF_ExpectStackCleanup ≠ 0
  · have heq : ∀ st, chkCleanup ihdr i p (m, st) = chkClear ihdr i p (spOf m ihdr - p) (m, st) :=
      fun st => if_pos hflag
    rcases chkClear_checks (m := m) hfit p (spOf m ihdr - p) with ⟨hclear, hst⟩ | ⟨hclear, m', hk, hst⟩
    · exact .inl ⟨fun h => hclear h.2, fun st => (heq st).trans (hst st)⟩
    · exact .inr ⟨⟨hflag, hclear⟩, m', hk, fun st => (heq st).trans (hst st)⟩
  · exact .inl ⟨fun h => hflag h.1, fun st => if_neg hflag⟩

/-- Two checks of a region one after the other. The second is made in the memory the
first one leaves. -/
theorem Checks.then {g g' : Memory × IntegStatus → Memory × IntegStatus} {F : Prop}
    {F' : Memory → Prop} (h : Checks ihdr i m g F)
    (h' : ∀ m', Checks ihdr i m' g' (F' m')) : Checks ihdr i m (fun s => g' (g s)) (F ∨ F' m) := by
  rcases h with ⟨hno, hst⟩ | ⟨hyes, m', hk, hst⟩
  · rcases h' m with ⟨hno', hst'⟩ | ⟨hyes', m', hk, hst'⟩
    · exact .inl ⟨not_or.mpr ⟨hno, hno'⟩, fun st => (congrArg g' (hst st)).trans (hst' st)⟩
    · exact .inr ⟨.inr hyes', m', hk, fun st => (congrArg g' (hst st)).trans (hst' st)⟩
  · rcases h' m' with ⟨-, hst'⟩ | ⟨-, m'', hk', hst'⟩
    · exact .inr ⟨.inl hyes, m', hk, fun st => (congrArg g' (hst st)).trans (hst' _)⟩
    · refine .inr ⟨.inl hyes, m'', hk.trans hk', fun st => ?_⟩
      exact (congrArg g' (hst st)).trans ((hst' _).trans (by rw [hk.severity]))

/-- One turn of `integ_chk`, for a region on which it does not panic. -/
theorem chkRegion_checks (hfit : regionAt ihdr i + 16 ≤ 2 ^ 32) (hrun : ¬Overrun ihdr i m) :
    ∃ g, (∀ st, chkRegion ihdr i (m, st) = .ok (g (m, st))) ∧
      Checks ihdr i m g (Fails ihdr i m) := by
  by_cases hmut : region_flags m ihdr i &&& IRF_Mutable = 0
  · by_cases hpurge : region_flags m ihdr i &&& IRF_Purgable = 0
    · by_cases hstack : OnStack ihdr i m
      · refine ⟨fun s => chkCleanup ihdr i (region_p m ihdr i) (chkHash ihdr i (spOf m ihdr)
          (stackSize (region_p m ihdr i) (region_size m ihdr i) (spOf m ihdr)) s), fun st => ?_, ?_⟩
        · exact (if_neg (not_not.mpr hmut)).trans
            ((if_neg (not_not.mpr hpurge)).trans (if_pos hstack))
        · have hboth := (chkHash_checks (m := m) hfit (spOf m ihdr) (stackSize (region_p m ihdr i)
            (region_size m ihdr i) (spOf m ihdr))).then fun m' =>
              chkCleanup_checks (m := m') hfit (region_p m ihdr i)
          have hfails : Fails ihdr i m ↔ _ ∨ _ :=
            ⟨fun h => h.2.2.1 hpurge hstack, fun h => ⟨hmut, fun hne => absurd hpurge hne,
              fun _ _ => h, fun _ hno => absurd hstack hno⟩⟩
          rwa [hfails]
      · refine ⟨chkHash ihdr i (region_p m ihdr i) (region_size m ihdr i), fun st => ?_, ?_⟩
        · have hover : ¬(region_flags m ihdr i &&& IRF_Stack ≠ 0 ∧
              range_end m ihdr i ≤ spOf m ihdr) := fun h => hrun ⟨hmut, hpurge, hstack, h⟩
          exact (if_neg (not_not.mpr hmut)).trans
            ((if_neg (not_not.mpr hpurge)).trans ((if_neg hstack).trans (if_neg hover)))
        · have hfails : Fails ihdr i m ↔ _ := ⟨fun h => h.2.2.2 hpurge hstack, fun h =>
            ⟨hmut, fun hne => absurd hpurge hne, fun _ hs => absurd hs hstack, fun _ _ => h⟩⟩
          rw [hfails]
          exact chkHash_checks hfit _ _
    · refine ⟨chkClear ihdr i (region_p m ihdr i) (region_size m ihdr i), fun st => ?_, ?_⟩
      · exact (if_neg (not_not.mpr hmut)).trans (if_pos hpurge)
      · have hfails : Fails ihdr i m ↔ _ := ⟨fun h => h.2.1 hpurge, fun h =>
          ⟨hmut, fun _ => h, fun hz => absurd hz hpurge, fun hz => absurd hz hpurge⟩⟩
        rw [hfails]
        exact chkClear_checks hfit _ _
  · refine ⟨id, fun st => ?_, .inl ⟨fun h => hmut h.1, fun st => rfl⟩⟩
    exact if_pos hmut

/-- The state behind a turn. -/
theorem chkRegion_turn (hfit : regionAt ihdr i + 16 ≤ 2 ^ 32) (hrun : ¬Overrun ihdr i m)
    (st : IntegStatus) :
    Kept ihdr m (checked ihdr i m) ∧
    ((¬Fails ihdr i m ∧ chkRegion ihdr i (m, st) = .ok (checked ihdr i m, st)) ∨
      (Fails ihdr i m ∧ chkRegion ihdr i (m, st) = .ok (checked ihdr i m, severity ihdr i m))) := by
  obtain ⟨g, hg, ⟨hno, hst⟩ | ⟨hyes, m', hk, hst⟩⟩ := chkRegion_checks hfit hrun
  · have hmem : checked ihdr i m = m := by rw [checked, hg, hst]
    rw [hmem]
    exact ⟨Kept.refl, .inl ⟨hno, by rw [hg, hst]⟩⟩
  · have hmem : checked ihdr i m = m' := by rw [checked, hg, hst]
    rw [hmem]
    exact ⟨hk, .inr ⟨hyes, by rw [hg, hst]⟩⟩

/-! ## All turns -/

section Run

variable (hfit : ihdr + 40 + 16 * region_count m ihdr ≤ 2 ^ 32)
  (hrun : ∀ i < region_count m ihdr, ¬Overrun ihdr i m)

include hfit hrun

theorem memAt_kept (hi : i ≤ region_count m ihdr) : Kept ihdr m (memAt ihdr m i) := by
  induction i with
  | zero => exact Kept.refl
  | succ i ih =>
      have hk := ih (Nat.le_of_succ_le hi)
      have hi' : regionAt ihdr i + 16 ≤ 2 ^ 32 := by
        rw [regionAt]
        omega
      exact hk.trans (chkRegion_turn hi' (fun h => hrun i hi ((hk.overrun i).mp h)) .IS_Clean).1

/-- The turns from `i` on return, and leave the state as it was, or as the last failing
region has it. -/
theorem chk_last (fuel : Nat) (hfuel : region_count m ihdr ≤ i + fuel)
    (hi : i ≤ region_count m ihdr) (st : IntegStatus) :
    ∃ st', regionLoop ihdr Prod.fst (chkRegion ihdr) fuel i (memAt ihdr m i, st) =
        .ok (memAt ihdr m (region_count m ihdr), st') ∧
      ((∀ k, i ≤ k → k < region_count m ihdr → ¬FailsAt ihdr k m) ∧ st' = st ∨
        ∃ k, i ≤ k ∧ k < region_count m ihdr ∧ FailsAt ihdr k m ∧ st' = severity ihdr k m ∧
          ∀ l, k < l → l < region_count m ihdr → ¬FailsAt ihdr l m) := by
  induction fuel generalizing i st with
  | zero =>
      obtain rfl : i = region_count m ihdr := Nat.le_antisymm hi hfuel
      exact ⟨st, rfl, .inl ⟨fun k hk hk' => absurd hk' (Nat.not_lt.mpr hk), rfl⟩⟩
  | succ fuel ih =>
      have hk := memAt_kept hfit hrun hi
      rw [regionLoop, hk.count]
      by_cases hlt : i < region_count m ihdr
      · rw [if_pos hlt]
        have hi' : regionAt ihdr i + 16 ≤ 2 ^ 32 := by
          rw [regionAt]
          omega
        have hturn := (chkRegion_turn hi' (fun h => hrun i hlt ((hk.overrun i).mp h)) st).2
        rcases hturn with ⟨hpass, hturn⟩ | ⟨hfail, hturn⟩
        · -- the region passes
          obtain ⟨st', hloop, hlast⟩ := ih (i := i + 1) (by omega) hlt st
          refine ⟨st', by rw [hturn]; exact hloop, ?_⟩
          rcases hlast with ⟨hnone, rfl⟩ | ⟨k, hik, hkn, hkf, hks, hkl⟩
          · refine .inl ⟨fun k hik hkn => ?_, rfl⟩
            rcases Nat.eq_or_lt_of_le hik with rfl | hik
            · exact hpass
            · exact hnone k hik hkn
          · exact .inr ⟨k, by omega, hkn, hkf, hks, hkl⟩
        · -- it fails, and sets the state
          obtain ⟨st', hloop, hlast⟩ := ih (i := i + 1) (by omega) hlt (severity ihdr i (memAt ihdr m i))
          refine ⟨st', by rw [hturn]; exact hloop, .inr ?_⟩
          rcases hlast with ⟨hnone, rfl⟩ | ⟨k, hik, hkn, hkf, hks, hkl⟩
          · exact ⟨i, le_refl i, hlt, hfail, hk.severity i, fun l hl => hnone l hl⟩
          · exact ⟨k, by omega, hkn, hkf, hks, hkl⟩
      · obtain rfl : i = region_count m ihdr := Nat.le_antisymm hi (Nat.le_of_not_lt hlt)
        rw [if_neg hlt]
        exact ⟨st, rfl, .inl ⟨fun k hk hk' => absurd hk' (Nat.not_lt.mpr hk), rfl⟩⟩

theorem integ_chk_last :
    ∃ st, integ_chk ihdr 0 m = .ok (memAt ihdr m (region_count m ihdr), st) ∧
      ((∀ k < region_count m ihdr, ¬FailsAt ihdr k m) ∧ st = .IS_Clean ∨
        ∃ k < region_count m ihdr, FailsAt ihdr k m ∧ st = severity ihdr k m ∧
          ∀ l, k < l → l < region_count m ihdr → ¬FailsAt ihdr l m) := by
  have hfuel : region_count m ihdr ≤ 0 + SIZE_RANGE := by
    have hlt := field_lt m (ihdr + 32)
    rw [Nat.zero_add]
    exact Nat.le_of_lt hlt
  obtain ⟨st, hloop, hlast⟩ := chk_last hfit hrun SIZE_RANGE hfuel (Nat.zero_le _) .IS_Clean
  refine ⟨st, hloop, ?_⟩
  rcases hlast with ⟨hnone, hst⟩ | ⟨k, -, hk⟩
  · exact .inl ⟨fun k => hnone k (Nat.zero_le k), hst⟩
  · exact .inr ⟨k, hk⟩

end Run

/-! ## The worst and the last -/

theorem severity_of_critical (h : Critical ihdr i m) : severity ihdr i m = .IS_AbEnd := if_pos h

theorem severity_of_not (h : ¬Critical ihdr i m) : severity ihdr i m = .IS_AbCon := if_neg h

/-- The state that is returned says what is to be said about all regions if and only if
no critical region fails, or the last region that fails is critical. -/
theorem integ_chk_verdict_iff (hfit : ihdr + 40 + 16 * region_count m ihdr ≤ 2 ^ 32)
    (hrun : ∀ i < region_count m ihdr, ¬Overrun ihdr i m) :
    ∃ m' st, integ_chk ihdr 0 m = .ok (m', st) ∧
      (Verdict ihdr m st ↔
        (∀ i < region_count m ihdr, FailsAt ihdr i m → ¬Critical ihdr i m) ∨
        ∃ i < region_count m ihdr, FailsAt ihdr i m ∧ Critical ihdr i m ∧
          ∀ j, i < j → j < region_count m ihdr → ¬FailsAt ihdr j m) := by
  obtain ⟨st, hchk, hlast⟩ := integ_chk_last hfit hrun
  refine ⟨_, st, hchk, ?_⟩
  rcases hlast with ⟨hnone, rfl⟩ | ⟨k, hk, hfail, rfl, hlater⟩
  · -- nothing fails
    refine iff_of_true ⟨?_, ?_, ?_⟩ (.inl fun i hi hf => absurd hf (hnone i hi))
    · exact iff_of_false (by decide) fun ⟨i, hi, hf, _⟩ => hnone i hi hf
    · exact iff_of_false (by decide) fun ⟨⟨i, hi, hf⟩, _⟩ => hnone i hi hf
    · exact iff_of_true rfl fun ⟨i, hi, hf⟩ => hnone i hi hf
  · by_cases hcrit : Critical ihdr k m
    · rw [severity_of_critical hcrit]
      refine iff_of_true ⟨?_, ?_, ?_⟩ (.inr ⟨k, hk, hfail, hcrit, hlater⟩)
      · exact iff_of_true rfl ⟨k, hk, hfail, hcrit⟩
      · exact iff_of_false (by decide) fun h => h.2 ⟨k, hk, hfail, hcrit⟩
      · exact iff_of_false (by decide) fun h => h ⟨k, hk, hfail⟩
    · rw [severity_of_not hcrit]
      constructor
      · -- no earlier region may be critical
        rintro ⟨habEnd, -, -⟩
        refine .inl fun i hi hf hc => ?_
        have hcon := habEnd.mpr ⟨i, hi, hf, hc⟩
        cases hcon
      · rintro (hnocrit | ⟨i, hi, hf, hc, hnone⟩)
        · have hno : ¬∃ i < region_count m ihdr, FailsAt ihdr i m ∧ Critical ihdr i m :=
            fun ⟨i, hi, hf, hc⟩ => hnocrit i hi hf hc
          exact ⟨iff_of_false (by decide) hno, iff_of_true rfl ⟨⟨k, hk, hfail⟩, hno⟩,
            iff_of_false (by decide) fun h => h ⟨k, hk, hfail⟩⟩
        · -- a critical region behind which none fails would be the last
          rcases Nat.lt_trichotomy i k with hik | rfl | hki
          · exact absurd hfail (hnone k hik hk)
          · exact absurd hc hcrit
          · exact absurd hf (hlater i hki hi)

/-- A header at `0x1000` with two regions of eight bytes, all zero, which do not have
their checksums of zero. The first has flags `f`, and the second `g`. -/
def twoRegions (f g : UInt8) : Memory := fun a =>
  if a = 0x1020 then 2
  else if a = 0x1029 then 0x20
  else if a = 0x102c then 8
  else if a = 0x1030 then f
  else if a = 0x1039 then 0x30
  else if a = 0x103c then 8
  else if a = 0x1040 then g
  else 0

/-- Both regions fail, and the second is critical. -/
theorem integ_chk_verdict_sample :
    ∃ m' st, integ_chk 0x1000 0 (twoRegions 0 4) = .ok (m', st) ∧
      (Verdict 0x1000 (twoRegions 0 4) st ↔
        (∀ i < region_count (twoRegions 0 4) 0x1000, FailsAt 0x1000 i (twoRegions 0 4) →
          ¬Critical 0x1000 i (twoRegions 0 4)) ∨
        ∃ i < region_count (twoRegions 0 4) 0x1000, FailsAt 0x1000 i (twoRegions 0 4) ∧
          Critical 0x1000 i (twoRegions 0 4) ∧
          ∀ j, i < j → j < region_count (twoRegions 0 4) 0x1000 → ¬FailsAt 0x1000 j (twoRegions 0 4)) :=
  integ_chk_verdict_iff (by decide) fun i hi h => by
    have hcount : region_count (twoRegions 0 4) 0x1000 = 2 := by decide
    rw [hcount] at hi
    obtain ⟨-, -, -, hstack, -⟩ := h
    obtain rfl | rfl : i = 0 ∨ i = 1 := by omega
    · exact hstack (by decide)
    · exact hstack (by decide)

theorem twoRegions_count (f g : UInt8) : region_count (twoRegions f g) 0x1000 = 2 := rfl

/-- The critical region first: the verdict is `IS_AbCon` though it fails. -/
theorem integ_chk_downgrades :
    ∃ m', integ_chk 0x1000 0 (twoRegions 4 0) = .ok (m', .IS_AbCon) ∧
      FailsAt 0x1000 0 (twoRegions 4 0) ∧ Critical 0x1000 0 (twoRegions 4 0) ∧
      ¬Verdict 0x1000 (twoRegions 4 0) .IS_AbCon := by
  have hcrit : Critical 0x1000 0 (twoRegions 4 0) := by
    show region_flags (twoRegions 4 0) 0x1000 0 &&& IRF_Critical ≠ 0
    decide
  have hfirst : FailsAt 0x1000 0 (twoRegions 4 0) := by
    refine ⟨by decide, fun h => absurd h (by decide), fun _ h => absurd h.1 (by decide), fun _ _ => ?_⟩
    show (hash_memory (twoRegions 4 0) 0 0x2000 8).toNat ≠ 0
    decide +kernel
  have hsecond : FailsAt 0x1000 1 (twoRegions 4 0) := by
    refine ⟨by decide +kernel, fun h => absurd h (by decide +kernel),
      fun _ h => absurd h.1 (by decide +kernel), fun _ _ => ?_⟩
    show (hash_memory (memAt 0x1000 (twoRegions 4 0) 1) _ _ _).toNat ≠
      region_cksum (memAt 0x1000 (twoRegions 4 0) 1) 0x1000 1
    decide +kernel
  have hrun : ∀ i < region_count (twoRegions 4 0) 0x1000, ¬Overrun 0x1000 i (twoRegions 4 0) := by
    intro i hi h
    rw [twoRegions_count] at hi
    obtain ⟨-, -, -, hstack, -⟩ := h
    obtain rfl | rfl : i = 0 ∨ i = 1 := by omega
    · exact hstack (by decide)
    · exact hstack (by decide)
  have hone : 1 < region_count (twoRegions 4 0) 0x1000 := by decide
  obtain ⟨st, hchk, hlast⟩ := @integ_chk_last 0x1000 (twoRegions 4 0) (by decide) hrun
  have hst : st = .IS_AbCon := by
    rcases hlast with ⟨hnone, -⟩ | ⟨k, hk, -, hst, hlater⟩
    · exact absurd hsecond (hnone 1 hone)
    · rw [twoRegions_count] at hk
      obtain rfl | rfl : k = 0 ∨ k = 1 := by omega
      · exact absurd hsecond (hlater 1 (by decide) hone)
      · exact hst
  rw [hst] at hchk
  refine ⟨_, hchk, hfirst, hcrit, fun h => ?_⟩
  have habs := h.abEnd.mpr ⟨0, by decide, hfirst, hcrit⟩
  cases habs

end Bcm2835.Integ

import Bcm2835.Pup.ElfLoader

/-!
# What the ELF loader allocates

The memory map is a sorted list of ranges (`MemoryMap.claimed`): `claim_space`
inserts into it, and `allocate_space` is a first-fit search over it. Together
these give the two places `load_elf_image` chooses (`planElfImage_spots`).
-/

namespace Bcm2835.Pup

open Mem FirstFit

/-! ## Results -/

/-- What a computation does after a step that succeeded. -/
@[simp] theorem ok_bind {α β : Type} (a : α) (f : α → Except ElfFault β) :
    (Except.ok a >>= f) = f a := rfl

@[simp] theorem error_bind {α β : Type} (e : ElfFault) (f : α → Except ElfFault β) :
    (Except.error e >>= f) = .error e := rfl

theorem bind_eq_ok {α β : Type} {x : Except ElfFault α} {f : α → Except ElfFault β} {b : β} :
    x >>= f = .ok b ↔ ∃ a, x = .ok a ∧ f a = .ok b := by
  cases x <;> simp

theorem bind_eq_error {α β : Type} {x : Except ElfFault α} {f : α → Except ElfFault β}
    {e : ElfFault} : x >>= f = .error e ↔ x = .error e ∨ ∃ a, x = .ok a ∧ f a = .error e := by
  cases x <;> simp

/-- A result that has been computed. -/
theorem ok_of_toOption {α β : Type} {x : Except ElfFault α} {f : α → β} {b : β}
    (h : x.toOption.map f = some b) : ∃ a, x = .ok a ∧ f a = b := by
  cases x with
  | error e => cases h
  | ok a => exact ⟨a, rfl, Option.some.inj h⟩

/-! ## Claims -/

namespace MemoryMap

/-- The ranges in use, in the order of the map. -/
def claimed (s : MemoryMap) : List Range := Buf.taken s.entry s.range_count

/-- The entry behind them. -/
def stale (s : MemoryMap) : Range := s.entry s.range_count

/-- A claim that starts at `start` does not fill the map by an insertion before another entry, the
stale last one included. -/
def Spares (s : MemoryMap) (start : Nat) : Prop :=
  s.range_count = ELF_MAX_SEGMENTS + 1 → ∀ i < ELF_MAX_SEGMENTS + 2, (s.entry i).start ≤ start

instance (s : MemoryMap) (start : Nat) : Decidable (s.Spares start) :=
  inferInstanceAs (Decidable (_ → ∀ i < ELF_MAX_SEGMENTS + 2, _))

theorem Spares.of_lt {s : MemoryMap} {start : Nat} (h : s.range_count < ELF_MAX_SEGMENTS + 1) :
    s.Spares start := fun heq => absurd heq (Nat.ne_of_lt h)

@[simp] theorem of_range_count {f : Nat → Range} {n : Nat} (h : n ≤ ELF_MAX_SEGMENTS + 2) :
    (MemoryMap.of f n h).range_count = n := rfl

theorem entry_of {f : Nat → Range} {n : Nat} (h : n ≤ ELF_MAX_SEGMENTS + 2) {i : Nat}
    (hi : i < ELF_MAX_SEGMENTS + 2) : (MemoryMap.of f n h).entry i = f i := dif_pos hi

theorem claimed_of {f : Nat → Range} {n : Nat} (h : n ≤ ELF_MAX_SEGMENTS + 2) :
    (MemoryMap.of f n h).claimed = Buf.taken f n :=
  List.map_congr_left fun _ hi => entry_of h (Nat.lt_of_lt_of_le (List.mem_range.mp hi) h)

@[simp] theorem reset_range_count (s : MemoryMap) : s.reset.range_count = 0 := rfl

end MemoryMap

theorem claimSlot_some {f : Nat → Range} {r : Range} {k i j : Nat}
    (h : claimSlot f r k i = some j) :
    i ≤ j ∧ j < i + k ∧ r.start < (f j).start ∧ ∀ l, i ≤ l → l < j → ¬r.start < (f l).start := by
  induction k generalizing i with
  | zero => cases h
  | succ k ih =>
      simp only [claimSlot] at h
      split at h
      · cases h
        exact ⟨Nat.le_refl _, by omega, by assumption, fun l h1 h2 => by omega⟩
      · rename_i hi
        obtain ⟨h1, h2, h3, h4⟩ := ih h
        refine ⟨by omega, by omega, h3, fun l hl1 hl2 => ?_⟩
        by_cases hl : l = i
        · rwa [hl]
        · exact h4 l (by omega) hl2

theorem claimSlot_none {f : Nat → Range} {r : Range} {k i : Nat}
    (h : claimSlot f r k i = none) : ∀ l, i ≤ l → l < i + k → ¬r.start < (f l).start := by
  induction k generalizing i with
  | zero => intro l h1 h2; omega
  | succ k ih =>
      simp only [claimSlot] at h
      split at h
      · cases h
      · rename_i hi
        intro l hl1 hl2
        by_cases hl : l = i
        · rwa [hl]
        · exact ih h l (by omega) (by omega)

/-- Insertion by position. -/
theorem insertStart_taken {f : Nat → Range} {r : Range} {n j : Nat} (hj : j ≤ n)
    (hlt : ∀ l < j, ¬r.start < (f l).start) (hge : j < n → r.start < (f j).start) :
    insertStart r (Buf.taken f n) =
      Buf.taken f j ++ r :: Buf.taken (fun i => f (j + i)) (n - j) := by
  induction j generalizing f n with
  | zero =>
      cases n with
      | zero => rfl
      | succ n =>
          have h0 := hge (by omega)
          rw [show n + 1 = 1 + n by omega, Buf.taken_add]
          simp only [Buf.taken_succ, Buf.taken_zero, List.nil_append, List.cons_append, insertStart]
          rw [if_pos h0]
          simp [Buf.taken, List.range_add, List.range_succ, Function.comp_def]
  | succ j ih =>
      obtain ⟨n, rfl⟩ : ∃ n', n = n' + 1 := ⟨n - 1, by omega⟩
      have h0 := hlt 0 (by omega)
      have hih := ih (f := fun i => f (1 + i)) (n := n) (by omega)
        (fun l hl => hlt (1 + l) (by omega)) (fun hl => by
          have := hge (by omega)
          rwa [Nat.add_comm 1 j])
      rw [show n + 1 = 1 + n by omega, show j + 1 = 1 + j by omega, Buf.taken_add, Buf.taken_add]
      simp only [Buf.taken_succ, Buf.taken_zero, List.nil_append, List.cons_append, insertStart]
      rw [if_neg h0, hih]
      simp only [Nat.add_assoc, Nat.add_sub_add_left]

/-- The loop stops at an entry if there is one that starts behind the range. -/
theorem claimSlot_isSome {f : Nat → Range} {r : Range} {k : Nat} :
    (claimSlot f r k 0).isSome ↔ ∃ c ∈ Buf.taken f k, r.start < c.start := by
  simp only [Buf.taken, List.mem_map, List.mem_range]
  cases h : claimSlot f r k 0 with
  | none =>
      have hnone := claimSlot_none h
      constructor
      · intro hsome
        cases hsome
      · rintro ⟨_, ⟨i, hi, rfl⟩, hlt⟩
        exact absurd hlt (hnone i (Nat.zero_le i) (by omega))
  | some i =>
      obtain ⟨-, hi, hlt, -⟩ := claimSlot_some h
      exact ⟨fun _ => ⟨_, ⟨i, by omega, rfl⟩, hlt⟩, fun _ => rfl⟩

section Claim

variable {s : MemoryMap} {r : Range} {force : Bool}

/-- The call is not refused. -/
def MemoryMap.Takes (s : MemoryMap) (force : Bool) : Prop :=
  s.range_count < ELF_MAX_SEGMENTS ∨ force = true

theorem MemoryMap.Takes.not_refused (h : s.Takes force) :
    ¬(ELF_MAX_SEGMENTS ≤ s.range_count ∧ force = false) := by
  rintro ⟨hle, hforce⟩
  obtain hlt | hforce' := h
  · omega
  · rw [hforce] at hforce'
    cases hforce'

theorem MemoryMap.refused_of_not_takes (h : ¬s.Takes force) :
    ELF_MAX_SEGMENTS ≤ s.range_count ∧ force = false := by
  unfold MemoryMap.Takes at h
  rwa [not_or, Nat.not_lt, Bool.not_eq_true] at h

theorem claim_space_refused (h : ¬s.Takes force) : claim_space s r force = .ok (false, s) :=
  if_pos (MemoryMap.refused_of_not_takes h)

/-- A claim behind all entries. -/
theorem claim_space_append (hok : s.Takes force) (hcount : s.range_count + 1 ≤ ELF_MAX_SEGMENTS + 2)
    (hslot : claimSlot s.entry r (s.range_count + 1) 0 = none) :
    claim_space s r force =
      .ok (true, .of (Function.update s.entry s.range_count r) (s.range_count + 1) hcount) := by
  unfold claim_space
  rw [if_neg hok.not_refused]
  simp only [dif_pos hcount, hslot, Nat.add_sub_cancel]

/-- A claim before entry `i`. -/
theorem claim_space_insert (hok : s.Takes force) (hcount : s.range_count + 1 < ELF_MAX_SEGMENTS + 2)
    {i : Nat} (hslot : claimSlot s.entry r (s.range_count + 1) 0 = some i) :
    claim_space s r force =
      .ok (true, .of (Function.update (fun j =>
        if i < j ∧ j ≤ s.range_count + 1 then s.entry (j - 1) else s.entry j) i r)
        (s.range_count + 1) (Nat.le_of_lt hcount)) := by
  unfold claim_space
  rw [if_neg hok.not_refused]
  simp only [dif_pos (Nat.le_of_lt hcount), hslot, if_pos hcount]

/-- A claim before an entry of a map that it fills. -/
theorem claim_space_overruns (hok : s.Takes force) (h : ¬s.Spares r.start) :
    claim_space s r force = .error (.memory_map (ELF_MAX_SEGMENTS + 2)) := by
  unfold MemoryMap.Spares at h
  push Not at h
  obtain ⟨hcount, i, hi, hlt⟩ := h
  have hsome : (claimSlot s.entry r (s.range_count + 1) 0).isSome := by
    rw [claimSlot_isSome, hcount]
    exact ⟨_, List.mem_map_of_mem (List.mem_range.mpr hi), hlt⟩
  obtain ⟨j, hslot⟩ := Option.isSome_iff_exists.mp hsome
  rw [hcount] at hslot
  unfold claim_space
  rw [if_neg hok.not_refused]
  simp only [hcount, dif_pos (Nat.le_refl _)]
  rw [hslot]
  exact if_neg (Nat.lt_irrefl _)

/-- The claims that come back. -/
theorem claim_space_ok {ok : Bool} {s' : MemoryMap} (h : claim_space s r force = .ok (ok, s')) :
    (¬s.Takes force ∧ ok = false ∧ s' = s) ∨
      (s.Takes force ∧ ok = true ∧ ∃ hcount : s.range_count + 1 ≤ ELF_MAX_SEGMENTS + 2,
        (claimSlot s.entry r (s.range_count + 1) 0 = none ∧
          s' = .of (Function.update s.entry s.range_count r) (s.range_count + 1) hcount) ∨
        (s.range_count + 1 < ELF_MAX_SEGMENTS + 2 ∧
          ∃ i, claimSlot s.entry r (s.range_count + 1) 0 = some i ∧
            s' = .of (Function.update (fun j =>
              if i < j ∧ j ≤ s.range_count + 1 then s.entry (j - 1) else s.entry j) i r)
              (s.range_count + 1) hcount)) := by
  by_cases hok : s.Takes force
  · unfold claim_space at h
    rw [if_neg hok.not_refused] at h
    dsimp only at h
    split at h
    · rename_i hcount
      split at h
      · rename_i i hslot
        split at h
        · rename_i hroom
          obtain ⟨rfl, rfl⟩ := Prod.mk.inj (Except.ok.inj h)
          exact .inr ⟨hok, rfl, hcount, .inr ⟨hroom, i, hslot, rfl⟩⟩
        · cases h
      · rename_i hslot
        obtain ⟨rfl, rfl⟩ := Prod.mk.inj (Except.ok.inj h)
        exact .inr ⟨hok, rfl, hcount, .inl ⟨hslot, rfl⟩⟩
    · cases h
  · rw [claim_space_refused hok] at h
    obtain ⟨rfl, rfl⟩ := Prod.mk.inj (Except.ok.inj h)
    exact .inl ⟨hok, rfl, rfl⟩

/-- A claim that is not refused and does not overrun the map inserts its range. -/
theorem claim_space_claimed (hcount : s.range_count < ELF_MAX_SEGMENTS + 2) (hok : s.Takes force)
    (hspares : s.Spares r.start) :
    ∃ s', claim_space s r force = .ok (true, s') ∧
      s'.claimed = insertStart r s.claimed ∧ s'.range_count = s.range_count + 1 := by
  cases hslot : claimSlot s.entry r (s.range_count + 1) 0 with
  | none =>
      refine ⟨_, claim_space_append hok hcount hslot, ?_, rfl⟩
      have hnone := claimSlot_none hslot
      have hins := insertStart_taken (f := s.entry) (r := r) (Nat.le_refl s.range_count)
        (fun l hl => hnone l (Nat.zero_le _) (by omega)) (fun h => by omega)
      rw [MemoryMap.claimed_of, MemoryMap.claimed, hins, Buf.taken_update]
      simp
  | some j =>
      obtain ⟨-, hj, hlt, hbefore⟩ := claimSlot_some hslot
      rw [Nat.zero_add] at hj
      have hroom : s.range_count + 1 < ELF_MAX_SEGMENTS + 2 := by
        by_contra hfull
        have := hspares (by omega) j (by omega)
        omega
      refine ⟨_, claim_space_insert hok hroom hslot, ?_, rfl⟩
      have hins := insertStart_taken (f := s.entry) (r := r) (j := j) (n := s.range_count)
        (by omega) (fun l hl => hbefore l (Nat.zero_le _) hl) (fun _ => hlt)
      rw [MemoryMap.claimed_of, MemoryMap.claimed]
      rw [hins, show s.range_count + 1 = j + (1 + (s.range_count - j)) by omega, Buf.taken_add,
        Buf.taken_add]
      congr 1
      · -- below the slot nothing moves
        refine List.map_congr_left fun l hl => ?_
        have hlj : l < j := List.mem_range.mp hl
        rw [Function.update_of_ne (by omega), if_neg (by omega)]
      · simp only [Buf.taken_succ, Buf.taken_zero, List.nil_append, List.cons_append, Nat.add_zero,
          Function.update_self, List.cons.injEq, true_and]
        -- above it every entry has moved up by one
        refine List.map_congr_left fun l hl => ?_
        have hlj : l < s.range_count - j := List.mem_range.mp hl
        rw [Function.update_of_ne (by omega), if_pos (by omega)]
        congr 1
        omega

end Claim

/-! ## Stale entries -/

/-- The ranges in use and the entry behind them, after a claim in a map that held `f` before the
first one. An insertion moves the stale entry up, a claim at the end takes its place. -/
def claimStale (f : Nat → Range) (acc : List Range × Range) (r : Range) : List Range × Range :=
  (insertStart r acc.1,
    if ∃ c ∈ acc.2 :: acc.1, r.start < c.start then acc.2 else f (acc.1.length + 1))

/-- The map holds these ranges and this stale entry, and `f` behind them. -/
structure MemoryMap.Lists (s : MemoryMap) (f : Nat → Range) (acc : List Range × Range) : Prop where
  claimed : s.claimed = acc.1
  stale : s.stale = acc.2
  behind : ∀ j, s.range_count < j → j < ELF_MAX_SEGMENTS + 2 → s.entry j = f j

theorem MemoryMap.lists_reset (s : MemoryMap) : s.reset.Lists s.entry ([], s.entry 0) :=
  ⟨rfl, rfl, fun _ _ _ => rfl⟩

section Lists

variable {s : MemoryMap} {f : Nat → Range} {acc : List Range × Range} {r : Range} {force : Bool}

theorem MemoryMap.Lists.length (h : s.Lists f acc) : acc.1.length = s.range_count := by
  rw [← h.claimed, MemoryMap.claimed, Buf.taken_length]

/-- The entries that the loop of `claim_space` looks at. -/
theorem MemoryMap.Lists.mem_looked (h : s.Lists f acc) {c : Range} :
    c ∈ Buf.taken s.entry (s.range_count + 1) ↔ c ∈ acc.2 :: acc.1 := by
  rw [Buf.taken_succ, ← h.claimed, ← h.stale, List.mem_append, List.mem_singleton, List.mem_cons]
  exact or_comm

/-- What a claim in a map that it does not fill leaves. -/
theorem MemoryMap.Lists.claim (h : s.Lists f acc) (hcount : s.range_count < ELF_MAX_SEGMENTS + 1)
    (hok : s.Takes force) :
    ∃ s', claim_space s r force = .ok (true, s') ∧ s'.Lists f (claimStale f acc r) ∧
      s'.range_count = s.range_count + 1 := by
  obtain ⟨s₁, hs₁, hclaimed, -⟩ := claim_space_claimed (r := r) (Nat.lt_succ_of_lt hcount) hok
    (.of_lt hcount)
  have hinserts : ∀ s', claim_space s r force = .ok (true, s') →
      s'.claimed = (claimStale f acc r).1 := by
    intro s' hs'
    rw [hs₁] at hs'
    obtain rfl := (Prod.mk.inj (Except.ok.inj hs')).2
    rw [hclaimed, h.claimed, claimStale]
  have hlooked : (claimSlot s.entry r (s.range_count + 1) 0).isSome ↔
      ∃ c ∈ acc.2 :: acc.1, r.start < c.start := by
    simp only [claimSlot_isSome, h.mem_looked]
  have hlen := h.length
  cases hslot : claimSlot s.entry r (s.range_count + 1) 0 with
  | none =>
      have hclaim := claim_space_append hok (Nat.le_of_lt (Nat.succ_lt_succ hcount)) hslot
      have hnot : ¬∃ c ∈ acc.2 :: acc.1, r.start < c.start := by
        rw [← hlooked, hslot]
        exact Bool.false_ne_true
      refine ⟨_, hclaim, ⟨hinserts _ hclaim, ?_, fun j hj hlt => ?_⟩, rfl⟩
      · rw [MemoryMap.stale, MemoryMap.of_range_count, MemoryMap.entry_of _ (by omega),
          Function.update_of_ne (by omega), claimStale, if_neg hnot, hlen]
        exact h.behind _ (by omega) (by omega)
      · rw [MemoryMap.of_range_count] at hj
        rw [MemoryMap.entry_of _ hlt, Function.update_of_ne (by omega)]
        exact h.behind j (by omega) hlt
  | some i =>
      have hi := (claimSlot_some hslot).2.1
      have hclaim := claim_space_insert hok (Nat.succ_lt_succ hcount) hslot
      have hsome : ∃ c ∈ acc.2 :: acc.1, r.start < c.start := by
        rw [← hlooked, hslot]
        rfl
      refine ⟨_, hclaim, ⟨hinserts _ hclaim, ?_, fun j hj hlt => ?_⟩, rfl⟩
      · -- the entry behind the ranges has moved up with the others
        rw [MemoryMap.stale, MemoryMap.of_range_count, MemoryMap.entry_of _ (by omega),
          Function.update_of_ne (by omega), if_pos (by omega), claimStale, if_pos hsome]
        exact h.stale
      · rw [MemoryMap.of_range_count] at hj
        rw [MemoryMap.entry_of _ hlt, Function.update_of_ne (by omega), if_neg (by omega)]
        exact h.behind j (by omega) hlt

/-- The room for a claim that fills the map. -/
theorem MemoryMap.Lists.spares_iff (h : s.Lists f acc) {start : Nat} :
    s.Spares start ↔
      (acc.1.length = ELF_MAX_SEGMENTS + 1 → ∀ c ∈ acc.2 :: acc.1, c.start ≤ start) := by
  unfold MemoryMap.Spares
  rw [h.length]
  refine imp_congr_right fun hcount => ?_
  simp only [← h.mem_looked, hcount, Buf.taken, List.mem_map, List.mem_range]
  constructor
  · rintro hall _ ⟨i, hi, rfl⟩
    exact hall i hi
  · exact fun hall i hi => hall _ ⟨i, hi, rfl⟩

end Lists

/-! ## Segments -/

/-- The ranges the map holds after the segments `ranges` have been claimed:
the first sixteen. -/
def claims (ranges : List Range) : List Range :=
  (ranges.take ELF_MAX_SEGMENTS).foldl (fun C r => insertStart r C) []

/-- The memory of a segment. -/
def Elf32_Phdr.range (phdr : Elf32_Phdr) : Range := ⟨phdr.p_vaddr, phdr.p_vaddr + phdr.p_memsz⟩

/-- The range that is claimed for it. -/
def Elf32_Phdr.claim (phdr : Elf32_Phdr) : Range :=
  ⟨phdr.p_vaddr, add32 phdr.p_vaddr phdr.p_memsz⟩

theorem Elf32_Phdr.claim_eq {phdr : Elf32_Phdr} (h : phdr.p_vaddr + phdr.p_memsz < 2 ^ 32) :
    phdr.claim = phdr.range := by
  rw [Elf32_Phdr.claim, add32_eq h, Elf32_Phdr.range]

theorem claimSegments_cons (s : MemoryMap) (phdr : Elf32_Phdr) (segments : List Elf32_Phdr) :
    claimSegments s (phdr :: segments) =
      (claim_space s phdr.claim false).map (·.2) >>= fun s => claimSegments s segments := rfl

/-- The segments are claimed in turn, until the map is full; the loop never fails. -/
theorem claimSegments_lists {s : MemoryMap} {f : Nat → Range} {acc : List Range × Range}
    (segments : List Elf32_Phdr) (hcount : s.range_count ≤ ELF_MAX_SEGMENTS) (hs : s.Lists f acc) :
    ∃ s', claimSegments s segments = .ok s' ∧
      s'.range_count = min ELF_MAX_SEGMENTS (s.range_count + segments.length) ∧
      s'.Lists f (((segments.map Elf32_Phdr.claim).take (ELF_MAX_SEGMENTS - s.range_count)).foldl
        (claimStale f) acc) := by
  induction segments generalizing s acc with
  | nil => exact ⟨s, rfl, by simpa using hcount, by simpa using hs⟩
  | cons phdr segments ih =>
      by_cases hroom : s.range_count < ELF_MAX_SEGMENTS
      · obtain ⟨s₁, hs₁, hlists, hn⟩ := hs.claim (r := phdr.claim) (Nat.lt_succ_of_lt hroom)
          (.inl hroom : s.Takes false)
        obtain ⟨s', hs', hcount', hlists'⟩ := ih (by omega) hlists
        refine ⟨s', ?_, ?_, ?_⟩
        · rw [claimSegments_cons, hs₁]
          exact hs'
        · rw [hcount', hn, List.length_cons]
          omega
        · rw [hn] at hlists'
          rw [show ELF_MAX_SEGMENTS - s.range_count =
            ELF_MAX_SEGMENTS - (s.range_count + 1) + 1 by omega]
          simpa using hlists'
      · -- the map is full: the claim is refused, and the refusal ignored
        obtain ⟨s', hs', hcount', hlists'⟩ := ih hcount hs
        have hfull : claim_space s phdr.claim false = .ok (false, s) :=
          claim_space_refused fun h => h.elim hroom Bool.false_ne_true
        have hzero : ELF_MAX_SEGMENTS - s.range_count = 0 := by omega
        refine ⟨s', ?_, ?_, ?_⟩
        · rw [claimSegments_cons, hfull]
          exact hs'
        · rw [hcount', List.length_cons]
          omega
        · rw [hzero] at hlists' ⊢
          simpa using hlists'

/-- The ranges alone. -/
theorem foldl_claimStale_fst (f : Nat → Range) (ranges : List Range) (acc : List Range × Range) :
    (ranges.foldl (claimStale f) acc).1 = ranges.foldl (fun C r => insertStart r C) acc.1 := by
  induction ranges generalizing acc with
  | nil => rfl
  | cons r ranges ih => exact ih (claimStale f acc r)

/-- What `load_elf_image` has in the map after its first loop, if no segment wraps. -/
theorem claimSegments_reset {s : MemoryMap} {segments : List Elf32_Phdr}
    (hwrap : ∀ phdr ∈ segments, phdr.p_vaddr + phdr.p_memsz < 2 ^ 32) :
    ∃ s', claimSegments s.reset segments = .ok s' ∧
      s'.range_count = min ELF_MAX_SEGMENTS segments.length ∧
      s'.claimed = claims (segments.map Elf32_Phdr.range) ∧
      s'.Lists s.entry (((segments.map Elf32_Phdr.range).take ELF_MAX_SEGMENTS).foldl
        (claimStale s.entry) ([], s.entry 0)) := by
  obtain ⟨s', hs', hcount, hlists⟩ := claimSegments_lists segments (Nat.zero_le _) s.lists_reset
  have hmap : segments.map Elf32_Phdr.claim = segments.map Elf32_Phdr.range :=
    List.map_congr_left fun phdr hphdr => Elf32_Phdr.claim_eq (hwrap phdr hphdr)
  rw [hmap] at hlists
  refine ⟨s', hs', by simpa using hcount, ?_, hlists⟩
  rw [hlists.claimed, foldl_claimStale_fst]
  rfl

/-! ## Allocations -/

/-- The last test of `allocate_space`, with the subtraction that may wrap. -/
def lastFits (size hi p : Nat) : Bool := decide (size ≤ sub32 hi p)

/-- As long as sums do not wrap, the loop of `allocate_space` is a first-fit search. -/
theorem allocateLoop_eq_search {f : Nat → Range} {size hi lo : Nat} {k i p : Nat}
    (hp : p + size < 2 ^ 32) (hf : ∀ j, i ≤ j → j < i + k → (f j).end_ + size < 2 ^ 32) :
    allocateLoop f size ⟨lo, hi⟩ k i p =
      search size hi (lastFits size hi) (Buf.taken (fun j => f (i + j)) k) p := by
  induction k generalizing i p with
  | zero => simp [allocateLoop, search, lastFits]
  | succ k ih =>
      have hhead : Buf.taken (fun j => f (i + j)) (k + 1) =
          f i :: Buf.taken (fun j => f (i + 1 + j)) k := by
        rw [Nat.add_comm k 1, Buf.taken_add]
        simp [Buf.taken_succ, Nat.add_assoc]
      have hf' : ∀ j, i + 1 ≤ j → j < i + 1 + k → (f j).end_ + size < 2 ^ 32 :=
        fun j h1 h2 => hf j (by omega) (by omega)
      rw [hhead]
      simp only [allocateLoop, search, add32_eq hp]
      split
      · exact ih hp hf'
      · split
        · rfl
        · split
          · rfl
          · exact ih (hf i (Nat.le_refl _) (by omega)) hf'

/-- More bytes than the window has are never found, even if sums wrap. -/
theorem allocateLoop_large {f : Nat → Range} {size hi lo : Nat} {k i p : Nat} (hsize : hi < size)
    (hp : p ≤ hi) (hhi : hi < 2 ^ 32)
    (hf : ∀ j, i ≤ j → j < i + k → (f j).start ≤ hi ∧ (f j).end_ ≤ hi) :
    allocateLoop f size ⟨lo, hi⟩ k i p = none := by
  induction k generalizing i p with
  | zero =>
      simp only [allocateLoop]
      rw [sub32_eq hp hhi, if_neg (by omega)]
  | succ k ih =>
      have hi' := hf i (Nat.le_refl _) (by omega)
      have hf' : ∀ j, i + 1 ≤ j → j < i + 1 + k → (f j).start ≤ hi ∧ (f j).end_ ≤ hi :=
        fun j h1 h2 => hf j (by omega) (by omega)
      simp only [allocateLoop]
      split
      · exact ih hp hf'
      · split
        · rfl
        · rw [if_neg (by omega)]
          exact ih hi'.2 hf'

/-- All ranges of the map end at or below `hi`. -/
def MemoryMap.EndsBelow (s : MemoryMap) (hi : Nat) : Prop := ∀ r ∈ s.claimed, r.end_ ≤ hi

theorem MemoryMap.mem_claimed {s : MemoryMap} {j : Nat} (hj : j < s.range_count) :
    s.entry j ∈ s.claimed := by
  simp only [claimed, Buf.taken, List.mem_map, List.mem_range]
  exact ⟨j, hj, rfl⟩

/-- The lowest place never lies above all ranges. -/
theorem MemoryMap.EndsBelow.lowest_le {s : MemoryMap} {n lo hi p : Nat} (hs : s.EndsBelow hi)
    (h : Lowest s.claimed n lo p) (hlo : lo ≤ hi) : p ≤ hi :=
  h.le_of_clear hlo fun r hr _ => .inl (hs r hr)

section Allocate

variable {s : MemoryMap} {size lo hi : Nat}

theorem allocateLoop_eq (hlo : lo + size < 2 ^ 32) (hend : s.EndsBelow DRAM_LIMIT)
    (hsize : size ≤ DRAM_LIMIT) :
    allocateLoop s.entry size ⟨lo, hi⟩ s.range_count 0 lo =
      search size hi (lastFits size hi) s.claimed lo := by
  rw [allocateLoop_eq_search hlo fun j _ hj => ?_]
  · simp [MemoryMap.claimed]
  · have := hend _ (MemoryMap.mem_claimed (s := s) (j := j) (by omega))
    have hD : DRAM_LIMIT = 0x20000000 := rfl
    omega

/-- What an allocation does with the place the search found. -/
theorem allocate_space_some {allowed : Range} {force : Bool} {p : Nat} (hsize : size ≠ 0)
    (h : allocateLoop s.entry size allowed s.range_count 0 allowed.start = some p) :
    allocate_space s size allowed force = claim_space s ⟨p, add32 p size⟩ force >>=
      fun claimed => pure (if claimed.1 then p else UINTPTR_MAX, claimed.2) := by
  unfold allocate_space
  rw [if_neg hsize]
  simp only [h]

theorem allocate_space_none {allowed : Range} {force : Bool} (hsize : size ≠ 0)
    (h : allocateLoop s.entry size allowed s.range_count 0 allowed.start = none) :
    allocate_space s size allowed force = .ok (UINTPTR_MAX, s) := by
  unfold allocate_space
  rw [if_neg hsize]
  simp only [h]

/-- A place found and claimed. -/
theorem allocate_space_claimed {allowed : Range} {force : Bool} {p : Nat} (hsize : size ≠ 0)
    (h : allocateLoop s.entry size allowed s.range_count 0 allowed.start = some p)
    {s' : MemoryMap} (hs' : claim_space s ⟨p, add32 p size⟩ force = .ok (true, s')) :
    allocate_space s size allowed force = .ok (p, s') := by
  rw [allocate_space_some hsize h, hs']
  rfl

/-- A place found, the claim of which fills the map by an insertion. -/
theorem allocate_space_overruns {allowed : Range} {force : Bool} {p : Nat} (hsize : size ≠ 0)
    (h : allocateLoop s.entry size allowed s.range_count 0 allowed.start = some p)
    (hok : s.Takes force) (hspares : ¬s.Spares p) :
    allocate_space s size allowed force = .error (.memory_map (ELF_MAX_SEGMENTS + 2)) := by
  rw [allocate_space_some hsize h, claim_space_overruns hok hspares]
  rfl

/-- The search of a window that no range leaves: it finds the lowest free place, in the window. -/
theorem allocateLoop_window (hC : Sorted s.claimed) (hend : s.EndsBelow DRAM_LIMIT)
    (hlo : lo ≤ DRAM_LIMIT) {p : Nat}
    (h : allocateLoop s.entry size ⟨lo, DRAM_LIMIT⟩ s.range_count 0 lo = some p) :
    Lowest s.claimed size lo p ∧ p + size ≤ DRAM_LIMIT := by
  have hD : DRAM_LIMIT = 0x20000000 := rfl
  have hle : size ≤ DRAM_LIMIT := by
    by_contra hlarge
    rw [allocateLoop_large (by omega) hlo (by omega) fun j _ hj => ?_] at h
    · cases h
    · have hmem := MemoryMap.mem_claimed (s := s) (j := j) (by omega)
      exact ⟨Nat.le_trans (hC.proper _ hmem) (hend _ hmem), hend _ hmem⟩
  rw [allocateLoop_eq (by omega) hend hle] at h
  exact (search_iff_of_last hC fun p hp => by
    have hpD := hend.lowest_le hp hlo
    simp only [lastFits, decide_eq_true_eq, sub32_eq hpD (show DRAM_LIMIT < 2 ^ 32 by omega)]
    omega).mp h

/-- An allocation in a window at the bottom of memory, which ranges may leave:
it can also return a place beyond the window. -/
theorem allocateLoop_bottom (hC : Sorted s.claimed) (hend : s.EndsBelow DRAM_LIMIT)
    (hsize : size < DRAM_LIMIT) (hhi : hi ≤ DRAM_LIMIT) {p : Nat} :
    allocateLoop s.entry size ⟨0, hi⟩ s.range_count 0 0 = some p ↔
      Lowest s.claimed size 0 p ∧ (p + size ≤ hi ∨ Overrun s.claimed size hi p) := by
  have hD : DRAM_LIMIT = 0x20000000 := rfl
  rw [allocateLoop_eq (by omega) hend (by omega)]
  refine search_iff_overrun hC fun q hq => ?_
  have hqD := hend.lowest_le hq (Nat.zero_le _)
  simp only [lastFits, decide_eq_true_eq]
  by_cases hle : q ≤ hi
  · rw [sub32_eq hle (by omega)]
    omega
  · rw [sub32_of_lt (by omega)]
    omega

end Allocate

/-! ## The two places -/

/-- Where the boot stub goes: the lowest free place, if that lies below the
loader or the search for it overruns; else the lowest one above the loader,
in view of the ranges that start there. -/
def BootSpot (L : Linked) (C : List Range) (size p : Nat) : Prop :=
  Lowest C size 0 p ∧ (p + size ≤ L.prog_start ∨ Overrun C size L.prog_start p) ∨
    (∀ q, Lowest C size 0 q → ¬(q + size ≤ L.prog_start ∨ Overrun C size L.prog_start q)) ∧
      Lowest C size L.prog_end p

theorem BootSpot.unique {L : Linked} {C : List Range} {size p q : Nat} (hp : BootSpot L C size p)
    (hq : BootSpot L C size q) : p = q := by
  obtain ⟨hp, hp'⟩ | ⟨hp, hp'⟩ := hp
  · obtain ⟨hq, -⟩ | ⟨hq, -⟩ := hq
    · exact hp.unique hq
    · exact absurd hp' (hq p hp)
  · obtain ⟨hq, hq''⟩ | ⟨-, hq⟩ := hq
    · exact absurd hq'' (hp q hq)
    · exact hp'.unique hq

/-- The stub goes to its spot, unless the claim of it overruns the map, or there is no spot. -/
theorem allocateBoot_cases {L : Linked} {s : MemoryMap} {size : Nat} (hC : Sorted s.claimed)
    (hend : s.EndsBelow DRAM_LIMIT) (hcount : s.range_count < ELF_MAX_SEGMENTS + 2) (hsize : size ≠ 0)
    (hsz : size < DRAM_LIMIT) :
    allocateBoot L s size DRAM_LIMIT = .ok (UINTPTR_MAX, s) ∨
      ∃ p, BootSpot L s.claimed size p ∧ p ≠ UINTPTR_MAX ∧
        ((s.Spares p ∧ ∃ s', allocateBoot L s size DRAM_LIMIT = .ok (p, s')) ∨
          (¬s.Spares p ∧ allocateBoot L s size DRAM_LIMIT =
            .error (.memory_map (ELF_MAX_SEGMENTS + 2)))) := by
  have hD : DRAM_LIMIT = 0x20000000 := rfl
  have hmax : UINTPTR_MAX = 2 ^ 32 - 1 := rfl
  have hf := L.prog_fits
  have hpl := L.prog_nonempty
  have hforced : s.Takes true := .inr rfl
  have hbottom : ∀ q, allocateLoop s.entry size ⟨0, L.prog_start⟩ s.range_count 0 0 = some q ↔
      Lowest s.claimed size 0 q ∧ (q + size ≤ L.prog_start ∨ Overrun s.claimed size L.prog_start q) :=
    fun q => allocateLoop_bottom hC hend hsz (by omega)
  cases hl : allocateLoop s.entry size ⟨0, L.prog_start⟩ s.range_count 0 0 with
  | some q =>
      -- a place for the first attempt
      obtain ⟨hlow, hwin⟩ := (hbottom q).mp hl
      have hqD := hend.lowest_le hlow (Nat.zero_le _)
      have hq : q ≠ UINTPTR_MAX := by omega
      refine .inr ⟨q, .inl ⟨hlow, hwin⟩, hq, ?_⟩
      by_cases hspares : s.Spares q
      · obtain ⟨s', hs', -, -⟩ :=
          claim_space_claimed (r := ⟨q, add32 q size⟩) hcount hforced hspares
        refine .inl ⟨hspares, s', ?_⟩
        rw [allocateBoot, allocate_space_claimed hsize hl hs', ok_bind, if_neg hq]
        rfl
      · refine .inr ⟨hspares, ?_⟩
        rw [allocateBoot, allocate_space_overruns hsize hl hforced hspares]
        rfl
  | none =>
      have hboot : allocateBoot L s size DRAM_LIMIT =
          allocate_space s size ⟨L.prog_end, DRAM_LIMIT⟩ true := by
        rw [allocateBoot, allocate_space_none hsize hl]
        rfl
      rw [hboot]
      cases hh : allocateLoop s.entry size ⟨L.prog_end, DRAM_LIMIT⟩ s.range_count 0 L.prog_end with
      | none => exact .inl (allocate_space_none hsize hh)
      | some q =>
          obtain ⟨hlow, hfits⟩ := allocateLoop_window hC hend (by omega) hh
          refine .inr ⟨q, .inr ⟨fun p hp hp' => ?_, hlow⟩, by omega, ?_⟩
          · have := (hbottom p).mpr ⟨hp, hp'⟩
            rw [hl] at this
            cases this
          · by_cases hspares : s.Spares q
            · obtain ⟨s', hs', -, -⟩ :=
                claim_space_claimed (r := ⟨q, add32 q size⟩) hcount hforced hspares
              exact .inl ⟨hspares, s', allocate_space_claimed hsize hh hs'⟩
            · exact .inr ⟨hspares, allocate_space_overruns hsize hh hforced hspares⟩

/-- The loadable segments of the image at `img_start`. -/
def loadSegments (m : Memory) (img_start : Nat) : List Elf32_Phdr :=
  (phdrs m img_start (Elf32_Ehdr.at m img_start)).filter (·.p_type = PT_LOAD)

/-- The memory map of a segment list that claims nothing twice. -/
theorem claims_sorted {ranges : List Range} (hapart : ranges.Pairwise Apart)
    (hproper : ∀ r ∈ ranges, r.start ≤ r.end_) :
    Sorted (claims ranges) ∧ ∀ r ∈ claims ranges, r ∈ ranges.take ELF_MAX_SEGMENTS := by
  have hfold : ∀ (rs C : List Range), Sorted C → rs.Pairwise Apart →
      (∀ r ∈ rs, r.start ≤ r.end_) → (∀ r ∈ rs, ∀ c ∈ C, Apart r c) →
      Sorted (rs.foldl (fun C r => insertStart r C) C) ∧
        ∀ x ∈ rs.foldl (fun C r => insertStart r C) C, x ∈ rs ∨ x ∈ C := by
    intro rs
    induction rs with
    | nil => intro C hC _ _ _; exact ⟨hC, fun x hx => .inr hx⟩
    | cons r rs ih =>
        intro C hC hap hpr hac
        obtain ⟨hr, hap⟩ := List.pairwise_cons.mp hap
        obtain ⟨hpr0, hpr⟩ := List.forall_mem_cons.mp hpr
        obtain ⟨hac0, hac⟩ := List.forall_mem_cons.mp hac
        obtain ⟨hS, hmem⟩ := ih (insertStart r C) (hC.insertStart hpr0 hac0) hap hpr
          (fun x hx c hc => by
            obtain rfl | hc := mem_insertStart.mp hc
            · intro a
              have := hr x hx a
              omega
            · exact hac x hx c hc)
        refine ⟨hS, fun x hx => ?_⟩
        obtain hx | hx := hmem x hx
        · exact .inl (by simp [hx])
        · obtain rfl | hx := mem_insertStart.mp hx
          · exact .inl (by simp)
          · exact .inr hx
  have hsub : (ranges.take ELF_MAX_SEGMENTS).Sublist ranges := List.take_sublist _ _
  obtain ⟨h1, h2⟩ := hfold (ranges.take ELF_MAX_SEGMENTS) []
    ⟨List.Pairwise.nil, List.Pairwise.nil, by simp⟩ (hapart.sublist hsub)
    (fun r hr => hproper r (hsub.subset hr)) (by simp)
  exact ⟨h1, fun r hr => by simpa using h2 r hr⟩

theorem mem_claims {ranges : List Range} {r : Range} (hr : r ∈ ranges.take ELF_MAX_SEGMENTS) :
    r ∈ claims ranges := by
  have hfold : ∀ (rs C : List Range), r ∈ rs ∨ r ∈ C →
      r ∈ rs.foldl (fun C r => insertStart r C) C := by
    intro rs
    induction rs with
    | nil => intro C h; simpa using h
    | cons r' rs ih =>
        intro C h
        refine ih _ ?_
        obtain h | h := h
        · obtain rfl | h := List.mem_cons.mp h
          · exact .inr (mem_insertStart.mpr (.inl rfl))
          · exact .inl h
        · exact .inr (mem_insertStart.mpr (.inr h))
  exact hfold _ _ (.inl hr)

/-- `n` cells clear of a range share none with it. -/
theorem apart_of_clear {n p : Nat} {r : Range} (h : Clear n p r) : Apart ⟨p, p + n⟩ r := by
  intro a ⟨h1, h2, h3, h4⟩
  simp only at h1 h2
  unfold Clear at h
  omega

theorem Linked.stub_pos (L : Linked) : L.elf_trampoline.length ≠ 0 := by
  have := L.params_last
  omega

/-- The steps of a `load_elf_image` that returns true. -/
theorem planElfImage_true {L : Linked} {m : Memory} {s s' : ElfLoader} {img_start img_end : Nat}
    {elf32_p elfle_p : Bool} {machine mem_hi : Nat} {cmdline : List UInt8} {p : Placement}
    (h : planElfImage L m s img_start img_end elf32_p elfle_p machine mem_hi cmdline =
      .ok (some p, s')) :
    ∃ map map₁ ops, claimSegments s.map.reset (loadSegments m img_start) = .ok map ∧
      allocate_space map (sub32 img_end img_start) ⟨0, mem_hi⟩ true = .ok (p.elf_alloc, map₁) ∧
      p.elf_alloc ≠ UINTPTR_MAX ∧
      registerOps { s.ops with op_count := 0 }
        ((loadSegments m img_start).flatMap (segmentOps p.elf_alloc)) = (true, ops) ∧
      allocateBoot L map₁ (L.elf_trampoline.length + cmdline.length) mem_hi =
        .ok (p.boot_alloc, s'.map) ∧
      p.boot_alloc ≠ UINTPTR_MAX ∧ s'.ops = ops ∧ p.elf_size = sub32 img_end img_start ∧
      p.boot_size = L.elf_trampoline.length + cmdline.length := by
  unfold planElfImage at h
  simp only at h
  split at h
  · cases h
  obtain ⟨map, hmap, h⟩ := bind_eq_ok.mp h
  obtain ⟨⟨e, map₁⟩, helf, h⟩ := bind_eq_ok.mp h
  simp only at h
  split at h
  · cases h
  rename_i hne
  split at h
  · cases h
  rename_i hops
  obtain ⟨⟨b, map₂⟩, hboot, h⟩ := bind_eq_ok.mp h
  simp only at h
  split at h
  · cases h
  rename_i hbne
  cases h
  refine ⟨map, map₁, _, hmap, helf, hne, ?_, hboot, hbne, rfl, rfl, rfl⟩
  exact Prod.ext (Bool.eq_true_of_not_eq_false hops) rfl

/-- The entry behind the ranges of a map that held `f`, after these have been claimed. -/
def staleEntry (f : Nat → Range) (ranges : List Range) : Range :=
  (ranges.foldl (claimStale f) ([], f 0)).2

/-- The claim of a stub at `boot_alloc` stays in the map: with sixteen segments and the file in it
the stub has to come last, the stale last entry included. -/
def StubFits (f : Nat → Range) (ranges : List Range) (elf : Range) (boot_alloc : Nat) : Prop :=
  ELF_MAX_SEGMENTS ≤ ranges.length →
    ∀ c ∈ staleEntry f (ranges.take ELF_MAX_SEGMENTS ++ [elf]) :: insertStart elf (claims ranges),
      c.start ≤ boot_alloc

/-- The map once the file is in it as well. -/
theorem MemoryMap.claim_file {map : MemoryMap} {f : Nat → Range} {ranges : List Range} (elf : Range)
    (hcount : map.range_count = min ELF_MAX_SEGMENTS ranges.length)
    (hlists : map.Lists f ((ranges.take ELF_MAX_SEGMENTS).foldl (claimStale f) ([], f 0))) :
    ∃ map₁, claim_space map elf true = .ok (true, map₁) ∧
      map₁.claimed = insertStart elf (claims ranges) ∧ map₁.range_count < ELF_MAX_SEGMENTS + 2 ∧
      ∀ b, map₁.Spares b ↔ StubFits f ranges elf b := by
  obtain ⟨map₁, hclaim, hlists₁, hcount₁⟩ :=
    hlists.claim (r := elf) (by omega) (.inr (Eq.refl true))
  have hclaimed₁ : map₁.claimed = insertStart elf (claims ranges) := by
    rw [hlists₁.claimed]
    exact congrArg (insertStart elf) (foldl_claimStale_fst f _ _)
  refine ⟨map₁, hclaim, hclaimed₁, by omega, fun b => ?_⟩
  have hstale : staleEntry f (ranges.take ELF_MAX_SEGMENTS ++ [elf]) =
      (claimStale f ((ranges.take ELF_MAX_SEGMENTS).foldl (claimStale f) ([], f 0)) elf).2 := by
    rw [staleEntry, List.foldl_append]
    rfl
  have hlen : map₁.range_count = ELF_MAX_SEGMENTS + 1 ↔ ELF_MAX_SEGMENTS ≤ ranges.length := by
    omega
  rw [hlists₁.spares_iff, hlists₁.length, hlen, StubFits, hstale, ← hclaimed₁, hlists₁.claimed]

/-- What `load_elf_image` does with segments that keep apart. Unless it returns false, the file gets
the lowest place clear of the claimed ranges and the stub its spot in view of these and the file. -/
theorem planElfImage_cases {L : Linked} {m : Memory} {s : ElfLoader} {img_start img_end : Nat}
    (hapart : ((loadSegments m img_start).map Elf32_Phdr.range).Pairwise Apart)
    (hbelow : ∀ phdr ∈ loadSegments m img_start, phdr.p_vaddr + phdr.p_memsz ≤ DRAM_LIMIT)
    (hsize : sub32 img_end img_start ≠ 0) :
    let plan := planElfImage L m s img_start img_end true true EM_ARM DRAM_LIMIT []
    let ranges := (loadSegments m img_start).map Elf32_Phdr.range
    let size := sub32 img_end img_start
    (∃ s', plan = .ok (none, s')) ∨
      ∃ e b, Lowest (claims ranges) size 0 e ∧ e + size ≤ DRAM_LIMIT ∧
        BootSpot L (insertStart ⟨e, e + size⟩ (claims ranges)) L.elf_trampoline.length b ∧
        ((StubFits s.map.entry ranges ⟨e, e + size⟩ b ∧
            ∃ s', plan = .ok (some ⟨e, size, b, L.elf_trampoline.length⟩, s')) ∨
          (¬StubFits s.map.entry ranges ⟨e, e + size⟩ b ∧
            plan = .error (.memory_map (ELF_MAX_SEGMENTS + 2)))) := by
  intro plan ranges size
  have hD : DRAM_LIMIT = 0x20000000 := rfl
  have hmax : UINTPTR_MAX = 2 ^ 32 - 1 := rfl
  obtain ⟨hC, hCmem⟩ := claims_sorted hapart (by simp [Elf32_Phdr.range])
  have hCend : ∀ r ∈ claims ranges, r.end_ ≤ DRAM_LIMIT := by
    intro r hr
    obtain ⟨phdr, hphdr, rfl⟩ := List.mem_map.mp (List.mem_of_mem_take (hCmem r hr))
    exact hbelow phdr hphdr
  -- the claims
  obtain ⟨map, hmap, hcount, hclaimed, hlists⟩ := @claimSegments_reset s.map (loadSegments m img_start)
    (fun phdr hphdr => by have := hbelow phdr hphdr; omega)
  have hplan : plan = planElfImage L m s img_start img_end true true EM_ARM DRAM_LIMIT [] := rfl
  unfold planElfImage at hplan
  simp only at hplan
  split at hplan
  · exact .inl ⟨s, hplan⟩
  change plan = claimSegments s.map.reset (loadSegments m img_start) >>= _ at hplan
  rw [hmap, ok_bind] at hplan
  -- the place of the file
  cases hloop : allocateLoop map.entry size ⟨0, DRAM_LIMIT⟩ map.range_count 0 0 with
  | none =>
      rw [allocate_space_none hsize hloop, ok_bind] at hplan
      exact .inl ⟨_, hplan⟩
  | some e =>
      obtain ⟨hlow, hfits⟩ := allocateLoop_window (hclaimed ▸ hC)
        (fun r hr => hCend r (hclaimed ▸ hr)) (Nat.zero_le _) hloop
      obtain ⟨map₁, hclaim, hclaimed₁, hroom, hstub⟩ :=
        MemoryMap.claim_file ⟨e, add32 e size⟩ (by rwa [List.length_map]) hlists
      rw [allocate_space_claimed hsize hloop hclaim, ok_bind] at hplan
      rw [add32_eq (by omega)] at hclaimed₁ hstub
      simp only at hplan
      rw [if_neg (by omega)] at hplan
      split at hplan
      · exact .inl ⟨_, hplan⟩
      -- the place of the stub
      rw [hclaimed] at hlow
      have hS : Sorted map₁.claimed := by
        rw [hclaimed₁]
        exact hC.insertStart (Nat.le_add_right _ _)
          fun r hr => apart_of_clear (hlow.clear r hr (Nat.zero_le _))
      have hE : map₁.EndsBelow DRAM_LIMIT := by
        intro r hr
        rw [hclaimed₁] at hr
        obtain rfl | hr := mem_insertStart.mp hr
        · exact hfits
        · exact hCend r hr
      obtain hnone | ⟨b, hspot, hb, hboot⟩ :=
        allocateBoot_cases (L := L) hS hE hroom L.stub_pos L.stub_fits
      · change plan = allocateBoot L map₁ L.elf_trampoline.length DRAM_LIMIT >>= _ at hplan
        rw [hnone, ok_bind] at hplan
        exact .inl ⟨_, hplan⟩
      · refine .inr ⟨e, b, hlow, hfits, hclaimed₁ ▸ hspot, ?_⟩
        change plan = allocateBoot L map₁ L.elf_trampoline.length DRAM_LIMIT >>= _ at hplan
        obtain ⟨hspares, s', hs'⟩ | ⟨hspares, hs'⟩ := hboot
        · rw [hs', ok_bind] at hplan
          simp only at hplan
          rw [if_neg hb] at hplan
          exact .inl ⟨(hstub b).mp hspares, _, hplan⟩
        · rw [hs', error_bind] at hplan
          exact .inr ⟨fun hfits => hspares ((hstub b).mpr hfits), hplan⟩

end Bcm2835.Pup

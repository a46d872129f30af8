import Bcm2835.Lib.TSys
import Bcm2835.Pup.ElfSpec

/-!
# Runs of `claim_space`

The map has room for sixteen segments and two more ranges. Over any sequence of claims
it stays the sorted list of the ranges claimed, whatever an earlier upload has left
behind `range_count`. The `memmove` that makes room moves one entry too many, the
unused one at the end: in a map that becomes full it writes behind the array, and what
is there is lost.
-/

namespace Bcm2835.Pup

open FirstFit

/-! ## The entries a call touches -/

/-- The entries of `memory_map` that `claim_space` reads: by its loop, and by the `memmove`. -/
def claim_space_reads (s : MemoryMap) (r : Range) (force : Bool) : List Nat :=
  if ELF_MAX_SEGMENTS ≤ s.range_count ∧ force = false then []
  else if s.range_count + 1 ≤ ELF_MAX_SEGMENTS + 2 then
    match claimSlot s.entry r (s.range_count + 1) 0 with
    | some i => List.range (i + 1) ++ List.range' i (s.range_count + 1 - i)
    | none => List.range (s.range_count + 1)
  else []

/-- The entries that it writes: by the `memmove`, and for the new range. -/
def claim_space_writes (s : MemoryMap) (r : Range) (force : Bool) : List Nat :=
  if ELF_MAX_SEGMENTS ≤ s.range_count ∧ force = false then []
  else if s.range_count + 1 ≤ ELF_MAX_SEGMENTS + 2 then
    match claimSlot s.entry r (s.range_count + 1) 0 with
    | some i => List.range' (i + 1) (s.range_count + 1 - i) ++ [i]
    | none => [s.range_count]
  else []

variable {s t s' : MemoryMap} {r : Range} {force ok : Bool}

/-- Entries that are not written keep their value. -/
theorem claim_space_frame (h : claim_space s r force = .ok (ok, s')) {j : Nat}
    (hj : j ∉ claim_space_writes s r force) (hlt : j < ELF_MAX_SEGMENTS + 2) :
    s'.entry j = s.entry j := by
  unfold claim_space_writes at hj
  obtain ⟨-, -, rfl⟩ | ⟨hok, -, hcount, ⟨hslot, rfl⟩ | ⟨-, i, hslot, rfl⟩⟩ := claim_space_ok h
  · rfl
  · rw [if_neg hok.not_refused, if_pos hcount, hslot] at hj
    rw [MemoryMap.entry_of _ hlt]
    exact Function.update_of_ne (fun hjc => hj (by simp [hjc])) _ _
  · rw [if_neg hok.not_refused, if_pos hcount, hslot] at hj
    simp only [List.mem_append, List.mem_range'_1, List.mem_singleton, not_or, not_and] at hj
    rw [MemoryMap.entry_of _ hlt, Function.update_of_ne hj.2, if_neg]
    rintro ⟨hij, hjc⟩
    exact hj.1 hij (by omega)

/-- The store that the array has no entry for is the fault. -/
theorem claim_space_fault_iff {i : Nat} :
    claim_space s r force = .error (.memory_map i) ↔
      i ∈ claim_space_writes s r force ∧ ELF_MAX_SEGMENTS + 2 ≤ i := by
  by_cases hok : s.Takes force
  · unfold claim_space claim_space_writes
    rw [if_neg hok.not_refused, if_neg hok.not_refused]
    dsimp only
    by_cases hcount : s.range_count + 1 ≤ ELF_MAX_SEGMENTS + 2
    · rw [dif_pos hcount, if_pos hcount]
      cases hslot : claimSlot s.entry r (s.range_count + 1) 0 with
      | none =>
          simp only [List.mem_singleton, reduceCtorEq, false_iff]
          omega
      | some j =>
          have hj := (claimSlot_some hslot).2.1
          dsimp only
          split
          · simp only [List.mem_append, List.mem_range'_1, List.mem_singleton, reduceCtorEq, false_iff]
            omega
          · simp only [List.mem_append, List.mem_range'_1, List.mem_singleton, Except.error.injEq,
              ElfFault.memory_map.injEq]
            omega
    · rw [dif_neg hcount, if_neg hcount]
      simp
  · rw [claim_space_refused hok, claim_space_writes, if_pos (MemoryMap.refused_of_not_takes hok)]
    simp

theorem claimSlot_congr {f g : Nat → Range} {k i : Nat}
    (h : ∀ l, i ≤ l → (∀ j ∈ claimSlot f r k i, l ≤ j) → l < i + k → g l = f l) :
    claimSlot g r k i = claimSlot f r k i := by
  induction k generalizing i with
  | zero => rfl
  | succ k ih =>
      have h0 : g i = f i := h i (Nat.le_refl i) (fun j hj => (claimSlot_some hj).1) (by omega)
      unfold claimSlot at h ⊢
      rw [h0]
      split
      · rfl
      · rename_i hlt
        refine ih fun l hil hl hlk => h l (by omega) ?_ (by omega)
        rw [if_neg hlt]
        exact hl

/-- Only the entries that are read decide what is written. -/
theorem claim_space_congr (hcount : t.range_count = s.range_count)
    (hsame : ∀ j ∈ claim_space_reads s r force, t.entry j = s.entry j)
    (h : claim_space s r force = .ok (ok, s')) :
    ∃ t', claim_space t r force = .ok (ok, t') ∧ t'.range_count = s'.range_count ∧
      ∀ j ∈ claim_space_writes s r force, t'.entry j = s'.entry j := by
  unfold claim_space_reads at hsame
  unfold claim_space_writes
  have htakes : t.Takes force ↔ s.Takes force := by
    unfold MemoryMap.Takes
    rw [hcount]
  obtain ⟨hno, rfl, rfl⟩ | ⟨hok, rfl, hle, ⟨hslot, rfl⟩ | ⟨hlt, i, hslot, rfl⟩⟩ := claim_space_ok h
  · rw [if_pos (MemoryMap.refused_of_not_takes hno)]
    exact ⟨t, claim_space_refused (htakes.not.mpr hno), hcount, nofun⟩
  · rw [if_neg hok.not_refused, if_pos hle, hslot] at hsame
    rw [if_neg hok.not_refused, if_pos hle, hslot]
    have hslot' : claimSlot t.entry r (t.range_count + 1) 0 = none := by
      rw [hcount, ← hslot]
      exact claimSlot_congr fun l _ _ hl => hsame l (List.mem_range.mpr (by omega))
    refine ⟨_, claim_space_append (htakes.mpr hok) (hcount ▸ hle) hslot', by simp [hcount],
      fun j hj => ?_⟩
    obtain rfl := List.mem_singleton.mp hj
    rw [MemoryMap.entry_of _ (by omega), MemoryMap.entry_of _ (by omega), ← hcount,
      Function.update_self, hcount, Function.update_self]
  · have hin := (claimSlot_some hslot).2.1
    rw [if_neg hok.not_refused, if_pos hle, hslot] at hsame
    rw [if_neg hok.not_refused, if_pos hle, hslot]
    have hslot' : claimSlot t.entry r (t.range_count + 1) 0 = some i := by
      rw [hcount, ← hslot]
      refine claimSlot_congr fun l _ hl _ => hsame l ?_
      have := hl i hslot
      simp only [List.mem_append, List.mem_range]
      omega
    refine ⟨_, claim_space_insert (htakes.mpr hok) (hcount ▸ hlt) hslot', by simp [hcount],
      fun j hj => ?_⟩
    simp only [List.mem_append, List.mem_range'_1, List.mem_singleton] at hj
    rw [MemoryMap.entry_of _ (by omega), MemoryMap.entry_of _ (by omega), hcount]
    by_cases hji : j = i
    · rw [hji, Function.update_self, Function.update_self]
    · rw [Function.update_of_ne hji, Function.update_of_ne hji, if_pos (by omega), if_pos (by omega)]
      refine hsame (j - 1) ?_
      simp only [List.mem_append, List.mem_range'_1]
      omega

/-! ## One call in a run -/

/-- The map, and the ranges whose claim returned true, in the order of the calls. -/
structure ClaimRun where
  map : MemoryMap
  accepted : List Range

/-- One call, of a range and `force`. -/
def ClaimRun.next (s : ClaimRun) (call : Range × Bool) : Option ClaimRun :=
  (claim_space s.map call.1 call.2).toOption.map fun res =>
    ⟨res.2, if res.1 then s.accepted ++ [call.1] else s.accepted⟩

/-- The map is the sorted list of the ranges accepted. -/
structure ClaimRun.Lists (s : ClaimRun) : Prop where
  sorted : s.map.claimed.Pairwise fun r t => r.start ≤ t.start
  lossless : s.map.claimed.Perm s.accepted

/-- The call returns, touches the entries of `memory_map` only, and leaves such a list. -/
structure ClaimRun.Ok (s : ClaimRun) (call : Range × Bool) : Prop where
  returns : ∃ res, claim_space s.map call.1 call.2 = .ok res
  inside : ∀ i ∈ claim_space_reads s.map call.1 call.2 ++ claim_space_writes s.map call.1 call.2,
    i < ELF_MAX_SEGMENTS + 2
  lists : ∀ s' ∈ s.next call, s'.Lists

/-- The call does not fill the map by an insertion before another entry, the stale last one
included. -/
def ClaimRun.Spares (s : ClaimRun) (call : Range × Bool) : Prop :=
  ¬(s.map.range_count = ELF_MAX_SEGMENTS + 1 ∧ call.2 = true ∧
    ∃ i < ELF_MAX_SEGMENTS + 2, call.1.start < (s.map.entry i).start)

instance ClaimRun.decSpares (s : ClaimRun) (call : Range × Bool) : Decidable (s.Spares call) :=
  inferInstanceAs (Decidable (¬(_ ∧ _ ∧ ∃ i < ELF_MAX_SEGMENTS + 2, _)))

/-- The invariant, with the calls still to come: at most two forced ones in all. -/
structure ClaimRun.Inv (s : ClaimRun) (calls : List (Range × Bool)) : Prop where
  lists : s.Lists
  room : max s.map.range_count ELF_MAX_SEGMENTS + (calls.filter (·.2)).length ≤ ELF_MAX_SEGMENTS + 2

variable {q q' : ClaimRun} {call : Range × Bool} {calls : List (Range × Bool)}

theorem ClaimRun.spares_iff : q.Spares call ↔ (call.2 = true → q.map.Spares call.1.start) := by
  unfold ClaimRun.Spares MemoryMap.Spares
  push Not
  exact ⟨fun h hforce hcount => h hcount hforce, fun h hcount hforce => h hforce hcount⟩

/-- There is room for a call that is not refused. -/
theorem ClaimRun.Inv.room_of_takes (h : q.Inv (call :: calls)) (hok : q.map.Takes call.2) :
    q.map.range_count < ELF_MAX_SEGMENTS + 2 := by
  have hroom := h.room
  rcases hok with hlt | hforce
  · omega
  · rw [List.filter_cons_of_pos hforce, List.length_cons] at hroom
    omega

/-- The list after a call. -/
theorem ClaimRun.Inv.lists_next (h : q.Inv (call :: calls)) (hq' : q.next call = some q') :
    q'.Lists ∧ (q'.map.range_count = q.map.range_count ∧ call.2 = false ∨
      q'.map.range_count = q.map.range_count + 1 ∧ q.map.Takes call.2) := by
  obtain ⟨⟨ok, m⟩, hres, rfl⟩ := Option.map_eq_some_iff.mp hq'
  have hres : claim_space q.map call.1 call.2 = .ok (ok, m) := by
    cases hclaim : claim_space q.map call.1 call.2 with
    | error e => simp [hclaim, Except.toOption] at hres
    | ok res =>
        rw [hclaim] at hres
        rw [Option.some.inj hres]
  by_cases hok : q.map.Takes call.2
  · have hspares : q.map.Spares call.1.start := by
      by_contra hnot
      rw [claim_space_overruns hok hnot] at hres
      cases hres
    obtain ⟨m', hm, hclaimed, hcount⟩ := claim_space_claimed (h.room_of_takes hok) hok hspares
    rw [hm] at hres
    obtain ⟨rfl, rfl⟩ := Prod.mk.inj (Except.ok.inj hres)
    refine ⟨⟨?_, ?_⟩, .inr ⟨hcount, hok⟩⟩
    · show m'.claimed.Pairwise _
      rw [hclaimed]
      exact starts_insertStart h.lists.sorted
    · show m'.claimed.Perm (q.accepted ++ [call.1])
      rw [hclaimed]
      exact (insertStart_perm _ _).trans ((h.lists.lossless.cons _).trans
        (List.perm_append_singleton _ _).symm)
  · rw [claim_space_refused hok] at hres
    obtain ⟨rfl, rfl⟩ := Prod.mk.inj (Except.ok.inj hres)
    exact ⟨h.lists, .inl ⟨rfl, (MemoryMap.refused_of_not_takes hok).2⟩⟩

theorem ClaimRun.Inv.next (q : ClaimRun) (call : Range × Bool) (calls : List (Range × Bool))
    (q' : ClaimRun) (h : q.Inv (call :: calls)) (hq' : q.next call = some q') : q'.Inv calls := by
  obtain ⟨hlists, hcount⟩ := h.lists_next hq'
  have hroom := h.room
  refine ⟨hlists, ?_⟩
  rcases hcount with ⟨hcount, hforce⟩ | ⟨hcount, hlt | hforce⟩
  · rw [List.filter_cons_of_neg (by simp [hforce])] at hroom
    omega
  · cases hforce : call.2
    · rw [List.filter_cons_of_neg (by simp [hforce])] at hroom
      omega
    · rw [List.filter_cons_of_pos (by simp [hforce]), List.length_cons] at hroom
      omega
  · rw [List.filter_cons_of_pos (by simp [hforce]), List.length_cons] at hroom
    omega

/-- Which entries a call touches. -/
theorem ClaimRun.Inv.inside_iff (h : q.Inv (call :: calls)) :
    (∀ i ∈ claim_space_reads q.map call.1 call.2 ++ claim_space_writes q.map call.1 call.2,
      i < ELF_MAX_SEGMENTS + 2) ↔ q.Spares call := by
  rw [ClaimRun.spares_iff]
  unfold claim_space_reads claim_space_writes
  by_cases hok : q.map.Takes call.2
  · have hlt := h.room_of_takes hok
    rw [if_neg hok.not_refused, if_neg hok.not_refused, if_pos (Nat.succ_le_of_lt hlt),
      if_pos (Nat.succ_le_of_lt hlt)]
    cases hslot : claimSlot q.map.entry call.1 (q.map.range_count + 1) 0 with
    | some i =>
        obtain ⟨-, hi, hstart, -⟩ := claimSlot_some hslot
        dsimp only
        constructor
        · rintro hin - hcount
          have hlast := hin (q.map.range_count + 1) (by
            simp only [List.mem_append, List.mem_range'_1, List.mem_singleton]
            omega)
          omega
        · intro hspares j hj
          have hcount : q.map.range_count ≠ ELF_MAX_SEGMENTS + 1 := by
            intro hcount
            have hforce : call.2 = true := hok.resolve_left (by omega)
            have hle := hspares hforce hcount i (by omega)
            omega
          simp only [List.mem_append, List.mem_range, List.mem_range'_1, List.mem_singleton] at hj
          omega
    | none =>
        have hnone := claimSlot_none hslot
        dsimp only
        constructor
        · rintro - - hcount i hi
          have := hnone i (Nat.zero_le i) (by omega)
          omega
        · intro _ j hj
          simp only [List.mem_append, List.mem_range, List.mem_singleton] at hj
          omega
  · have hrefused := MemoryMap.refused_of_not_takes hok
    rw [if_pos hrefused, if_pos hrefused]
    refine ⟨fun _ hforce => ?_, fun _ => nofun⟩
    rw [hrefused.2] at hforce
    cases hforce

theorem ClaimRun.Inv.ok_iff (h : q.Inv (call :: calls)) : q.Ok call ↔ q.Spares call := by
  refine ⟨fun hok => h.inside_iff.mp hok.inside, fun hspares => ⟨?_, h.inside_iff.mpr hspares,
    fun q' hq' => (h.lists_next hq').1⟩⟩
  by_cases hok : q.map.Takes call.2
  · have hspares : q.map.Spares call.1.start := by
      by_cases hforce : call.2 = true
      · exact ClaimRun.spares_iff.mp hspares hforce
      · exact .of_lt (Nat.lt_succ_of_lt (hok.resolve_right hforce))
    obtain ⟨m, hm, -⟩ := claim_space_claimed (h.room_of_takes hok) hok hspares
    exact ⟨_, hm⟩
  · exact ⟨_, claim_space_refused hok⟩

/-! ## Runs -/

/-- Whatever an earlier upload left in the map: every call of a run with at most two forced claims
returns, stays inside the array and keeps the list, if and only if no call fills the map by an
insertion before another entry. -/
theorem claim_runs_ok_iff {memory_map : Fin (ELF_MAX_SEGMENTS + 2) → Range}
    (hforced : (calls.filter (·.2)).length ≤ 2) :
    TSys.All ClaimRun.next ClaimRun.Ok ⟨⟨memory_map, 0, Nat.zero_le _⟩, []⟩ calls ↔
      TSys.All ClaimRun.next ClaimRun.Spares ⟨⟨memory_map, 0, Nat.zero_le _⟩, []⟩ calls :=
  TSys.all_iff_of_inv ClaimRun.Inv.next (fun _ _ _ h => h.ok_iff)
    ⟨⟨.nil, .refl _⟩, Nat.add_le_add_left hforced _⟩

/-- Sixteen segments, and the two ranges the loader allocates. -/
def fullClaims (elf boot : Range) : List (Range × Bool) :=
  (List.range 16).map (fun i => (⟨0x10000 * (i + 1), 0x10000 * (i + 1) + 0x100⟩, false)) ++
    [(elf, true), (boot, true)]

theorem claim_runs_ok_iff_full :
    TSys.All ClaimRun.next ClaimRun.Ok ⟨⟨fun _ => ⟨0, 0⟩, 0, Nat.zero_le _⟩, []⟩
      (fullClaims ⟨0x200000, 0x300000⟩ ⟨0x300000, 0x300200⟩) :=
  (claim_runs_ok_iff (by decide)).mpr (by decide +kernel)

/-- A boot image below the segments: the eighteenth claim writes behind the array. -/
theorem claim_space_writes_behind : ∃ s,
    TSys.exec ClaimRun.next ⟨⟨fun _ => ⟨0, 0⟩, 0, Nat.zero_le _⟩, []⟩
      ((fullClaims ⟨0x200000, 0x300000⟩ ⟨0, 0x200⟩).take 17) = some s ∧
    claim_space s.map ⟨0, 0x200⟩ true = .error (.memory_map (ELF_MAX_SEGMENTS + 2)) ∧
    ELF_MAX_SEGMENTS + 2 ∈ claim_space_writes s.map ⟨0, 0x200⟩ true := by
  have hwrites : ∀ s ∈ TSys.exec ClaimRun.next ⟨⟨fun _ => ⟨0, 0⟩, 0, Nat.zero_le _⟩, []⟩
      ((fullClaims ⟨0x200000, 0x300000⟩ ⟨0, 0x200⟩).take 17),
      ELF_MAX_SEGMENTS + 2 ∈ claim_space_writes s.map ⟨0, 0x200⟩ true := by
    decide +kernel
  obtain ⟨s, hs⟩ := Option.isSome_iff_exists.mp (show (TSys.exec ClaimRun.next
    ⟨⟨fun _ => ⟨0, 0⟩, 0, Nat.zero_le _⟩, []⟩
      ((fullClaims ⟨0x200000, 0x300000⟩ ⟨0, 0x200⟩).take 17)).isSome by decide +kernel)
  exact ⟨s, hs, claim_space_fault_iff.mpr ⟨hwrites s hs, Nat.le_refl _⟩, hwrites s hs⟩

end Bcm2835.Pup

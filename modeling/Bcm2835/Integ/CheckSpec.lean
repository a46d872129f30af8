import Bcm2835.Integ.Check
import Bcm2835.Integ.HashSpec

/-!
# Layouts

A `Layout` is what an `IntegHeader` says: where it is, and its regions. On a
memory that holds it, `integ_prep` leaves the purgable regions clear and in each
checksum the hash of the memory it found at that turn (`Prepared`), and
`integ_chk` stays clean if each region passes (`Passes`), and only then.
-/

namespace Bcm2835.Integ

open Mem Bytes

structure Region where
  p : Nat
  size : Nat
  flags : Nat
deriving DecidableEq

namespace Region

variable (r : Region)

/-- The bytes of the region. -/
def Has (x : Nat) : Prop := r.p ≤ x ∧ x < r.p + r.size

def Mutable : Prop := r.flags &&& IRF_Mutable ≠ 0
def Purgable : Prop := r.flags &&& IRF_Purgable ≠ 0
def Stack : Prop := r.flags &&& IRF_Stack ≠ 0

/-- The region is cleared and must stay clear. -/
def Purged : Prop := ¬r.Mutable ∧ r.Purgable

/-- The region is hashed. -/
def Hashed : Prop := ¬r.Mutable ∧ ¬r.Purgable

end Region

structure Layout where
  ihdr : Nat
  seed : Nat
  flags : Nat
  sp : Nat
  regions : List Region

namespace Layout

variable (L : Layout)

/-- The bytes of the header. -/
def Header (x : Nat) : Prop := L.ihdr ≤ x ∧ x < L.ihdr + 40 + 16 * L.regions.length

/-- The bytes of the checksum of region `i`. -/
def Cksum (i x : Nat) : Prop := regionAt L.ihdr i + 12 ≤ x ∧ x < regionAt L.ihdr i + 16

/-- The memory holds the header. The checksums may be anything. -/
structure Holds (m : Memory) : Prop where
  seed : seedOf m L.ihdr = L.seed
  flags : flagsOf m L.ihdr = L.flags
  sp : spOf m L.ihdr = L.sp
  count : region_count m L.ihdr = L.regions.length
  region : ∀ (i : Nat) (r : Region), L.regions[i]? = some r → region_p m L.ihdr i = r.p ∧
    region_size m L.ihdr i = r.size ∧ region_flags m L.ihdr i = r.flags

/-- A header as documented: disjoint regions that have an end, apart from the
header, with the stack pointer in the stack. -/
structure Valid : Prop where
  fits : L.ihdr + 40 + 16 * L.regions.length ≤ 2 ^ 32
  words : L.seed < 2 ^ 32 ∧ L.flags < 2 ^ 32 ∧ L.sp < 2 ^ 32 ∧ ∀ r ∈ L.regions, r.flags < 2 ^ 32
  ends : ∀ r ∈ L.regions, r.p + r.size < 2 ^ 32
  disjoint : ∀ (i j : Nat) (r r' : Region), L.regions[i]? = some r → L.regions[j]? = some r' → i ≠ j →
    ∀ x, r.Has x → ¬r'.Has x
  apart : ∀ r ∈ L.regions, ∀ x, r.Has x → ¬L.Header x
  purgable : ∀ r ∈ L.regions, r.Purgable → r.flags &&& (IRF_Mutable ||| IRF_Critical) = 0
  stack : ∀ r ∈ L.regions, r.Stack → r.Has L.sp
  fresh : ∀ r ∈ L.regions, r.flags &&& (IRF_Corrupted ||| IRF_CorruptedSomewhere) = 0
  noCleanup : L.flags &&& IHF_ExpectStackCleanup = 0

/-- The bytes that may change between `integ_prep` and `integ_chk`. -/
def Changeable (x : Nat) : Prop :=
  ∃ r ∈ L.regions, r.Has x ∧ (r.Mutable ∨ (r.Stack ∧ x < L.sp))

/-- Where the hashed part of a region begins. -/
def hashStart (r : Region) : Nat := if r.flags &&& IRF_Stack ≠ 0 then L.sp else r.p

def hashSize (r : Region) : Nat := r.p + r.size - L.hashStart r

/-- The hash of a region. -/
def hashOf (r : Region) (m : Memory) : Word :=
  hash_memory m L.seed (L.hashStart r) (L.hashSize r)

/-- The bytes in front of the hashed part that are hashed too. -/
def Lead (r : Region) (x : Nat) : Prop :=
  start_block (L.hashStart r) (L.hashSize r) ≤ x ∧ x < L.hashStart r

end Layout

/-! ## Stores -/

section Stores

variable {m : Memory} {x : Nat}

theorem clear_of_outside {p n : Nat} (hfit : p + n ≤ 2 ^ 32) (hx : x < p ∨ p + n ≤ x) :
    clear m p n x = m x :=
  write_of_outside m (by rwa [List.length_replicate]) (by rwa [List.length_replicate])

theorem clear_inside {p n : Nat} (hfit : p + n ≤ 2 ^ 32) (hx : p ≤ x) (hx' : x < p + n) :
    clear m p n x = 0 := by
  obtain ⟨i, rfl⟩ := Nat.exists_eq_add_of_le hx
  have hi : i < (List.replicate n (0 : UInt8)).length := by
    rw [List.length_replicate]
    omega
  have hget := write_getElem (N := 2 ^ 32) m (by rwa [List.length_replicate]) hi (a := p)
  rw [clear, hget, List.getElem_replicate]

end Stores

/-! ## Layouts in memory -/

section Held

variable {L : Layout} {m m' : Memory} {i : Nat} {r : Region}

theorem lt_of_region (hr : L.regions[i]? = some r) : i < L.regions.length :=
  (List.getElem?_eq_some_iff.mp hr).1

theorem mem_of_region (hr : L.regions[i]? = some r) : r ∈ L.regions := List.mem_of_getElem? hr

/-- A change outside of the header's words other than the checksums. -/
theorem Layout.Holds.congr (h : L.Holds m)
    (hsame : ∀ x, m' x ≠ m x → L.Header x → ∃ i, L.Cksum i x) : L.Holds m' := by
  have hfield : ∀ a, L.ihdr ≤ a → a + 4 ≤ L.ihdr + 40 + 16 * L.regions.length →
      (∀ i, a + 4 ≤ regionAt L.ihdr i + 12 ∨ regionAt L.ihdr i + 16 ≤ a) →
      field m' a = field m a := by
    intro a hlow hhigh hck
    apply field_congr
    intro y hy hy'
    by_contra hne
    obtain ⟨i, hck1, hck2⟩ := hsame y hne ⟨by omega, by omega⟩
    have := hck i
    omega
  have hwords : ∀ k, k < 10 → field m' (L.ihdr + 4 * k) = field m (L.ihdr + 4 * k) := by
    intro k hk
    refine hfield _ (by omega) (by omega) fun i => .inl ?_
    simp only [regionAt]
    omega
  have hregion : ∀ i < L.regions.length, ∀ c < 3,
      field m' (regionAt L.ihdr i + 4 * c) = field m (regionAt L.ihdr i + 4 * c) := by
    intro i hi c hc
    simp only [regionAt]
    refine hfield _ (by omega) (by omega) fun j => ?_
    simp only [regionAt]
    omega
  refine ⟨(hwords 4 (by decide)).trans h.seed, (hwords 5 (by decide)).trans h.flags,
    (hwords 6 (by decide)).trans h.sp, (hwords 8 (by decide)).trans h.count, fun i r hr => ?_⟩
  obtain ⟨hp, hs, hf⟩ := h.region i r hr
  have hi := lt_of_region hr
  exact ⟨(hregion i hi 0 (by decide)).trans hp, (hregion i hi 1 (by decide)).trans hs,
    (hregion i hi 2 (by decide)).trans hf⟩

/-- The checksum of a region that is not touched. -/
theorem cksum_congr (hsame : ∀ x, L.Cksum i x → m' x = m x) :
    region_cksum m' L.ihdr i = region_cksum m L.ihdr i :=
  field_congr fun y hy hy' => hsame y ⟨hy, hy'⟩

/-- The loops over the regions are long enough. -/
theorem Layout.Valid.count_le (hL : L.Valid) : L.regions.length ≤ 0 + SIZE_RANGE := by
  have hfits := hL.fits
  have hrange : SIZE_RANGE = 2 ^ 32 := rfl
  omega

theorem Layout.Valid.cksum_fits (hL : L.Valid) (hi : i < L.regions.length) :
    regionAt L.ihdr i + 12 + 4 ≤ 2 ^ 32 := by
  have hfits := hL.fits
  simp only [regionAt]
  omega

theorem cksum_header (hi : i < L.regions.length) {x : Nat} (hx : L.Cksum i x) : L.Header x := by
  obtain ⟨h1, h2⟩ := hx
  simp only [regionAt] at h1 h2
  exact ⟨by omega, by omega⟩

theorem cksum_disjoint {j x : Nat} (hx : L.Cksum i x) (hx' : L.Cksum j x) : i = j := by
  obtain ⟨h1, h2⟩ := hx
  obtain ⟨h3, h4⟩ := hx'
  simp only [regionAt] at h1 h2 h3 h4
  omega

/-- Only the checksum changes. -/
theorem setCksum_ne (hL : L.Valid) (hi : i < L.regions.length) {v x : Nat}
    (h : setCksum m L.ihdr i v x ≠ m x) : L.Cksum i x := by
  have hfits := hL.cksum_fits hi
  by_contra hout
  refine h (store_of_outside hfits ?_)
  simp only [Layout.Cksum, not_and_or, not_le, not_lt] at hout
  omega

theorem setCksum_cksum (hL : L.Valid) (hi : i < L.regions.length) (w : Word) :
    region_cksum (setCksum m L.ihdr i w.toNat) L.ihdr i = w.toNat :=
  field_store (hL.cksum_fits hi) w.isLt

theorem Layout.Holds.setCksum (h : L.Holds m) (hL : L.Valid) (hi : i < L.regions.length) (v : Nat) :
    L.Holds (setCksum m L.ihdr i v) :=
  h.congr fun _ hne _ => ⟨i, setCksum_ne hL hi hne⟩

end Held

/-! ## `integ_prep` -/

section Prep

variable {L : Layout} {m m' : Memory} {i : Nat} {r : Region}

/-- What a turn of `integ_prep` for region `r` does. -/
structure Turn (L : Layout) (i : Nat) (r : Region) (m m' : Memory) : Prop where
  changed : ∀ x, m' x ≠ m x → L.Cksum i x ∨ (r.Purged ∧ r.Has x)
  clear : r.Purged → ∀ x, r.Has x → m' x = 0
  hash : r.Hashed → ∃ mi, (∀ x, mi x ≠ m x → L.Cksum i x) ∧
    region_cksum m' L.ihdr i = (L.hashOf r mi).toNat

/-- The stack pointer is in a stack region, and from there on it is hashed. -/
theorem Layout.Valid.stack_range (hL : L.Valid) (h : L.Holds m) (hr : L.regions[i]? = some r)
    (hstack : r.Stack) : range_contains m L.ihdr i L.sp ∧
      stackSize r.p r.size L.sp = L.hashSize r := by
  obtain ⟨hp, hs, -⟩ := h.region i r hr
  have hends := hL.ends r (mem_of_region hr)
  obtain ⟨hlow, hhigh⟩ := hL.stack r (mem_of_region hr) hstack
  constructor
  · rw [range_contains, range_end, hp, hs, Nat.mod_eq_of_lt hends]
    exact ⟨hlow, hhigh⟩
  · have hstart : L.hashStart r = L.sp := if_pos hstack
    rw [stackSize, Layout.hashSize, hstart]
    omega

theorem prepRegion_spec (hL : L.Valid) (h : L.Holds m) (hr : L.regions[i]? = some r) :
    ∃ m', prepRegion L.ihdr i m = .ok m' ∧ Turn L i r m m' := by
  have hi := lt_of_region hr
  have hmem := mem_of_region hr
  have hends := hL.ends r hmem
  have h0 := h.setCksum hL hi 0
  have hck0 : ∀ x, setCksum m L.ihdr i 0 x ≠ m x → L.Cksum i x := fun x => setCksum_ne hL hi
  obtain ⟨hp, hs, hf⟩ := h.region i r hr
  obtain ⟨hp0, hs0, hf0⟩ := h0.region i r hr
  rw [prepRegion]
  simp only [hp, hs, hf, hp0, hs0, hf0, h0.seed, h0.sp]
  rw [if_neg (not_not.mpr (hL.fresh r hmem))]
  by_cases hmut : r.flags &&& IRF_Mutable ≠ 0
  · refine ⟨_, if_pos hmut, fun x hx => .inl (hck0 x hx), fun hpur => absurd hmut hpur.1,
      fun hhash => absurd hmut hhash.1⟩
  rw [if_neg hmut]
  by_cases hpur : r.flags &&& IRF_Purgable ≠ 0
  · refine ⟨_, if_pos hpur, fun x hx => ?_, fun _ x hx => clear_inside (by omega) hx.1 hx.2,
      fun hhash => absurd hpur hhash.2⟩
    by_cases hin : r.Has x
    · exact .inr ⟨⟨hmut, hpur⟩, hin⟩
    · rw [clear_of_outside (by omega) (by simp only [Region.Has] at hin; omega)] at hx
      exact .inl (hck0 x hx)
  rw [if_neg hpur]
  -- the checksum is stored over the zero that the hash may have read
  have hturn : ∀ w : Word, w = L.hashOf r (setCksum m L.ihdr i 0) →
      Turn L i r m (setCksum (setCksum m L.ihdr i 0) L.ihdr i w.toNat) := by
    rintro w rfl
    refine ⟨fun x hx => ?_, fun hpurged => absurd hpurged.2 hpur,
      fun _ => ⟨_, hck0, setCksum_cksum hL hi _⟩⟩
    by_contra hout
    refine hx ?_
    have hsame : setCksum m L.ihdr i 0 x = m x := by
      by_contra hne
      exact hout (.inl (hck0 x hne))
    rw [← hsame]
    by_contra hne
    exact hout (.inl (setCksum_ne hL hi hne))
  by_cases hstack : r.flags &&& IRF_Stack ≠ 0
  · obtain ⟨hrange, hsize⟩ := hL.stack_range h0 hr hstack
    have hh := hturn (hash_memory (setCksum m L.ihdr i 0) L.seed L.sp (stackSize r.p r.size L.sp))
      (by rw [hsize, Layout.hashOf, Layout.hashStart, if_pos hstack])
    rw [if_pos ⟨hstack, hrange⟩]
    have hflags := (h0.setCksum hL hi
      (hash_memory (setCksum m L.ihdr i 0) L.seed L.sp (stackSize r.p r.size L.sp)).toNat).flags
    rw [hflags, if_neg (not_not.mpr hL.noCleanup)]
    exact ⟨_, rfl, hh⟩
  · have hh := hturn (hash_memory (setCksum m L.ihdr i 0) L.seed r.p r.size) (by
      rw [Layout.hashOf, Layout.hashSize, Layout.hashStart, if_neg hstack, Nat.add_sub_cancel_left])
    rw [if_neg (fun hc => hstack hc.1), if_neg (fun hc => hstack hc.1)]
    exact ⟨_, rfl, hh⟩

theorem Turn.holds (ht : Turn L i r m m') (hL : L.Valid) (h : L.Holds m)
    (hr : L.regions[i]? = some r) : L.Holds m' := by
  refine h.congr fun x hne hx => ?_
  rcases ht.changed x hne with hck | ⟨-, hin⟩
  · exact ⟨i, hck⟩
  · exact absurd hx (hL.apart r (mem_of_region hr) x hin)

/-- The memory in front of turn `i`, from `m0` on. -/
structure Prepared (L : Layout) (m0 : Memory) (i : Nat) (m : Memory) : Prop where
  holds : L.Holds m
  clear : ∀ j < i, ∀ r, L.regions[j]? = some r → r.Purged → ∀ x, r.Has x → m x = 0
  hash : ∀ k < i, ∀ r, L.regions[k]? = some r → r.Hashed → ∃ mk,
    region_cksum m L.ihdr k = (L.hashOf r mk).toNat ∧
    (∀ x, mk x ≠ m0 x → ∃ j ≤ k, L.Cksum j x ∨
      ∃ r', j < k ∧ L.regions[j]? = some r' ∧ r'.Purged ∧ r'.Has x) ∧
    (∀ x, mk x ≠ m x → ∃ j, k ≤ j ∧ j < i ∧ (L.Cksum j x ∨
      ∃ r', k < j ∧ L.regions[j]? = some r' ∧ r'.Purged ∧ r'.Has x))
  changed : ∀ x, m x ≠ m0 x → ∃ j < i, L.Cksum j x ∨
    ∃ r', L.regions[j]? = some r' ∧ r'.Purged ∧ r'.Has x

/-- One turn. -/
theorem Prepared.turn {m0 : Memory} (h : Prepared L m0 i m) (hL : L.Valid)
    (hr : L.regions[i]? = some r) (ht : Turn L i r m m') : Prepared L m0 (i + 1) m' where
  holds := ht.holds hL h.holds hr
  clear j hj r' hr' hpur x hx := by
    rcases Nat.lt_succ_iff_lt_or_eq.mp hj with hlt | rfl
    · -- the turn does not reach an earlier region
      have hsame : m' x = m x := by
        by_contra hne
        rcases ht.changed x hne with hck | ⟨-, hin⟩
        · exact hL.apart r' (mem_of_region hr') x hx (cksum_header (lt_of_region hr) hck)
        · exact hL.disjoint j i r' r hr' hr (by omega) x hx hin
      rw [hsame]
      exact h.clear j hlt r' hr' hpur x hx
    · obtain rfl : r' = r := Option.some.inj (hr'.symm.trans hr)
      exact ht.clear hpur x hx
  hash k hk r' hr' hhash := by
    rcases Nat.lt_succ_iff_lt_or_eq.mp hk with hlt | rfl
    · obtain ⟨mk, hck, h0, hm⟩ := h.hash k hlt r' hr' hhash
      refine ⟨mk, ?_, h0, fun x hne => ?_⟩
      · rw [cksum_congr (m := m) fun x hx => ?_]
        · exact hck
        · by_contra hne
          rcases ht.changed x hne with hck' | ⟨-, hin⟩
          · exact absurd (cksum_disjoint hx hck') (by omega)
          · exact hL.apart r (mem_of_region hr) x hin (cksum_header (lt_of_region hr') hx)
      · by_cases hmk : mk x = m x
        · rcases ht.changed x (fun heq => hne (hmk.trans heq.symm)) with hck' | ⟨hpur, hin⟩
          · exact ⟨i, by omega, by omega, .inl hck'⟩
          · exact ⟨i, by omega, by omega, .inr ⟨r, hlt, hr, hpur, hin⟩⟩
        · obtain ⟨j, hkj, hji, hrest⟩ := hm x hmk
          exact ⟨j, hkj, by omega, hrest⟩
    · obtain rfl : r' = r := Option.some.inj (hr'.symm.trans hr)
      obtain ⟨mi, hmi, hck⟩ := ht.hash hhash
      refine ⟨mi, hck, fun x hne => ?_, fun x hne => ?_⟩
      · by_cases hmx : mi x = m x
        · obtain ⟨j, hj, hrest⟩ := h.changed x (fun heq => hne (hmx.trans heq))
          refine ⟨j, by omega, hrest.imp_right ?_⟩
          rintro ⟨r'', hr''⟩
          exact ⟨r'', hj, hr''⟩
        · exact ⟨k, le_refl k, .inl (hmi x hmx)⟩
      · by_cases hmx : mi x = m x
        · rcases ht.changed x (fun heq => hne (hmx.trans heq.symm)) with hck' | ⟨hpur, -⟩
          · exact ⟨k, le_refl k, by omega, .inl hck'⟩
          · exact absurd hpur.2 hhash.2
        · exact ⟨k, le_refl k, by omega, .inl (hmi x hmx)⟩
  changed x hne := by
    by_cases hmx : m x = m0 x
    · rcases ht.changed x (fun heq => hne (heq.trans hmx)) with hck | ⟨hpur, hin⟩
      · exact ⟨i, by omega, .inl hck⟩
      · exact ⟨i, by omega, .inr ⟨r, hr, hpur, hin⟩⟩
    · obtain ⟨j, hj, hrest⟩ := h.changed x hmx
      exact ⟨j, by omega, hrest⟩

/-- The turns from `i` on. -/
theorem prep_turns {m0 : Memory} (hL : L.Valid) (fuel : Nat) (h : Prepared L m0 i m)
    (hi : i ≤ L.regions.length) (hfuel : L.regions.length ≤ i + fuel) :
    ∃ m', regionLoop L.ihdr id (prepRegion L.ihdr) fuel i m = .ok m' ∧
      Prepared L m0 L.regions.length m' := by
  induction fuel generalizing i m with
  | zero =>
      obtain rfl : i = L.regions.length := by omega
      exact ⟨m, rfl, h⟩
  | succ fuel ih =>
      have hcount : region_count (id m) L.ihdr = L.regions.length := h.holds.count
      rw [regionLoop, hcount]
      by_cases hlt : i < L.regions.length
      · have hr : L.regions[i]? = some L.regions[i] := List.getElem?_eq_getElem hlt
        obtain ⟨m', hm', ht⟩ := prepRegion_spec hL h.holds hr
        rw [if_pos hlt, hm']
        exact ih (h.turn hL hr ht) hlt (by omega)
      · obtain rfl : i = L.regions.length := by omega
        exact ⟨m, if_neg hlt, h⟩

/-- `integ_prep` returns. -/
theorem integ_prep_spec (hL : L.Valid) (h : L.Holds m) :
    ∃ m', integ_prep L.ihdr m = .ok m' ∧ Prepared L m L.regions.length m' := by
  have hstart : Prepared L m 0 m :=
    ⟨h, fun j hj => absurd hj (Nat.not_lt_zero j), fun k hk => absurd hk (Nat.not_lt_zero k),
      fun x hne => absurd rfl hne⟩
  exact prep_turns hL SIZE_RANGE hstart (Nat.zero_le _) hL.count_le

end Prep

/-! ## `integ_chk` -/

section Chk

variable {L : Layout} {m m' : Memory} {i : Nat} {r : Region} {state state' : IntegStatus}

/-- Region `i` is as `integ_prep` left it, as far as that was recorded. -/
structure Passes (L : Layout) (m : Memory) (i : Nat) (r : Region) : Prop where
  hash : r.Hashed → (L.hashOf r m).toNat = region_cksum m L.ihdr i
  clear : r.Purged → ∀ x, r.Has x → m x = 0

theorem alarm_ne (ihdr i f : Nat) (m : Memory) : (alarm ihdr i f m).2 ≠ .IS_Clean := by
  rw [alarm]
  simp only
  split <;> decide

theorem check_purgable_iff (hend : r.p + r.size < 2 ^ 32) :
    check_purgable m r.p r.size ↔ ∀ x, r.Has x → m x = 0 := by
  have hmod : ∀ {x}, x < r.size → (r.p + x) % 2 ^ 32 = r.p + x := fun hx =>
    Nat.mod_eq_of_lt (by omega)
  constructor
  · rintro h x ⟨hlow, hhigh⟩
    have hx := h (x - r.p) (by omega)
    rwa [hmod (by omega), Nat.add_sub_cancel' hlow] at hx
  · intro h x hx
    rw [hmod hx]
    exact h _ ⟨by omega, by omega⟩

theorem chkHash_alarmed {ihdr i p size : Nat} {s : Memory × IntegStatus} (hne : s.2 ≠ .IS_Clean) :
    (chkHash ihdr i p size s).2 ≠ .IS_Clean := by
  rw [chkHash]
  split
  · exact alarm_ne _ _ _ _
  · exact hne

theorem chkClear_alarmed {ihdr i p size : Nat} {s : Memory × IntegStatus} (hne : s.2 ≠ .IS_Clean) :
    (chkClear ihdr i p size s).2 ≠ .IS_Clean := by
  rw [chkClear]
  split
  · exact hne
  · exact alarm_ne _ _ _ _

theorem chkCleanup_alarmed {ihdr i p : Nat} {s : Memory × IntegStatus} (hne : s.2 ≠ .IS_Clean) :
    (chkCleanup ihdr i p s).2 ≠ .IS_Clean := by
  rw [chkCleanup]
  split
  · exact chkClear_alarmed hne
  · exact hne

/-- An alarm is not taken back. -/
theorem chkRegion_alarmed {ihdr : Nat} {s s' : Memory × IntegStatus} (hne : s.2 ≠ .IS_Clean)
    (h : chkRegion ihdr i s = .ok s') : s'.2 ≠ .IS_Clean := by
  rw [chkRegion] at h
  split at h
  · cases h
    exact hne
  split at h
  · cases h
    exact chkClear_alarmed hne
  split at h
  · cases h
    exact chkCleanup_alarmed (chkHash_alarmed hne)
  split at h
  · cases h
  · cases h
    exact chkHash_alarmed hne

theorem chkHash_eq {p size : Nat} {state : IntegStatus}
    (h : (hash_memory m (seedOf m L.ihdr) p size).toNat = region_cksum m L.ihdr i) :
    chkHash L.ihdr i p size (m, state) = (m, state) := if_neg (not_not.mpr h)

theorem chkHash_ne {p size : Nat} {state : IntegStatus}
    (h : (hash_memory m (seedOf m L.ihdr) p size).toNat ≠ region_cksum m L.ihdr i) :
    (chkHash L.ihdr i p size (m, state)).2 ≠ .IS_Clean := by
  rw [chkHash, if_pos h]
  exact alarm_ne _ _ _ _

/-- A region that passes leaves everything as it is, and any other raises an
alarm. -/
theorem chkRegion_spec (hL : L.Valid) (h : L.Holds m) (hr : L.regions[i]? = some r)
    (state : IntegStatus) :
    (Passes L m i r ∧ chkRegion L.ihdr i (m, state) = .ok (m, state)) ∨
      (¬Passes L m i r ∧ ∃ s, chkRegion L.ihdr i (m, state) = .ok s ∧ s.2 ≠ .IS_Clean) := by
  obtain ⟨hp, hs, hf⟩ := h.region i r hr
  rw [chkRegion]
  simp only [hp, hs, hf, h.sp]
  by_cases hmut : r.flags &&& IRF_Mutable ≠ 0
  · exact .inl ⟨⟨fun hh => absurd hmut hh.1, fun hh => absurd hmut hh.1⟩, if_pos hmut⟩
  rw [if_neg hmut]
  by_cases hpur : r.flags &&& IRF_Purgable ≠ 0
  · rw [if_pos hpur]
    have hiff := check_purgable_iff (m := m) (hL.ends r (mem_of_region hr))
    by_cases hz : check_purgable m r.p r.size
    · refine .inl ⟨⟨fun hh => absurd hpur hh.2, fun _ => hiff.mp hz⟩, ?_⟩
      rw [chkClear, if_pos hz]
    · refine .inr ⟨fun hpass => hz (hiff.mpr (hpass.clear ⟨hmut, hpur⟩)), _, rfl, ?_⟩
      rw [chkClear, if_neg hz]
      exact alarm_ne _ _ _ _
  rw [if_neg hpur]
  -- the hash decides, from the stack pointer on or over the whole region
  have hhash : (hash_memory m (seedOf m L.ihdr) (L.hashStart r) (L.hashSize r)).toNat =
      region_cksum m L.ihdr i ↔ Passes L m i r := by
    rw [h.seed]
    exact ⟨fun heq => ⟨fun _ => heq, fun hh => absurd hh.2 hpur⟩, fun hpass => hpass.hash ⟨hmut, hpur⟩⟩
  by_cases hstack : r.flags &&& IRF_Stack ≠ 0
  · obtain ⟨hrange, hsize⟩ := hL.stack_range h hr hstack
    have hstart : L.hashStart r = L.sp := if_pos hstack
    rw [hstart] at hhash
    rw [if_pos ⟨hstack, hrange⟩, hsize]
    by_cases heq : (hash_memory m (seedOf m L.ihdr) L.sp (L.hashSize r)).toNat =
        region_cksum m L.ihdr i
    · refine .inl ⟨hhash.mp heq, ?_⟩
      rw [chkHash_eq heq, chkCleanup, h.flags, if_neg (not_not.mpr hL.noCleanup)]
    · exact .inr ⟨fun hpass => heq (hhash.mpr hpass), _, rfl, chkCleanup_alarmed (chkHash_ne heq)⟩
  · have hstart : L.hashStart r = r.p := if_neg hstack
    have hsize : L.hashSize r = r.size := by
      rw [Layout.hashSize, hstart, Nat.add_sub_cancel_left]
    rw [hstart, hsize] at hhash
    rw [if_neg (fun hc => hstack hc.1), if_neg (fun hc => hstack hc.1)]
    by_cases heq : (hash_memory m (seedOf m L.ihdr) r.p r.size).toNat = region_cksum m L.ihdr i
    · refine .inl ⟨hhash.mp heq, ?_⟩
      rw [chkHash_eq heq]
    · exact .inr ⟨fun hpass => heq (hhash.mpr hpass), _, rfl, chkHash_ne heq⟩

theorem chk_alarmed {ihdr : Nat} {s s' : Memory × IntegStatus} (fuel : Nat)
    (hne : s.2 ≠ .IS_Clean)
    (h : regionLoop ihdr Prod.fst (chkRegion ihdr) fuel i s = .ok s') : s'.2 ≠ .IS_Clean := by
  induction fuel generalizing i s with
  | zero =>
      cases h
      exact hne
  | succ fuel ih =>
      rw [regionLoop] at h
      split at h
      · cases hturn : chkRegion ihdr i s with
        | error e =>
            rw [hturn] at h
            cases h
        | ok t =>
            rw [hturn] at h
            exact ih (chkRegion_alarmed hne hturn) h
      · cases h
        exact hne

/-- If the regions from `i` on pass, their turns change nothing. -/
theorem chk_passing (hL : L.Valid) (h : L.Holds m) (fuel : Nat)
    (hpass : ∀ (j : Nat) (r : Region), i ≤ j → L.regions[j]? = some r → Passes L m j r) :
    regionLoop L.ihdr Prod.fst (chkRegion L.ihdr) fuel i (m, .IS_Clean) = .ok (m, .IS_Clean) := by
  induction fuel generalizing i with
  | zero => rfl
  | succ fuel ih =>
      have hcount : region_count ((m, IntegStatus.IS_Clean) : Memory × IntegStatus).1 L.ihdr =
        L.regions.length := h.count
      rw [regionLoop, hcount]
      by_cases hlt : i < L.regions.length
      · have hr : L.regions[i]? = some L.regions[i] := List.getElem?_eq_getElem hlt
        rw [if_pos hlt]
        rcases chkRegion_spec hL h hr .IS_Clean with ⟨-, hturn⟩ | ⟨hfail, -⟩
        · rw [hturn]
          exact ih fun j r hj hr' => hpass j r (by omega) hr'
        · exact absurd (hpass i _ (le_refl i) hr) hfail
      · rw [if_neg hlt]

/-- If the turns from `i` on end clean, the regions pass. -/
theorem chk_passes (hL : L.Valid) (h : L.Holds m) (fuel : Nat)
    (hfuel : L.regions.length ≤ i + fuel)
    (hclean : regionLoop L.ihdr Prod.fst (chkRegion L.ihdr) fuel i (m, .IS_Clean) =
      .ok (m', .IS_Clean)) {j : Nat} (hj : i ≤ j) (hr : L.regions[j]? = some r) :
    Passes L m j r := by
  have hjlt := lt_of_region hr
  induction fuel generalizing i with
  | zero => omega
  | succ fuel ih =>
      have hcount : region_count ((m, IntegStatus.IS_Clean) : Memory × IntegStatus).1 L.ihdr =
        L.regions.length := h.count
      have hlt : i < L.regions.length := by omega
      have hri : L.regions[i]? = some L.regions[i] := List.getElem?_eq_getElem hlt
      rw [regionLoop, hcount, if_pos hlt] at hclean
      rcases chkRegion_spec hL h hri .IS_Clean with ⟨hpass, hturn⟩ | ⟨-, s, hturn, hne⟩
      · rcases Nat.eq_or_lt_of_le hj with rfl | hj
        · obtain rfl := Option.some.inj (hr.symm.trans hri)
          exact hpass
        · rw [hturn] at hclean
          exact ih (by omega) hclean hj
      · rw [hturn] at hclean
        exact absurd rfl (chk_alarmed fuel hne hclean)

/-- `integ_chk` is clean, and changes nothing, if every region passes. -/
theorem integ_chk_passing (hL : L.Valid) (h : L.Holds m)
    (hpass : ∀ (j : Nat) (r : Region), L.regions[j]? = some r → Passes L m j r) :
    integ_chk L.ihdr 0 m = .ok (m, .IS_Clean) := by
  have hzero : ¬((0 : Nat) ≠ 0) := not_not.mpr rfl
  rw [integ_chk, if_neg hzero]
  exact chk_passing hL h SIZE_RANGE fun j r _ hr => hpass j r hr

/-- And only then. -/
theorem integ_chk_passes (hL : L.Valid) (h : L.Holds m)
    (hclean : integ_chk L.ihdr 0 m = .ok (m', .IS_Clean)) {j : Nat}
    (hr : L.regions[j]? = some r) : Passes L m j r := by
  have hzero : ¬((0 : Nat) ≠ 0) := not_not.mpr rfl
  rw [integ_chk, if_neg hzero] at hclean
  exact chk_passes hL h SIZE_RANGE hL.count_le hclean (Nat.zero_le j) hr

end Chk

end Bcm2835.Integ

import Bcm2835.Integ.CheckSpec
import Bcm2835.Integ.HashSeed

/-!
# False alarms

A region that ends in the 32-byte block it begins in is hashed from the start of
that block on. If one of the bytes in front of it may change, or is cleared by
`integ_prep` after the hash, the checker raises an alarm for a region that is as
it was. So it does for the bytes of the seed, and for a stack region that is
purgable. What is cleared or stored before the turn of the first region that is
hashed does no harm.
-/

namespace Bcm2835.Integ

open Mem Bytes

namespace Layout

variable (L : Layout)

/-- Whatever the memory, and whatever changes where it may: the checker is clean
and flags nothing. -/
def NoFalseAlarm : Prop :=
  ∀ m0, L.Holds m0 → ∀ m1, integ_prep L.ihdr m0 = .ok m1 →
    ∀ m2, (∀ x, m2 x ≠ m1 x → L.Changeable x) →
      ∃ m3, integ_chk L.ihdr 0 m2 = .ok (m3, .IS_Clean) ∧ ∀ i < L.regions.length,
        region_flags m3 L.ihdr i &&& (IRF_Corrupted ||| IRF_CorruptedSomewhere) = 0

/-- The bytes of the seed. -/
def Seed (x : Nat) : Prop := L.seed ≠ 0 ∧ L.seed ≤ x ∧ x < L.seed + 4

/-- The byte neither may change nor is cleared after the turn of region `k`. -/
def Steady (k x : Nat) : Prop :=
  ¬L.Changeable x ∧ ∀ (j : Nat) (r' : Region), k < j → L.regions[j]? = some r' → r'.Purged → ¬r'.Has x

/-- The hashed part begins in the last block of the address space: everything in front of it is
hashed. -/
def Wraps (r : Region) : Prop := 2 ^ 32 ≤ L.hashStart r + 31

/-- A hash does not read checksums that are still to be stored, and what it reads both as the seed
and in front of its region is steady. -/
structure Settled : Prop where
  cksum : ∀ (k : Nat) (r : Region), L.regions[k]? = some r → r.Hashed → ∀ x,
    L.Lead r x ∨ L.Seed x → ∀ j, k ≤ j → j < L.regions.length → ¬L.Cksum j x
  seed : ∀ (k : Nat) (r : Region), L.regions[k]? = some r → r.Hashed → ∀ x, L.Seed x →
    L.Lead r x ∨ L.Wraps r → L.Steady k x

/-- What is hashed in front of a region is steady, and so is the seed of a region that
is hashed, and a region that must stay clear is not in use below the stack pointer. -/
structure Quiet : Prop where
  lead : ∀ (k : Nat) (r : Region), L.regions[k]? = some r → r.Hashed → ∀ x, L.Lead r x → L.Steady k x
  seed : ∀ (k : Nat) (r : Region), L.regions[k]? = some r → r.Hashed → ∀ x, L.Seed x → L.Steady k x
  purged : ∀ r ∈ L.regions, r.Purged → r.Stack → L.sp ≤ r.p

/-- The words of a memory with nothing but the header. -/
def wordAt (k : Nat) : Nat :=
  if k < 10 then
    if k = 4 then L.seed else if k = 5 then L.flags else if k = 6 then L.sp
    else if k = 8 then L.regions.length else 0
  else
    match L.regions[(k - 10) / 4]? with
    | some r =>
        if (k - 10) % 4 = 0 then r.p else if (k - 10) % 4 = 1 then r.size
        else if (k - 10) % 4 = 2 then r.flags else 0
    | none => 0

/-- That memory. -/
def memory : Memory := fun x => .ofNat (L.wordAt ((x - L.ihdr) / 4) / 256 ^ ((x - L.ihdr) % 4))

end Layout

section Alarms

variable {L : Layout} {m0 m1 m2 : Memory} {k : Nat} {r : Region} {x : Nat}

theorem memory_field {k : Nat} (hlt : L.wordAt k < 2 ^ 32) :
    field L.memory (L.ihdr + 4 * k) = L.wordAt k := by
  have hbyte : ∀ c < 4, (L.memory (L.ihdr + 4 * k + c)).toNat = L.wordAt k / 256 ^ c % 256 := by
    intro c hc
    have hword : (L.ihdr + 4 * k + c - L.ihdr) / 4 = k := by omega
    have hrest : (L.ihdr + 4 * k + c - L.ihdr) % 4 = c := by omega
    rw [Layout.memory, hword, hrest, UInt8.toNat_ofNat']
  have h0 := hbyte 0 (by decide)
  have h1 := hbyte 1 (by decide)
  have h2 := hbyte 2 (by decide)
  have h3 := hbyte 3 (by decide)
  have hread : Mem.read L.memory (L.ihdr + 4 * k) 4 =
      [L.memory (L.ihdr + 4 * k + 0), L.memory (L.ihdr + 4 * k + 1),
        L.memory (L.ihdr + 4 * k + 2), L.memory (L.ihdr + 4 * k + 3)] := rfl
  rw [field, hread]
  simp only [ofLe, h0, h1, h2, h3]
  generalize L.wordAt k = v at hlt ⊢
  omega

/-- It holds the header. -/
theorem memory_holds (hL : L.Valid) : L.Holds L.memory := by
  obtain ⟨hseed, hflags, hsp, hregions⟩ := hL.words
  have hfits := hL.fits
  have hregion : ∀ (i : Nat) (r : Region), L.regions[i]? = some r →
      L.wordAt (10 + 4 * i) = r.p ∧ L.wordAt (10 + 4 * i + 1) = r.size ∧
        L.wordAt (10 + 4 * i + 2) = r.flags := by
    intro i r hr
    have hget : ∀ c < 4, L.regions[(10 + 4 * i + c - 10) / 4]? = some r := fun c hc => by
      have hi : (10 + 4 * i + c - 10) / 4 = i := by omega
      rw [hi, hr]
    have hmod : ∀ c < 4, (10 + 4 * i + c - 10) % 4 = c := fun c hc => by omega
    have hten : ∀ c, ¬10 + 4 * i + c < 10 := fun c => by omega
    have hword : ∀ c < 4, L.wordAt (10 + 4 * i + c) =
        if c = 0 then r.p else if c = 1 then r.size else if c = 2 then r.flags else 0 := by
      intro c hc
      rw [Layout.wordAt, if_neg (hten c), hget c hc]
      simp only [hmod c hc]
    exact ⟨hword 0 (by decide), hword 1 (by decide), hword 2 (by decide)⟩
  have hshort : ∀ {k : Nat}, k < 10 → L.wordAt k =
      if k = 4 then L.seed else if k = 5 then L.flags else if k = 6 then L.sp
      else if k = 8 then L.regions.length else 0 := fun hk => if_pos hk
  have h4 : L.wordAt 4 = L.seed := hshort (by decide)
  have h5 : L.wordAt 5 = L.flags := hshort (by decide)
  have h6 : L.wordAt 6 = L.sp := hshort (by decide)
  have h8 : L.wordAt 8 = L.regions.length := hshort (by decide)
  refine ⟨(memory_field (k := 4) (by rwa [h4])).trans h4,
    (memory_field (k := 5) (by rwa [h5])).trans h5, (memory_field (k := 6) (by rwa [h6])).trans h6,
    (memory_field (k := 8) (by rw [h8]; omega)).trans h8, fun i r hr => ?_⟩
  obtain ⟨hp, hs, hf⟩ := hregion i r hr
  have hends := hL.ends r (mem_of_region hr)
  have hfr := hregions r (mem_of_region hr)
  have haddr : ∀ c, regionAt L.ihdr i + 4 * c = L.ihdr + 4 * (10 + 4 * i + c) := fun c => by
    simp only [regionAt]
    omega
  have hat : ∀ c, L.wordAt (10 + 4 * i + c) < 2 ^ 32 →
      field L.memory (regionAt L.ihdr i + 4 * c) = L.wordAt (10 + 4 * i + c) := fun c hc => by
    rw [haddr, memory_field hc]
  exact ⟨(hat 0 (by rw [Nat.add_zero, hp]; omega)).trans hp,
    (hat 1 (by rw [hs]; omega)).trans hs, (hat 2 (by rwa [hf])).trans hf⟩

/-- Outside of the header it is zero. -/
theorem memory_outside (hx : ¬L.Header x) : L.memory x = 0 := by
  have hzero : L.wordAt ((x - L.ihdr) / 4) = 0 := by
    simp only [Layout.Header, not_and_or, not_le, not_lt] at hx
    rcases hx with hx | hx
    · have hk : (x - L.ihdr) / 4 = 0 := by omega
      rw [hk]
      rfl
    · have hten : ¬(x - L.ihdr) / 4 < 10 := by omega
      have hnone : L.regions[((x - L.ihdr) / 4 - 10) / 4]? = none :=
        List.getElem?_eq_none (by omega)
      rw [Layout.wordAt, if_neg hten, hnone]
  rw [Layout.memory, hzero, Nat.zero_div]
  rfl

/-- A changeable byte is not in the header. -/
theorem changeable_not_header (hL : L.Valid) (hx : L.Changeable x) : ¬L.Header x := by
  obtain ⟨r, hr, hin, -⟩ := hx
  exact hL.apart r hr x hin

theorem holds_of_changed (hL : L.Valid) (h : L.Holds m1)
    (hsame : ∀ x, m2 x ≠ m1 x → L.Changeable x) : L.Holds m2 :=
  h.congr fun x hne hx => absurd hx (changeable_not_header hL (hsame x hne))

/-- The hashed part of a region. -/
theorem hash_range (hL : L.Valid) (hr : L.regions[k]? = some r) :
    r.p ≤ L.hashStart r ∧ stop (L.hashStart r) (L.hashSize r) = r.p + r.size ∧
      L.hashStart r ≤ r.p + r.size := by
  have hmem := mem_of_region hr
  have hends := hL.ends r hmem
  have hstart : r.p ≤ L.hashStart r ∧ L.hashStart r ≤ r.p + r.size := by
    rw [Layout.hashStart]
    split
    · rename_i hstack
      obtain ⟨hlow, hhigh⟩ := hL.stack r hmem hstack
      omega
    · omega
  refine ⟨hstart.1, ?_, hstart.2⟩
  rw [stop, Layout.hashSize]
  omega

/-- The hashed part of a region does not change. -/
theorem hashed_not_changeable (hL : L.Valid) (hr : L.regions[k]? = some r) (hhash : r.Hashed)
    (hlow : L.hashStart r ≤ x) (hhigh : x < r.p + r.size) : ¬L.Changeable x := by
  rintro ⟨r', hr', hin, hwhy⟩
  obtain ⟨j, hj⟩ := List.getElem?_of_mem hr'
  have hstart := (hash_range hL hr).1
  have hself : r.Has x := ⟨by omega, hhigh⟩
  by_cases hkj : k = j
  · subst hkj
    obtain rfl := Option.some.inj (hj.symm.trans hr)
    rcases hwhy with hmut | ⟨hstack, hlt⟩
    · exact hhash.1 hmut
    · have hsp : L.hashStart r' = L.sp := if_pos hstack
      omega
  · exact hL.disjoint k j r r' hr hj hkj x hself hin

/-- A steady seed is the same at the hash, behind `integ_prep` and later on. -/
theorem seed_prepared (hset : L.Settled) (hr : L.regions[k]? = some r) (hhash : r.Hashed)
    (hsteady : ∀ x, L.Seed x → L.Steady k x) {mk : Memory}
    (hmk : ∀ x, mk x ≠ m1 x → ∃ j, k ≤ j ∧ j < L.regions.length ∧ (L.Cksum j x ∨
      ∃ r', k < j ∧ L.regions[j]? = some r' ∧ r'.Purged ∧ r'.Has x)) :
    SameSeed L.seed mk m1 := by
  intro h0 y hy hy'
  have hseed : L.Seed y := ⟨h0, hy, hy'⟩
  by_contra hne
  obtain ⟨j, hkj, hj, hx | ⟨r', hlt, hr', hpur, hin⟩⟩ := hmk y hne
  · exact hset.cksum k r hr hhash y (.inr hseed) j hkj hj hx
  · exact (hsteady y hseed).2 j r' hlt hr' hpur hin

theorem seed_changed (hsteady : ∀ x, L.Seed x → L.Steady k x)
    (hsame : ∀ x, m2 x ≠ m1 x → L.Changeable x) : SameSeed L.seed m1 m2 := by
  intro h0 y hy hy'
  by_contra hne
  exact (hsteady y ⟨h0, hy, hy'⟩).1 (hsame y (Ne.symm hne))

/-! ## Enough -/

/-- Every region passes. -/
theorem quiet_passes (hL : L.Valid) (hset : L.Settled) (hq : L.Quiet)
    (hprep : Prepared L m0 L.regions.length m1) (hsame : ∀ x, m2 x ≠ m1 x → L.Changeable x)
    (hr : L.regions[k]? = some r) : Passes L m2 k r where
  hash hhash := by
    obtain ⟨mk, hck, -, hmk⟩ := hprep.hash k (lt_of_region hr) r hr hhash
    have hcksum : region_cksum m2 L.ihdr k = region_cksum m1 L.ihdr k :=
      cksum_congr fun x hx => by
        by_contra hne
        exact changeable_not_header hL (hsame x hne) (cksum_header (lt_of_region hr) hx)
    obtain ⟨hstart, hstop, -⟩ := hash_range hL hr
    rw [hcksum, hck]
    refine congrArg BitVec.toNat (hash_congr ?_ fun y hlow hhigh => ?_)
    · intro h0 y hy hy'
      have hsteady := hq.seed k r hr hhash
      exact (seed_changed hsteady hsame h0 y hy hy').symm.trans
        (seed_prepared hset hr hhash hsteady hmk h0 y hy hy').symm
    · rw [hstop] at hhigh
      -- a byte in front of the region, or one of its own
      rcases Nat.lt_or_ge y (L.hashStart r) with hy | hy
      · have hlead : L.Lead r y := ⟨by omega, hy⟩
        obtain ⟨hch, hpurged⟩ := hq.lead k r hr hhash y hlead
        have h21 : m2 y = m1 y := by
          by_contra hne
          exact hch (hsame y hne)
        rw [h21]
        by_contra hne
        obtain ⟨j, hkj, hj, hx | ⟨r', hlt, hr', hpur, hin⟩⟩ := hmk y (Ne.symm hne)
        · exact hset.cksum k r hr hhash y (.inl hlead) j hkj hj hx
        · exact hpurged j r' hlt hr' hpur hin
      · have hself : r.Has y := ⟨by omega, hhigh⟩
        have h21 : m2 y = m1 y := by
          by_contra hne
          exact hashed_not_changeable hL hr hhash hy hhigh (hsame y hne)
        rw [h21]
        by_contra hne
        obtain ⟨j, hkj, hj, hx | ⟨r', hlt, hr', -, hin⟩⟩ := hmk y (Ne.symm hne)
        · exact hL.apart r (mem_of_region hr) y hself (cksum_header hj hx)
        · exact hL.disjoint k j r r' hr hr' (by omega) y hself hin
  clear hpur x hx := by
    have h21 : m2 x = m1 x := by
      by_contra hne
      obtain ⟨r', hr', hin, hwhy⟩ := hsame x hne
      obtain ⟨j, hj⟩ := List.getElem?_of_mem hr'
      by_cases hkj : k = j
      · subst hkj
        obtain rfl := Option.some.inj (hj.symm.trans hr)
        rcases hwhy with hmut | ⟨hstack, hlt⟩
        · exact hpur.1 hmut
        · have hle := hq.purged r' hr' hpur hstack
          have hlow := hx.1
          omega
      · exact hL.disjoint k j r r' hr hj hkj x hx hin
    rw [h21]
    exact hprep.clear k (lt_of_region hr) r hr hpur x hx

theorem quiet_noFalseAlarm (hL : L.Valid) (hset : L.Settled) (hq : L.Quiet) :
    L.NoFalseAlarm := by
  intro m0 h0 m1 h1 m2 hsame
  obtain ⟨m1', h1', hprep⟩ := integ_prep_spec hL h0
  obtain rfl : m1' = m1 := Except.ok.inj (h1'.symm.trans h1)
  have h2 := holds_of_changed hL hprep.holds hsame
  refine ⟨m2, ?_, fun i hi => ?_⟩
  · have hpass : ∀ (j : Nat) (r : Region), L.regions[j]? = some r → Passes L m2 j r :=
      fun j r hr => quiet_passes hL hset hq hprep hsame hr
    exact integ_chk_passing hL h2 hpass
  · have hr : L.regions[i]? = some L.regions[i] := List.getElem?_eq_getElem hi
    rw [(h2.region i _ hr).2.2]
    exact hL.fresh _ (mem_of_region hr)

/-! ## Needed -/

/-- After a change that is allowed, every region passes. -/
theorem noFalseAlarm_passes (hL : L.Valid) (hno : L.NoFalseAlarm) (h0 : L.Holds m0)
    (h1 : integ_prep L.ihdr m0 = .ok m1) (hholds : L.Holds m1)
    (hsame : ∀ x, m2 x ≠ m1 x → L.Changeable x) (hr : L.regions[k]? = some r) :
    Passes L m2 k r := by
  obtain ⟨m3, hclean, -⟩ := hno m0 h0 m1 h1 m2 hsame
  exact integ_chk_passes hL (holds_of_changed hL hholds hsame) hclean hr

theorem changed_one {b : UInt8} (hx : L.Changeable x) :
    ∀ y, Function.update m1 x b y ≠ m1 y → L.Changeable y := by
  intro y hne
  by_cases hy : y = x
  · rw [hy]
    exact hx
  · exact absurd (Function.update_of_ne hy b m1) hne

theorem cksum_changed (hL : L.Valid) (hr : L.regions[k]? = some r) (hx : L.Changeable x) (b : UInt8) :
    region_cksum (Function.update m1 x b) L.ihdr k = region_cksum m1 L.ihdr k :=
  cksum_congr fun y hy => by
    refine Function.update_of_ne ?_ _ _
    rintro rfl
    exact changeable_not_header hL hx (cksum_header (lt_of_region hr) hy)

/-- What the hash of region `k` reads of its region and of its seed. -/
def Layout.Reads (L : Layout) (r : Region) (y : Nat) : Prop :=
  (L.hashStart r ≤ y ∧ y < r.p + r.size) ∨ L.Seed y

theorem holds_update {n : Memory} (hn : L.Holds n) (hout : ¬L.Header x) (b : UInt8) :
    L.Holds (Function.update n x b) := by
  refine hn.congr fun y hne hy => ?_
  by_cases hyx : y = x
  · exact absurd (hyx ▸ hy) hout
  · exact absurd (Function.update_of_ne hyx b n) hne

/-- A byte that is set at first and cleared after the hash of region `k` is still set at the hash.
The other bytes that the hash reads are what they are behind `integ_prep`, if those that are cleared
were clear. -/
theorem hash_of_set (hL : L.Valid) (hset : L.Settled) (hr : L.regions[k]? = some r)
    (hhash : r.Hashed) {j : Nat} {r' : Region} (hkj : k < j) (hr' : L.regions[j]? = some r')
    (hpur : r'.Purged) (hin : r'.Has x) {n : Memory} {b : UInt8}
    (hzero : ∀ (i : Nat) (r'' : Region) (y : Nat), k < i → L.regions[i]? = some r'' → r''.Has y →
      n y = 0) (hprep : Prepared L (Function.update n x b) L.regions.length m1) :
    ∃ mk, region_cksum m1 L.ihdr k = (L.hashOf r mk).toNat ∧ mk x = b ∧ m1 x = 0 ∧
      ∀ y, y ≠ x → L.Lead r y ∨ L.Reads r y → mk y = m1 y := by
  obtain ⟨mk, hck, hmk0, hmk⟩ := hprep.hash k (lt_of_region hr) r hr hhash
  have hbefore : ∀ {y : Nat} {i : Nat} {r'' : Region}, k < i → L.regions[i]? = some r'' →
      r''.Has y → mk y = Function.update n x b y := by
    intro y i r'' hki hr'' hy
    by_contra hne
    obtain ⟨i', hi', hc | ⟨r3, hlt, hr3, -, hin3⟩⟩ := hmk0 y hne
    · exact hL.apart r'' (mem_of_region hr'') y hy
        (cksum_header (Nat.lt_of_le_of_lt hi' (lt_of_region hr)) hc)
    · exact hL.disjoint i i' r'' r3 hr'' hr3 (by omega) y hy hin3
  have hstart := (hash_range hL hr).1
  refine ⟨mk, hck, ?_, hprep.clear j (lt_of_region hr') r' hr' hpur x hin, fun y hyx hy => ?_⟩
  · rw [hbefore hkj hr' hin, Function.update_self]
  · by_contra hney
    obtain ⟨i, hki, hi, hc | ⟨r'', hlt, hr'', hpur'', hin''⟩⟩ := hmk y hney
    · rcases hy with hlead | ⟨hlow, hhigh⟩ | hseed
      · exact hset.cksum k r hr hhash y (.inl hlead) i hki hi hc
      · exact hL.apart r (mem_of_region hr) y ⟨by omega, hhigh⟩ (cksum_header hi hc)
      · exact hset.cksum k r hr hhash y (.inr hseed) i hki hi hc
    · refine hney ?_
      rw [hbefore hlt hr'' hin'', Function.update_of_ne hyx, hzero i r'' y hlt hr'' hin'',
        hprep.clear i (lt_of_region hr'') r'' hr'' hpur'' y hin'']

theorem memory_clear (hL : L.Valid) (hr : L.regions[k]? = some r) (hx : r.Has x) :
    L.memory x = 0 := memory_outside (hL.apart r (mem_of_region hr) x hx)

/-! ### The seed -/

section Seeded

variable {n : Memory} {y : Nat}

theorem hashOf_congr (hL : L.Valid) (hr : L.regions[k]? = some r)
    (hlead : L.hashStart r ≤ start_block (L.hashStart r) (L.hashSize r))
    (h : ∀ y, L.Reads r y → m1 y = m2 y) : L.hashOf r m1 = L.hashOf r m2 := by
  obtain ⟨-, hstop, -⟩ := hash_range hL hr
  exact hash_congr (fun h0 y hy hy' => h y (.inr ⟨h0, hy, hy'⟩)) fun y hlow hhigh =>
    h y (.inl ⟨by omega, by omega⟩)

/-- A seed with a byte outside of the header is no checksum. -/
theorem reads_not_cksum (hL : L.Valid) (hset : L.Settled) (hr : L.regions[k]? = some r)
    (hhash : r.Hashed) (hx : L.Seed x) (hout : ¬L.Header x) (hy : L.Reads r y) {j : Nat}
    (hj : j < L.regions.length) : ¬L.Cksum j y := by
  intro hck
  rcases hy with ⟨hlow, hhigh⟩ | hseed
  · have hstart := (hash_range hL hr).1
    exact hL.apart r (mem_of_region hr) y ⟨by omega, hhigh⟩ (cksum_header hj hck)
  · by_cases hkj : k ≤ j
    · exact hset.cksum k r hr hhash y (.inr hseed) j hkj hj hck
    · have hk := lt_of_region hr
      obtain ⟨-, hx1, hx2⟩ := hx
      obtain ⟨-, hy1, hy2⟩ := hseed
      obtain ⟨hc1, hc2⟩ := hck
      simp only [regionAt] at hc1 hc2
      simp only [Layout.Header, not_and_or, not_le, not_lt] at hout
      omega

/-- Of what is read only the seed is cleared. -/
theorem reads_purged (hL : L.Valid) (hr : L.regions[k]? = some r) (hhash : r.Hashed)
    (hy : L.Reads r y) {j : Nat} {r' : Region} (hr' : L.regions[j]? = some r') (hpur : r'.Purged)
    (hin : r'.Has y) : L.Seed y := by
  rcases hy with ⟨hlow, hhigh⟩ | hseed
  · have hstart := (hash_range hL hr).1
    by_cases hkj : k = j
    · subst hkj
      obtain rfl := Option.some.inj (hr'.symm.trans hr)
      exact absurd hpur.2 hhash.2
    · exact absurd hin (hL.disjoint k j r r' hr hr' hkj y ⟨by omega, hhigh⟩)
  · exact hseed

/-- A memory that is zero where the seed is not in the header is prepared as far as it
is read. -/
theorem prepared_reads (hL : L.Valid) (hset : L.Settled) (hr : L.regions[k]? = some r)
    (hhash : r.Hashed) (hx : L.Seed x) (hout : ¬L.Header x)
    (hn : ∀ y, n y ≠ L.memory y → r.Has y ∧ ¬L.Seed y) (hy : L.Reads r y) (h0 : m0 y = n y)
    (hprep : Prepared L m0 L.regions.length m1) : m1 y = n y := by
  by_contra hne
  obtain ⟨j, hj, hck | ⟨r', hr', hpur, hin⟩⟩ := hprep.changed y (fun heq => hne (heq.trans h0))
  · exact reads_not_cksum hL hset hr hhash hx hout hy hj hck
  · have hseed := reads_purged hL hr hhash hy hr' hpur hin
    have hclear := hprep.clear j hj r' hr' hpur y hin
    refine hne (hclear.trans ?_)
    by_contra hny
    exact (hn y fun heq => hny (heq.trans (memory_clear hL hr' hin)).symm).2 hseed

/-- For a byte of the seed outside of the header there is a memory for which it makes a
difference. -/
theorem exists_seed_ne (hL : L.Valid) (hr : L.regions[k]? = some r) (hx : L.Seed x)
    (hlead : L.hashStart r ≤ start_block (L.hashStart r) (L.hashSize r)) (hout : ¬L.Header x)
    (hin : ¬(L.hashStart r ≤ x ∧ x < r.p + r.size)) :
    ∃ n : Memory, L.Holds n ∧ (∀ y, n y ≠ L.memory y → r.Has y ∧ ¬L.Seed y) ∧
      L.hashOf r n ≠ L.hashOf r (Function.update n x 128) := by
  obtain ⟨hstart, hstop, -⟩ := hash_range hL hr
  have hapart : x < min (start_block (L.hashStart r) (L.hashSize r)) (L.hashStart r) ∨
      stop (L.hashStart r) (L.hashSize r) ≤ x := by omega
  obtain ⟨n, hn, hne⟩ := hash_seed_ne hx.1 hx.2.1 hx.2.2 (memory_outside hout) hapart
  have hself : ∀ y, n y ≠ L.memory y → r.Has y ∧ ¬L.Seed y := fun y hy => by
    obtain ⟨hlow, hhigh, hseed⟩ := hn y hy
    refine ⟨⟨by omega, by omega⟩, fun ⟨_, hy1, hy2⟩ => ?_⟩
    omega
  exact ⟨n, (memory_holds hL).congr fun y hy hhead =>
    absurd hhead (hL.apart r (mem_of_region hr) y (hself y hy).1), hself, hne⟩

/-- A byte of the seed that may change raises an alarm. -/
theorem seed_not_changeable (hL : L.Valid) (hset : L.Settled) (hno : L.NoFalseAlarm)
    (hr : L.regions[k]? = some r) (hhash : r.Hashed) (hx : L.Seed x)
    (hlead : L.hashStart r ≤ start_block (L.hashStart r) (L.hashSize r)) : ¬L.Changeable x := by
  intro hch
  obtain ⟨hstart, hstop, -⟩ := hash_range hL hr
  have hout := changeable_not_header hL hch
  obtain ⟨n, hholds, hn, hne⟩ := exists_seed_ne hL hr hx hlead hout
    fun hin => hashed_not_changeable hL hr hhash hin.1 hin.2 hch
  obtain ⟨m1, h1, hprep⟩ := integ_prep_spec hL hholds
  have hread : ∀ y, L.Reads r y → m1 y = n y := fun y hy =>
    prepared_reads hL hset hr hhash hx hout hn hy rfl hprep
  have hread' : ∀ y, L.Reads r y → Function.update m1 x 128 y = Function.update n x 128 y := by
    intro y hy
    by_cases hyx : y = x
    · rw [hyx, Function.update_self, Function.update_self]
    · rw [Function.update_of_ne hyx, Function.update_of_ne hyx, hread y hy]
  have hpass1 := noFalseAlarm_passes hL hno hholds h1 hprep.holds
    (fun y (hne : m1 y ≠ m1 y) => absurd rfl hne) hr
  have hpass2 := noFalseAlarm_passes hL hno hholds h1 hprep.holds (changed_one (b := 128) hch) hr
  refine hne ?_
  rw [← hashOf_congr hL hr hlead hread, ← hashOf_congr hL hr hlead hread']
  apply BitVec.eq_of_toNat_eq
  rw [hpass1.hash hhash, hpass2.hash hhash, cksum_changed hL hr hch]

/-- So does one that is cleared after the hash. -/
theorem seed_not_purged (hL : L.Valid) (hset : L.Settled) (hno : L.NoFalseAlarm)
    (hr : L.regions[k]? = some r) (hhash : r.Hashed) (hx : L.Seed x)
    (hlead : L.hashStart r ≤ start_block (L.hashStart r) (L.hashSize r))
    {j : Nat} {r' : Region} (hkj : k < j) (hr' : L.regions[j]? = some r') (hpur : r'.Purged) :
    ¬r'.Has x := by
  intro hin
  have hstart := (hash_range hL hr).1
  have hout := hL.apart r' (mem_of_region hr') x hin
  obtain ⟨n, hholds, hn, hne⟩ := exists_seed_ne hL hr hx hlead hout fun hx' =>
    hL.disjoint k j r r' hr hr' (by omega) x ⟨by omega, hx'.2⟩ hin
  have hzero : ∀ (i : Nat) (r'' : Region) (y : Nat), k < i → L.regions[i]? = some r'' →
      r''.Has y → n y = 0 := by
    intro i r'' y hki hr'' hy
    by_contra hny
    exact hL.disjoint i k r'' r hr'' hr (by omega) y hy
      (hn y fun heq => hny (heq.trans (memory_clear hL hr'' hy))).1
  -- the byte is set at first
  have h0 := holds_update hholds hout 128
  obtain ⟨m1, h1, hprep⟩ := integ_prep_spec hL h0
  have hpass := noFalseAlarm_passes hL hno h0 h1 hprep.holds
    (fun y (hne : m1 y ≠ m1 y) => absurd rfl hne) hr
  obtain ⟨mk, hck, hmkx, hm1x, hkeep⟩ :=
    hash_of_set hL hset hr hhash hkj hr' hpur hin hzero hprep
  -- behind `integ_prep` it is clear
  have hread : ∀ y, L.Reads r y → m1 y = n y := by
    intro y hy
    by_cases hyx : y = x
    · rw [hyx, hm1x, hzero j r' x hkj hr' hin]
    · exact prepared_reads hL hset hr hhash hx hout hn hy (Function.update_of_ne hyx _ _) hprep
  -- at the hash it is not
  have hread' : ∀ y, L.Reads r y → mk y = Function.update n x 128 y := by
    intro y hy
    by_cases hyx : y = x
    · rw [hyx, hmkx, Function.update_self]
    · rw [hkeep y hyx (.inr hy), hread y hy, Function.update_of_ne hyx]
  refine hne ?_
  rw [← hashOf_congr hL hr hlead hread, ← hashOf_congr hL hr hlead hread']
  apply BitVec.eq_of_toNat_eq
  rw [hpass.hash hhash, hck]

end Seeded

/-! ### In front of a region -/

/-- A changeable byte that is hashed raises an alarm. -/
theorem lead_not_changeable (hL : L.Valid) (hno : L.NoFalseAlarm) (hr : L.regions[k]? = some r)
    (hhash : r.Hashed) (hlead : L.Lead r x) (hseed : ¬L.Seed x) : ¬L.Changeable x := by
  intro hx
  obtain ⟨m1, h1, hprep⟩ := integ_prep_spec hL (memory_holds hL)
  have hsame1 : ∀ y, m1 y ≠ m1 y → L.Changeable y := fun y hne => absurd rfl hne
  have hne : m1 x ≠ Function.update m1 x (m1 x + 1) x := by
    rw [Function.update_self]
    intro heq
    have hnat := congrArg UInt8.toNat heq
    have hlt := (m1 x).toNat_lt
    rw [UInt8.toNat_add, UInt8.toNat_one] at hnat
    omega
  have hpass1 := noFalseAlarm_passes hL hno (memory_holds hL) h1 hprep.holds hsame1 hr
  have hpass2 := noFalseAlarm_passes hL hno (memory_holds hL) h1 hprep.holds
    (changed_one (b := m1 x + 1) hx) hr
  have hhashes : L.hashOf r m1 = L.hashOf r (Function.update m1 x (m1 x + 1)) := by
    apply BitVec.eq_of_toNat_eq
    rw [hpass1.hash hhash, hpass2.hash hhash, cksum_changed hL hr hx]
  have hother : ∀ y, y ≠ x → m1 y = Function.update m1 x (m1 x + 1) y := fun y hy =>
    (Function.update_of_ne hy _ _).symm
  obtain ⟨-, hstop, hle⟩ := hash_range hL hr
  refine hash_ne (fun h0 y hy hy' => hother y ?_) hlead.1 hlead.2 ?_ hne
    (fun y hy _ _ => hother y hy) hhashes
  · rintro rfl
    exact hseed ⟨h0, hy, hy'⟩
  · have hlt := hlead.2
    omega

/-- So does a byte that is cleared after it was hashed. -/
theorem lead_not_purged (hL : L.Valid) (hset : L.Settled) (hno : L.NoFalseAlarm)
    (hr : L.regions[k]? = some r) (hhash : r.Hashed) (hlead : L.Lead r x) (hseed : ¬L.Seed x)
    {j : Nat} {r' : Region} (hkj : k < j) (hr' : L.regions[j]? = some r') (hpur : r'.Purged) :
    ¬r'.Has x := by
  intro hin
  have h0 := holds_update (memory_holds hL) (hL.apart r' (mem_of_region hr') x hin) 1
  obtain ⟨m1, h1, hprep⟩ := integ_prep_spec hL h0
  have hpass := noFalseAlarm_passes hL hno h0 h1 hprep.holds
    (fun y (hne : m1 y ≠ m1 y) => absurd rfl hne) hr
  obtain ⟨mk, hck, hmkx, hm1x, hread⟩ := hash_of_set hL hset hr hhash hkj hr' hpur hin
    (fun _ _ _ _ hr'' hy => memory_clear hL hr'' hy) hprep
  have hhashes : L.hashOf r mk = L.hashOf r m1 := by
    apply BitVec.eq_of_toNat_eq
    rw [hpass.hash hhash, hck]
  obtain ⟨hstart, hstop, hle⟩ := hash_range hL hr
  refine hash_ne (fun hne y hy hy' => hread y ?_ (.inr (.inr ⟨hne, hy, hy'⟩))) hlead.1 hlead.2 ?_ ?_
    (fun y hyx hlow hhigh => hread y hyx ?_) hhashes
  · rintro rfl
    exact hseed ⟨hne, hy, hy'⟩
  · have hlt := hlead.2
    omega
  · rw [hmkx, hm1x]
    decide
  · rw [hstop] at hhigh
    rcases Nat.lt_or_ge y (L.hashStart r) with hy | hy
    · exact .inl ⟨hlow, hy⟩
    · exact .inr (.inl ⟨hy, hhigh⟩)

/-! ### The seed of a region that is hashed from further down -/

section Tail

/-- Behind `integ_prep` a byte outside of the header that was clear is clear. -/
theorem prepared_clear (hprep : Prepared L m0 L.regions.length m1) (hout : ¬L.Header x)
    (h0 : m0 x = 0) : m1 x = 0 := by
  by_contra hne
  obtain ⟨j, hj, hck | ⟨r', hr', hpur, hin⟩⟩ := hprep.changed x fun heq => hne (heq.trans h0)
  · exact hout (cksum_header hj hck)
  · exact hne (hprep.clear j hj r' hr' hpur x hin)

/-- A byte of the seed that is not hashed itself makes a difference. -/
theorem hashOf_tail_ne (hL : L.Valid) (hr : L.regions[k]? = some r) (hwraps : ¬L.Wraps r)
    (hlt : start_block (L.hashStart r) (L.hashSize r) < L.hashStart r) (hx : L.Seed x)
    (hlead : ¬L.Lead r x) (hself : ¬(L.hashStart r ≤ x ∧ x < r.p + r.size)) (hzero : m1 x = 0) :
    L.hashOf r m1 ≠ L.hashOf r (Function.update m1 x 128) := by
  obtain ⟨-, hstop, -⟩ := hash_range hL hr
  have htail : stop_block (L.hashStart r) (L.hashSize r) =
      start_block (L.hashStart r) (L.hashSize r) := by
    simp only [Layout.Wraps] at hwraps
    rw [start_block] at hlt ⊢
    omega
  simp only [Layout.Lead, not_and_or] at hlead hself
  exact hash_seed_ne_of_tail hx.1 hx.2.1 hx.2.2 hzero (by omega) htail

/-- A byte of the seed that may change raises an alarm. -/
theorem tail_seed_not_changeable (hL : L.Valid) (hno : L.NoFalseAlarm)
    (hr : L.regions[k]? = some r) (hhash : r.Hashed) (hwraps : ¬L.Wraps r)
    (hlt : start_block (L.hashStart r) (L.hashSize r) < L.hashStart r) (hx : L.Seed x)
    (hlead : ¬L.Lead r x) : ¬L.Changeable x := by
  intro hch
  obtain ⟨m1, h1, hprep⟩ := integ_prep_spec hL (memory_holds hL)
  have hout := changeable_not_header hL hch
  have hpass1 := noFalseAlarm_passes hL hno (memory_holds hL) h1 hprep.holds
    (fun y (hne : m1 y ≠ m1 y) => absurd rfl hne) hr
  have hpass2 := noFalseAlarm_passes hL hno (memory_holds hL) h1 hprep.holds
    (changed_one (b := 128) hch) hr
  refine hashOf_tail_ne hL hr hwraps hlt hx hlead
    (fun hin => hashed_not_changeable hL hr hhash hin.1 hin.2 hch)
    (prepared_clear hprep hout (memory_outside hout)) ?_
  apply BitVec.eq_of_toNat_eq
  rw [hpass1.hash hhash, hpass2.hash hhash, cksum_changed hL hr hch]

/-- So does one that is cleared after the hash. -/
theorem tail_seed_not_purged (hL : L.Valid) (hset : L.Settled) (hno : L.NoFalseAlarm)
    (hr : L.regions[k]? = some r) (hhash : r.Hashed) (hwraps : ¬L.Wraps r)
    (hlt : start_block (L.hashStart r) (L.hashSize r) < L.hashStart r) (hx : L.Seed x)
    (hlead : ¬L.Lead r x) {j : Nat} {r' : Region} (hkj : k < j) (hr' : L.regions[j]? = some r')
    (hpur : r'.Purged) : ¬r'.Has x := by
  intro hin
  have h0 := holds_update (memory_holds hL) (hL.apart r' (mem_of_region hr') x hin) 128
  obtain ⟨m1, h1, hprep⟩ := integ_prep_spec hL h0
  have hpass := noFalseAlarm_passes hL hno h0 h1 hprep.holds
    (fun y (hne : m1 y ≠ m1 y) => absurd rfl hne) hr
  obtain ⟨mk, hck, hmkx, hm1x, hread⟩ := hash_of_set hL hset hr hhash hkj hr' hpur hin
    (fun _ _ _ _ hr'' hy => memory_clear hL hr'' hy) hprep
  obtain ⟨hstart, hstop, -⟩ := hash_range hL hr
  -- at the hash the byte is set, and behind `integ_prep` it is clear
  have hread' : ∀ y, L.Lead r y ∨ L.Reads r y → Function.update m1 x 128 y = mk y := by
    intro y hy
    by_cases hyx : y = x
    · rw [hyx, Function.update_self, hmkx]
    · rw [Function.update_of_ne hyx, hread y hyx hy]
  have hupdate : L.hashOf r (Function.update m1 x 128) = L.hashOf r mk :=
    hash_congr (fun h0 y hy hy' => hread' y (.inr (.inr ⟨h0, hy, hy'⟩))) fun y hlow hhigh => by
      rcases Nat.lt_or_ge y (L.hashStart r) with hy | hy
      · exact hread' y (.inl ⟨by omega, hy⟩)
      · exact hread' y (.inr (.inl ⟨hy, by omega⟩))
  refine hashOf_tail_ne hL hr hwraps hlt hx hlead (fun hself => ?_) hm1x ?_
  · exact hL.disjoint k j r r' hr hr' (by omega) x ⟨by omega, hself.2⟩ hin
  · apply BitVec.eq_of_toNat_eq
    rw [hupdate, hpass.hash hhash, hck]

end Tail

/-- The seed of a region that is hashed is steady. -/
theorem seed_steady (hL : L.Valid) (hset : L.Settled) (hno : L.NoFalseAlarm)
    (hr : L.regions[k]? = some r) (hhash : r.Hashed) (hx : L.Seed x) : L.Steady k x := by
  by_cases hboth : L.Lead r x ∨ L.Wraps r
  · exact hset.seed k r hr hhash x hx hboth
  obtain ⟨hlead, hwraps⟩ := not_or.mp hboth
  rcases Nat.lt_or_ge (start_block (L.hashStart r) (L.hashSize r)) (L.hashStart r) with hlt | hge
  · exact ⟨tail_seed_not_changeable hL hno hr hhash hwraps hlt hx hlead, fun _ _ hkj hr' hpur =>
      tail_seed_not_purged hL hset hno hr hhash hwraps hlt hx hlead hkj hr' hpur⟩
  · exact ⟨seed_not_changeable hL hset hno hr hhash hx hge, fun _ _ hkj hr' hpur =>
      seed_not_purged hL hset hno hr hhash hx hge hkj hr' hpur⟩

/-- And so is what is hashed in front of it. -/
theorem lead_steady (hL : L.Valid) (hset : L.Settled) (hno : L.NoFalseAlarm)
    (hr : L.regions[k]? = some r) (hhash : r.Hashed) (hlead : L.Lead r x) : L.Steady k x := by
  by_cases hseed : L.Seed x
  · exact hset.seed k r hr hhash x hseed (.inl hlead)
  · exact ⟨lead_not_changeable hL hno hr hhash hlead hseed, fun _ _ hkj hr' hpur =>
      lead_not_purged hL hset hno hr hhash hlead hseed hkj hr' hpur⟩

theorem noFalseAlarm_quiet (hL : L.Valid) (hset : L.Settled) (hno : L.NoFalseAlarm) : L.Quiet where
  lead k r hr hhash x hlead := lead_steady hL hset hno hr hhash hlead
  seed k r hr hhash x hx := seed_steady hL hset hno hr hhash hx
  purged r hr hpur hstack := by
    by_contra hlt
    obtain ⟨k, hk⟩ := List.getElem?_of_mem hr
    obtain ⟨hlow, hhigh⟩ := hL.stack r hr hstack
    have hin : r.Has r.p := ⟨le_refl _, by omega⟩
    have hx : L.Changeable r.p := ⟨r, hr, hin, .inr ⟨hstack, by omega⟩⟩
    obtain ⟨m1, h1, hprep⟩ := integ_prep_spec hL (memory_holds hL)
    have hpass := noFalseAlarm_passes hL hno (memory_holds hL) h1 hprep.holds (changed_one (b := 1) hx) hk
    have hzero := hpass.clear hpur r.p hin
    rw [Function.update_self] at hzero
    exact absurd hzero (by decide)

end Alarms

/-! ## The condition -/

/-- Where the hashes read nothing that is still to be stored, there is no false alarm
just if nothing that changes is hashed in front of a region or as the seed, and no
purgable region is stack below the stack pointer. -/
theorem noFalseAlarm_iff {L : Layout} (hL : L.Valid) (hset : L.Settled) :
    L.NoFalseAlarm ↔ L.Quiet :=
  ⟨noFalseAlarm_quiet hL hset, quiet_noFalseAlarm hL hset⟩

/-- A region of eight bytes and a critical one of four. -/
def neighbours (seed f p : Nat) : Layout where
  ihdr := 0x1000
  seed := seed
  flags := 0
  sp := 0
  regions := [⟨0x2000, 8, f⟩, ⟨p, 4, IRF_Critical⟩]

section Neighbours

variable {seed f p : Nat}

theorem neighbours_cases {i : Nat} {r : Region} (hr : (neighbours seed f p).regions[i]? = some r) :
    (i = 0 ∧ r = ⟨0x2000, 8, f⟩) ∨ (i = 1 ∧ r = ⟨p, 4, IRF_Critical⟩) := by
  match i with
  | 0 => exact .inl ⟨rfl, (Option.some.inj hr).symm⟩
  | 1 => exact .inr ⟨rfl, (Option.some.inj hr).symm⟩
  | n + 2 => cases hr

theorem neighbours_all {P : Region → Prop} (h0 : P ⟨0x2000, 8, f⟩) (h1 : P ⟨p, 4, IRF_Critical⟩) :
    ∀ r ∈ (neighbours seed f p).regions, P r := by
  intro r hr
  obtain ⟨i, hi⟩ := List.getElem?_of_mem hr
  rcases neighbours_cases hi with ⟨-, rfl⟩ | ⟨-, rfl⟩
  · exact h0
  · exact h1

theorem critical_flags : IRF_Critical &&& IRF_Purgable = 0 ∧ IRF_Critical &&& IRF_Stack = 0 ∧
    IRF_Critical &&& (IRF_Corrupted ||| IRF_CorruptedSomewhere) = 0 ∧
    IRF_Critical &&& IRF_Mutable = 0 := by decide

theorem neighbours_valid (hf : f = IRF_Mutable ∨ f = IRF_Purgable) (hseed : seed < 2 ^ 32)
    (hlow : 0x2008 ≤ p) (hhigh : p < 0x3000) : (neighbours seed f p).Valid where
  fits := by
    show 0x1000 + 40 + 16 * 2 ≤ 2 ^ 32
    decide
  words := by
    refine ⟨hseed, Nat.two_pow_pos 32, Nat.two_pow_pos 32, neighbours_all ?_ ?_⟩
    · rcases hf with rfl | rfl <;> decide
    · show IRF_Critical < 2 ^ 32
      decide
  ends := by
    refine neighbours_all ?_ ?_
    · show 0x2000 + 8 < 2 ^ 32
      decide
    · show p + 4 < 2 ^ 32
      omega
  disjoint i j r r' hi hj hne x hx hx' := by
    obtain ⟨h1, h2⟩ := hx
    obtain ⟨h3, h4⟩ := hx'
    rcases neighbours_cases hi with ⟨rfl, rfl⟩ | ⟨rfl, rfl⟩ <;>
      rcases neighbours_cases hj with ⟨rfl, rfl⟩ | ⟨rfl, rfl⟩
    · exact hne rfl
    · simp only at h1 h2 h3 h4
      omega
    · simp only at h1 h2 h3 h4
      omega
    · exact hne rfl
  apart := by
    have hhead : ∀ x, (neighbours seed f p).Header x → x < 0x1048 := fun x hx => hx.2
    refine neighbours_all (fun x hx hx' => ?_) (fun x hx hx' => ?_)
    · have hlt := hhead x hx'
      have hge : 0x2000 ≤ x := hx.1
      omega
    · have hlt := hhead x hx'
      have hge : p ≤ x := hx.1
      omega
  purgable := by
    refine neighbours_all (fun _ => ?_) (fun h => absurd critical_flags.1 h)
    rcases hf with rfl | rfl
    · rename_i h
      exact absurd (by decide) h
    · decide
  stack := by
    refine neighbours_all (fun h => absurd ?_ h) (fun h => absurd critical_flags.2.1 h)
    rcases hf with rfl | rfl <;> decide
  fresh := by
    refine neighbours_all ?_ critical_flags.2.2.1
    rcases hf with rfl | rfl <;> decide
  noCleanup := Nat.zero_and _

/-- Where the critical region is hashed from. -/
theorem neighbours_hashStart : (neighbours seed f p).hashStart ⟨p, 4, IRF_Critical⟩ = p ∧
    (neighbours seed f p).hashSize ⟨p, 4, IRF_Critical⟩ = 4 := by
  have hp : (neighbours seed f p).hashStart ⟨p, 4, IRF_Critical⟩ = p :=
    if_neg (not_not.mpr critical_flags.2.1)
  rw [Layout.hashSize, hp]
  exact ⟨rfl, Nat.add_sub_cancel_left ..⟩

/-- Only the critical region is hashed. -/
theorem neighbours_hashed (hf : f = IRF_Mutable ∨ f = IRF_Purgable) {i : Nat} {r : Region}
    (hr : (neighbours seed f p).regions[i]? = some r) (hhash : r.Hashed) :
    i = 1 ∧ r = ⟨p, 4, IRF_Critical⟩ := by
  rcases neighbours_cases hr with ⟨-, rfl⟩ | h
  · rcases hf with rfl | rfl
    · exact absurd (show IRF_Mutable &&& IRF_Mutable ≠ 0 by decide) hhash.1
    · exact absurd (show IRF_Purgable &&& IRF_Purgable ≠ 0 by decide) hhash.2
  · exact h

/-- In a block of its own it is hashed alone. -/
theorem neighbours_lead (hf : f = IRF_Mutable ∨ f = IRF_Purgable) {i : Nat} {r : Region}
    (hr : (neighbours seed f 0x2020).regions[i]? = some r) (hhash : r.Hashed) :
    (neighbours seed f 0x2020).hashStart r ≤ start_block ((neighbours seed f 0x2020).hashStart r)
      ((neighbours seed f 0x2020).hashSize r) := by
  obtain ⟨-, rfl⟩ := neighbours_hashed hf hr hhash
  rw [neighbours_hashStart.1, neighbours_hashStart.2]
  decide

theorem neighbours_settled (hf : f = IRF_Mutable ∨ f = IRF_Purgable) (hseed : 0x1048 ≤ seed) :
    (neighbours seed f 0x2020).Settled where
  cksum k r hr hhash x hx j _ hj hck := by
    have hend : x < 0x1048 := (cksum_header hj hck).2
    rcases hx with hlead | ⟨-, hlow, -⟩
    · have hstart := neighbours_lead hf hr hhash
      exact absurd hlead.2 (Nat.not_lt.mpr (Nat.le_trans hstart hlead.1))
    · have hge : seed ≤ x := hlow
      omega
  seed k r hr hhash x _ hx := by
    have hstart := neighbours_lead hf hr hhash
    rcases hx with ⟨hlow, hhigh⟩ | hwraps
    · omega
    · obtain ⟨-, rfl⟩ := neighbours_hashed hf hr hhash
      rw [Layout.Wraps, neighbours_hashStart.1] at hwraps
      omega

/-- With a purgable region in front of it no byte may change. -/
theorem neighbours_quiet : (neighbours seed IRF_Purgable 0x2020).Quiet := by
  have hlast : ∀ {k : Nat} {r : Region}, (neighbours seed IRF_Purgable 0x2020).regions[k]? = some r →
      r.Hashed → ∀ x, (neighbours seed IRF_Purgable 0x2020).Steady k x := by
    intro k r hr hhash x
    obtain ⟨rfl, -⟩ := neighbours_hashed (.inr rfl) hr hhash
    refine ⟨?_, fun j r' hj hr' => ?_⟩
    · rintro ⟨r', hr', -, hwhy⟩
      obtain ⟨i, hi⟩ := List.getElem?_of_mem hr'
      rcases neighbours_cases hi with ⟨-, rfl⟩ | ⟨-, rfl⟩
      · rcases hwhy with h | ⟨h, -⟩
        · exact absurd (by decide) h
        · exact absurd (by decide) h
      · rcases hwhy with h | ⟨h, -⟩
        · exact absurd critical_flags.2.2.2 h
        · exact absurd critical_flags.2.1 h
    · rcases neighbours_cases hr' with ⟨rfl, -⟩ | ⟨rfl, -⟩
      · exact absurd hj (by decide)
      · exact absurd hj (by decide)
  exact ⟨fun k r hr hhash x _ => hlast hr hhash x, fun k r hr hhash x _ => hlast hr hhash x,
    neighbours_all (fun _ h => absurd (show IRF_Purgable &&& IRF_Stack = 0 by decide) h)
      (fun _ h => absurd critical_flags.2.1 h)⟩

end Neighbours

/-- With the seed in a purgable region, which is cleared before the critical one is
hashed, there is no false alarm. -/
theorem neighbours_noFalseAlarm : (neighbours 0x2000 IRF_Purgable 0x2020).NoFalseAlarm :=
  (noFalseAlarm_iff (neighbours_valid (.inr rfl) (by decide) (by decide) (by decide))
    (neighbours_settled (.inr rfl) (by decide))).mpr neighbours_quiet

/-- With the critical region right behind a mutable one there are false alarms. -/
theorem neighbours_alarm : (neighbours 0 IRF_Mutable 0x2008).Valid ∧
    ¬(neighbours 0 IRF_Mutable 0x2008).NoFalseAlarm := by
  have hvalid : (neighbours 0 IRF_Mutable 0x2008).Valid :=
    neighbours_valid (.inl rfl) (by decide) (by decide) (by decide)
  refine ⟨hvalid, fun hno => ?_⟩
  have hr : (neighbours 0 IRF_Mutable 0x2008).regions[1]? = some ⟨0x2008, 4, IRF_Critical⟩ := rfl
  have hhash : (⟨0x2008, 4, IRF_Critical⟩ : Region).Hashed :=
    ⟨not_not.mpr critical_flags.2.2.2, not_not.mpr critical_flags.1⟩
  have hlead : (neighbours 0 IRF_Mutable 0x2008).Lead ⟨0x2008, 4, IRF_Critical⟩ 0x2000 := by
    refine ⟨?_, ?_⟩
    · show start_block 0x2008 4 ≤ 0x2000
      decide
    · show 0x2000 < 0x2008
      decide
  refine lead_not_changeable hvalid hno hr hhash hlead (fun hx => absurd rfl hx.1) ?_
  exact ⟨⟨0x2000, 8, IRF_Mutable⟩, List.mem_cons_self, ⟨le_refl _, by decide⟩,
    .inl (show IRF_Mutable &&& IRF_Mutable ≠ 0 by decide)⟩

end Bcm2835.Integ

import Bcm2835.Dma.EngineSpec

/-!
# Blocks by what they are for

An operation that works on a buffer is a row of blocks of a few kinds: a patch
writes one byte of another block's source address, a spread writes one such byte of
many blocks, a copy moves a buffer, a lookup moves one byte out of a table. One rule
for each kind gives the memory behind the block: what is written, that the chain is
still there, and that nothing else has changed.
-/

namespace Bcm2835.Dma

open Mem Digits

namespace Chain

/-- In `n` steps the chain goes from block `k` to block `l`, and `m` becomes `m'`. -/
def Goes (C : Chain) (E : Engine) (k l n : Nat) (m m' : Memory) : Prop :=
  after E n ⟨C.pc k, m⟩ = ⟨C.pc l, m'⟩

variable {C : Chain} {E : Engine} {k l n : Nat} {m m' : Memory}

theorem Goes.refl (C : Chain) (E : Engine) (k : Nat) (m : Memory) : C.Goes E k k 0 m m := rfl

theorem Goes.trans {p q : Nat} {m'' : Memory} (h : C.Goes E k l n m m') (h' : C.Goes E l p q m' m'') :
    C.Goes E k p (n + q) m m'' := by
  rw [Goes, after_add, h, h']

theorem goes_one (h : step E ⟨C.pc k, m⟩ = ⟨C.next k, m'⟩) (hnext : C.next k = C.pc l) :
    C.Goes E k l 1 m m' := by
  rw [Goes, after_succ, after_zero, h, hnext]

/-- An address outside of the blocks. -/
def Clear (C : Chain) (a : Nat) : Prop := a < C.z ∨ C.z + 32 * C.n ≤ a

theorem Clear.ne_src {a : Nat} (h : C.Clear a) (hk : k < C.n) {j : Nat} (hj : j < 4) :
    a ≠ C.src k j := by
  rcases h with h | h <;> show a ≠ C.z + 32 * k + 4 + j <;> omega

theorem src_inj {k l i j : Nat} (hi : i < 4) (hj : j < 4) (h : C.src k i = C.src l j) :
    k = l ∧ i = j := by
  have heq : C.z + 32 * k + 4 + i = C.z + 32 * l + 4 + j := h
  omega

/-- Writing outside of the blocks leaves the chain. -/
theorem In.of_clear (hin : C.In m) (h : ∀ a, ¬ C.Clear a → m' a = m a) : C.In m' :=
  hin.congr fun a ⟨hlo, hhi, _⟩ => h a (by rintro (hc | hc) <;> omega)

/-- Writing patched bytes leaves the chain. -/
theorem In.of_patched (hin : C.In m)
    (h : ∀ a, (∀ k < C.n, ∀ j < 4, C.patched k j → a ≠ C.src k j) → m' a = m a) : C.In m' :=
  hin.congr fun a ⟨_, _, hfix, _⟩ => h a hfix

/-! ## Patches -/

/-- The block moves one byte. -/
structure IsByte (c : Cblk) (dst src : Nat) : Prop where
  txfr_len : c.txfr_len = 1
  dst_addr : c.dst_addr = dst
  src_addr : c.src_addr = src

theorem linear_isByte (z k flags dst src : Nat) : IsByte (linear z k flags dst src 1) dst src :=
  ⟨rfl, rfl, rfl⟩

theorem In.patch (hin : C.In m) (hk : k < C.n) {S p j : Nat} (h : IsByte (C.f k) (C.src p j) S)
    (hk' : p < C.n) (hj : j < 4) (hpatched : C.patched p j) (hnext : C.next k = C.pc (k + 1)) :
    ∃ m', C.Goes E k (k + 1) 1 m m' ∧ C.In m' ∧ m' (C.src p j) = m (C.source m k) ∧
      ∀ a, a ≠ C.src p j → m' a = m a := by
  have hstep := hin.step_one (E := E) hk h.txfr_len
  rw [h.dst_addr] at hstep
  refine ⟨_, goes_one hstep hnext, ?_, Function.update_self .., fun a ha => Function.update_of_ne ha ..⟩
  exact hin.of_patched fun a ha => Function.update_of_ne (ha p hk' j hj hpatched) ..

/-- The block writes one byte to `rows` rows, `D` apart from `dst` on. -/
structure IsSpread (c : Cblk) (dst src rows D : Nat) : Prop where
  ti : c.ti = NOINC2D
  dst_addr : c.dst_addr = dst
  src_addr : c.src_addr = src
  txfr_len : c.txfr_len = (rows - 1) * 2 ^ 16 + 1
  dst_stride : signed16 (c.stride / 2 ^ 16) + 1 = D

theorem strided_isSpread {D : Nat} (hD : D < 2 ^ 15) (z k dst src rows : Nat) :
    IsSpread (strided z k NOINC2D dst src rows 1 D 0) dst src rows (D + 1) := by
  obtain ⟨hd, -⟩ := signed16_stride (d := D) (s := 0) (by omega) (by omega)
  have hrow : signed16 (stride (u16 D) (u16 0) / 2 ^ 16) + 1 = ((D + 1 : Nat) : Int) := by omega
  exact ⟨rfl, rfl, rfl, rfl, hrow⟩

theorem In.spread (hin : C.In m) (hk : k < C.n) {S u j r D : Nat}
    (h : IsSpread (C.f k) (C.src u j) S r (32 * D)) (hrows : 1 ≤ r) (hD : 0 < D)
    (hfit : ∀ i < r, u + D * i < C.n) (hj : j < 4) (hp : ∀ i < r, C.patched (u + D * i) j)
    (hclear : C.Clear (C.source m k)) (hnext : C.next k = C.pc (k + 1)) :
    ∃ m', C.Goes E k (k + 1) 1 m m' ∧ C.In m' ∧
      (∀ i < r, m' (C.src (u + D * i) j) = m (C.source m k)) ∧
      ∀ a, (∀ i < r, a ≠ C.src (u + D * i) j) → m' a = m a := by
  have haddr : ∀ i, C.src u j + 32 * D * i = C.src (u + D * i) j := by
    intro i
    show C.z + 32 * u + 4 + j + 32 * D * i = C.z + 32 * (u + D * i) + 4 + j
    rw [Nat.mul_assoc]
    omega
  have hfits := C.fits
  have hstep := hin.step_spread (E := E) hk h.ti hrows h.txfr_len h.dst_stride fun i hi => by
    have hlt := hfit i hi
    rw [h.dst_addr, haddr]
    show C.z + 32 * (u + D * i) + 4 + j < _
    omega
  rw [h.dst_addr] at hstep
  refine ⟨_, goes_one hstep hnext, ?_, ?_, ?_⟩
  · refine hin.of_patched fun a ha => moves_of_ne fun i hi => ?_
    rw [haddr]
    exact ha _ (hfit i hi) j hj (hp i hi)
  · intro i hi
    rw [← haddr]
    refine moves_at (d := fun i => C.src u j + 32 * D * i) (s := fun _ => C.source m k) ?_ ?_ hi
    · intro a _ b _ hab
      exact Nat.eq_of_mul_eq_mul_left (show 0 < 32 * D by omega) (by omega)
    · intro _ _ b hb
      rw [haddr]
      exact hclear.ne_src (hfit b hb) hj
  · intro a ha
    refine moves_of_ne fun i hi => ?_
    rw [haddr]
    exact ha i hi

/-- The block writes neighbouring bytes from `src` on in pairs, to `rows` rows 32
apart from `dst` on. -/
structure IsPairs (c : Cblk) (dst src rows : Nat) : Prop where
  ti : c.ti = INC2D
  dst_addr : c.dst_addr = dst
  src_addr : c.src_addr = src
  txfr_len : c.txfr_len = (rows - 1) * 2 ^ 16 + 2
  dst_stride : signed16 (c.stride / 2 ^ 16) = 30
  src_stride : signed16 c.stride = -1

theorem strided_isPairs (z k dst src rows : Nat) :
    IsPairs (strided z k INC2D dst src rows 2 30 (-1)) dst src rows := by
  obtain ⟨hd, hs⟩ := signed16_stride (d := 30) (s := -1) (by omega) (by omega)
  exact ⟨rfl, rfl, rfl, rfl, hd, hs⟩

theorem In.pairs (hin : C.In m) (hk : k < C.n) {S u r : Nat}
    (h : IsPairs (C.f k) (C.src u 1) S r) (hrows : 1 ≤ r) (hfit : u + r ≤ C.n)
    (hp : ∀ i < r, C.patched (u + i) 1 ∧ C.patched (u + i) 2) (hfix : ∀ j < 4, ¬ C.patched k j)
    (hS : S + r < 2 ^ 32) (hclear : ∀ i ≤ r, C.Clear (S + i)) (hnext : C.next k = C.pc (k + 1)) :
    ∃ m', C.Goes E k (k + 1) 1 m m' ∧ C.In m' ∧
      (∀ i < r, m' (C.src (u + i) 1) = m (S + i) ∧ m' (C.src (u + i) 2) = m (S + (i + 1))) ∧
      ∀ a, (∀ i < r, a ≠ C.src (u + i) 1 ∧ a ≠ C.src (u + i) 2) → m' a = m a := by
  have hfits := C.fits
  have hsource : C.source m k = S := by
    rw [hin.source_fixed hk (by rw [h.src_addr]; omega) hfix, h.src_addr]
  have hstep := hin.step_pairs (E := E) hk h.ti hrows h.txfr_len h.dst_stride h.src_stride
    (by
      rw [h.dst_addr]
      show C.z + 32 * u + 4 + 1 + 32 * (r - 1) + 1 < _
      omega)
    (by rw [hsource]; exact hS)
  rw [h.dst_addr, hsource] at hstep
  -- byte `i` of the transfer goes to row `i / 2`
  have haddr : ∀ i, C.src u 1 + (32 * (i / 2) + i % 2) = C.src (u + i / 2) (1 + i % 2) := by
    intro i
    show C.z + 32 * u + 4 + 1 + (32 * (i / 2) + i % 2) = C.z + 32 * (u + i / 2) + 4 + (1 + i % 2)
    omega
  have hget : ∀ i < r * 2, moves (fun i => C.src u 1 + (32 * (i / 2) + i % 2))
      (fun i => S + (i / 2 + i % 2)) (r * 2) m (C.src (u + i / 2) (1 + i % 2)) =
      m (S + (i / 2 + i % 2)) := by
    intro i hi
    rw [← haddr]
    refine moves_at (d := fun i => C.src u 1 + (32 * (i / 2) + i % 2))
      (s := fun i => S + (i / 2 + i % 2)) ?_ ?_ hi
    · intro a _ b _ hab
      omega
    · intro a ha b hb
      rw [haddr]
      exact (hclear _ (by omega)).ne_src (by omega) (by omega)
  refine ⟨_, goes_one hstep hnext, ?_, ?_, ?_⟩
  · refine hin.of_patched fun a ha => moves_of_ne fun i hi => ?_
    obtain ⟨hp1, hp2⟩ := hp (i / 2) (by omega)
    rw [haddr]
    rcases Nat.mod_two_eq_zero_or_one i with h0 | h1
    · rw [h0]
      exact ha _ (by omega) 1 (by decide) hp1
    · rw [h1]
      exact ha _ (by omega) 2 (by decide) hp2
  · intro i hi
    have hlow := hget (2 * i) (by omega)
    have hhigh := hget (2 * i + 1) (by omega)
    rw [show 2 * i / 2 = i by omega, show 2 * i % 2 = 0 by omega] at hlow
    rw [show (2 * i + 1) / 2 = i by omega, show (2 * i + 1) % 2 = 1 by omega] at hhigh
    exact ⟨hlow, hhigh⟩
  · intro a ha
    refine moves_of_ne fun i hi => ?_
    obtain ⟨h1, h2⟩ := ha (i / 2) (by omega)
    rw [haddr]
    rcases Nat.mod_two_eq_zero_or_one i with hm | hm
    · rw [hm]
      exact h1
    · rw [hm]
      exact h2

/-! ## Patches one after the other -/

/-- Since `m₀` only patched bytes have changed, and those in `done` hold what `val` says. -/
structure Patches (C : Chain) (val : Nat → Nat → UInt8) (m₀ : Memory) (done : Nat → Nat → Prop)
    (m : Memory) : Prop where
  chain : C.In m
  clear : ∀ a, C.Clear a → m a = m₀ a
  field : ∀ p i, i < 4 → done p i → m (C.src p i) = val p i

section Patches

variable {val : Nat → Nat → UInt8} {m₀ : Memory} {done : Nat → Nat → Prop}

theorem Patches.start (hin : C.In m) (val : Nat → Nat → UInt8) :
    C.Patches val m (fun _ _ => False) m :=
  ⟨hin, fun _ _ => rfl, fun _ _ _ h => h.elim⟩

/-- A block behind which the bytes of `new` hold what `val` says, and no other has changed. -/
theorem Patches.next (h : C.Patches val m₀ done m) {new : Nat → Nat → Prop} (hin : C.In m')
    (hnew : ∀ p i, i < 4 → new p i → m' (C.src p i) = val p i)
    (hlt : ∀ p i, new p i → p < C.n ∧ i < 4)
    (hkeep : ∀ a, (∀ p i, new p i → a ≠ C.src p i) → m' a = m a) :
    C.Patches val m₀ (fun p i => done p i ∨ new p i) m' where
  chain := hin
  clear a ha := by
    rw [hkeep a fun p i hp => ha.ne_src (hlt p i hp).1 (hlt p i hp).2, h.clear a ha]
  field p i hi hp := by
    by_cases hn : new p i
    · exact hnew p i hi hn
    · rw [hkeep _ fun q b hq heq => ?_, h.field p i hi (hp.resolve_right hn)]
      obtain ⟨rfl, rfl⟩ := src_inj hi (hlt q b hq).2 heq
      exact hn hq

theorem Patches.patch (h : C.Patches val m₀ done m) (hk : k < C.n) {S T p j : Nat}
    (hblock : IsByte (C.f k) (C.src p j) T) (hS : C.source m k = S) (hclear : C.Clear S)
    (hp : p < C.n) (hj : j < 4) (hpatched : C.patched p j) (hval : val p j = m₀ S)
    (hnext : C.next k = C.pc (k + 1)) :
    ∃ m', C.Goes E k (k + 1) 1 m m' ∧
      C.Patches val m₀ (fun q i => done q i ∨ q = p ∧ i = j) m' := by
  obtain ⟨m', hgo, hin, hget, hkeep⟩ := h.chain.patch (E := E) hk hblock hp hj hpatched hnext
  refine ⟨m', hgo, h.next hin ?_ ?_ fun a ha => hkeep a (ha p j ⟨rfl, rfl⟩)⟩
  · rintro q i - ⟨rfl, rfl⟩
    rw [hget, hS, h.clear S hclear, hval]
  · rintro q i ⟨rfl, rfl⟩
    exact ⟨hp, hj⟩

theorem Patches.spread (h : C.Patches val m₀ done m) (hk : k < C.n) {S T u j r D : Nat}
    (hblock : IsSpread (C.f k) (C.src u j) T r (32 * D)) (hS : C.source m k = S)
    (hclear : C.Clear S) (hrows : 1 ≤ r) (hD : 0 < D) (hfit : ∀ i < r, u + D * i < C.n) (hj : j < 4)
    (hpatched : ∀ i < r, C.patched (u + D * i) j) (hval : ∀ i < r, val (u + D * i) j = m₀ S)
    (hnext : C.next k = C.pc (k + 1)) :
    ∃ m', C.Goes E k (k + 1) 1 m m' ∧
      C.Patches val m₀ (fun q i => done q i ∨ (∃ t < r, q = u + D * t) ∧ i = j) m' := by
  obtain ⟨m', hgo, hin, hget, hkeep⟩ :=
    h.chain.spread (E := E) hk hblock hrows hD hfit hj hpatched (by rwa [hS]) hnext
  refine ⟨m', hgo, h.next hin ?_ ?_ fun a ha => hkeep a fun t ht => ha _ _ ⟨⟨t, ht, rfl⟩, rfl⟩⟩
  · rintro q i - ⟨⟨t, ht, rfl⟩, rfl⟩
    rw [hget t ht, hS, h.clear S hclear, hval t ht]
  · rintro q i ⟨⟨t, ht, rfl⟩, rfl⟩
    exact ⟨hfit t ht, hj⟩

theorem Patches.pairs (h : C.Patches val m₀ done m) (hk : k < C.n) {S u r : Nat}
    (hblock : IsPairs (C.f k) (C.src u 1) S r) (hrows : 1 ≤ r) (hfit : u + r ≤ C.n)
    (hpatched : ∀ i < r, C.patched (u + i) 1 ∧ C.patched (u + i) 2)
    (hfix : ∀ j < 4, ¬ C.patched k j) (hS : S + r < 2 ^ 32) (hclear : ∀ i ≤ r, C.Clear (S + i))
    (hval : ∀ i < r, val (u + i) 1 = m₀ (S + i) ∧ val (u + i) 2 = m₀ (S + (i + 1)))
    (hnext : C.next k = C.pc (k + 1)) :
    ∃ m', C.Goes E k (k + 1) 1 m m' ∧
      C.Patches val m₀ (fun q i => done q i ∨ (∃ t < r, q = u + t) ∧ (i = 1 ∨ i = 2)) m' := by
  obtain ⟨m', hgo, hin, hget, hkeep⟩ :=
    h.chain.pairs (E := E) hk hblock hrows hfit hpatched hfix hS hclear hnext
  refine ⟨m', hgo, h.next hin ?_ ?_ fun a ha => hkeep a fun t ht =>
    ⟨ha _ _ ⟨⟨t, ht, rfl⟩, .inl rfl⟩, ha _ _ ⟨⟨t, ht, rfl⟩, .inr rfl⟩⟩⟩
  · rintro q i - ⟨⟨t, ht, rfl⟩, rfl | rfl⟩
    · rw [(hget t ht).1, h.clear _ (hclear t (by omega)), (hval t ht).1]
    · rw [(hget t ht).2, h.clear _ (hclear (t + 1) (by omega)), (hval t ht).2]
  · rintro q i ⟨⟨t, ht, rfl⟩, hi⟩
    omega

theorem Patches.mono (h : C.Patches val m₀ done m) {done' : Nat → Nat → Prop}
    (hle : ∀ p i, i < 4 → done' p i → done p i) : C.Patches val m₀ done' m :=
  ⟨h.chain, h.clear, fun p i hi hp => h.field p i hi (hle p i hi hp)⟩

end Patches

/-! ## Buffers -/

/-- The block moves `len` bytes to `dst`. -/
structure IsMove (c : Cblk) (ti dst src len : Nat) : Prop where
  ti : c.ti = ti
  dst_addr : c.dst_addr = dst
  src_addr : c.src_addr = src
  txfr_len : c.txfr_len = len

theorem linear_isMove (z k ti dst src len : Nat) : IsMove (linear z k ti dst src len) ti dst src len :=
  ⟨rfl, rfl, rfl, rfl⟩

theorem In.copy (hin : C.In m) (hk : k < C.n) {S T d w : Nat} (h : IsMove (C.f k) INC d T w)
    (hsource : C.source m k = S) (hS : S + w ≤ 2 ^ 32) (hdst : d + w ≤ 2 ^ 32)
    (happ : Region.Apart ⟨S, w⟩ ⟨d, w⟩) (hclear : ∀ i < w, C.Clear (d + i))
    (hnext : C.next k = C.pc l) :
    ∃ m', C.Goes E k l 1 m m' ∧ C.In m' ∧ (∀ i < w, m' (d + i) = m (S + i)) ∧
      ∀ a, (∀ i < w, a ≠ d + i) → m' a = m a := by
  have hstep := hin.step_linear (E := E) hk h.ti (by rw [h.dst_addr, h.txfr_len]; exact hdst)
    (by rw [hsource, h.txfr_len]; exact hS)
  rw [h.dst_addr, h.txfr_len, hsource] at hstep
  have hout : S + w ≤ d ∨ d + w ≤ S := happ
  refine ⟨_, goes_one hstep hnext, ?_, fun i hi => ?_, fun a ha => moves_of_ne ha⟩
  · exact hin.of_clear fun a ha => moves_of_ne fun i hi heq => ha (heq ▸ hclear i hi)
  · exact moves_at (d := fun i => d + i) (s := fun i => S + i) (fun a _ b _ hab => by omega)
      (fun a ha b hb => by omega) hi

/-- A block that draws its bytes from 16 that are all the same. -/
theorem In.fill (hin : C.In m) (hk : k < C.n) {S T dst len : Nat} {x : UInt8}
    (h : IsMove (C.f k) TI_DST_INC dst T len) (hlen : 2 ≤ len) (hsource : C.source m k = S)
    (hS : S + 16 ≤ 2 ^ 32) (hdst : dst + len ≤ 2 ^ 32) (happ : Region.Apart ⟨S, 16⟩ ⟨dst, len⟩)
    (hx : ∀ i < 16, m (S + i) = x) (hclear : ∀ i < len, C.Clear (dst + i))
    (hnext : C.next k = C.pc l) :
    ∃ m', C.Goes E k l 1 m m' ∧ C.In m' ∧ (∀ i < len, m' (dst + i) = x) ∧
      ∀ a, (∀ i < len, a ≠ dst + i) → m' a = m a := by
  have hstep := hin.step_draw (E := E) hk h.ti (by rw [h.txfr_len]; omega)
    (by rw [h.dst_addr, h.txfr_len]; exact hdst) (by rw [hsource]; exact hS)
  rw [h.dst_addr, h.txfr_len, hsource] at hstep
  have hout : S + 16 ≤ dst ∨ dst + len ≤ S := happ
  refine ⟨_, goes_one hstep hnext, ?_, fun i hi => ?_, fun a ha => moves_of_ne ha⟩
  · exact hin.of_clear fun a ha => moves_of_ne fun i hi heq => ha (heq ▸ hclear i hi)
  · rw [← hx (E.draw i) (E.draw_lt i)]
    refine moves_at (d := fun i => dst + i) (s := fun i => S + E.draw i)
      (fun a _ b _ hab => by omega) (fun a ha b hb => ?_) hi
    have := E.draw_lt a
    omega

/-! ## Lookups -/

/-- Blocks `u … u + w - 1` move one byte each, block `u + i` to `dst i`. -/
structure Lookups (C : Chain) (u w : Nat) (dst : Nat → Nat) : Prop where
  fit : u + w ≤ C.n
  len : ∀ i < w, (C.f (u + i)).txfr_len = 1
  dst_addr : ∀ i < w, (C.f (u + i)).dst_addr = dst i
  next : ∀ i < w, C.next (u + i) = C.pc (u + i + 1)
  inj : ∀ i < w, ∀ j < w, dst i = dst j → i = j
  clear : ∀ i < w, C.Clear (dst i)

theorem Lookups.of_linear {z u w : Nat} {dst : Nat → Nat} (hfit : u + w ≤ C.n)
    (hblock : ∀ i < w, ∃ T, C.f (u + i) = linear z (u + i) INC (dst i) T 1)
    (hnext : ∀ i < w, C.next (u + i) = C.pc (u + i + 1))
    (hinj : ∀ i < w, ∀ j < w, dst i = dst j → i = j) (hclear : ∀ i < w, C.Clear (dst i)) :
    Lookups C u w dst where
  fit := hfit
  len i hi := by
    obtain ⟨T, hT⟩ := hblock i hi
    rw [hT]
    rfl
  dst_addr i hi := by
    obtain ⟨T, hT⟩ := hblock i hi
    rw [hT]
    rfl
  next := hnext
  inj := hinj
  clear := hclear

/-- The lookups leave the bytes their sources had at the start. -/
theorem Lookups.run {u w i : Nat} {dst src : Nat → Nat} (h : Lookups C u w dst) (hin : C.In m)
    (hsrc : ∀ i < w, C.source m (u + i) = src i) (hne : ∀ i < w, ∀ j < w, src i ≠ dst j)
    (hi : i ≤ w) :
    ∃ m', C.Goes E u (u + i) i m m' ∧ C.In m' ∧ (∀ t < i, m' (dst t) = m (src t)) ∧
      ∀ a, (∀ t < i, a ≠ dst t) → m' a = m a := by
  induction i with
  | zero => exact ⟨m, .refl C E u m, hin, fun t ht => absurd ht (Nat.not_lt_zero t), fun _ _ => rfl⟩
  | succ i ih =>
      obtain ⟨m₁, hgo, hin₁, hdone, hframe⟩ := ih (by omega)
      have hfit := h.fit
      have hstep := hin₁.step_one (E := E) (k := u + i) (by omega) (h.len i hi)
      -- the lookups so far have left the source address and what it names
      have hsame : C.source m₁ (u + i) = src i := by
        rw [← hsrc i hi, Chain.source, Chain.source]
        refine word_congr fun j hj => hframe _ fun t ht => ?_
        exact (((h.clear t (by omega)).ne_src (k := u + i) (by omega) hj)).symm
      have hread : m₁ (src i) = m (src i) := hframe _ fun t ht => hne i hi t (by omega)
      rw [h.dst_addr i hi, hsame, hread] at hstep
      refine ⟨_, hgo.trans (goes_one hstep (h.next i hi)), ?_, ?_, ?_⟩
      · refine hin₁.of_clear fun a ha => Function.update_of_ne ?_ ..
        rintro rfl
        exact ha (h.clear i hi)
      · intro t ht
        rcases Nat.lt_succ_iff_lt_or_eq.mp ht with hlt | rfl
        · rw [Function.update_of_ne fun heq => by
            have := h.inj t (by omega) i hi heq
            omega]
          exact hdone t hlt
        · exact Function.update_self ..
      · intro a ha
        rw [Function.update_of_ne (ha i (Nat.lt_succ_self i))]
        exact hframe a fun t ht => ha t (by omega)

end Chain

end Bcm2835.Dma

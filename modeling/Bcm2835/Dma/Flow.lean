import Bcm2835.Dma.Steps

/-!
# What a chain writes

`Written` are the addresses a run stores to, whatever it stores there. A chain is
confined to `out` if each of its blocks stores to `out` and to source addresses of the
chain, and goes on at a block of the chain or stops. Then so does a run, for every
content of the memory: no store reaches the fields a block is found by.
-/

namespace Bcm2835.Dma

open Mem

/-! ## Stores -/

/-- The block stores a byte at `a`. -/
def Cblk.Stores (c : Cblk) (a : Nat) : Prop := ∃ i < c.rows * c.cols, c.dstAt i = a

/-- A run of the chain at `z` stores a byte at `a`. -/
def Written (E : Engine) (m : Memory) (z a : Nat) : Prop :=
  ∃ t, (after E t ⟨z, m⟩).conblk_ad ≠ 0 ∧
    (Cblk.at (after E t ⟨z, m⟩).mem (after E t ⟨z, m⟩).conblk_ad).Stores a

variable {E : Engine} {c : Cblk} {m m' : Memory} {a : Nat}

theorem transfer_of_not_stores (h : ¬ c.Stores a) : c.transfer E m a = m a :=
  moves_of_ne fun i hi heq => h ⟨i, hi, heq.symm⟩

/-- A byte of a row is stored as far behind the row's start as it stands in it. -/
theorem Cblk.Stores.row (hinc : c.ti.testBit 4 = true) (h : c.Stores a) :
    ∃ r < c.rows, ∃ i < c.cols,
      a = advance c.dst_addr ((r : Nat) * (c.cols + signed16 (c.stride / 2 ^ 16)) + (i : Nat)) := by
  obtain ⟨k, hk, rfl⟩ := h
  have hcols : 0 < c.cols := Nat.pos_of_ne_zero fun hzero => by simp [hzero] at hk
  refine ⟨k / c.cols, Nat.div_lt_of_lt_mul (by rwa [Nat.mul_comm]), k % c.cols, Nat.mod_lt k hcols, ?_⟩
  rw [Cblk.dstAt, if_pos hinc]

/-- Bytes in a row. -/
theorem Cblk.Stores.linear (hinc : c.ti.testBit 4 = true) (hflat : c.ti.testBit 1 = false)
    (hfits : c.dst_addr + c.txfr_len ≤ 2 ^ 32) (h : c.Stores a) :
    ∃ i < c.txfr_len, a = c.dst_addr + i := by
  obtain ⟨r, hr, i, hi, ha⟩ := h.row hinc
  have hrows : c.rows = 1 := by
    rw [Cblk.rows, Cblk.is2D, hflat]
    rfl
  have hcols : c.cols = c.txfr_len := by
    rw [Cblk.cols, Cblk.is2D, hflat]
    rfl
  rw [hcols] at hi
  refine ⟨i, hi, ?_⟩
  rw [ha, show r = 0 by omega, Nat.cast_zero, zero_mul, zero_add]
  exact advance_nat (by omega)

/-- An address among those of `out` and the source addresses of the `n` blocks at `z`. -/
def Allowed (z n : Nat) (out : Nat → Prop) (a : Nat) : Prop :=
  out a ∨ ∃ k < n, ∃ j < 4, a = srcField z k j

theorem Allowed.mono {z n : Nat} {out out' : Nat → Prop} (h : Allowed z n out a)
    (hout : ∀ a, out a → out' a) : Allowed z n out' a := h.imp_left (hout a)

namespace Chain

variable {C : Chain} {out : Nat → Prop}

/-! ## Blocks in memory, but for their source addresses -/

/-- The memory holds the blocks of the chain with any source addresses. -/
def Linked (C : Chain) (m : Memory) : Prop :=
  ∀ k < C.n, Cblk.at m (C.z + 32 * k) =
    { C.f k with src_addr := C.source m k, next_cb := C.next k }

/-- What leaves the blocks but for their source addresses leaves them linked. -/
theorem Linked.congr (h : C.Linked m) (hsame : ∀ a, C.z ≤ a → a < C.z + 32 * C.n →
    (∀ k < C.n, ∀ j < 4, a ≠ C.src k j) → m' a = m a) : C.Linked m' := by
  intro k hk
  have hword : ∀ o, o = 0 ∨ 8 ≤ o ∧ o ≤ 20 → o % 4 = 0 →
      word m' (C.z + 32 * k + o) = word m (C.z + 32 * k + o) := by
    intro o ho hmod
    refine word_congr fun i hi => hsame _ (by omega) (by omega) fun l _ j hj => ?_
    show _ ≠ C.z + 32 * l + 4 + j
    omega
  have hat := h k hk
  have hti : word m (C.z + 32 * k + 0) = (C.f k).ti := congrArg Cblk.ti hat
  have hdst : word m (C.z + 32 * k + 8) = (C.f k).dst_addr := congrArg Cblk.dst_addr hat
  have hlen : word m (C.z + 32 * k + 12) = (C.f k).txfr_len := congrArg Cblk.txfr_len hat
  have hstride : word m (C.z + 32 * k + 16) = (C.f k).stride := congrArg Cblk.stride hat
  have hnext : word m (C.z + 32 * k + 20) = C.next k := congrArg Cblk.next_cb hat
  rw [← hword 0 (.inl rfl) rfl, Nat.add_zero] at hti
  rw [Cblk.at, hti, hword 8 (by omega) rfl, hword 12 (by omega) rfl, hword 16 (by omega) rfl,
    hword 20 (by omega) rfl, hdst, hlen, hstride, hnext]
  rfl

theorem Linked.step (h : C.Linked m) {k : Nat} (hk : k < C.n) :
    step E ⟨C.z + 32 * k, m⟩ = ⟨C.next k,
      { C.f k with src_addr := C.source m k, next_cb := C.next k }.transfer E m⟩ := by
  have hpos := C.pos
  rw [Dma.step, if_neg (show C.z + 32 * k ≠ 0 by omega)]
  show Channel.mk (Cblk.at m (C.z + 32 * k)).next_cb ((Cblk.at m (C.z + 32 * k)).transfer E m) = _
  rw [h k hk]

/-- Stores outside of the blocks and to source addresses leave them linked. -/
theorem Linked.transfer (h : C.Linked m) (hc : ∀ a, c.Stores a → Allowed C.z C.n C.Clear a) :
    C.Linked (c.transfer E m) := by
  refine h.congr fun a hlo hhi hne => transfer_of_not_stores fun hstores => ?_
  rcases hc a hstores with hclear | ⟨l, hlt, j, hj, rfl⟩
  · rcases hclear with hclear | hclear <;> omega
  · exact hne l hlt j hj rfl

/-- The source address and the successor make no difference to what is stored to. -/
theorem Linked.stores (h : C.Linked m) {k : Nat} (hk : k < C.n) :
    (Cblk.at m (C.z + 32 * k)).Stores a ↔ (C.f k).Stores a := by
  rw [h k hk]
  rfl

/-! ## Runs -/

/-- Each block stores to `out` and to source addresses, and goes on at another or stops. -/
structure Confined (C : Chain) (out : Nat → Prop) : Prop where
  nonempty : 0 < C.n
  next : ∀ k < C.n, C.next k = 0 ∨ ∃ l < C.n, C.next k = C.z + 32 * l
  stores : ∀ k < C.n, ∀ a, (C.f k).Stores a → Allowed C.z C.n out a

/-- A run is at one of the blocks, or has stopped. -/
theorem Confined.run (h : C.Confined out) (hclear : ∀ a, out a → C.Clear a) (hl : C.Linked m) (t : Nat) :
    C.Linked (after E t ⟨C.z, m⟩).mem ∧ ((after E t ⟨C.z, m⟩).conblk_ad = 0 ∨
      ∃ k < C.n, (after E t ⟨C.z, m⟩).conblk_ad = C.z + 32 * k) := by
  induction t with
  | zero => exact ⟨hl, .inr ⟨0, h.nonempty, rfl⟩⟩
  | succ t ih =>
      rw [after_succ]
      generalize after E t ⟨C.z, m⟩ = s at ih ⊢
      obtain ⟨hls, hstop | ⟨k, hk, hat⟩⟩ := ih
      · rw [Dma.step, if_pos hstop]
        exact ⟨hls, .inl hstop⟩
      · obtain ⟨ad, m₁⟩ := s
        obtain rfl : ad = C.z + 32 * k := hat
        rw [hls.step hk]
        exact ⟨hls.transfer fun a ha => (h.stores k hk a ha).mono hclear, h.next k hk⟩

/-- A run writes nothing but `out` and source addresses of the chain. -/
theorem Confined.written (h : C.Confined out) (hclear : ∀ a, out a → C.Clear a) (hl : C.Linked m)
    (ha : Written E m C.z a) : Allowed C.z C.n out a := by
  obtain ⟨t, hpc, hstores⟩ := ha
  obtain ⟨hlt, hstop | ⟨k, hk, hat⟩⟩ := h.run (E := E) hclear hl t
  · exact absurd hstop hpc
  · rw [hat] at hstores
    exact h.stores k hk a ((hlt.stores hk).mp hstores)

end Chain

end Bcm2835.Dma

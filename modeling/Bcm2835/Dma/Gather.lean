import Bcm2835.Dma.EngineSpec

/-!
# Operand bytes patched into lookup blocks

The operations on two operands start with two blocks that write one byte of each
operand into the source address of each lookup: byte `k` of `rhs` to byte 1 and
byte `k` of `lhs` to byte 2 for block `2 + D * k`.
-/

namespace Bcm2835.Dma

open Mem

/-- The block writes `rows` bytes from `src` on, `D` apart, from `dst` on. -/
structure IsScatter (c : Cblk) (dst src rows D : Nat) : Prop where
  ti : c.ti = INC2D
  dst_addr : c.dst_addr = dst
  src_addr : c.src_addr = src
  txfr_len : c.txfr_len = (rows - 1) * 2 ^ 16 + 1
  dst_stride : signed16 (c.stride / 2 ^ 16) + 1 = D
  src_stride : signed16 c.stride = 0

theorem strided_isScatter {D : Nat} (hD : D < 2 ^ 15) (z k dst src rows : Nat) :
    IsScatter (strided z k INC2D dst src rows 1 D 0) dst src rows (D + 1) := by
  obtain ⟨hd, hs⟩ := signed16_stride (d := D) (s := 0) (by omega) (by omega)
  have hrow : signed16 (stride (u16 D) (u16 0) / 2 ^ 16) + 1 = ((D + 1 : Nat) : Int) := by omega
  exact ⟨rfl, rfl, rfl, rfl, hrow, hs⟩

/-- The block with another successor. -/
theorem IsScatter.branch {c : Cblk} {dst src rows D : Nat} (h : IsScatter c dst src rows D)
    (next : Nat) : IsScatter { c with next_cb := next } dst src rows D :=
  ⟨h.ti, h.dst_addr, h.src_addr, h.txfr_len, h.dst_stride, h.src_stride⟩

variable {E : Engine} {C : Chain} {m : Memory} {k dst src rows D : Nat}

/-- A block that writes operand bytes into the chain. -/
theorem Chain.In.gather (hin : C.In m) (hk : k < C.n) (h : IsScatter (C.f k) dst src rows D)
    (hrows : 1 ≤ rows) (hD : 0 < D) (hfix : ∀ j < 4, ¬ C.patched k j) (hsrc : src + rows ≤ 2 ^ 32)
    (hdst : ∀ i < rows, C.z ≤ dst + D * i ∧ dst + D * i < C.z + 32 * C.n)
    (hapart : Region.Apart ⟨src, rows⟩ ⟨C.z, 32 * C.n⟩) :
    ∃ m', step E ⟨C.pc k, m⟩ = ⟨C.next k, m'⟩ ∧ (∀ i < rows, m' (dst + D * i) = m (src + i)) ∧
      ∀ a, (∀ i < rows, a ≠ dst + D * i) → m' a = m a := by
  have hfits := C.fits
  have happ : src + rows ≤ C.z ∨ C.z + 32 * C.n ≤ src := hapart
  have hsource : C.source m k = src := by
    rw [hin.source_fixed hk (by rw [h.src_addr]; omega) hfix, h.src_addr]
  have hdst' : ∀ i < rows, (C.f k).dst_addr + D * i < 2 ^ 32 := fun i hi => by
    have := hdst i hi
    rw [h.dst_addr]
    omega
  have hstep := hin.step_scatter (E := E) hk h.ti hrows h.txfr_len h.dst_stride h.src_stride hdst'
    (by rw [hsource]; omega)
  rw [hsource, h.dst_addr] at hstep
  refine ⟨moves (fun i => dst + D * i) (fun i => src + i) rows m, hstep, ?_, ?_⟩
  · intro i hi
    refine moves_at (d := fun i => dst + D * i) (s := fun i => src + i) ?_ ?_ hi
    · intro a _ b _ hab
      exact Nat.eq_of_mul_eq_mul_left hD (by omega)
    · intro a ha b hb
      have := hdst b hb
      omega
  · intro a ha
    exact moves_of_ne ha

/-- The two blocks at the start of an operation on two operands. -/
structure Gather (C : Chain) (w D lhs rhs : Nat) : Prop where
  pos : 0 < w
  dist : 0 < D
  fit : ∀ k < w, 2 + D * k < C.n
  next : C.next 0 = C.pc 1
  rhs_block : IsScatter (C.f 0) (C.src 2 1) rhs w (32 * D)
  lhs_block : IsScatter (C.f 1) (C.src 2 2) lhs w (32 * D)
  fixed : ∀ k < 2, ∀ j < 4, ¬ C.patched k j
  patched : ∀ k < w, ∀ j, j = 1 ∨ j = 2 → C.patched (2 + D * k) j
  lhs_fits : lhs + w ≤ 2 ^ 32
  rhs_fits : rhs + w ≤ 2 ^ 32
  lhs_apart : Region.Apart ⟨lhs, w⟩ ⟨C.z, 32 * C.n⟩
  rhs_apart : Region.Apart ⟨rhs, w⟩ ⟨C.z, 32 * C.n⟩

/-- Both operands are in the source addresses, and nothing else has changed. -/
theorem Gather.run {w lhs rhs : Nat} {m₀ : Memory} (h : Gather C w D lhs rhs) (hin : C.In m₀) :
    ∃ m, after E 2 ⟨C.pc 0, m₀⟩ = ⟨C.next 1, m⟩ ∧ C.In m ∧
      (∀ k < w, m (C.src (2 + D * k) 1) = m₀ (rhs + k)) ∧
      (∀ k < w, m (C.src (2 + D * k) 2) = m₀ (lhs + k)) ∧
      ∀ a, (∀ k < w, a ≠ C.src (2 + D * k) 1 ∧ a ≠ C.src (2 + D * k) 2) → m a = m₀ a := by
  have hpos := h.pos
  have hdist := h.dist
  have hn : 2 < C.n := by
    have := h.fit 0 hpos
    omega
  have haddr : ∀ k j, C.src 2 j + 32 * D * k = C.src (2 + D * k) j := by
    intro k j
    show C.z + 32 * 2 + 4 + j + 32 * D * k = C.z + 32 * (2 + D * k) + 4 + j
    rw [Nat.mul_assoc]
    omega
  have hrange : ∀ j < 4, ∀ k < w, C.z ≤ C.src 2 j + 32 * D * k ∧
      C.src 2 j + 32 * D * k < C.z + 32 * C.n := by
    intro j hj k hk
    have := h.fit k hk
    rw [haddr]
    show C.z ≤ C.z + 32 * (2 + D * k) + 4 + j ∧ C.z + 32 * (2 + D * k) + 4 + j < _
    omega
  have hlhs : lhs + w ≤ C.z ∨ C.z + 32 * C.n ≤ lhs := h.lhs_apart
  obtain ⟨m₁, hstep₁, hget₁, hkeep₁⟩ := hin.gather (E := E) (by omega) h.rhs_block hpos (by omega)
    (h.fixed 0 (by decide)) h.rhs_fits (hrange 1 (by decide)) h.rhs_apart
  simp only [haddr] at hget₁ hkeep₁
  have hin₁ : C.In m₁ := by
    refine hin.congr fun a ⟨_, _, hfix, _⟩ => hkeep₁ a fun k hk => ?_
    exact hfix _ (h.fit k hk) 1 (by decide) (h.patched k hk 1 (.inl rfl))
  obtain ⟨m₂, hstep₂, hget₂, hkeep₂⟩ := hin₁.gather (E := E) (by omega) h.lhs_block hpos (by omega)
    (h.fixed 1 (by decide)) h.lhs_fits (hrange 2 (by decide)) h.lhs_apart
  simp only [haddr] at hget₂ hkeep₂
  refine ⟨m₂, ?_, ?_, ?_, ?_, ?_⟩
  · rw [after_succ, after_succ, after_zero, hstep₁, h.next, hstep₂]
  · refine hin₁.congr fun a ⟨_, _, hfix, _⟩ => hkeep₂ a fun k hk => ?_
    exact hfix _ (h.fit k hk) 2 (by decide) (h.patched k hk 2 (.inr rfl))
  · intro k hk
    rw [hkeep₂, hget₁ k hk]
    intro i _
    show C.z + 32 * (2 + D * k) + 4 + 1 ≠ C.z + 32 * (2 + D * i) + 4 + 2
    omega
  · intro k hk
    rw [hget₂ k hk, hkeep₁]
    intro i hi
    have := hrange 1 (by decide) i hi
    rw [haddr] at this
    omega
  · intro a ha
    rw [hkeep₂ a fun k hk => (ha k hk).2, hkeep₁ a fun k hk => (ha k hk).1]

end Bcm2835.Dma

import Bcm2835.Dma.EngineSpec

/-!
# States threaded through lookup blocks

The lookups of a comparison move one byte each: the state behind a pair of operand
bytes, which goes straight into the source address of the next lookup. The order
in which the lookups run is that of `v 0, v 1, …`, and `v w` is the block behind
the last.
-/

namespace Bcm2835.Dma

open Mem

/-- Blocks `v 0 … v (w-1)` look up one after the other and patch the next. -/
structure Thread (C : Chain) (v : Nat → Nat) (w : Nat) : Prop where
  lt : ∀ t ≤ w, v t < C.n
  inj : ∀ s ≤ w, ∀ t ≤ w, v s = v t → s = t
  len : ∀ t < w, (C.f (v t)).txfr_len = 1
  dst : ∀ t < w, (C.f (v t)).dst_addr = C.src (v (t + 1)) 0
  next : ∀ t < w, C.next (v t) = C.pc (v (t + 1))
  patched : ∀ t < w, C.patched (v (t + 1)) 0

/-- The memory before lookup `t`: the state is in its source address. -/
structure ThreadInv (C : Chain) (v : Nat → Nat) (w : Nat) (st : Nat → Nat) (m₀ : Memory) (t : Nat)
    (m : Memory) : Prop where
  frame : ∀ a, (∀ s < w, a ≠ C.src (v (s + 1)) 0) → m a = m₀ a
  state : (m (C.src (v t) 0)).toNat = st t

section

variable {E : Engine} {C : Chain} {v : Nat → Nat} {w t : Nat} {st : Nat → Nat} {m₀ m : Memory}

theorem ThreadInv.chain (h : Thread C v w) (hin : C.In m₀) (hinv : ThreadInv C v w st m₀ t m) :
    C.In m :=
  hin.congr fun _ ⟨_, _, hfix, _⟩ => hinv.frame _ fun s hs =>
    hfix _ (h.lt (s + 1) hs) 0 (by decide) (h.patched s hs)

/-- The bytes above the lowest stay, of every block. -/
theorem ThreadInv.upper (hinv : ThreadInv C v w st m₀ t m) (k : Nat) :
    C.upper m k = C.upper m₀ k := by
  have hbyte : ∀ j, 1 ≤ j → j < 4 → m (C.src k j) = m₀ (C.src k j) := by
    intro j hj hj'
    refine hinv.frame _ fun s _ => ?_
    show C.z + 32 * k + 4 + j ≠ C.z + 32 * v (s + 1) + 4 + 0
    omega
  rw [Chain.upper, Chain.upper, hbyte 1 (by decide) (by decide), hbyte 2 (by decide) (by decide),
    hbyte 3 (by decide) (by decide)]

/-- The source address of the next block to run. -/
theorem ThreadInv.source (hinv : ThreadInv C v w st m₀ t m) :
    C.source m (v t) = C.upper m₀ (v t) + st t := by
  rw [Chain.source_upper, hinv.upper, hinv.state]

/-- One lookup. -/
theorem ThreadInv.step (h : Thread C v w) (hin : C.In m₀)
    (htable : ∀ t < w, (m₀ (C.upper m₀ (v t) + st t)).toNat = st (t + 1))
    (hcode : ∀ t < w, C.upper m₀ (v t) + st t < C.z ∨ C.z + 32 * C.n ≤ C.upper m₀ (v t) + st t)
    (hinv : ThreadInv C v w st m₀ t m) (ht : t < w) :
    ∃ m', Dma.step E ⟨C.pc (v t), m⟩ = ⟨C.pc (v (t + 1)), m'⟩ ∧ ThreadInv C v w st m₀ (t + 1) m' := by
  have hstep := (hinv.chain h hin).step_one (E := E) (h.lt t (by omega)) (h.len t ht)
  rw [hinv.source, h.dst t ht, h.next t ht] at hstep
  have hread : m (C.upper m₀ (v t) + st t) = m₀ (C.upper m₀ (v t) + st t) := by
    refine hinv.frame _ fun s hs => ?_
    have hlt := h.lt (s + 1) hs
    have hout := hcode t ht
    show _ ≠ C.z + 32 * v (s + 1) + 4 + 0
    omega
  refine ⟨_, hstep, ?_, ?_⟩
  · intro a ha
    rw [Function.update_of_ne (ha t ht)]
    exact hinv.frame a ha
  · rw [Function.update_self, hread, htable t ht]

/-- The lookups thread the state through to block `v t`. -/
theorem Thread.run (h : Thread C v w) (hin : C.In m₀)
    (htable : ∀ t < w, (m₀ (C.upper m₀ (v t) + st t)).toNat = st (t + 1))
    (hcode : ∀ t < w, C.upper m₀ (v t) + st t < C.z ∨ C.z + 32 * C.n ≤ C.upper m₀ (v t) + st t)
    (hstart : (m₀ (C.src (v 0) 0)).toNat = st 0) (ht : t ≤ w) :
    ∃ m, after E t ⟨C.pc (v 0), m₀⟩ = ⟨C.pc (v t), m⟩ ∧ ThreadInv C v w st m₀ t m := by
  induction t with
  | zero => exact ⟨m₀, rfl, fun _ _ => rfl, hstart⟩
  | succ t ih =>
      obtain ⟨m, hrun, hinv⟩ := ih (by omega)
      obtain ⟨m', hstep, hinv'⟩ := hinv.step (E := E) h hin htable hcode ht
      refine ⟨m', ?_, hinv'⟩
      rw [after_succ, hrun, hstep]

end

end Bcm2835.Dma

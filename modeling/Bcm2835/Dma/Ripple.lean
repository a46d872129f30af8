import Bcm2835.Dma.EngineSpec

/-!
# Carries threaded through patched blocks

The blocks `Inc`, `Add` and `Sub` emit behind their gathers look up one result
byte each. A lookup moves the byte and the selector for the next lookup to the
result; a patch block moves the selector on into the source address of the next
lookup. `Ripple` says which blocks these are, and `Ripple.run` what they leave.
-/

namespace Bcm2835.Dma

open Mem Digits

/-- The carries into the digits, from `c` on. -/
def carries (car : Nat → Nat → Nat) (c : Nat) : Nat → Nat
  | 0 => c
  | i + 1 => car i (carries car c i)

/-- Blocks `u`, `u + 2`, … look up the `w` bytes of `ret`, those between patch.
The last lookup moves `last` bytes. -/
structure Ripple (C : Chain) (u w ret last : Nat) : Prop where
  pos : 0 < w
  n_eq : C.n + 1 = u + 2 * w
  next : ∀ k, u ≤ k → k < C.n → C.next k = C.pc (k + 1)
  lookup_ti : ∀ i < w, (C.f (u + 2 * i)).ti = INC
  lookup_dst : ∀ i < w, (C.f (u + 2 * i)).dst_addr = ret + i
  lookup_len : ∀ i, i + 1 < w → (C.f (u + 2 * i)).txfr_len = 2
  last_len : (C.f (u + 2 * (w - 1))).txfr_len = last
  last_eq : last = 1 ∨ last = 2
  patch_len : ∀ i, i + 1 < w → (C.f (u + 2 * i + 1)).txfr_len = 1
  patch_dst : ∀ i, i + 1 < w → (C.f (u + 2 * i + 1)).dst_addr = C.src (u + 2 * (i + 1)) 0
  patch_src : ∀ i, i + 1 < w → (C.f (u + 2 * i + 1)).src_addr = ret + (i + 1)
  patch_fixed : ∀ i, i + 1 < w → ∀ j < 4, ¬ C.patched (u + 2 * i + 1) j
  patched : ∀ i, i + 1 < w → C.patched (u + 2 * (i + 1)) 0
  ret_fits : ret + w < 2 ^ 32
  ret_apart : Region.Apart ⟨ret, w⟩ ⟨C.z, 32 * C.n⟩

/-- The rows the lookups find: for byte `i` and carry `c`, at `A i`, the result
byte and the selector of the next carry. -/
structure Rows (m : Memory) (A : Nat → Nat) (w row : Nat) (dig : Nat → Nat → UInt8)
    (car : Nat → Nat → Nat) : Prop where
  digit : ∀ i < w, ∀ c ≤ 1, m (A i + row + 2 * c) = dig i c
  selector : ∀ i < w, ∀ c ≤ 1, (m (A i + row + 2 * c + 1)).toNat = row + 2 * car i c
  carry_le : ∀ i < w, ∀ c ≤ 1, car i c ≤ 1

theorem Rows.carries_le {m : Memory} {A : Nat → Nat} {w row : Nat} {dig : Nat → Nat → UInt8}
    {car : Nat → Nat → Nat} (h : Rows m A w row dig car) {c : Nat} (hc : c ≤ 1) {i : Nat}
    (hi : i ≤ w) : carries car c i ≤ 1 := by
  induction i with
  | zero => exact hc
  | succ i ih => exact h.carry_le i hi _ (ih (by omega))

/-- The addresses of the rows are clear of the code and of the result. -/
structure RowsApart (C : Chain) (w ret row : Nat) (A : Nat → Nat) : Prop where
  fits : ∀ i < w, A i + row + 4 ≤ 2 ^ 32
  code : ∀ i < w, A i + row + 4 ≤ C.z ∨ C.z + 32 * C.n ≤ A i + row
  ret : ∀ i < w, A i + row + 4 ≤ ret ∨ ret + w ≤ A i + row

/-- The memory before lookup `i`. -/
structure RippleInv (C : Chain) (u w ret row : Nat) (dig : Nat → Nat → UInt8) (cs : Nat → Nat)
    (m₀ : Memory) (i : Nat) (m : Memory) : Prop where
  frame : ∀ a, (∀ k, k + 1 < w → a ≠ C.src (u + 2 * (k + 1)) 0) → a < ret ∨ ret + w ≤ a →
    m a = m₀ a
  selector : (m (C.src (u + 2 * i) 0)).toNat = row + 2 * cs i
  done : ∀ k < i, m (ret + k) = dig k (cs k)

section

variable {E : Engine} {C : Chain} {u w ret last row i c : Nat} {A : Nat → Nat}
  {dig : Nat → Nat → UInt8} {car : Nat → Nat → Nat} {m₀ m : Memory}

theorem Ripple.src_lt (h : Ripple C u w ret last) {k : Nat} (hk : k < w) {j : Nat} (hj : j < 4) :
    C.z ≤ C.src (u + 2 * k) j ∧ C.src (u + 2 * k) j < C.z + 32 * C.n := by
  have hn := h.n_eq
  show C.z ≤ C.z + 32 * (u + 2 * k) + 4 + j ∧ C.z + 32 * (u + 2 * k) + 4 + j < _
  omega

/-- Whatever leaves the frame of the invariant leaves the chain. -/
theorem RippleInv.chain (h : Ripple C u w ret last) (hin : C.In m₀)
    (hinv : RippleInv C u w ret row dig (carries car c) m₀ i m) : C.In m := by
  refine hin.congr fun a ⟨hlo, hhi, hpatched, _⟩ => hinv.frame a ?_ ?_
  · intro k hk
    have hn := h.n_eq
    exact hpatched _ (by omega) 0 (by decide) (h.patched k hk)
  · have hret : ret + w ≤ C.z ∨ C.z + 32 * C.n ≤ ret := h.ret_apart
    omega

/-- The rows stay. -/
theorem RippleInv.rows (h : Ripple C u w ret last) (hapart : RowsApart C w ret row A)
    (hrows : Rows m₀ A w row dig car)
    (hinv : RippleInv C u w ret row dig (carries car c) m₀ i m) : Rows m A w row dig car := by
  have hsame : ∀ k < w, ∀ d < 4, m (A k + row + d) = m₀ (A k + row + d) := by
    intro k hk d hd
    refine hinv.frame _ ?_ ?_
    · intro k' hk'
      have := h.src_lt hk' (show 0 < 4 by decide)
      have := hapart.code k hk
      omega
    · have := hapart.ret k hk
      omega
  refine ⟨fun k hk c hc => ?_, fun k hk c hc => ?_, hrows.carry_le⟩
  · rw [hsame k hk (2 * c) (by omega)]
    exact hrows.digit k hk c hc
  · have hnext := hrows.selector k hk c hc
    rw [Nat.add_assoc] at hnext ⊢
    rwa [hsame k hk (2 * c + 1) (by omega)]

/-- The lookup's source: the row for its byte and the carry. -/
theorem RippleInv.source (h : Ripple C u w ret last) (hA : ∀ k < w, C.upper m₀ (u + 2 * k) = A k)
    (hinv : RippleInv C u w ret row dig (carries car c) m₀ i m) (hi : i < w) :
    C.source m (u + 2 * i) = A i + row + 2 * carries car c i := by
  have hret : ret + w ≤ C.z ∨ C.z + 32 * C.n ≤ ret := h.ret_apart
  have hbyte : ∀ j, 1 ≤ j → j < 4 → m (C.src (u + 2 * i) j) = m₀ (C.src (u + 2 * i) j) := by
    intro j hj hj'
    have := h.src_lt hi hj'
    refine hinv.frame _ ?_ (by omega)
    intro k _
    show C.z + 32 * (u + 2 * i) + 4 + j ≠ C.z + 32 * (u + 2 * (k + 1)) + 4 + 0
    omega
  have hupper : C.upper m (u + 2 * i) = A i := by
    rw [← hA i hi, Chain.upper, Chain.upper, hbyte 1 (by decide) (by decide),
      hbyte 2 (by decide) (by decide), hbyte 3 (by decide) (by decide)]
  rw [Chain.source_upper, hupper, hinv.selector]
  omega

/-- A lookup and the patch behind it. -/
theorem RippleInv.step (h : Ripple C u w ret last) (hin : C.In m₀)
    (hA : ∀ k < w, C.upper m₀ (u + 2 * k) = A k) (hapart : RowsApart C w ret row A)
    (hrows : Rows m₀ A w row dig car) (hc : c ≤ 1)
    (hinv : RippleInv C u w ret row dig (carries car c) m₀ i m) (hi : i + 1 < w) :
    ∃ m', after E 2 ⟨C.pc (u + 2 * i), m⟩ = ⟨C.pc (u + 2 * (i + 1)), m'⟩ ∧
      RippleInv C u w ret row dig (carries car c) m₀ (i + 1) m' := by
  have hn := h.n_eq
  have hret : ret + w ≤ C.z ∨ C.z + 32 * C.n ≤ ret := h.ret_apart
  have hfits := h.ret_fits
  have hrow := hinv.rows h hapart hrows
  have hci : carries car c i ≤ 1 := hrows.carries_le hc (by omega)
  have hsrc := hinv.source h hA (by omega)
  have hfit := hapart.fits i (by omega)
  have hapartRet := hapart.ret i (by omega)
  -- the lookup
  have hlen := h.lookup_len i hi
  have hdst := h.lookup_dst i (by omega)
  have hlookup := (hinv.chain h hin).step_linear (E := E) (k := u + 2 * i) (by omega)
    (h.lookup_ti i (by omega)) (by omega) (by omega)
  rw [hlen, hdst, hsrc, h.next _ (by omega) (by omega)] at hlookup
  generalize hm₁ : moves (fun t => ret + i + t) (fun t => A i + row + 2 * carries car c i + t) 2 m = m₁
    at hlookup
  have hdigit : m₁ (ret + i) = dig i (carries car c i) := by
    rw [← hm₁, ← hrow.digit i (by omega) _ hci]
    exact moves_at (k := 0) (fun j _ k _ => by omega) (fun j _ k _ => by omega) (by decide)
  have hsel : (m₁ (ret + (i + 1))).toNat = row + 2 * carries car c (i + 1) := by
    show _ = row + 2 * car i (carries car c i)
    rw [← hm₁, ← hrow.selector i (by omega) _ hci]
    exact congrArg UInt8.toNat
      (moves_at (k := 1) (fun j _ k _ => by omega) (fun j _ k _ => by omega) (by decide))
  have hkeep : ∀ a, a < ret + i ∨ ret + i + 2 ≤ a → m₁ a = m a := by
    intro a ha
    rw [← hm₁]
    exact moves_of_ne fun k hk => by omega
  -- the patch
  have hin₁ : C.In m₁ := by
    refine (hinv.chain h hin).congr fun a ⟨hlo, hhi, _⟩ => hkeep a ?_
    omega
  have hpsrc : C.source m₁ (u + 2 * i + 1) = ret + (i + 1) := by
    rw [hin₁.source_fixed (by omega) (by rw [h.patch_src i hi]; omega) (h.patch_fixed i hi),
      h.patch_src i hi]
  have hpatch := hin₁.step_one (E := E) (k := u + 2 * i + 1) (by omega) (h.patch_len i hi)
  rw [hpsrc, h.patch_dst i hi, h.next _ (by omega) (by omega)] at hpatch
  have hfield := h.src_lt hi (show 0 < 4 by decide)
  refine ⟨Function.update m₁ (C.src (u + 2 * (i + 1)) 0) (m₁ (ret + (i + 1))), ?_, ?_, ?_, ?_⟩
  · rw [after_succ, after_succ, after_zero, hlookup, hpatch]
    rfl
  · intro a hne hout
    rw [Function.update_of_ne (hne i hi), hkeep a (by omega)]
    exact hinv.frame a hne hout
  · rw [Function.update_self, hsel]
  · intro k hk
    rw [Function.update_of_ne (by omega)]
    rcases Nat.lt_succ_iff_lt_or_eq.mp hk with hlt | rfl
    · rw [hkeep _ (by omega)]
      exact hinv.done k hlt
    · exact hdigit

/-- The lookups but the last. -/
theorem Ripple.lookups (h : Ripple C u w ret last) (hin : C.In m₀)
    (hA : ∀ k < w, C.upper m₀ (u + 2 * k) = A k) (hapart : RowsApart C w ret row A)
    (hrows : Rows m₀ A w row dig car) (hc : c ≤ 1)
    (hsel : (m₀ (C.src u 0)).toNat = row + 2 * c) (hi : i < w) :
    ∃ m, after E (2 * i) ⟨C.pc u, m₀⟩ = ⟨C.pc (u + 2 * i), m⟩ ∧
      RippleInv C u w ret row dig (carries car c) m₀ i m := by
  induction i with
  | zero => exact ⟨m₀, rfl, fun _ _ _ => rfl, hsel, fun k hk => absurd hk (Nat.not_lt_zero k)⟩
  | succ i ih =>
      obtain ⟨m, hrun, hinv⟩ := ih (by omega)
      obtain ⟨m', hstep, hinv'⟩ := hinv.step (E := E) h hin hA hapart hrows hc hi
      refine ⟨m', ?_, hinv'⟩
      rw [Nat.mul_succ, after_add, hrun]
      exact hstep

/-- The lookups leave the digits, and change nothing else but the selectors. -/
theorem Ripple.run (h : Ripple C u w ret last) (hin : C.In m₀)
    (hA : ∀ k < w, C.upper m₀ (u + 2 * k) = A k) (hapart : RowsApart C w ret row A)
    (hrows : Rows m₀ A w row dig car) (hc : c ≤ 1)
    (hsel : (m₀ (C.src u 0)).toNat = row + 2 * c) :
    ∃ m, after E (2 * w - 1) ⟨C.pc u, m₀⟩ = ⟨C.exit, m⟩ ∧
      (∀ k < w, m (ret + k) = dig k (carries car c k)) ∧
      ∀ a, (∀ k, k + 1 < w → a ≠ C.src (u + 2 * (k + 1)) 0) →
        a < ret ∨ ret + (w - 1) + last ≤ a → m a = m₀ a := by
  have hn := h.n_eq
  have hpos := h.pos
  have hret : ret + w ≤ C.z ∨ C.z + 32 * C.n ≤ ret := h.ret_apart
  have hfits := h.ret_fits
  obtain ⟨m, hrun, hinv⟩ := h.lookups (E := E) hin hA hapart hrows hc hsel (i := w - 1) (by omega)
  have hci : carries car c (w - 1) ≤ 1 := hrows.carries_le hc (by omega)
  have hsrc := hinv.source h hA (by omega)
  have hfit := hapart.fits (w - 1) (by omega)
  have hapartRet := hapart.ret (w - 1) (by omega)
  have hlast := h.last_eq
  have hdst := h.lookup_dst (w - 1) (by omega)
  have hstep := (hinv.chain h hin).step_linear (E := E) (k := u + 2 * (w - 1)) (by omega)
    (h.lookup_ti (w - 1) (by omega)) (by rw [hdst, h.last_len]; omega)
    (by rw [hsrc, h.last_len]; omega)
  rw [h.last_len, hdst, hsrc, h.next _ (by omega) (by omega),
    show u + 2 * (w - 1) + 1 = C.n by omega] at hstep
  have hexit : C.pc C.n = C.exit := if_pos rfl
  rw [hexit] at hstep
  refine ⟨moves (fun t => ret + (w - 1) + t)
    (fun t => A (w - 1) + row + 2 * carries car c (w - 1) + t) last m, ?_, ?_, ?_⟩
  · rw [show 2 * w - 1 = 2 * (w - 1) + 1 by omega, after_succ, hrun, hstep]
  · intro k hk
    rcases Nat.lt_or_ge k (w - 1) with hlt | hge
    · rw [moves_of_ne fun t ht => by omega]
      exact hinv.done k hlt
    · obtain rfl : k = w - 1 := by omega
      have hrow := hinv.rows h hapart hrows
      rw [← hrow.digit (w - 1) hk _ hci]
      -- only the first byte counts: the second may fall behind the result
      rcases hlast with rfl | rfl
      · exact moves_at (k := 0) (fun j _ k _ => by omega) (fun j _ k _ => by omega) (by decide)
      · show Function.update (Function.update m _ _) (ret + (w - 1) + 1) _ (ret + (w - 1)) = _
        rw [Function.update_of_ne (by omega)]
        exact Function.update_self ..
  · intro a hne hout
    rw [moves_of_ne fun t ht => by omega]
    exact hinv.frame a hne (by omega)

end

end Bcm2835.Dma

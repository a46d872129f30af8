import Mathlib.Logic.Function.Basic
import Mathlib.Data.Nat.Bitwise
import Mathlib.Data.Nat.Factorization.Basic
import Mathlib.Tactic.Ring

/-!
# Mixing steps that lose nothing

The steps a multiplicative hash is made of, as injective functions of a word:
a product with a number that has an inverse, a rotation, and an exclusive or
with a shift of itself. And a way to see that a function does not take one
difference of its argument to one difference of its value: if it did so for any
difference, it would for the top bit (`exists_not_translate`).
-/

namespace Mix

variable {w : Nat}

/-- A product with an invertible number. -/
theorem mul_injective {p q : BitVec w} (h : p * q = 1#w) :
    Function.Injective fun x : BitVec w => x * p := by
  intro x y hxy
  have hback : ∀ z : BitVec w, z * p * q = z := fun z => by
    rw [BitVec.mul_assoc, h, BitVec.mul_one]
  rw [← hback x, ← hback y]
  exact congrArg (· * q) hxy

/-- A rotation, written as two shifts. -/
theorem rotate_injective {r : Nat} (hr : r ≤ w) :
    Function.Injective fun x : BitVec w => x <<< r ||| x >>> (w - r) := by
  intro x y hxy
  apply BitVec.eq_of_getLsbD_eq
  intro i hi
  -- bit `i` has gone to `i + r`, or below `r` when that is behind the end
  by_cases hir : i + r < w
  · have hbit := congrArg (fun z : BitVec w => z.getLsbD (i + r)) hxy
    have hhigh : ∀ z : BitVec w, z.getLsbD (w - r + (i + r)) = false := fun z =>
      BitVec.getLsbD_of_ge z _ (by omega)
    have hlow : ¬i + r < r := by omega
    simpa only [BitVec.getLsbD_or, BitVec.getLsbD_shiftLeft, BitVec.getLsbD_ushiftRight, hir, hhigh,
      hlow, decide_true, decide_false, Bool.not_false, Bool.true_and, Bool.or_false,
      Nat.add_sub_cancel] using hbit
  · have hbit := congrArg (fun z : BitVec w => z.getLsbD (i + r - w)) hxy
    have hlow : i + r - w < r := by omega
    have hback : w - r + (i + r - w) = i := by omega
    simpa only [BitVec.getLsbD_or, BitVec.getLsbD_shiftLeft, BitVec.getLsbD_ushiftRight, hlow, hback,
      decide_true, Bool.not_true, Bool.and_false, Bool.false_and, Bool.false_or] using hbit

/-- The number that a rotation gives. -/
theorem toNat_rotate {r : Nat} (hr : r ≤ w) (x : BitVec w) :
    (x <<< r ||| x >>> (w - r)).toNat =
      x.toNat % 2 ^ (w - r) * 2 ^ r + x.toNat / 2 ^ (w - r) := by
  have hpow : 2 ^ w = 2 ^ (w - r) * 2 ^ r := by rw [← Nat.pow_add, Nat.sub_add_cancel hr]
  have hlow : x.toNat / 2 ^ (w - r) < 2 ^ r := by
    rw [Nat.div_lt_iff_lt_mul (Nat.two_pow_pos _), Nat.mul_comm, ← hpow]
    exact x.isLt
  rw [BitVec.toNat_or, BitVec.toNat_shiftLeft, BitVec.toNat_ushiftRight, Nat.shiftLeft_eq,
    Nat.shiftRight_eq_div_pow, hpow, Nat.mul_mod_mul_right, ← Nat.shiftLeft_eq,
    Nat.shiftLeft_add_eq_or_of_lt hlow]

/-- A word that is its own shift is zero. -/
theorem eq_zero_of_shift {k : Nat} (hk : 0 < k) {d : BitVec w} (h : d = d >>> k) : d = 0 := by
  have hnat := congrArg BitVec.toNat h
  rw [BitVec.toNat_ushiftRight, Nat.shiftRight_eq_div_pow] at hnat
  apply BitVec.eq_of_toNat_eq
  by_contra hne
  have hpos : 0 < d.toNat := Nat.pos_of_ne_zero hne
  have hlt := Nat.div_lt_self hpos (Nat.one_lt_two_pow (Nat.pos_iff_ne_zero.mp hk))
  omega

/-- An exclusive or with a shift of itself. -/
theorem xorShift_injective {k : Nat} (hk : 0 < k) :
    Function.Injective fun x : BitVec w => x ^^^ x >>> k := by
  intro x y hxy
  simp only at hxy
  have hshift : x ^^^ y = (x ^^^ y) >>> k := by
    rw [BitVec.ushiftRight_xor_distrib]
    have hx : x = (y ^^^ y >>> k) ^^^ x >>> k := by
      rw [← hxy, BitVec.xor_assoc, BitVec.xor_self, BitVec.xor_zero]
    calc x ^^^ y = ((y ^^^ y >>> k) ^^^ x >>> k) ^^^ y := congrArg (· ^^^ y) hx
      _ = x >>> k ^^^ y >>> k := by
          rw [BitVec.xor_comm y, BitVec.xor_assoc, BitVec.xor_assoc, BitVec.xor_comm y,
            BitVec.xor_assoc, BitVec.xor_self, BitVec.xor_zero, BitVec.xor_comm]
  have hzero := eq_zero_of_shift hk hshift
  exact BitVec.xor_eq_zero_iff.mp hzero

/-! ## Differences -/

/-- A function that takes `d` to `c` takes the multiples of `d` to those of `c`. -/
theorem translate_mul {g : BitVec w → BitVec w} {d c : BitVec w} (h : ∀ x, g (x + d) = g x + c)
    (n : Nat) (x : BitVec w) : g (x + .ofNat w n * d) = g x + .ofNat w n * c := by
  have hsucc : ∀ n, ∀ e : BitVec w, .ofNat w (n + 1) * e = .ofNat w n * e + e := fun n e => by
    rw [BitVec.ofNat_add, BitVec.add_mul, BitVec.one_mul]
  induction n with
  | zero => simp only [BitVec.zero_mul, BitVec.add_zero]
  | succ n ih => rw [hsucc, hsucc, ← BitVec.add_assoc, h, ih, BitVec.add_assoc]

/-- Of a number that is not zero some multiple is the top bit. -/
theorem exists_mul_top {d : BitVec (w + 1)} (hd : d ≠ 0) :
    ∃ n : Nat, .ofNat (w + 1) n * d = BitVec.twoPow (w + 1) w := by
  have hpos : d.toNat ≠ 0 := fun h => hd (BitVec.eq_of_toNat_eq h)
  obtain ⟨k, m, ⟨q, rfl⟩, hkm⟩ := Nat.exists_eq_two_pow_mul_odd hpos
  have hk : k < w + 1 := by
    refine (Nat.pow_lt_pow_iff_right (a := 2) (by decide)).mp (Nat.lt_of_le_of_lt ?_ d.isLt)
    rw [hkm]
    exact Nat.le_mul_of_pos_right _ (Nat.succ_pos _)
  refine ⟨2 ^ (w - k), BitVec.eq_of_toNat_eq ?_⟩
  have hpow : 2 ^ (w - k) * 2 ^ k = 2 ^ w := by rw [← Nat.pow_add, Nat.sub_add_cancel (by omega)]
  have htop : 2 ^ w < 2 ^ (w + 1) := Nat.pow_lt_pow_right (by decide) (Nat.lt_succ_self w)
  calc (BitVec.ofNat (w + 1) (2 ^ (w - k)) * d).toNat
      = 2 ^ (w - k) * d.toNat % 2 ^ (w + 1) := by
        rw [BitVec.toNat_mul, BitVec.toNat_ofNat, Nat.mod_mul_mod]
    _ = (2 ^ w + 2 ^ (w + 1) * q) % 2 ^ (w + 1) := by
        rw [hkm, ← Nat.mul_assoc, hpow, Nat.pow_succ]
        ring_nf
    _ = (BitVec.twoPow (w + 1) w).toNat := by
        rw [Nat.add_mul_mod_self_left, BitVec.toNat_twoPow]

/-- A function that does not take the top bit to one difference takes no number to
one. -/
theorem exists_not_translate {g : BitVec (w + 1) → BitVec (w + 1)} {x y d : BitVec (w + 1)}
    (h : g (x + .twoPow (w + 1) w) - g x ≠ g (y + .twoPow (w + 1) w) - g y) (hd : d ≠ 0)
    (c : BitVec (w + 1)) : ∃ z, g (z + d) ≠ g z + c := by
  by_contra hall
  push Not at hall
  obtain ⟨n, hn⟩ := exists_mul_top hd
  have htop : ∀ z, g (z + .twoPow (w + 1) w) - g z = .ofNat (w + 1) n * c := fun z => by
    rw [← hn, translate_mul hall, BitVec.add_comm (g z), BitVec.add_sub_cancel]
  exact h ((htop x).trans (htop y).symm)

end Mix

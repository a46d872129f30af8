import Bcm2835.Ubsan.Value

/-!
# Patterns of bits

What a handle stands for (`pattern`), and what the masks of `ubsan.c` leave of a word and
of a byte.
-/

namespace Bcm2835.Ubsan

open Mem Digits

/-- The bits of a value of `w` bits: of the handle, or of the bytes it points at. Bits above the
width may be set in either. -/
def pattern (mem : Memory) (w : Nat) (val : ValueHandle) : Nat :=
  (if w ≤ 32 then val.toNat else value (fun i => mem (val.toNat + i)) ((w + 7) / 8)) % 2 ^ w

/-- The value of a signed type with these bits. -/
def signedValue (mem : Memory) (w : Nat) (val : ValueHandle) : Int :=
  (BitVec.ofNat w (pattern mem w val)).toInt

variable {mem : Memory} {w x : Nat} {val lsl32 : ValueHandle} {td : TypeDescriptor}

theorem signedValue_eq_neg_one (hw : 1 ≤ w) :
    signedValue mem w val = -1 ↔ pattern mem w val = 2 ^ w - 1 := by
  have hones : (BitVec.allOnes w).toInt = -1 := by
    rw [BitVec.toInt_allOnes, if_pos (Nat.lt_of_succ_le hw)]
  rw [signedValue, ← hones, BitVec.toInt_inj, ← BitVec.toNat_inj, BitVec.toNat_ofNat,
    BitVec.toNat_allOnes, pattern, Nat.mod_mod]

/-! ## Words -/

theorem handleMask_getLsbD (hw : w < 32) (i : Nat) :
    (handleMask lsl32 w).getLsbD i = (decide (i < 32) && !decide (i < w)) := by
  rw [handleMask, if_pos hw, BitVec.getLsbD_shiftLeft, BitVec.getLsbD_allOnes]
  by_cases hi : i < 32
  · have hlt : i - w < 32 := by omega
    simp [hi, hlt]
  · simp [hi]

/-- All of the low `w` bits are set. -/
theorem mod_eq_ones_iff : x % 2 ^ w = 2 ^ w - 1 ↔ ∀ i < w, x.testBit i = true := by
  constructor
  · intro h i hi
    have hbit := congrArg (Nat.testBit · i) h
    simpa [Nat.testBit_mod_two_pow, Nat.testBit_two_pow_sub_one, hi] using hbit
  · intro h
    apply Nat.eq_of_testBit_eq
    intro i
    rw [Nat.testBit_mod_two_pow, Nat.testBit_two_pow_sub_one]
    by_cases hi : i < w
    · rw [h i hi, Bool.and_true]
    · simp [hi]

/-- The test of `is_minus_one` on a handle. -/
theorem ones_iff (m v : ValueHandle) :
    ~~~(m ||| (v &&& ~~~m)) = 0#32 ↔ ∀ i < 32, (m.getLsbD i || v.getLsbD i) = true := by
  constructor
  · intro h i hi
    have hbit := congrArg (BitVec.getLsbD · i) h
    simp only [BitVec.getLsbD_not, BitVec.getLsbD_or, BitVec.getLsbD_and, BitVec.getLsbD_zero, hi,
      decide_true, Bool.true_and] at hbit
    revert hbit
    cases m.getLsbD i <;> cases v.getLsbD i <;> decide
  · intro h
    apply BitVec.eq_of_getLsbD_eq
    intro i hi
    have hbit := h i hi
    simp only [BitVec.getLsbD_not, BitVec.getLsbD_or, BitVec.getLsbD_and, BitVec.getLsbD_zero, hi,
      decide_true, Bool.true_and]
    revert hbit
    cases m.getLsbD i <;> cases v.getLsbD i <;> decide

theorem or_eq_ones_iff (m v : ValueHandle) :
    m ||| v = BitVec.allOnes 32 ↔ ∀ i < 32, (m.getLsbD i || v.getLsbD i) = true := by
  constructor
  · intro h i hi
    rw [← BitVec.getLsbD_or, h, BitVec.getLsbD_allOnes, decide_eq_true hi]
  · intro h
    apply BitVec.eq_of_getLsbD_eq
    intro i hi
    rw [BitVec.getLsbD_or, h i hi, BitVec.getLsbD_allOnes, decide_eq_true hi]

/-- Below the word's width the mask leaves the pattern. -/
theorem not_handleMask_and (hw : w < 32) (val : ValueHandle) :
    (~~~ handleMask lsl32 w &&& val).toNat = val.toNat % 2 ^ w := by
  apply Nat.eq_of_testBit_eq
  intro i
  rw [Nat.testBit_mod_two_pow, BitVec.testBit_toNat, BitVec.testBit_toNat, BitVec.getLsbD_and,
    BitVec.getLsbD_not, handleMask_getLsbD hw]
  by_cases hi : i < 32
  · simp [hi]
  · simp [hi, BitVec.getLsbD_of_ge val i (Nat.le_of_not_lt hi)]

theorem not_and_eq_iff (m v : ValueHandle) : ~~~m &&& v = v ↔ m &&& v = 0#32 := by
  constructor
  · intro h
    rw [← h, ← BitVec.and_assoc, BitVec.and_not_self]
    exact BitVec.zero_and
  · intro h
    apply BitVec.eq_of_getLsbD_eq
    intro i hi
    have hbit := congrArg (BitVec.getLsbD · i) h
    simp only [BitVec.getLsbD_not, BitVec.getLsbD_and, BitVec.getLsbD_zero, hi, decide_true,
      Bool.true_and] at hbit ⊢
    revert hbit
    cases m.getLsbD i <;> cases v.getLsbD i <;> decide

/-! ## Bytes -/

theorem byteMask_table : ∀ r < 8, ∀ b < 256,
    (~~~ ((0xff : UInt8) <<< UInt8.ofNat r) &&& UInt8.ofNat b).toNat = b % 2 ^ r := by
  decide +kernel

/-- The mask leaves the bits of the top byte that belong to the value, and none of a byte that
belongs to it whole. -/
theorem not_byteMask_and (w : Nat) (b : UInt8) :
    (~~~ byteMask w &&& b).toNat = b.toNat % 2 ^ (w % 8) := by
  have htable := byteMask_table (w % 8) (Nat.mod_lt _ (by decide)) b.toNat b.toNat_lt
  rwa [UInt8.ofNat_toNat] at htable

theorem byteWidth_eq (h : w + 7 < 2 ^ 32) : byteWidth w = (w + 7) / 8 := by
  rw [byteWidth, Nat.mod_eq_of_lt h]

/-- A value of more than 32 bits, its top byte apart. -/
theorem pattern_of_bytes (hw : 32 < w) : pattern mem w val =
    value (fun i => mem (val.toNat + i)) ((w + 7) / 8 - 1) + 256 ^ ((w + 7) / 8 - 1) *
      ((mem (val.toNat + ((w + 7) / 8 - 1))).toNat % 2 ^ (w - 8 * ((w + 7) / 8 - 1))) := by
  obtain ⟨n, hn⟩ : ∃ n, (w + 7) / 8 = n + 1 := ⟨(w + 7) / 8 - 1, by omega⟩
  have hpow : 2 ^ w = 256 ^ n * 2 ^ (w - 8 * n) := by
    rw [show (256 : Nat) = 2 ^ 8 by rfl, ← Nat.pow_mul, ← Nat.pow_add]
    congr 1
    omega
  have hlt := value_lt (fun i => mem (val.toNat + i)) n
  rw [pattern, if_neg (Nat.not_le.mpr hw), hn, Nat.add_sub_cancel, value_succ, hpow, Nat.mod_mul,
    Nat.add_mul_mod_self_left, Nat.mod_eq_of_lt hlt, Nat.add_mul_div_left _ _ (Nat.pow_pos (by decide)),
    Nat.div_eq_of_lt hlt, Nat.zero_add]

end Bcm2835.Ubsan

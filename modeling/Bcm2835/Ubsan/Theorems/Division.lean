import Bcm2835.Ubsan.ValueSpec

/-!
# Overflow or division by zero

`handle_divrem_overflow` tells the two by the divisor. In a handle `is_minus_one` looks at
the bits of the value; in the bytes of a wider value it complements each as an `int`, which
is never 0, and so finds no value of more than 32 bits to be -1.
-/

namespace Bcm2835.Ubsan

open Mem

variable {mem : Memory} {w : Nat} {lhs val lsl32 : ValueHandle} {td : TypeDescriptor}

theorem is_int_of_sint (h : td_is_sint td = true) : td_is_int td = true ∧ td_is_uint td = false := by
  unfold td_is_sint at h
  obtain ⟨hint, hsigned⟩ := Bool.and_eq_true_iff.mp h
  refine ⟨hint, ?_⟩
  unfold td_is_uint
  rw [hint, Bool.true_and, decide_eq_false_iff_not]
  exact of_decide_eq_true hsigned

/-! ## The divisor -/

/-- The complement of a byte, as an `int`, has its upper bits set. -/
theorem minusOneLoop_false (mem : Memory) (intp i : Nat) (v : UInt8) :
    minusOneLoop mem intp i v = false := by
  have hne : ~~~v.toUInt32 ≠ 0 := by
    intro h
    have hv : v.toUInt32 = 0xffffffff := by
      rw [← UInt32.not_not (a := v.toUInt32), h]
      rfl
    have hlt := v.toNat_lt
    rw [← UInt8.toNat_toUInt32, hv] at hlt
    exact absurd hlt (by decide)
  unfold minusOneLoop
  rw [if_pos hne]

theorem is_minus_one_wide (hint : td_is_sint td = true) (hw : td_get_bit_width td = some w) (hgt : 32 < w)
    (hlt : w + 7 < 2 ^ 32) : is_minus_one lsl32 mem td val = some false := by
  obtain ⟨hi, hu⟩ := is_int_of_sint hint
  unfold is_minus_one
  rw [hi, if_neg (by decide), hu, if_neg (by decide), hw]
  show (if byteWidth w = 0 then some false else _) = _
  rw [byteWidth_eq hlt, if_neg (by omega), if_neg (by omega), minusOneLoop_false]
  rfl

theorem is_minus_one_handle (hint : td_is_sint td = true) (hw : td_get_bit_width td = some w) (h1 : 1 ≤ w)
    (hle : w ≤ 32) : is_minus_one lsl32 mem td val =
      some (decide (handleMask lsl32 w ||| val = BitVec.allOnes 32)) := by
  obtain ⟨hi, hu⟩ := is_int_of_sint hint
  unfold is_minus_one
  rw [hi, if_neg (by decide), hu, if_neg (by decide), hw]
  show (if byteWidth w = 0 then some false else _) = _
  rw [byteWidth_eq (by omega), if_neg (by omega), if_pos (by omega)]
  exact congrArg some (decide_eq_decide.mpr ((ones_iff _ _).trans (or_eq_ones_iff _ _).symm))

/-- Below the word's width the test is exact. -/
theorem handle_ones_iff (h1 : 1 ≤ w) (hlt : w < 32) :
    handleMask lsl32 w ||| val = BitVec.allOnes 32 ↔ signedValue mem w val = -1 := by
  rw [or_eq_ones_iff, signedValue_eq_neg_one h1, pattern, if_pos (Nat.le_of_lt hlt), mod_eq_ones_iff]
  constructor
  · intro h i hi
    have hbit := h i (by omega)
    rw [handleMask_getLsbD hlt, decide_eq_true hi, Bool.not_true, Bool.and_false, Bool.false_or] at hbit
    rw [BitVec.testBit_toNat, hbit]
  · intro h i hi
    rw [handleMask_getLsbD hlt]
    by_cases hiw : i < w
    · have hbit := h i hiw
      rw [BitVec.testBit_toNat] at hbit
      rw [hbit, Bool.or_true]
    · simp [hi, hiw]

theorem word_ones_iff : val = BitVec.allOnes 32 ↔ signedValue mem 32 val = -1 := by
  have hval := val.isLt
  rw [signedValue_eq_neg_one (by decide), pattern, if_pos (Nat.le_refl 32), Nat.mod_eq_of_lt hval,
    ← BitVec.toNat_inj, BitVec.toNat_allOnes]

/-! ## The report -/

theorem print_value_isSome (hint : td_is_int td = true) (hw : td_get_bit_width td = some w) :
    ∃ text, print_value lsl32 mem td lhs = some text := by
  unfold print_value print_value_int
  rw [if_pos hint, guard, if_pos hint, hw]
  exact ⟨_, rfl⟩

/-- The error follows the test. -/
theorem divrem_error {b : Bool} (hint : td_is_int td = true) (hw : td_get_bit_width td = some w)
    (hb : is_minus_one lsl32 mem td val = some b) :
    (handle_divrem_overflow lsl32 mem td lhs val).map (·.1) =
      some (if b then .ET_SignedIntegerOverflow else .ET_IntegerDivideByZero) := by
  have hprint : ∃ text, print_value lsl32 mem td lhs = some text := print_value_isSome hint hw
  obtain ⟨text, htext⟩ := hprint
  unfold handle_divrem_overflow
  rw [hb, htext, hint]
  cases b <;> rfl

/-- `is_minus_one` tells whether the divisor is -1, and the report names the error accordingly. -/
def DivremOk (lsl32 : ValueHandle) (mem : Memory) (td : TypeDescriptor) (w : Nat) (lhs val : ValueHandle) :
    Prop :=
  is_minus_one lsl32 mem td val = some (decide (signedValue mem w val = -1)) ∧
    (handle_divrem_overflow lsl32 mem td lhs val).map (·.1) =
      some (if signedValue mem w val = -1 then .ET_SignedIntegerOverflow else .ET_IntegerDivideByZero)

/-- The divisor's type has at most 32 bits, or the divisor is not -1. A shift by 32 must not fill in
for bits the divisor lacks. -/
def DivisorSeen (lsl32 : ValueHandle) (mem : Memory) (w : Nat) (val : ValueHandle) : Prop :=
  (w = 32 → lsl32 ||| val = BitVec.allOnes 32 → val = BitVec.allOnes 32) ∧
    (32 < w → signedValue mem w val ≠ -1)

theorem divrem_ok_iff_test {b : Bool} (hint : td_is_int td = true) (hw : td_get_bit_width td = some w)
    (hb : is_minus_one lsl32 mem td val = some b) :
    DivremOk lsl32 mem td w lhs val ↔ (b = true ↔ signedValue mem w val = -1) := by
  unfold DivremOk
  rw [divrem_error hint hw hb, hb, Option.some_inj]
  constructor
  · rintro ⟨rfl, -⟩
    exact decide_eq_true_iff
  · intro h
    refine ⟨(Bool.decide_congr h.symm).symm ▸ (Bool.decide_eq_true).symm, ?_⟩
    by_cases hv : signedValue mem w val = -1
    · rw [if_pos hv, if_pos (h.mpr hv)]
    · rw [if_neg hv, if_neg fun hbt => hv (h.mp hbt)]

/-- For every signed integer type and value: the divisor is judged right exactly then. -/
theorem divrem_ok_iff (hint : td_is_sint td = true) (hw : td_get_bit_width td = some w) (h1 : 1 ≤ w)
    (hlt : w + 7 < 2 ^ 32) : DivremOk lsl32 mem td w lhs val ↔ DivisorSeen lsl32 mem w val := by
  have hi := (is_int_of_sint hint).1
  unfold DivisorSeen
  rcases Nat.lt_trichotomy w 32 with hw32 | rfl | hw32
  · rw [divrem_ok_iff_test hi hw (is_minus_one_handle hint hw h1 (Nat.le_of_lt hw32)), decide_eq_true_iff]
    exact ⟨fun _ => ⟨fun h => by omega, fun h => by omega⟩, fun _ => handle_ones_iff h1 hw32⟩
  · rw [divrem_ok_iff_test hi hw (is_minus_one_handle hint hw h1 (Nat.le_refl 32)), decide_eq_true_iff,
      ← word_ones_iff, handleMask, if_neg (Nat.lt_irrefl 32)]
    refine ⟨fun h => ⟨fun _ => h.mp, fun h32 => absurd h32 (Nat.lt_irrefl 32)⟩,
      fun h => ⟨h.1 rfl, fun hval => ?_⟩⟩
    rw [hval]
    exact BitVec.or_allOnes
  · rw [divrem_ok_iff_test hi hw (is_minus_one_wide hint hw hw32 hlt)]
    exact ⟨fun h => ⟨fun h32 => by omega, fun _ hv => Bool.false_ne_true (h.mpr hv)⟩,
      fun h => ⟨fun hf => absurd hf Bool.false_ne_true, fun hv => absurd hv (h.2 hw32)⟩⟩

/-- `int`, of 2^5 bits. -/
def TypeDescriptor.int : TypeDescriptor where
  type_kind := .TK_Integer
  type_info := 0x000b
  type_name := [0x27, 0x69, 0x6e, 0x74, 0x27, 0x00]

/-- `long long`, of 2^6 bits. -/
def TypeDescriptor.longLong : TypeDescriptor where
  type_kind := .TK_Integer
  type_info := 0x000d
  type_name := [0x27, 0x6c, 0x6c, 0x27, 0x00]

theorem divrem_ok_iff_int : DivremOk 0 (fun _ => 0) .int 32 0x80000000 0xffffffff :=
  (divrem_ok_iff (by decide) (by decide) (by decide) (by decide)).mpr (by
    refine ⟨fun _ _ => by decide, fun h => absurd h (by decide)⟩)

/-- A division by -1 in 64 bits is reported as a division by zero. -/
theorem divrem_long_long : signedValue (fun _ => 0xff) 64 0x1000 = -1 ∧
    is_minus_one 0 (fun _ => 0xff) .longLong 0x1000 = some false ∧
    (handle_divrem_overflow 0 (fun _ => 0xff) .longLong 0x1000 0x1000).map (·.1) =
      some .ET_IntegerDivideByZero := by
  decide +kernel

end Bcm2835.Ubsan

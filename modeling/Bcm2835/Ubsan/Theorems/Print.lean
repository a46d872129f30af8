import Bcm2835.Ubsan.ValueSpec

/-!
# What the report prints

`print_value_int` prints a handle in one conversion and the bytes of a wider value one by
one, from the top. The top byte is masked by the width modulo 8, which leaves nothing of a
byte that belongs to the value whole.
-/

namespace Bcm2835.Ubsan

open Mem Digits

variable {mem : Memory} {w : Nat} {val lsl32 : ValueHandle} {td : TypeDescriptor}

/-! ## The bytes of a wide value -/

/-- Behind the first byte that is not 0, every byte has its two digits. -/
theorem parseFrom_printLoop (intp i acc : Nat) (v : UInt8) :
    Hex.parseFrom acc (printLoop mem intp i v true) =
      some (256 ^ (i + 1) * acc + (value (fun j => mem (intp + j)) i + 256 ^ i * v.toNat)) := by
  have hv : v.toNat < 256 := v.toNat_lt
  induction i generalizing acc v with
  | zero =>
      rw [printLoop, if_pos rfl, Hex.parseFrom_twoDigits hv]
      show some (256 * acc + v.toNat) = _
      congr 1
      rw [value_zero]
      ring
  | succ i ih =>
      rw [printLoop, if_pos rfl, Hex.parseFrom_twoDigits hv, Bool.true_or, ih _ _ (mem (intp + i)).toNat_lt,
        value_succ]
      exact congrArg some (by ring)

/-- Bytes of 0 at the top leave no digit, but the last byte always has one. -/
theorem parse_printLoop (intp i : Nat) (v : UInt8) :
    Hex.parse (printLoop mem intp i v false) =
      some (value (fun j => mem (intp + j)) i + 256 ^ i * v.toNat) := by
  induction i generalizing v with
  | zero =>
      rw [printLoop, if_neg Bool.false_ne_true, if_pos (Or.inr rfl), List.append_nil,
        Hex.parse_of_ne_nil (Hex.digits_ne_nil _), Hex.parseFrom_digits, value_zero]
      congr 1
      ring
  | succ i ih =>
      rw [printLoop, if_neg Bool.false_ne_true, Bool.false_or]
      by_cases hv : v = 0
      · have hskip : ¬(v ≠ 0 ∨ i + 1 = 0) := fun h => h.elim (· hv) (Nat.succ_ne_zero i)
        rw [if_neg hskip, List.nil_append, decide_eq_false (not_not_intro hv)]
        show Hex.parse (printLoop mem intp i (mem (intp + i)) false) = _
        rw [ih, value_succ, hv]
        rfl
      · have hne : Hex.digits v.toNat ++ printLoop mem intp i (mem (intp + i)) true ≠ [] :=
          List.append_ne_nil_of_left_ne_nil (Hex.digits_ne_nil _) _
        rw [if_pos (Or.inl hv), decide_eq_true hv]
        show Hex.parse (Hex.digits v.toNat ++ printLoop mem intp i (mem (intp + i)) true) = _
        rw [Hex.parse_of_ne_nil hne, Hex.parseFrom_append, Hex.parseFrom_digits]
        show Hex.parseFrom v.toNat (printLoop mem intp i (mem (intp + i)) true) = _
        rw [parseFrom_printLoop, value_succ]
        exact congrArg some (by ring)

/-! ## The text -/

theorem parse_printHandle (m : ValueHandle) :
    ∃ ds, printHandle m = '0' :: 'x' :: ds ∧ Hex.parse ds = some m.toNat := by
  unfold printHandle
  by_cases hm : m = 0
  · refine ⟨['0'], if_pos hm, ?_⟩
    rw [hm]
    decide
  · refine ⟨Hex.digits m.toNat, if_neg hm, ?_⟩
    rw [Hex.parse_of_ne_nil (Hex.digits_ne_nil _), Hex.parseFrom_digits]

/-- The text is `0x` and digits that spell the bits of the value. -/
def PrintsPattern (lsl32 : ValueHandle) (mem : Memory) (td : TypeDescriptor) (w : Nat) (val : ValueHandle) :
    Prop :=
  ∃ ds, print_value_int lsl32 mem td val = some ('0' :: 'x' :: ds) ∧
    Hex.parse ds = some (pattern mem w val)

theorem printsPattern_iff {ds : List Char} {n : Nat}
    (htext : print_value_int lsl32 mem td val = some ('0' :: 'x' :: ds)) (hn : Hex.parse ds = some n) :
    PrintsPattern lsl32 mem td w val ↔ n = pattern mem w val := by
  unfold PrintsPattern
  constructor
  · rintro ⟨es, hes, hp⟩
    rw [htext] at hes
    obtain rfl : ds = es := by simpa using hes
    exact Option.some_inj.mp (hn.symm.trans hp)
  · rintro rfl
    exact ⟨ds, htext, hn⟩

theorem print_value_int_eq (hint : td_is_int td = true) (hw : td_get_bit_width td = some w) :
    print_value_int lsl32 mem td val = some ((if byteWidth w = 0 then ['0', 'x', '0'] else []) ++
      if byteWidth w ≤ 4 then printHandle (~~~ handleMask lsl32 w &&& val)
      else '0' :: 'x' :: printLoop mem val.toNat (byteWidth w - 1)
        (~~~ byteMask w &&& mem (val.toNat + (byteWidth w - 1))) false) := by
  unfold print_value_int
  rw [guard, if_pos hint, hw]
  rfl

theorem print_handle (hint : td_is_int td = true) (hw : td_get_bit_width td = some w) (h1 : 1 ≤ w)
    (hle : w ≤ 32) :
    PrintsPattern lsl32 mem td w val ↔ (~~~ handleMask lsl32 w &&& val).toNat = pattern mem w val := by
  obtain ⟨ds, hds, hparse⟩ := parse_printHandle (~~~ handleMask lsl32 w &&& val)
  refine printsPattern_iff ?_ hparse
  rw [print_value_int_eq hint hw, byteWidth_eq (by omega), if_neg (by omega), if_pos (by omega), hds]
  rfl

theorem print_bytes (hint : td_is_int td = true) (hw : td_get_bit_width td = some w) (hgt : 32 < w)
    (hlt : w + 7 < 2 ^ 32) :
    PrintsPattern lsl32 mem td w val ↔
      value (fun i => mem (val.toNat + i)) ((w + 7) / 8 - 1) + 256 ^ ((w + 7) / 8 - 1) *
        ((mem (val.toNat + ((w + 7) / 8 - 1))).toNat % 2 ^ (w % 8)) = pattern mem w val := by
  refine printsPattern_iff ?_ (not_byteMask_and w _ ▸ parse_printLoop val.toNat ((w + 7) / 8 - 1) _)
  rw [print_value_int_eq hint hw, byteWidth_eq hlt, if_neg (by omega), if_neg (by omega)]
  rfl

/-- A value of no byte is printed twice, and the two texts together are no number. -/
theorem print_empty (hint : td_is_int td = true) (hw : td_get_bit_width td = some w) (h0 : byteWidth w = 0) :
    ¬PrintsPattern lsl32 mem td w val := by
  rintro ⟨es, hes, hp⟩
  obtain ⟨ds, hds, -⟩ := parse_printHandle (~~~ handleMask lsl32 w &&& val)
  rw [print_value_int_eq hint hw, h0, if_pos rfl, if_pos (Nat.zero_le 4), hds] at hes
  obtain rfl : '0' :: '0' :: 'x' :: ds = es := by simpa using hes
  have hnone : Hex.parse (['0', '0'] ++ 'x' :: ds) = none := Hex.parse_none (by decide)
  exact absurd (hnone.symm.trans hp) (by simp)

/-! ## The whole value -/

theorem td_get_bit_width_lt (h : td_get_bit_width td = some w) : w < 2 ^ 32 := by
  unfold td_get_bit_width at h
  split at h
  · split at h
    · rename_i b0 b1 b2 b3 _ _
      have hlt := Bytes.ofLe_lt [b0, b1, b2, b3]
      rw [Option.some_inj.mp h] at hlt
      exact Nat.lt_of_lt_of_eq hlt (by norm_num)
    · simp at h
  · split at h
    · rename_i hlt
      obtain rfl := Option.some_inj.mp h
      exact Nat.pow_lt_pow_right (by decide) hlt
    · simp at h

/-- The value has bytes, a shift by 32 takes no bit of it away, and where its top byte is whole, that
byte is 0. -/
def PrintedWhole (lsl32 : ValueHandle) (mem : Memory) (w : Nat) (val : ValueHandle) : Prop :=
  (1 ≤ w ∧ w + 7 < 2 ^ 32) ∧ (w = 32 → lsl32 &&& val = 0) ∧
    (32 < w → w % 8 = 0 → mem (val.toNat + (w / 8 - 1)) = 0)

theorem top_byte_iff (hgt : 32 < w) :
    value (fun i => mem (val.toNat + i)) ((w + 7) / 8 - 1) + 256 ^ ((w + 7) / 8 - 1) *
        ((mem (val.toNat + ((w + 7) / 8 - 1))).toNat % 2 ^ (w % 8)) = pattern mem w val ↔
      (w % 8 = 0 → mem (val.toNat + (w / 8 - 1)) = 0) := by
  rw [pattern_of_bytes hgt]
  by_cases h8 : w % 8 = 0
  · -- the mask of a whole byte is that of none
    have hlen : (w + 7) / 8 - 1 = w / 8 - 1 := by omega
    have htop : w - 8 * (w / 8 - 1) = 8 := by omega
    have hbyte := (mem (val.toNat + (w / 8 - 1))).toNat_lt
    have hpos : 0 < 256 ^ (w / 8 - 1) := Nat.pow_pos (by decide)
    rw [hlen, htop, h8, Nat.pow_zero, Nat.mod_one, Nat.mod_eq_of_lt hbyte, Nat.mul_zero, Nat.add_right_inj,
      ← UInt8.toNat_inj]
    constructor
    · intro h _
      exact (Nat.mul_eq_zero.mp h.symm).resolve_left (Nat.pos_iff_ne_zero.mp hpos)
    · intro h
      rw [h rfl]
      rfl
  · have htop : w - 8 * ((w + 7) / 8 - 1) = w % 8 := by omega
    rw [htop]
    exact ⟨fun _ h => absurd h h8, fun _ => rfl⟩

/-- For every integer type and value: the text spells the bits of the value exactly then. -/
theorem prints_pattern_iff (hint : td_is_int td = true) (hw : td_get_bit_width td = some w) :
    PrintsPattern lsl32 mem td w val ↔ PrintedWhole lsl32 mem w val := by
  have hbig := td_get_bit_width_lt hw
  unfold PrintedWhole
  by_cases hbytes : 1 ≤ w ∧ w + 7 < 2 ^ 32
  · obtain ⟨h1, hlt⟩ := hbytes
    rcases Nat.lt_trichotomy w 32 with hw32 | rfl | hw32
    · rw [print_handle hint hw h1 (Nat.le_of_lt hw32), not_handleMask_and hw32, pattern,
        if_pos (Nat.le_of_lt hw32)]
      exact ⟨fun _ => ⟨⟨h1, hlt⟩, fun h => by omega, fun h => by omega⟩, fun _ => rfl⟩
    · rw [print_handle hint hw h1 (Nat.le_refl 32), pattern, if_pos (Nat.le_refl 32),
        Nat.mod_eq_of_lt val.isLt, BitVec.toNat_inj, handleMask, if_neg (Nat.lt_irrefl 32), not_and_eq_iff]
      exact ⟨fun h => ⟨⟨h1, hlt⟩, fun _ => h, fun h32 => absurd h32 (Nat.lt_irrefl 32)⟩,
        fun h => h.2.1 rfl⟩
    · rw [print_bytes hint hw hw32 hlt, top_byte_iff hw32]
      exact ⟨fun h => ⟨⟨h1, hlt⟩, fun h32 => by omega, fun _ => h⟩, fun h => h.2.2 hw32⟩
  · have h0 : byteWidth w = 0 := by
      unfold byteWidth
      omega
    exact ⟨fun h => absurd h (print_empty hint hw h0), fun h => absurd h.1 hbytes⟩

/-- `_BitInt(33)`, whose width follows the name. -/
def TypeDescriptor.bitInt33 : TypeDescriptor where
  type_kind := .TK_BitInt
  type_info := 0x000d
  type_name := [0x27, 0x42, 0x27, 0x00, 33, 0, 0, 0]

/-- `unsigned long long`. -/
def TypeDescriptor.unsignedLongLong : TypeDescriptor where
  type_kind := .TK_Integer
  type_info := 0x000c
  type_name := [0x27, 0x75, 0x6c, 0x6c, 0x27, 0x00]

theorem prints_pattern_iff_bitInt : PrintsPattern 0 (fun _ => 0xff) .bitInt33 33 0x1000 :=
  (prints_pattern_iff (by decide) (by decide)).mpr
    ⟨by decide, fun h => absurd h (by decide), fun _ h => absurd h (by decide)⟩

/-- The bits of 2^64 - 1 lose their top byte. -/
theorem prints_pattern_long_long :
    print_value_int 0 (fun _ => 0xff) .unsignedLongLong 0x1000 = some "0xffffffffffffff".toList ∧
    ¬PrintsPattern 0 (fun _ => 0xff) .unsignedLongLong 64 0x1000 := by
  have htext : print_value_int 0 (fun _ => 0xff) .unsignedLongLong 0x1000 =
      some "0xffffffffffffff".toList := by decide +kernel
  have hparse : Hex.parse "ffffffffffffff".toList = some 0xffffffffffffff := by decide +kernel
  have hpattern : pattern (fun _ => 0xff) 64 0x1000 = 0xffffffffffffffff := by decide +kernel
  refine ⟨htext, fun h => ?_⟩
  have heq := (printsPattern_iff htext hparse).mp h
  rw [hpattern] at heq
  exact absurd heq (by decide)

end Bcm2835.Ubsan

import Bcm2835.Lib.Digits
import Bcm2835.Lib.Hex
import Bcm2835.Lib.Mem

/-!
# Values in sanitizer reports (`ubsan.h`, `ubsan.c`)

A check of the sanitizer passes a value as a `ValueHandle`: the value itself when its type
has at most 32 bits, else a pointer to its bytes. Shifts of a word by its own width are
undefined in C: `lsl32` is what the target makes of `~0 << 32` and beyond (the ARM's `LSL`
by a register gives 0). Text goes to `printf`, whose `%x` conversions are those of `Hex`.
-/

namespace Bcm2835.Ubsan

open Mem

/-! ## Type descriptors -/

inductive TypeKind
  | TK_Integer
  | TK_Float
  | TK_BitInt
  | TK_Unknown
deriving DecidableEq

/-- `type_name` has the bytes from that field to the end of the descriptor. -/
structure TypeDescriptor where
  type_kind : TypeKind
  type_info : UInt16
  type_name : List UInt8

def td_is_int (td : TypeDescriptor) : Bool := td.type_kind = .TK_Integer || td.type_kind = .TK_BitInt

def td_is_bitint (td : TypeDescriptor) : Bool := td.type_kind = .TK_BitInt

def td_is_sbitint (td : TypeDescriptor) : Bool := td_is_bitint td && td.type_info &&& 1 ≠ 0

def td_is_sint (td : TypeDescriptor) : Bool := td_is_int td && td.type_info &&& 1 ≠ 0

def td_is_uint (td : TypeDescriptor) : Bool := td_is_int td && td.type_info &&& 1 = 0

def td_is_float (td : TypeDescriptor) : Bool := td.type_kind = .TK_Float

/-- The width of a signed `_BitInt` follows the name's null byte. No width is read behind the
end of the descriptor, and none is computed by a shift of an `int` by 32 or more. -/
def td_get_bit_width (td : TypeDescriptor) : Option Nat :=
  if td_is_sbitint td then
    match td.type_name.dropWhile (· ≠ 0) with
    | _ :: b0 :: b1 :: b2 :: b3 :: _ => some (Bytes.ofLe [b0, b1, b2, b3])
    | _ => none
  else if td.type_info.toNat / 2 < 32 then some (2 ^ (td.type_info.toNat / 2))
  else none

/-! ## Values -/

abbrev ValueHandle := BitVec 32

/-- `~(ValueHandle)0 << bit_width`. -/
def handleMask (lsl32 : ValueHandle) (bit_width : Nat) : ValueHandle :=
  if bit_width < 32 then BitVec.allOnes 32 <<< bit_width else lsl32

/-- `0xff << (bit_width & 7)`, in a byte. -/
def byteMask (bit_width : Nat) : UInt8 := 0xff <<< UInt8.ofNat (bit_width % 8)

/-- The number of bytes of a value. -/
def byteWidth (bit_width : Nat) : Nat := (bit_width + 7) % 2 ^ 32 / 8

/-! ## Printing -/

/-- The loop of `print_value_int` at byte `i`, of which `masked_val` is to be printed. -/
def printLoop (mem : Memory) (intp : Nat) : Nat → UInt8 → Bool → List Char
  | i, masked_val, hit_nz =>
      (if hit_nz then Hex.twoDigits masked_val.toNat
        else if masked_val ≠ 0 ∨ i = 0 then Hex.digits masked_val.toNat
        else []) ++
      match i with
      | 0 => []
      | i + 1 => printLoop mem intp i (mem (intp + i)) (hit_nz || masked_val ≠ 0)

/-- `%#zx`, of 0 apart. -/
def printHandle (masked_val : ValueHandle) : List Char :=
  if masked_val = 0 then ['0', 'x', '0'] else '0' :: 'x' :: Hex.digits masked_val.toNat

def print_value_int (lsl32 : ValueHandle) (mem : Memory) (td : TypeDescriptor) (val : ValueHandle) :
    Option (List Char) := do
  guard (td_is_int td = true)
  let bit_width ← td_get_bit_width td
  let byte_width := byteWidth bit_width
  pure ((if byte_width = 0 then ['0', 'x', '0'] else []) ++
    if byte_width ≤ 4 then printHandle (~~~ handleMask lsl32 bit_width &&& val)
    else '0' :: 'x' :: printLoop mem val.toNat (byte_width - 1)
      (~~~ byteMask bit_width &&& mem (val.toNat + (byte_width - 1))) false)

def print_value (lsl32 : ValueHandle) (mem : Memory) (td : TypeDescriptor) (val : ValueHandle) :
    Option (List Char) :=
  if td_is_int td then print_value_int lsl32 mem td val
  else if td.type_kind = .TK_Float then some "TK_Float".toList
  else some "TK_Unknown".toList

/-! ## Division -/

/-- The loop of `is_minus_one` at byte `i`, which is `v`. The complement is that of an `int`. -/
def minusOneLoop (mem : Memory) (intp : Nat) : Nat → UInt8 → Bool
  | i, v =>
      if ~~~v.toUInt32 ≠ 0 then false
      else match i with
        | 0 => true
        | i + 1 => minusOneLoop mem intp i (mem (intp + i))

def is_minus_one (lsl32 : ValueHandle) (mem : Memory) (td : TypeDescriptor) (val : ValueHandle) :
    Option Bool :=
  if td_is_int td = false then some false
  else if td_is_uint td then some false
  else do
    let bit_width ← td_get_bit_width td
    let i := byteWidth bit_width
    if i = 0 then pure false
    else if i ≤ 4 then
      pure (~~~(handleMask lsl32 bit_width ||| (val &&& ~~~ handleMask lsl32 bit_width)) = 0)
    else
      pure (minusOneLoop mem val.toNat (i - 1)
        (mem (val.toNat + (i - 1)) &&& ~~~ byteMask bit_width ||| byteMask bit_width))

/-- The errors `handle_divrem_overflow` reports. -/
inductive ErrorType
  | ET_SignedIntegerOverflow
  | ET_IntegerDivideByZero
  | ET_FloatDivideByZero
deriving DecidableEq

/-- The name of the type. -/
def typeName (td : TypeDescriptor) : List Char :=
  (td.type_name.takeWhile (· ≠ 0)).map fun c => Char.ofNat c.toNat

/-- The error reported, and the text of the report. -/
def handle_divrem_overflow (lsl32 : ValueHandle) (mem : Memory) (ty : TypeDescriptor)
    (LHS RHS : ValueHandle) : Option (ErrorType × List Char) := do
  let minus_one ← is_minus_one lsl32 mem ty RHS
  if minus_one then
    let lhs ← print_value lsl32 mem ty LHS
    pure (.ET_SignedIntegerOverflow, "division of ".toList ++ lhs ++
      " by -1 cannot be represented in type ".toList ++ typeName ty ++ ['\n'])
  else if td_is_int ty then pure (.ET_IntegerDivideByZero, "division by zero\n".toList)
  else if td_is_float ty then pure (.ET_FloatDivideByZero, "division by zero\n".toList)
  else none

end Bcm2835.Ubsan

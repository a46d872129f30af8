import Mathlib.Data.List.Basic
import Mathlib.Tactic.Ring

/-!
# Hexadecimal text

Digits read from the left, and the two ways `printf` writes a number: as many digits as
it has, or two for each byte.
-/

namespace Hex

def digitValue (c : Char) : Option Nat :=
  if '0' ≤ c ∧ c ≤ '9' then some (c.toNat - 48)
  else if 'a' ≤ c ∧ c ≤ 'f' then some (c.toNat - 87)
  else none

/-- Reads on, with `acc` read so far. -/
def parseFrom : Nat → List Char → Option Nat
  | acc, [] => some acc
  | acc, c :: cs => (digitValue c).bind fun d => parseFrom (16 * acc + d) cs

/-- The number a text spells, if it has digits and nothing else. -/
def parse (cs : List Char) : Option Nat := if cs = [] then none else parseFrom 0 cs

/-- `%x`. -/
def digits (n : Nat) : List Char := Nat.toDigits 16 n

/-- `%02x` of a byte. -/
def twoDigits (n : Nat) : List Char := [Nat.digitChar (n / 16), Nat.digitChar (n % 16)]

theorem digitValue_digitChar : ∀ d < 16, digitValue (Nat.digitChar d) = some d := by decide

theorem parseFrom_digitChar {acc d : Nat} (hd : d < 16) (cs : List Char) :
    parseFrom acc (Nat.digitChar d :: cs) = parseFrom (16 * acc + d) cs := by
  rw [parseFrom, digitValue_digitChar d hd]
  rfl

theorem parseFrom_append (acc : Nat) (cs ds : List Char) :
    parseFrom acc (cs ++ ds) = (parseFrom acc cs).bind fun n => parseFrom n ds := by
  induction cs generalizing acc with
  | nil => rfl
  | cons c cs ih =>
      rw [List.cons_append, parseFrom, parseFrom]
      cases digitValue c with
      | none => rfl
      | some d => exact ih _

/-- What `%x` writes is read back. -/
theorem parseFrom_digits (n : Nat) : parseFrom 0 (digits n) = some n := by
  induction n using Nat.strongRecOn with
  | ind n ih =>
      rw [digits, Nat.toDigits_eq_if (by decide)]
      split
      · rename_i hlt
        rw [parseFrom_digitChar hlt]
        show some (16 * 0 + n) = some n
        rw [Nat.mul_zero, Nat.zero_add]
      · rename_i hge
        have hrec : parseFrom 0 (Nat.toDigits 16 (n / 16)) = some (n / 16) := ih _ (by omega)
        rw [parseFrom_append, hrec]
        show parseFrom (n / 16) [Nat.digitChar (n % 16)] = some n
        rw [parseFrom_digitChar (by omega)]
        show some (16 * (n / 16) + n % 16) = some n
        rw [Nat.div_add_mod]

theorem digits_ne_nil (n : Nat) : digits n ≠ [] := Nat.toDigits_ne_nil

/-- Two digits are one byte more. -/
theorem parseFrom_twoDigits {acc n : Nat} (hn : n < 256) (cs : List Char) :
    parseFrom acc (twoDigits n ++ cs) = parseFrom (256 * acc + n) cs := by
  show parseFrom acc (Nat.digitChar (n / 16) :: Nat.digitChar (n % 16) :: cs) = _
  rw [parseFrom_digitChar (by omega), parseFrom_digitChar (by omega)]
  congr 1
  omega

theorem parse_of_ne_nil {cs : List Char} (h : cs ≠ []) : parse cs = parseFrom 0 cs := if_neg h

/-- No number has a character that is no digit. -/
theorem parse_none {cs ds : List Char} {c : Char} (hc : digitValue c = none) :
    parse (cs ++ c :: ds) = none := by
  rw [parse_of_ne_nil (by simp), parseFrom_append]
  cases parseFrom 0 cs with
  | none => rfl
  | some n =>
      show parseFrom n (c :: ds) = none
      rw [parseFrom, hc]
      rfl

end Hex

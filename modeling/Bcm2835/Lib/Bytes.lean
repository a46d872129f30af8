import Mathlib.Data.UInt
import Mathlib.Tactic.Ring

/-!
# Little-endian numbers

`leBytes k n` is `n` in `k` bytes, least significant first; `ofLe` reads such
a string back.
-/

namespace Bytes

/-- The low `k` bytes of `n`, least significant first. -/
def leBytes : Nat → Nat → List UInt8
  | 0, _ => []
  | k + 1, n => .ofNat n :: leBytes k (n / 256)

/-- The number a byte string spells, least significant byte first. -/
def ofLe : List UInt8 → Nat
  | [] => 0
  | b :: bs => b.toNat + 256 * ofLe bs

@[simp] theorem leBytes_length (k n : Nat) : (leBytes k n).length = k := by
  induction k generalizing n with
  | zero => rfl
  | succ k ih => simp [leBytes, ih]

theorem ofLe_leBytes (k n : Nat) : ofLe (leBytes k n) = n % 256 ^ k := by
  induction k generalizing n with
  | zero => simp [leBytes, ofLe, Nat.mod_one]
  | succ k ih =>
      have hb : (UInt8.ofNat n).toNat = n % 256 := UInt8.toNat_ofNat' ..
      simp only [leBytes, ofLe, ih, hb]
      rw [Nat.pow_succ, Nat.mul_comm (256 ^ k), Nat.mod_mul]

theorem ofLe_lt (bs : List UInt8) : ofLe bs < 256 ^ bs.length := by
  induction bs with
  | nil => simp [ofLe]
  | cons b bs ih =>
      have hb := b.toNat_lt
      simp only [ofLe, List.length_cons, Nat.pow_succ]
      omega

theorem leBytes_ofLe (bs : List UInt8) : leBytes bs.length (ofLe bs) = bs := by
  induction bs with
  | nil => rfl
  | cons b bs ih =>
      have hb := b.toNat_lt
      have h1 : (b.toNat + 256 * ofLe bs) / 256 = ofLe bs := by omega
      have h2 : UInt8.ofNat (b.toNat + 256 * ofLe bs) = b := by
        apply UInt8.toNat_inj.mp
        rw [UInt8.toNat_ofNat']
        omega
      simp only [ofLe, List.length_cons, leBytes, h1, h2, ih]

/-- A 32-bit word in four bytes. -/
def le32 (x : UInt32) : List UInt8 := leBytes 4 x.toNat

/-- A 64-bit word in eight bytes. -/
def le64 (x : UInt64) : List UInt8 := leBytes 8 x.toNat

/-- The 32-bit word at offset `o` of a byte string. -/
def get32 (bs : List UInt8) (o : Nat) : UInt32 := .ofNat (ofLe ((bs.drop o).take 4))

/-- The 64-bit word at offset `o` of a byte string. -/
def get64 (bs : List UInt8) (o : Nat) : UInt64 := .ofNat (ofLe ((bs.drop o).take 8))

@[simp] theorem le32_length (x : UInt32) : (le32 x).length = 4 := by simp [le32]
@[simp] theorem le64_length (x : UInt64) : (le64 x).length = 8 := by simp [le64]

/-- A word written between other bytes is read back at its offset. -/
theorem get32_append {a c : List UInt8} {o : Nat} (x : UInt32) (h : a.length = o) :
    get32 (a ++ le32 x ++ c) o = x := by
  have hx := x.toNat_lt
  have htake : ((a ++ le32 x ++ c).drop o).take 4 = le32 x := by
    rw [List.append_assoc, List.drop_left' h, List.take_left' (le32_length x)]
  apply UInt32.toNat_inj.mp
  rw [get32, htake, le32, ofLe_leBytes, UInt32.toNat_ofNat']
  omega

theorem get64_append {a c : List UInt8} {o : Nat} (x : UInt64) (h : a.length = o) :
    get64 (a ++ le64 x ++ c) o = x := by
  have hx := x.toNat_lt
  have htake : ((a ++ le64 x ++ c).drop o).take 8 = le64 x := by
    rw [List.append_assoc, List.drop_left' h, List.take_left' (le64_length x)]
  apply UInt64.toNat_inj.mp
  rw [get64, htake, le64, ofLe_leBytes, UInt64.toNat_ofNat']
  omega

end Bytes

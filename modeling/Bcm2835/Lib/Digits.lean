import Bcm2835.Lib.Bytes
import Bcm2835.Lib.Buf
import Mathlib.Tactic.Ring
import Mathlib.Tactic.Linarith
import Mathlib.Tactic.IntervalCases

/-!
# Numbers by their base-256 digits

`value d n` is the number with the `n` digits `d 0, d 1, …`, least significant
first. The digits of a sum, a difference, a comparison and a shift are given
by rules that look at one or two digits and a carry at a time.
-/

namespace Digits

open Bytes

/-- The number with the digits `d 0 … d (n-1)`. -/
def value (d : Nat → UInt8) (n : Nat) : Nat := ofLe (Buf.taken d n)

/-- Digit `i` of a number. -/
def digit (x i : Nat) : Nat := x / 256 ^ i % 256

@[simp] theorem value_zero (d : Nat → UInt8) : value d 0 = 0 := rfl

theorem ofLe_append (as bs : List UInt8) :
    ofLe (as ++ bs) = ofLe as + 256 ^ as.length * ofLe bs := by
  induction as with
  | nil => simp [ofLe]
  | cons a as ih =>
      simp only [List.cons_append, ofLe, ih, List.length_cons, Nat.pow_succ]
      ring

/-- The most significant digit split off. -/
theorem value_succ (d : Nat → UInt8) (n : Nat) :
    value d (n + 1) = value d n + 256 ^ n * (d n).toNat := by
  simp [value, Buf.taken_succ, ofLe_append, ofLe]

/-- The least significant digit split off. -/
theorem value_succ' (d : Nat → UInt8) (n : Nat) :
    value d (n + 1) = (d 0).toNat + 256 * value (fun i => d (i + 1)) n := by
  rw [value, Nat.add_comm n 1, Buf.taken_add]
  simp [Buf.taken, ofLe, value, Nat.add_comm]

theorem value_lt (d : Nat → UInt8) (n : Nat) : value d n < 256 ^ n := by
  have h := ofLe_lt (Buf.taken d n)
  rwa [Buf.taken_length] at h

theorem value_congr {d e : Nat → UInt8} {n : Nat} (h : ∀ i < n, d i = e i) :
    value d n = value e n := by
  rw [value, value, Buf.taken, Buf.taken]
  congr 1
  exact List.map_congr_left fun i hi => h i (List.mem_range.mp hi)

/-! ## Digits of a number -/

/-- A digit sequence is that of its number. -/
theorem digit_value (d : Nat → UInt8) {n i : Nat} (hi : i < n) :
    digit (value d n) i = (d i).toNat := by
  induction n with
  | zero => omega
  | succ n ih =>
      have hd := (d i).toNat_lt
      rw [digit, value_succ]
      rcases Nat.lt_succ_iff_lt_or_eq.mp hi with hlt | rfl
      · have hpow : 256 ^ n = 256 ^ i * (256 * 256 ^ (n - i - 1)) := by
          rw [← Nat.pow_succ', ← Nat.pow_add]
          congr 1
          omega
        rw [hpow, Nat.mul_assoc, Nat.add_mul_div_left _ _ (Nat.pos_of_ne_zero (by simp)),
          Nat.mul_assoc, Nat.add_mul_mod_self_left]
        exact ih hlt
      · rw [Nat.add_mul_div_left _ _ (Nat.pos_of_ne_zero (by simp)),
          Nat.div_eq_of_lt (value_lt d i), Nat.zero_add, Nat.mod_eq_of_lt (by simpa using hd)]

/-- Digits behind the last are zero. -/
theorem digit_value_of_le (d : Nat → UInt8) {n i : Nat} (hi : n ≤ i) : digit (value d n) i = 0 := by
  have hlt := Nat.lt_of_lt_of_le (value_lt d n) (Nat.pow_le_pow_right (by decide) hi)
  rw [digit, Nat.div_eq_of_lt hlt]

/-! ## Carries and borrows -/

/-- A sum, digit by digit. -/
theorem value_add {l r s : Nat → UInt8} {c : Nat → Nat} {n : Nat} (h0 : c 0 = 0)
    (hstep : ∀ i < n, (s i).toNat + 256 * c (i + 1) = (l i).toNat + (r i).toNat + c i) :
    value s n + 256 ^ n * c n = value l n + value r n := by
  induction n with
  | zero => simp [h0]
  | succ n ih =>
      have hlow := ih fun i hi => hstep i (Nat.lt_succ_of_lt hi)
      have htop := congrArg (256 ^ n * ·) (hstep n (Nat.lt_succ_self n))
      simp only [value_succ, Nat.pow_succ]
      simp only [Nat.mul_add] at htop
      calc value s n + 256 ^ n * (s n).toNat + 256 ^ n * 256 * c (n + 1)
          = value s n + (256 ^ n * (s n).toNat + 256 ^ n * (256 * c (n + 1))) := by ring
        _ = value s n + 256 ^ n * c n + 256 ^ n * (l n).toNat + 256 ^ n * (r n).toNat := by
            rw [htop]; ring
        _ = value l n + 256 ^ n * (l n).toNat + (value r n + 256 ^ n * (r n).toNat) := by
            rw [hlow]; ring

/-- A difference, digit by digit. -/
theorem value_sub {l r s : Nat → UInt8} {c : Nat → Nat} {n : Nat} (h0 : c 0 = 0)
    (hstep : ∀ i < n, (s i).toNat + ((r i).toNat + c i) = (l i).toNat + 256 * c (i + 1)) :
    value s n + value r n = value l n + 256 ^ n * c n := by
  induction n with
  | zero => simp [h0]
  | succ n ih =>
      have hlow := ih fun i hi => hstep i (Nat.lt_succ_of_lt hi)
      have htop := congrArg (256 ^ n * ·) (hstep n (Nat.lt_succ_self n))
      simp only [value_succ, Nat.pow_succ]
      simp only [Nat.mul_add] at htop
      linarith

/-- A carry alone, rippling through the digits. -/
theorem value_carry {l s : Nat → UInt8} {c : Nat → Nat} {n : Nat}
    (hstep : ∀ i < n, (s i).toNat + 256 * c (i + 1) = (l i).toNat + c i) :
    value s n + 256 ^ n * c n = value l n + c 0 := by
  induction n with
  | zero => simp
  | succ n ih =>
      have hn := hstep n (Nat.lt_succ_self n)
      have hlow := ih fun i hi => hstep i (Nat.lt_succ_of_lt hi)
      have hscale : 256 ^ n * ((s n).toNat + 256 * c (n + 1)) = 256 ^ n * ((l n).toNat + c n) := by
        rw [hn]
      rw [value_succ, value_succ, Nat.pow_succ, Nat.mul_assoc]
      rw [Nat.mul_add, Nat.mul_add] at hscale
      omega

theorem value_eq_inc_mod {l s : Nat → UInt8} {c : Nat → Nat} {n : Nat} (h0 : c 0 = 1)
    (hstep : ∀ i < n, (s i).toNat + 256 * c (i + 1) = (l i).toNat + c i) :
    value s n = (value l n + 1) % 256 ^ n := by
  rw [← h0, ← value_carry hstep, Nat.add_mul_mod_self_left, Nat.mod_eq_of_lt (value_lt s n)]

/-- The value of a sum whose last carry is dropped. -/
theorem value_eq_add_mod {l r s : Nat → UInt8} {c : Nat → Nat} {n : Nat} (h0 : c 0 = 0)
    (hstep : ∀ i < n, (s i).toNat + 256 * c (i + 1) = (l i).toNat + (r i).toNat + c i) :
    value s n = (value l n + value r n) % 256 ^ n := by
  rw [← value_add h0 hstep, Nat.add_mul_mod_self_left, Nat.mod_eq_of_lt (value_lt s n)]

/-- The value of a difference whose last borrow is dropped. -/
theorem value_eq_sub_mod {l r s : Nat → UInt8} {c : Nat → Nat} {n : Nat} (h0 : c 0 = 0)
    (hstep : ∀ i < n, (s i).toNat + ((r i).toNat + c i) = (l i).toNat + 256 * c (i + 1)) :
    (value s n : Int) = ((value l n : Int) - value r n) % 256 ^ n := by
  have h : (value s n : Int) + value r n = value l n + 256 ^ n * c n := by
    exact_mod_cast value_sub h0 hstep
  have hs : (value s n : Int) < 256 ^ n := by exact_mod_cast value_lt s n
  have hdiff : (value l n : Int) - value r n = value s n - 256 ^ n * c n := by linarith
  rw [hdiff, Int.sub_mul_emod_self_left, Int.emod_eq_of_lt (Int.natCast_nonneg _) hs]

/-- The complement of each digit. -/
theorem value_not (d : Nat → UInt8) (n : Nat) : value (fun i => ~~~d i) n + value d n + 1 = 256 ^ n := by
  induction n with
  | zero => rfl
  | succ n ih =>
      have hd : (d n).toNat < 256 := (d n).toNat_lt
      have hnot : (~~~d n).toNat + (d n).toNat = 255 := by
        have hsize : UInt8.size = 256 := rfl
        rw [UInt8.toNat_not, hsize]
        omega
      have htop : 256 ^ n * (~~~d n).toNat + 256 ^ n * (d n).toNat = 256 ^ n * 255 := by
        rw [← Nat.mul_add, hnot]
      rw [value_succ, value_succ, Nat.pow_succ]
      omega

/-! ## Comparisons -/

/-- The most significant digit decides, or the rest does. -/
theorem value_lt_succ (l r : Nat → UInt8) (n : Nat) :
    value l (n + 1) < value r (n + 1) ↔
      (l n).toNat < (r n).toNat ∨ (l n).toNat = (r n).toNat ∧ value l n < value r n := by
  have hl := value_lt l n
  have hr := value_lt r n
  rw [value_succ, value_succ]
  rcases Nat.lt_trichotomy (l n).toNat (r n).toNat with h | h | h
  · have := Nat.mul_le_mul_left (256 ^ n) (Nat.succ_le_of_lt h)
    rw [Nat.mul_succ] at this
    constructor
    · exact fun _ => .inl h
    · intro _
      omega
  · rw [h]
    constructor
    · exact fun hlt => .inr ⟨rfl, by omega⟩
    · rintro (hlt | ⟨_, hlt⟩)
      · omega
      · omega
  · have := Nat.mul_le_mul_left (256 ^ n) (Nat.succ_le_of_lt h)
    rw [Nat.mul_succ] at this
    constructor
    · intro hlt
      omega
    · rintro (hlt | ⟨heq, _⟩)
      · omega
      · omega

/-! ## Two's complement -/

/-- The number with the digits `d 0 … d (n-1)` in two's complement. -/
def signed (d : Nat → UInt8) (n : Nat) : Int := Int.bmod (value d n) (256 ^ n)

/-- The sign is that of the digits above the lowest. -/
theorem signed_succ (d : Nat → UInt8) {n : Nat} (hn : 0 < n) :
    signed d (n + 1) = (d 0).toNat + 256 * signed (fun i => d (i + 1)) n := by
  have hlt := value_lt (fun i => d (i + 1)) n
  have hd : (d 0).toNat < 256 := (d 0).toNat_lt
  have heven : 256 ^ n % 2 = 0 := by
    obtain ⟨k, rfl⟩ : ∃ k, n = k + 1 := ⟨n - 1, by omega⟩
    rw [Nat.pow_succ]
    omega
  rw [signed, signed, value_succ', Nat.pow_succ]
  generalize value (fun i => d (i + 1)) n = x at *
  generalize 256 ^ n = M at *
  rw [Int.bmod_def, Int.bmod_def, Int.emod_eq_of_lt (by omega) (by omega),
    Int.emod_eq_of_lt (by omega) (by omega)]
  split <;> split <;> omega

theorem signed_one (d : Nat → UInt8) : signed d 1 = Int.bmod (d 0).toNat 256 := by
  rw [signed, value_succ, value_zero, Nat.pow_zero, Nat.one_mul, Nat.zero_add, Nat.pow_one]

/-- The sign is in the most significant digit. -/
theorem signed_succ' (d : Nat → UInt8) (n : Nat) :
    signed d (n + 1) = value d n + 256 ^ n * Int.bmod (d n).toNat 256 := by
  have hlt := value_lt d n
  have hd : (d n).toNat < 256 := (d n).toNat_lt
  have hpos : 0 < 256 ^ n := Nat.pow_pos (by decide)
  have hbyte : Int.bmod (d n).toNat 256 = (d n).toNat - 256 * (if (d n).toNat < 128 then 0 else 1) := by
    rw [Int.bmod_def, Int.emod_eq_of_lt (by omega) (by omega)]
    split <;> split <;> omega
  rw [signed, value_succ, Nat.pow_succ, hbyte]
  have hcast : (256 : Int) ^ n = (256 ^ n : Nat) := by push_cast; rfl
  rw [hcast]
  generalize value d n = x at *
  generalize (d n).toNat = t at *
  generalize 256 ^ n = M at *
  have hprod : t * M + M ≤ 256 * M := by
    have := Nat.mul_le_mul_right M (Nat.succ_le_of_lt hd)
    rwa [Nat.succ_mul] at this
  rw [Nat.mul_comm M t, Nat.mul_comm M 256, Int.bmod_def, Int.emod_eq_of_lt (by omega) (by omega)]
  split
  · next h =>
      have hlow : t < 128 := by
        by_contra hge
        have := Nat.mul_le_mul_right M (Nat.le_of_not_lt hge)
        omega
      rw [if_pos hlow]
      push_cast
      ring
  · next h =>
      have hhigh : ¬ t < 128 := by
        intro hlow
        have := Nat.mul_le_mul_right M (Nat.succ_le_of_lt hlow)
        rw [Nat.succ_mul] at this
        omega
      rw [if_neg hhigh]
      push_cast
      ring

/-! ## Digits of an integer -/

/-- Digit `i` of an integer, whose two's complement goes on to the left. -/
def idigit (x : Int) (i : Nat) : Int := x / 256 ^ i % 256

theorem idigit_natCast (x i : Nat) : idigit (x : Int) i = (digit x i : Nat) := by
  rw [idigit, digit]
  push_cast
  rfl

theorem emod_mul_byte (x : Int) {a : Int} (ha : 0 < a) :
    x % (a * 256) = x % a + a * (x / a % 256) := by
  have hx := Int.emod_add_mul_ediv x a
  have hq := Int.emod_add_mul_ediv (x / a) 256
  have hlow := Int.emod_nonneg x ha.ne'
  have hlow' := Int.emod_lt_of_pos x ha
  have hdigit : x / a % 256 ≤ 255 := by omega
  have hprod : a * (x / a % 256) ≤ a * 255 := Int.mul_le_mul_of_nonneg_left hdigit ha.le
  have hnonneg : 0 ≤ a * (x / a % 256) := Int.mul_nonneg ha.le (Int.emod_nonneg _ (by decide))
  refine ((Int.ediv_emod_unique (q := x / a / 256) (by omega)).mpr ⟨?_, by omega, by omega⟩).2
  calc x % a + a * (x / a % 256) + a * 256 * (x / a / 256)
      = x % a + a * (x / a % 256 + 256 * (x / a / 256)) := by ring
    _ = x := by rw [hq, hx]

theorem value_of_idigits {d : Nat → UInt8} {x : Int} {n : Nat}
    (h : ∀ i < n, ((d i).toNat : Int) = idigit x i) : (value d n : Int) = x % 256 ^ n := by
  induction n with
  | zero => simp
  | succ n ih =>
      rw [value_succ]
      push_cast
      rw [ih fun i hi => h i (Nat.lt_succ_of_lt hi), h n (Nat.lt_succ_self n), idigit, pow_succ,
        emod_mul_byte _ (pow_pos (by decide) n)]

theorem idigit_div_pow (x : Int) (k i : Nat) : idigit (x / 256 ^ k) i = idigit x (k + i) := by
  rw [idigit, idigit, Int.ediv_ediv_of_nonneg (pow_nonneg (by decide) k), ← pow_add]

/-- A digit of a number shifted by at most a byte comes from two digits. -/
theorem idigit_shift (x : Int) {t : Nat} (ht : t ≤ 8) (i : Nat) :
    idigit (x / 2 ^ t) i = (idigit x i + 256 * idigit x (i + 1)) / 2 ^ t % 256 := by
  have hcomm : x / 2 ^ t / 256 ^ i = x / 256 ^ i / 2 ^ t := by
    rw [Int.ediv_ediv_of_nonneg (pow_nonneg (by decide) t), mul_comm,
      ← Int.ediv_ediv_of_nonneg (pow_nonneg (by decide) i)]
  have hnext : x / 256 ^ (i + 1) = x / 256 ^ i / 256 := by
    rw [pow_succ, ← Int.ediv_ediv_of_nonneg (pow_nonneg (by decide) i)]
  rw [idigit, idigit, idigit, hcomm, hnext]
  generalize x / 256 ^ i = y
  interval_cases t <;> omega

theorem idigit_mul_pow (x : Int) (k i : Nat) :
    idigit (x * 256 ^ k) i = if i < k then 0 else idigit x (i - k) := by
  have hpos : ∀ n : Nat, (0 : Int) < 256 ^ n := fun n => pow_pos (by decide) n
  split
  · next h =>
      have hsplit : (256 : Int) ^ k = 256 ^ i * (256 ^ (k - i - 1) * 256) := by
        rw [← pow_succ, ← pow_add]
        congr 1
        omega
      rw [idigit, hsplit, mul_left_comm, Int.mul_ediv_cancel_left _ (hpos i).ne', ← mul_assoc,
        Int.mul_emod_left]
  · next h =>
      have hsplit : (256 : Int) ^ i = 256 ^ k * 256 ^ (i - k) := by
        rw [← pow_add]
        congr 1
        omega
      rw [idigit, idigit, hsplit, mul_comm x, Int.mul_ediv_mul_of_pos _ _ (hpos k)]

/-- Shifted to the left by at most a byte, a digit comes from two digits, too. -/
theorem idigit_shiftLeft (x : Int) {t : Nat} (ht : t ≤ 8) (i : Nat) :
    idigit (x * 2 ^ t) i =
      ((if i = 0 then 0 else idigit x (i - 1)) + 256 * idigit x i) * 2 ^ t / 256 % 256 := by
  have hbyte : (256 : Int) = 2 ^ t * 2 ^ (8 - t) := by
    rw [← pow_add, Nat.add_sub_cancel' ht]
    rfl
  have hdiv : ∀ y : Int, y * 2 ^ t / 256 = y / 2 ^ (8 - t) := by
    intro y
    rw [hbyte, mul_comm, Int.mul_ediv_mul_of_pos _ _ (pow_pos (by decide) t)]
  have hx : x * 2 ^ t = x * 256 ^ 1 / 2 ^ (8 - t) := by
    rw [pow_one, hbyte, ← mul_assoc, Int.mul_ediv_cancel _ (pow_pos (by decide) _).ne']
  have hlow : idigit (x * 256 ^ 1) i = if i = 0 then 0 else idigit x (i - 1) := by
    rw [idigit_mul_pow]
    exact if_congr Nat.lt_one_iff rfl rfl
  have hhigh : idigit (x * 256 ^ 1) (i + 1) = idigit x i := by
    rw [idigit_mul_pow, if_neg (by omega), Nat.add_sub_cancel]
  rw [hx, idigit_shift _ (by omega), hdiv, hlow, hhigh]

/-- The digits of a number in two's complement are those it was given. -/
theorem idigit_signed (d : Nat → UInt8) {n i : Nat} (hi : i < n) :
    idigit (signed d n) i = (d i).toNat := by
  have hd : (d i).toNat < 256 := (d i).toNat_lt
  have hdigit := digit_value d hi
  have hsigned : signed d n % 256 ^ n = value d n % 256 ^ n := by
    rw [signed]
    exact_mod_cast Int.bmod_emod
  have hlow : ∀ x : Int, idigit x i = idigit (x % 256 ^ n) i := by
    intro x
    have hsplit : (256 : Int) ^ n = 256 ^ i * (256 * 256 ^ (n - i - 1)) := by
      rw [← pow_succ', ← pow_add]
      congr 1
      omega
    conv_lhs => rw [← Int.emod_add_mul_ediv x (256 ^ n)]
    rw [idigit, idigit, hsplit, mul_assoc, Int.add_mul_ediv_left _ _ (pow_pos (by decide) i).ne',
      mul_assoc, Int.add_mul_emod_self_left]
  rw [hlow, hsigned, ← hlow, idigit_natCast, hdigit]

/-- To the left of its digits a number in two's complement has its sign. -/
theorem idigit_signed_of_le (d : Nat → UInt8) {n i : Nat} (hi : n + 1 ≤ i) :
    idigit (signed d (n + 1)) i = if (d n).toNat < 128 then 0 else 255 := by
  have hd : (d n).toNat < 256 := (d n).toNat_lt
  have hlt := value_lt d n
  have hM : (256 : Int) ^ i = 256 ^ n * (256 * 256 ^ (i - n - 1)) := by
    rw [← pow_succ', ← pow_add]
    congr 1
    omega
  have hrest : (0 : Int) < 256 ^ (i - n - 1) := pow_pos (by decide) _
  have hpos : (0 : Int) < 256 ^ n := pow_pos (by decide) n
  have htop : signed d (n + 1) / 256 ^ n = Int.bmod (d n).toNat 256 := by
    rw [signed_succ', Int.add_mul_ediv_left _ _ hpos.ne',
      Int.ediv_eq_zero_of_lt (Int.natCast_nonneg _) (by exact_mod_cast hlt), zero_add]
  have hbyte : Int.bmod (d n).toNat 256 / 256 = if (d n).toNat < 128 then 0 else -1 := by
    rw [Int.bmod_def, Int.emod_eq_of_lt (by omega) (by omega)]
    split <;> split <;> omega
  rw [idigit, hM, ← Int.ediv_ediv_of_nonneg hpos.le, htop,
    ← Int.ediv_ediv_of_nonneg (by decide), hbyte]
  split
  · rw [Int.zero_ediv]
    rfl
  · rw [Int.ediv_eq_neg_one_of_neg_of_le (by decide) (by omega)]
    rfl

/-- A number in range is the one its digits stand for. -/
theorem signed_of_idigits {d : Nat → UInt8} {x : Int} {n : Nat}
    (h : ∀ i < n, ((d i).toNat : Int) = idigit x i) (hlo : -(256 ^ n : Int) ≤ 2 * x)
    (hhi : 2 * x < 256 ^ n) : signed d n = x := by
  rw [signed, value_of_idigits h]
  have hcast : (256 : Int) ^ n = (256 ^ n : Nat) := by push_cast; rfl
  rw [hcast] at hlo hhi ⊢
  rw [Int.emod_bmod]
  exact Int.bmod_eq_of_le_mul_two (by omega) (by omega)

theorem signed_range (d : Nat → UInt8) (n : Nat) :
    -(256 ^ n : Int) ≤ 2 * signed d n ∧ 2 * signed d n < 256 ^ n := by
  have hpos : 0 < 256 ^ n := Nat.pow_pos (by decide)
  have hcast : (256 : Int) ^ n = (256 ^ n : Nat) := by push_cast; rfl
  have hlo := Int.le_bmod (x := (value d n : Int)) hpos
  have hhi := Int.bmod_lt (x := (value d n : Int)) hpos
  rw [hcast, signed]
  omega

end Digits

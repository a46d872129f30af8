import Bcm2835.Dma.Tables

/-!
# What the initializers leave in the tables

One lemma for each initializer: the entries a memory has that holds its stores.
-/

namespace Bcm2835.Dma

open Mem

theorem mem_each {n : Nat} {body : Nat → List (Nat × UInt8)} {w : Nat × UInt8} :
    w ∈ each n body ↔ ∃ i < n, w ∈ body i := by
  simp [each]

theorem shift_or {x y k : Nat} (hy : y < 2 ^ k) : x <<< k ||| y = x * 2 ^ k + y := by
  rw [← Nat.shiftLeft_add_eq_or_of_lt hy, Nat.shiftLeft_eq]

/-- The index of a row of `HYPER`. -/
theorem hyper_index {i j row : Nat} (hj : j < 256) (hrow : row < 256) :
    i <<< 16 ||| j <<< 8 ||| row = i * 65536 + j * 256 + row := by
  rw [Nat.or_assoc, shift_or (k := 8) hrow, shift_or (k := 16) (by omega), ← Nat.add_assoc]
  rfl

/-- The index of a row of `SUPER`. -/
theorem super_index (i : Nat) : i <<< 8 ||| SUPER_INC = i * 256 := by
  have hor := shift_or (x := i) (show SUPER_INC < 2 ^ 8 by decide)
  rw [hor, SUPER_INC]
  omega

theorem put_nat (array i x : Nat) :
    put array i (x : Int) = (array + BUS_DRAM_BASE + i, .ofNat (x % 256)) := by
  rw [put, show ((x : Int) % 256).toNat = x % 256 by omega]

theorem ofNat_mod_toNat (x : Nat) : (UInt8.ofNat (x % 256)).toNat = x % 256 := by
  rw [UInt8.toNat_ofNat', Nat.mod_mod]

/-- An entry stored as a number. -/
theorem Has.entry {m : Memory} {ws : List (Nat × UInt8)} (h : Has m ws) {array i x : Nat}
    (hmem : put array i (x : Int) ∈ ws) : (m (array + BUS_DRAM_BASE + i)).toNat = x % 256 := by
  have := h _ hmem
  rw [put_nat] at this
  rw [this, ofNat_mod_toNat]

/-- An entry stored as an integer. -/
theorem Has.entry_int {m : Memory} {ws : List (Nat × UInt8)} (h : Has m ws) {array i : Nat} {x : Int}
    (hmem : put array i x ∈ ws) : ((m (array + BUS_DRAM_BASE + i)).toNat : Int) = x % 256 := by
  have hput : m (array + BUS_DRAM_BASE + i) = .ofNat (x % 256).toNat := h _ hmem
  rw [hput, UInt8.toNat_ofNat']
  omega

theorem Has.of_append_left {m : Memory} {ws ws' : List (Nat × UInt8)} (h : Has m (ws ++ ws')) :
    Has m ws := fun w hw => h w (List.mem_append_left _ hw)

theorem Has.of_append_right {m : Memory} {ws ws' : List (Nat × UInt8)} (h : Has m (ws ++ ws')) :
    Has m ws' := fun w hw => h w (List.mem_append_right _ hw)

theorem Has.append {m : Memory} {ws ws' : List (Nat × UInt8)} (h : Has m ws) (h' : Has m ws') :
    Has m (ws ++ ws') := fun w hw => (List.mem_append.mp hw).elim (h w) (h' w)

/-- Stores elsewhere do not show. -/
theorem Has.congr {m m' : Memory} {ws : List (Nat × UInt8)} (h : Has m ws)
    (hsame : ∀ w ∈ ws, m' w.1 = m w.1) : Has m' ws := fun w hw => by rw [hsame w hw, h w hw]

section

variable {L : Layout} {m : Memory}

/-- The rows of `increment`. -/
theorem Has.increment (h : Has m (init_increment L)) {x c : Nat} (hx : x < 256) (hc : c ≤ 1) :
    (m (L.SUPER + BUS_DRAM_BASE + (x * 256 + 2 * c))).toNat = (x + c) % 256 ∧
    (m (L.SUPER + BUS_DRAM_BASE + (x * 256 + 2 * c + 1))).toNat = 2 * ((x + c) / 256) := by
  have hidx := super_index x
  have hmask : ∀ y : Nat, y &&& 0xff = y % 256 := fun y => Nat.and_two_pow_sub_one_eq_mod y 8
  have hhigh : ∀ y : Nat, y >>> 8 = y / 256 := fun y => Nat.shiftRight_eq_div_pow y 8
  have hmem : ∀ w ∈ [
      put L.SUPER ((x <<< 8 ||| SUPER_INC) + 0) ((x + 0) &&& 0xff : Nat),
      put L.SUPER ((x <<< 8 ||| SUPER_INC) + 1)
        (if (x + 0) >>> 8 ≠ 0 then SUPER_INC + 2 else SUPER_INC : Nat),
      put L.SUPER ((x <<< 8 ||| SUPER_INC) + 2) ((x + 1) &&& 0xff : Nat),
      put L.SUPER ((x <<< 8 ||| SUPER_INC) + 3)
        (if (x + 1) >>> 8 ≠ 0 then SUPER_INC + 2 else SUPER_INC : Nat)], w ∈ init_increment L := by
    intro w hw
    rw [init_increment, mem_each]
    exact ⟨x, hx, hw⟩
  simp only [List.forall_mem_cons] at hmem
  obtain ⟨hmem0, hmem1, hmem2, hmem3, _⟩ := hmem
  have h0 := h.entry hmem0
  have h1 := h.entry hmem1
  have h2 := h.entry hmem2
  have h3 := h.entry hmem3
  rw [hidx, hmask] at h0
  rw [hidx, hhigh] at h1 h3
  rw [hidx, hmask] at h2
  have hcarry : ∀ y, y < 512 → (if y / 256 ≠ 0 then SUPER_INC + 2 else SUPER_INC) % 256 = 2 * (y / 256) := by
    intro y hy
    rw [SUPER_INC]
    split <;> omega
  rcases Nat.le_one_iff_eq_zero_or_eq_one.mp hc with rfl | rfl
  · exact ⟨h0.trans (Nat.mod_mod ..), h1.trans (hcarry (x + 0) (by omega))⟩
  · exact ⟨h2.trans (Nat.mod_mod ..), h3.trans (hcarry (x + 1) (by omega))⟩

theorem mem_init_increment {w : Nat × UInt8} (hw : w ∈ init_increment L) :
    L.SUPER + BUS_DRAM_BASE ≤ w.1 ∧ w.1 < L.SUPER + BUS_DRAM_BASE + 2 ^ 16 := by
  simp only [init_increment, mem_each, List.mem_cons, List.not_mem_nil, or_false] at hw
  obtain ⟨i, hi, hw⟩ := hw
  have hidx := super_index i
  rcases hw with rfl | rfl | rfl | rfl <;>
    show L.SUPER + BUS_DRAM_BASE ≤ L.SUPER + BUS_DRAM_BASE + _ ∧
      L.SUPER + BUS_DRAM_BASE + _ < L.SUPER + BUS_DRAM_BASE + 2 ^ 16 <;>
    rw [hidx] <;> omega

/-- The rows of `add` and `sub`. -/
theorem Has.carry {row : Nat} {r : Nat → Nat → Nat → Nat} (h : Has m (init_carry L row r))
    (hrow : row + 2 < 256) {i j l : Nat} (hi : i < 256) (hj : j < 256) (hl : l < 2) :
    (m (L.HYPER + BUS_DRAM_BASE + (i * 65536 + j * 256 + row + 2 * l))).toNat = r i j l % 256 ∧
    (m (L.HYPER + BUS_DRAM_BASE + (i * 65536 + j * 256 + row + 2 * l + 1))).toNat =
      row + 2 * (if r i j l / 256 ≠ 0 then 1 else 0) := by
  have hidx := hyper_index (i := i) hj (show row < 256 by omega)
  constructor
  · have hmem : put L.HYPER ((i <<< 16 ||| j <<< 8 ||| row) + 2 * l + 0) ((r i j l &&& 255 : Nat) : Int) ∈
        init_carry L row r := by
      simp only [init_carry, mem_each]
      exact ⟨i, hi, j, hj, l, hl, List.mem_cons_self⟩
    have hentry := h.entry hmem
    have hmask : r i j l &&& 255 = r i j l % 256 := Nat.and_two_pow_sub_one_eq_mod (r i j l) 8
    rwa [hidx, hmask, Nat.mod_mod, Nat.add_zero] at hentry
  · have hmem : put L.HYPER ((i <<< 16 ||| j <<< 8 ||| row) + 2 * l + 1)
        ((if r i j l >>> 8 ≠ 0 then row + 2 else row : Nat) : Int) ∈ init_carry L row r := by
      simp only [init_carry, mem_each]
      exact ⟨i, hi, j, hj, l, hl, List.mem_cons_of_mem _ List.mem_cons_self⟩
    have hentry := h.entry hmem
    rw [hidx] at hentry
    have hhigh : r i j l >>> 8 = r i j l / 256 := Nat.shiftRight_eq_div_pow (r i j l) 8
    rw [hentry, hhigh]
    split
    · exact Nat.mod_eq_of_lt hrow
    · rw [Nat.mod_eq_of_lt (by omega), Nat.mul_zero, Nat.add_zero]

/-- The rows of `add` and `sub` leave the start of `HYPER` alone. -/
theorem mem_init_carry {row : Nat} {r : Nat → Nat → Nat → Nat} (hpos : 0 < row) (hrow : row + 4 ≤ 256)
    {w : Nat × UInt8} (hw : w ∈ init_carry L row r) :
    L.HYPER + BUS_DRAM_BASE < w.1 ∧ w.1 < L.HYPER + BUS_DRAM_BASE + 2 ^ 24 := by
  simp only [init_carry, mem_each] at hw
  obtain ⟨i, hi, j, hj, l, hl, hmem⟩ := hw
  have hidx := hyper_index (i := i) hj (show row < 256 by omega)
  rcases List.mem_pair.mp hmem with rfl | rfl
  · show _ < L.HYPER + BUS_DRAM_BASE + _ ∧ L.HYPER + BUS_DRAM_BASE + _ < _
    rw [hidx]
    omega
  · show _ < L.HYPER + BUS_DRAM_BASE + _ ∧ L.HYPER + BUS_DRAM_BASE + _ < _
    rw [hidx]
    omega

/-- The rows of `and`, `or` and `xor`. -/
theorem Has.bitwise {row : Nat} {op : Nat → Nat → Nat} (h : Has m (init_bitwise L row op))
    (hrow : row < 256) {i j : Nat} (hi : i < 256) (hj : j < 256) :
    (m (L.HYPER + BUS_DRAM_BASE + (i * 65536 + j * 256 + row))).toNat = op i j % 256 := by
  have hmem : put L.HYPER (i <<< 16 ||| j <<< 8 ||| row) (op i j) ∈ init_bitwise L row op := by
    simp only [init_bitwise, mem_each]
    exact ⟨i, hi, j, hj, List.mem_singleton_self _⟩
  have hentry := h.entry hmem
  rwa [hyper_index hj hrow] at hentry

theorem mem_init_bitwise {row : Nat} {op : Nat → Nat → Nat} (hrow : row < 256) {w : Nat × UInt8}
    (hw : w ∈ init_bitwise L row op) :
    L.HYPER + BUS_DRAM_BASE ≤ w.1 ∧ w.1 < L.HYPER + BUS_DRAM_BASE + 2 ^ 24 := by
  simp only [init_bitwise, mem_each, List.mem_singleton] at hw
  obtain ⟨i, hi, j, hj, rfl⟩ := hw
  show L.HYPER + BUS_DRAM_BASE ≤ L.HYPER + BUS_DRAM_BASE + _ ∧ L.HYPER + BUS_DRAM_BASE + _ <
    L.HYPER + BUS_DRAM_BASE + 2 ^ 24
  rw [hyper_index hj hrow]
  omega

/-- The complement of a byte. -/
theorem Has.not (h : Has m (init_not L)) (x : UInt8) :
    m (L.NOT + BUS_DRAM_BASE + x.toNat) = ~~~x := by
  have hx : x.toNat < 256 := x.toNat_lt
  have hmem : put L.NOT x.toNat (-(x.toNat : Int) - 1) ∈ init_not L := by
    rw [init_not, mem_each]
    exact ⟨x.toNat, hx, List.mem_singleton_self _⟩
  have hentry := h.entry_int hmem
  have hsize : UInt8.size = 256 := rfl
  apply UInt8.toNat_inj.mp
  rw [UInt8.toNat_not, hsize]
  omega

theorem mem_init_not {w : Nat × UInt8} (hw : w ∈ init_not L) :
    L.NOT + BUS_DRAM_BASE ≤ w.1 ∧ w.1 < L.NOT + BUS_DRAM_BASE + 256 := by
  simp only [init_not, mem_each, List.mem_singleton] at hw
  obtain ⟨i, hi, rfl⟩ := hw
  show L.NOT + BUS_DRAM_BASE ≤ L.NOT + BUS_DRAM_BASE + i ∧
    L.NOT + BUS_DRAM_BASE + i < L.NOT + BUS_DRAM_BASE + 256
  omega

/-- The rows of the comparisons. -/
theorem Has.compare {row n : Nat} {next : Nat → Nat → Nat → Nat} (h : Has m (init_compare L row n next))
    {i j l : Nat} (hi : i < 256) (hj : j < 256) (hl : l < n) (hnext : next i j l < 256) :
    (m (L.HYPER + BUS_DRAM_BASE + (i * 65536 + j * 256 + row + l))).toNat = next i j l := by
  have hmem : put L.HYPER (((i * 256 + j) <<< 8) + row + l) (next i j l) ∈
      init_compare L row n next := by
    simp only [init_compare, mem_each]
    exact ⟨i, hi, j, hj, l, hl, List.mem_singleton_self _⟩
  have hentry := h.entry hmem
  have hidx : (i * 256 + j) <<< 8 + row + l = i * 65536 + j * 256 + row + l := by
    rw [Nat.shiftLeft_eq]
    omega
  rwa [Nat.mod_eq_of_lt hnext, hidx] at hentry

/-- An order is one of the states behind the first. -/
theorem ges_order_range (i j : Int) : HYPER_GES < ges_order i j ∧ ges_order i j < HYPER_GES + 4 := by
  unfold ges_order
  split
  · decide
  · split <;> decide

section Shifts

variable {row select : Nat} {shift : Nat → Nat → Nat}

/-- The rows of the shifts. -/
theorem Has.shift_row (h : Has m (init_shift L row select shift)) (hrow : row < 256) {i s : Nat}
    (hi : i < 2 ^ 16) (hs : s < 8) :
    (m (L.HYPER + BUS_DRAM_BASE + (i * 256 + row + s))).toNat = shift i s % 256 := by
  have hmem : put L.HYPER ((i <<< 8 ||| row) + s) (shift i s) ∈ init_shift L row select shift := by
    simp only [init_shift, List.mem_append, mem_each]
    exact .inl ⟨i, hi, s, hs, List.mem_singleton_self _⟩
  have hentry := h.entry hmem
  rwa [shift_or (k := 8) hrow] at hentry

/-- The row for a shift count. -/
theorem Has.shift_select (h : Has m (init_shift L row select shift)) (hrow : row + 8 ≤ 256) {i : Nat}
    (hi : i < 256) : (m (select + BUS_DRAM_BASE + i)).toNat = row + i % 8 := by
  have hmem : put select i (row + (i &&& 7) : Nat) ∈ init_shift L row select shift := by
    simp only [init_shift, List.mem_append, mem_each]
    exact .inr ⟨i, hi, List.mem_singleton_self _⟩
  have hentry := h.entry hmem
  have hmask : i &&& 7 = i % 8 := Nat.and_two_pow_sub_one_eq_mod i 3
  rw [hmask] at hentry
  omega

/-- The initializers of the shifts store in `HYPER` and in the table of the rows. -/
theorem mem_init_shift (hrow : row + 8 ≤ 256) {w : Nat × UInt8}
    (hw : w ∈ init_shift L row select shift) :
    (L.hyper.start ≤ w.1 ∧ w.1 < L.hyper.start + L.hyper.size) ∨
      (select + BUS_DRAM_BASE ≤ w.1 ∧ w.1 < select + BUS_DRAM_BASE + 256) := by
  simp only [init_shift, List.mem_append, mem_each, List.mem_singleton] at hw
  rcases hw with ⟨i, hi, s, hs, rfl⟩ | ⟨i, hi, rfl⟩
  · have hi' : i < 65536 := hi
    left
    show L.HYPER + BUS_DRAM_BASE ≤ L.HYPER + BUS_DRAM_BASE + _ ∧ L.HYPER + BUS_DRAM_BASE + _ <
      L.HYPER + BUS_DRAM_BASE + 2 ^ 24
    rw [shift_or (k := 8) (show row < 2 ^ 8 by omega)]
    omega
  · right
    show select + BUS_DRAM_BASE ≤ select + BUS_DRAM_BASE + i ∧
      select + BUS_DRAM_BASE + i < select + BUS_DRAM_BASE + 256
    omega

theorem sign_bit : ∀ i < 256, i &&& 0x80 ≠ 0 ↔ 128 ≤ i := by decide +kernel

/-- Which half of `SEXT_BUFS` a byte selects. -/
theorem Has.sext_which (h : Has m (init_sext L)) {i : Nat} (hi : i < 256) :
    (m (L.SEXT_WHICH + BUS_DRAM_BASE + i)).toNat =
      (L.SEXT_BUFS + 16 * (if i < 128 then 0 else 1)) % 256 := by
  have hmem : put L.SEXT_WHICH i
      (if i &&& 0x80 ≠ 0 then (L.SEXT_BUFS + 16) &&& 255 else L.SEXT_BUFS &&& 255 : Nat) ∈
      init_sext L := by
    simp only [init_sext, List.mem_append, mem_each]
    exact .inl ⟨i, hi, List.mem_singleton_self _⟩
  have hentry := h.entry hmem
  have hmask : ∀ x : Nat, x &&& 255 = x % 256 := fun x => Nat.and_two_pow_sub_one_eq_mod x 8
  have hbit := sign_bit i hi
  rw [hentry]
  simp only [hmask, hbit]
  split <;> split <;> omega

/-- The bytes of a sign. -/
theorem Has.sext_bufs (h : Has m (init_sext L)) {b k : Nat} (hb : b ≤ 1) (hk : k < 16) :
    (m (L.SEXT_BUFS + BUS_DRAM_BASE + (16 * b + k))).toNat = 255 * b := by
  have hmem : put L.SEXT_BUFS (16 * b + k) (if 16 * b + k < 16 then 0 else 0xff) ∈ init_sext L := by
    simp only [init_sext, List.mem_append, mem_each]
    exact .inr ⟨16 * b + k, by omega, List.mem_singleton_self _⟩
  have hentry := h.entry_int hmem
  split at hentry <;> omega

theorem mem_init_sext {w : Nat × UInt8} (hw : w ∈ init_sext L) :
    (L.SEXT_WHICH + BUS_DRAM_BASE ≤ w.1 ∧ w.1 < L.SEXT_WHICH + BUS_DRAM_BASE + 256) ∨
      (L.SEXT_BUFS + BUS_DRAM_BASE ≤ w.1 ∧ w.1 < L.SEXT_BUFS + BUS_DRAM_BASE + 32) := by
  simp only [init_sext, List.mem_append, mem_each, List.mem_singleton] at hw
  rcases hw with ⟨i, hi, rfl⟩ | ⟨i, hi, rfl⟩
  · left
    show L.SEXT_WHICH + BUS_DRAM_BASE ≤ L.SEXT_WHICH + BUS_DRAM_BASE + i ∧
      L.SEXT_WHICH + BUS_DRAM_BASE + i < L.SEXT_WHICH + BUS_DRAM_BASE + 256
    omega
  · right
    show L.SEXT_BUFS + BUS_DRAM_BASE ≤ L.SEXT_BUFS + BUS_DRAM_BASE + i ∧
      L.SEXT_BUFS + BUS_DRAM_BASE + i < L.SEXT_BUFS + BUS_DRAM_BASE + 32
    omega

/-- The highest byte of an arithmetic shift. -/
theorem Has.sra (h : Has m (init_sra L)) {i s : Nat} (hi : i < 256) (hs : s < 256) :
    ((m (L.SRA_HI + BUS_DRAM_BASE + (i * 256 + s))).toNat : Int) =
      Int.bmod i 256 / 2 ^ (s % 8) % 256 := by
  have hmem : put L.SRA_HI (i <<< 8 ||| s) (Int.bmod i 256 >>> (s % 8)) ∈ init_sra L := by
    simp only [init_sra, mem_each]
    exact ⟨i, hi, s, hs, List.mem_singleton_self _⟩
  have hentry := h.entry_int hmem
  rwa [shift_or (k := 8) hs, Int.shiftRight_eq_div_pow, Nat.cast_pow, Nat.cast_ofNat] at hentry

theorem mem_init_sra {w : Nat × UInt8} (hw : w ∈ init_sra L) :
    L.SRA_HI + BUS_DRAM_BASE ≤ w.1 ∧ w.1 < L.SRA_HI + BUS_DRAM_BASE + 2 ^ 16 := by
  simp only [init_sra, mem_each, List.mem_singleton] at hw
  obtain ⟨i, hi, s, hs, rfl⟩ := hw
  show L.SRA_HI + BUS_DRAM_BASE ≤ L.SRA_HI + BUS_DRAM_BASE + _ ∧
    L.SRA_HI + BUS_DRAM_BASE + _ < L.SRA_HI + BUS_DRAM_BASE + 2 ^ 16
  rw [shift_or (k := 8) hs]
  omega

end Shifts

end

end Bcm2835.Dma

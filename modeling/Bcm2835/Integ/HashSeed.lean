import Bcm2835.Integ.HashSpec

/-!
# A seed that changes

A byte of the seed changes the hash: at once if there is no whole block, and for
some content of the last block if there is one (`hash_seed_ne`). The lanes all
begin with the seed, so that differences of the one can make up for those of the
others, but not for every word that the last turn adds to the third.
-/

namespace Bcm2835.Integ

open Mem Bytes Sweep

/-! ## Without a block -/

theorem toNat_RotateLeft {r : Nat} (h0 : 0 < r) (hr : r < 32) (x : Word) :
    (RotateLeft x r).toNat = x.toNat % 2 ^ (32 - r) * 2 ^ r + x.toNat / 2 ^ (32 - r) := by
  have hshift : (32 - r % 32) % 32 = 32 - r := by omega
  rw [RotateLeft, hshift]
  exact Mix.toNat_rotate (Nat.le_of_lt hr) x

/-- A rotated sum, with the carry from the low part and the one that is lost. -/
theorem toNat_RotateLeft_add {r : Nat} (hr : r = 1 ∨ r = 7 ∨ r = 12) (x y : Word) :
    ∃ low ≤ 1, ∃ high ≤ 1, (RotateLeft (x + y) r).toNat + low * 2 ^ 32 + high * 2 ^ r =
      (RotateLeft x r).toNat + (RotateLeft y r).toNat + low := by
  have hx := x.isLt
  have hy := y.isLt
  have h0 : 0 < r := by omega
  have h32 : r < 32 := by omega
  refine ⟨(x.toNat % 2 ^ (32 - r) + y.toNat % 2 ^ (32 - r)) / 2 ^ (32 - r), ?_,
    (x.toNat + y.toNat) / 2 ^ 32, by omega, ?_⟩
  · rcases hr with rfl | rfl | rfl <;> omega
  · simp only [toNat_RotateLeft h0 h32, BitVec.toNat_add]
    rcases hr with rfl | rfl | rfl
    · omega
    · omega
    · omega

theorem combine_lanesFrom_add (s y : Word) (sz : Nat) : ∃ low ≤ 3, ∃ a ≤ 1, ∃ b ≤ 1, ∃ d ≤ 1,
    ((combine sz (lanesFrom (s + y))).toNat + 2 * a + 128 * b + 4096 * d) % 2 ^ 32 =
      ((combine sz (lanesFrom s)).toNat + (RotateLeft y 1).toNat + (RotateLeft y 7).toNat +
        (RotateLeft y 12).toNat + low) % 2 ^ 32 := by
  have hlast : ∀ p, s + y + p = s + p + y := fun p => by
    rw [BitVec.add_assoc, BitVec.add_comm y, BitVec.add_assoc]
  have htwice : s + PRIME_1 + y + PRIME_2 = s + PRIME_1 + PRIME_2 + y := by
    rw [BitVec.add_assoc, BitVec.add_comm y, ← BitVec.add_assoc]
  obtain ⟨l1, hl1, a, ha, h1⟩ := toNat_RotateLeft_add (.inl rfl) (s + PRIME_1 + PRIME_2) y
  obtain ⟨l7, hl7, b, hb, h7⟩ := toNat_RotateLeft_add (.inr (.inl rfl)) (s + PRIME_2) y
  obtain ⟨l12, hl12, d, hd, h12⟩ := toNat_RotateLeft_add (.inr (.inr rfl)) s y
  refine ⟨l1 + l7 + l12, by omega, a, ha, b, hb, d, hd, ?_⟩
  rw [lanesFrom, lanesFrom, combine, combine, hlast PRIME_1, hlast PRIME_2, htwice]
  simp only [BitVec.toNat_add _ (RotateLeft _ _)]
  generalize (RotateLeft (s + PRIME_1 + PRIME_2 + y) 1).toNat = r1' at h1 ⊢
  generalize (RotateLeft (s + PRIME_2 + y) 7).toNat = r7' at h7 ⊢
  generalize (RotateLeft (s + y) 12).toNat = r12' at h12 ⊢
  omega

/-- The top bit of a byte of the seed makes a difference where there is no block. -/
theorem combine_lanesFrom_ne {c : Nat} (hc : c < 4) (s : Word) (sz : Nat) :
    combine sz (lanesFrom s) ≠ combine sz (lanesFrom (s + .twoPow 32 (8 * c + 7))) := by
  intro heq
  have hcases : c = 0 ∨ c = 1 ∨ c = 2 ∨ c = 3 := by omega
  obtain ⟨low, hlow, a, ha, b, hb, d, hd, hadd⟩ :=
    combine_lanesFrom_add s (.twoPow 32 (8 * c + 7)) sz
  rw [← heq] at hadd
  generalize (combine sz (lanesFrom s)).toNat = v at hadd
  rcases hcases with rfl | rfl | rfl | rfl
  · have h1 : (RotateLeft (.twoPow 32 (8 * 0 + 7)) 1).toNat = 2 ^ 8 := by decide
    have h7 : (RotateLeft (.twoPow 32 (8 * 0 + 7)) 7).toNat = 2 ^ 14 := by decide
    have h12 : (RotateLeft (.twoPow 32 (8 * 0 + 7)) 12).toNat = 2 ^ 19 := by decide
    omega
  · have h1 : (RotateLeft (.twoPow 32 (8 * 1 + 7)) 1).toNat = 2 ^ 16 := by decide
    have h7 : (RotateLeft (.twoPow 32 (8 * 1 + 7)) 7).toNat = 2 ^ 22 := by decide
    have h12 : (RotateLeft (.twoPow 32 (8 * 1 + 7)) 12).toNat = 2 ^ 27 := by decide
    omega
  · have h1 : (RotateLeft (.twoPow 32 (8 * 2 + 7)) 1).toNat = 2 ^ 24 := by decide
    have h7 : (RotateLeft (.twoPow 32 (8 * 2 + 7)) 7).toNat = 2 ^ 30 := by decide
    have h12 : (RotateLeft (.twoPow 32 (8 * 2 + 7)) 12).toNat = 2 ^ 3 := by decide
    omega
  · have h1 : (RotateLeft (.twoPow 32 (8 * 3 + 7)) 1).toNat = 2 ^ 0 := by decide
    have h7 : (RotateLeft (.twoPow 32 (8 * 3 + 7)) 7).toNat = 2 ^ 6 := by decide
    have h12 : (RotateLeft (.twoPow 32 (8 * 3 + 7)) 12).toNat = 2 ^ 11 := by decide
    omega

/-! ## With blocks -/

/-- The turn of a lane with the rotation it is combined with, as a function of what
it begins with. -/
def third (x : Word) : Word := RotateLeft (RotateLeft x 13 * PRIME_1) 12

/-- Two values of the third lane are not taken apart by one difference, whatever is
added to both. -/
theorem exists_third_ne {u u' : Word} (h : u ≠ u') (c : Word) :
    ∃ w, RotateLeft (accumulate u' w) 12 ≠ RotateLeft (accumulate u w) 12 + c := by
  have hd : u' - u ≠ 0 := by bv_omega
  have htop : third (0 + .twoPow 32 31) - third 0 ≠ third (1 + .twoPow 32 31) - third 1 := by decide
  obtain ⟨z, hz⟩ := Mix.exists_not_translate (w := 31) htop hd c
  have hinv : (z - u) * 3066638151#32 * PRIME_2 = z - u := by
    rw [BitVec.mul_assoc]
    exact BitVec.mul_one _
  have hu : u + (z - u) * 3066638151#32 * PRIME_2 = z := by
    rw [hinv, BitVec.add_comm, BitVec.sub_add_cancel]
  have hu' : u' + (z - u) * 3066638151#32 * PRIME_2 = z + (u' - u) := by
    rw [hinv]
    bv_omega
  refine ⟨(z - u) * 3066638151#32, ?_⟩
  rw [accumulate, accumulate, hu, hu']
  exact hz

section Seed

variable {m m' : Memory} {seed_ptr p sz x : Nat}

theorem blockOf_update (w : Nat → Word) (v : Word) (l : Lanes) :
    blockOf (Function.update w 5 v) l =
      ⟨(blockOf w l).s0, (blockOf w l).s1, accumulate (accumulate l.s2 (w 2)) v⟩ := by
  simp [blockOf]

/-- For some sixth word the third lane makes a difference. -/
theorem exists_blockOf_ne {l l' : Lanes} (h : l.s2 ≠ l'.s2) (w : Nat → Word) (sz : Nat) :
    ∃ v, combine sz (blockOf (Function.update w 5 v) l) ≠
      combine sz (blockOf (Function.update w 5 v) l') := by
  simp only [blockOf_update, combine]
  -- the rest of the sums does not depend on that word
  generalize BitVec.ofNat 32 sz + RotateLeft (blockOf w l).s0 1 + RotateLeft (blockOf w l).s1 7 = c
  generalize BitVec.ofNat 32 sz + RotateLeft (blockOf w l').s0 1 + RotateLeft (blockOf w l').s1 7 = c'
  obtain ⟨v, hv⟩ := exists_third_ne (accumulate_state_ne (w 2) h) (c - c')
  refine ⟨v, fun heq => hv ?_⟩
  bv_omega

/-- A block with its sixth word replaced. -/
theorem accumulateBlock_store {data : Nat} (hfit : data + 24 ≤ 2 ^ 32) (v : Word) (l : Lanes) :
    accumulateBlock (store m (data + 20) v.toNat) data l =
      blockOf (Function.update (fun i => word m (data + 4 * i)) 5 v) l := by
  rw [accumulateBlock_eq]
  refine congrArg (blockOf · l) (funext fun i => ?_)
  by_cases hi : i = 5
  · subst hi
    rw [Function.update_self, word, field_store (by omega) v.isLt, BitVec.ofNat_toNat,
      BitVec.setWidth_eq]
  · rw [Function.update_of_ne hi, word, field_store_of_apart (by omega) (by omega), word]

/-- A number with the top bit of a byte set. -/
theorem word_update {c : Nat} (hc : c < 4) (hzero : m (seed_ptr + c) = 0) :
    word (Function.update m (seed_ptr + c) 128) seed_ptr =
      word m seed_ptr + .twoPow 32 (8 * c + 7) := by
  have hread : ∀ n : Memory, field n seed_ptr = (n (seed_ptr + 0)).toNat +
      256 * ((n (seed_ptr + 1)).toNat + 256 * ((n (seed_ptr + 2)).toNat +
        256 * ((n (seed_ptr + 3)).toNat + 256 * 0))) := fun n => rfl
  have hbyte : ∀ i, (Function.update m (seed_ptr + c) 128 (seed_ptr + i)).toNat =
      (m (seed_ptr + i)).toNat + if i = c then 128 else 0 := by
    intro i
    split
    · rename_i hi
      rw [hi, Function.update_self, hzero]
      rfl
    · rw [Function.update_of_ne (by omega), Nat.add_zero]
  have hfield : field (Function.update m (seed_ptr + c) 128) seed_ptr =
      field m seed_ptr + 2 ^ (8 * c + 7) := by
    rw [hread, hread]
    simp only [hbyte]
    have hcases : c = 0 ∨ c = 1 ∨ c = 2 ∨ c = 3 := by omega
    rcases hcases with rfl | rfl | rfl | rfl <;> simp <;> omega
  have hpow : BitVec.twoPow 32 (8 * c + 7) = .ofNat 32 (2 ^ (8 * c + 7)) :=
    BitVec.eq_of_toNat_eq (by rw [BitVec.toNat_twoPow, BitVec.toNat_ofNat])
  rw [word, word, hfield, hpow, BitVec.ofNat_add]

/-- If the lanes of the two seeds differ behind the blocks, the hash does. -/
theorem hash_update_ne {c : Nat} (h0 : seed_ptr ≠ 0) (hc : c < 4) (hzero : m (seed_ptr + c) = 0)
    (hout : seed_ptr + c < min (start_block p sz) p ∨ stop p sz ≤ seed_ptr + c)
    (hne : combine sz (sweep (accumulateBlock m) 32 (start_block p sz) (stop_block p sz)
        (lanesFrom (word m seed_ptr))).2 ≠
      combine sz (sweep (accumulateBlock m) 32 (start_block p sz) (stop_block p sz)
        (lanesFrom (word m seed_ptr + .twoPow 32 (8 * c + 7)))).2) :
    hash_memory m seed_ptr p sz ≠
      hash_memory (Function.update m (seed_ptr + c) 128) seed_ptr p sz := by
  have hsame : ∀ y, min (start_block p sz) p ≤ y → y < stop p sz →
      m y = Function.update m (seed_ptr + c) 128 y := fun y hy hy' =>
    (Function.update_of_ne (by omega) _ _).symm
  have hseed : ∀ n : Memory, seedLanes n seed_ptr = lanesFrom (word n seed_ptr) := fun n => by
    rw [seedLanes, if_neg h0]
  rw [hash_memory_eq, hash_memory_eq, ← hashFrom_congr hsame, hseed, hseed, word_update hc hzero]
  exact hashFrom_ne hne

/-- The third lanes of two seeds stay apart. -/
theorem blocks_third_ne {a e : Nat} {s t : Word} (hne : s ≠ t) :
    (sweep (accumulateBlock m) 32 a e (lanesFrom s)).2.s2 ≠
      (sweep (accumulateBlock m) 32 a e (lanesFrom t)).2.s2 :=
  sweep_rel (R := fun l l' : Lanes => l.s2 ≠ l'.s2) (by decide)
    (fun _ _ _ _ hl => accumulate_state_ne _ (accumulate_state_ne _ hl)) hne

/-- Where there is no block, a byte of the seed that is not hashed itself changes the hash. -/
theorem hash_seed_ne_of_tail (h0 : seed_ptr ≠ 0) (hx : seed_ptr ≤ x) (hx' : x < seed_ptr + 4)
    (hzero : m x = 0) (hout : x < min (start_block p sz) p ∨ stop p sz ≤ x)
    (htail : stop_block p sz = start_block p sz) :
    hash_memory m seed_ptr p sz ≠ hash_memory (Function.update m x 128) seed_ptr p sz := by
  obtain ⟨c, rfl⟩ := Nat.exists_eq_add_of_le hx
  have hc : c < 4 := by omega
  refine hash_update_ne h0 hc hzero hout ?_
  have hk : stop_block p sz = start_block p sz + 32 * 0 := htail
  rw [hk, sweep_zero (by decide), sweep_zero (by decide)]
  exact combine_lanesFrom_ne hc _ sz

/-- A byte of the seed that is not hashed itself changes the hash, for some content
of what is hashed. -/
theorem hash_seed_ne (h0 : seed_ptr ≠ 0) (hx : seed_ptr ≤ x) (hx' : x < seed_ptr + 4)
    (hzero : m x = 0) (hout : x < min (start_block p sz) p ∨ stop p sz ≤ x) :
    ∃ n : Memory, (∀ y, n y ≠ m y → start_block p sz ≤ y ∧ y < stop p sz ∧
      (y < seed_ptr ∨ seed_ptr + 4 ≤ y)) ∧
      hash_memory n seed_ptr p sz ≠ hash_memory (Function.update n x 128) seed_ptr p sz := by
  obtain ⟨-, hword, hbyte, -, k, hk⟩ := parts_le p sz
  cases k with
  | zero => exact ⟨m, fun y hy => absurd rfl hy, hash_seed_ne_of_tail h0 hx hx' hzero hout hk⟩
  | succ k =>
      obtain ⟨c, rfl⟩ := Nat.exists_eq_add_of_le hx
      have hc : c < 4 := by omega
      -- the sixth word of the last block is chosen
      have hstop : stop p sz < 2 ^ 32 := Nat.mod_lt _ (Nat.two_pow_pos 32)
      have hne : word m seed_ptr ≠ word m seed_ptr + .twoPow 32 (8 * c + 7) := by
        have htop : (BitVec.twoPow 32 (8 * c + 7)).toNat ≠ 0 := by
          rw [BitVec.toNat_twoPow_of_lt (by omega)]
          exact (Nat.two_pow_pos _).ne'
        bv_omega
      have hlanes := blocks_third_ne (m := m) (a := start_block p sz)
        (e := start_block p sz + 32 * k) hne
      generalize hdata : start_block p sz + 32 * k = data at hlanes
      obtain ⟨v, hv⟩ := exists_blockOf_ne hlanes (fun i => word m (data + 4 * i)) sz
      have hkeep : ∀ y, y < data + 20 ∨ data + 24 ≤ y → store m (data + 20) v.toNat y = m y :=
        fun y hy => store_of_outside (by omega) (by omega)
      have hseed : word (store m (data + 20) v.toNat) seed_ptr = word m seed_ptr :=
        word_congr fun y hy hy' => hkeep y (by omega)
      have hearlier : ∀ l, sweep (accumulateBlock (store m (data + 20) v.toNat)) 32
          (start_block p sz) data l = sweep (accumulateBlock m) 32 (start_block p sz) data l := by
        intro l
        have hcongr := blocks_congr (a := start_block p sz) (n := k)
          (fun y hy hy' => hkeep y (by omega)) l
        rwa [hdata] at hcongr
      refine ⟨store m (data + 20) v.toNat, fun y hy => ?_, hash_update_ne h0 hc ?_ hout ?_⟩
      · have hin : ¬(y < data + 20 ∨ data + 24 ≤ y) := fun h => hy (hkeep y h)
        omega
      · rw [hkeep _ (by omega), hzero]
      · rw [hk, sweep_succ (by decide), sweep_succ (by decide), hdata, hearlier, hearlier, hseed,
          accumulateBlock_store (by omega), accumulateBlock_store (by omega)]
        exact hv

end Seed

end Bcm2835.Integ

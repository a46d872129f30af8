import Bcm2835.Lib.Mix
import Bcm2835.Integ.Hash

/-!
# What the hash reads

The hash of `[p, p + sz)` is a function of the seed and of the bytes from
`start_block` or `p` on, whichever is first (`hash_congr`). Where `start_block`
is in front of the region, a byte between the two changes the hash (`hash_ne`).
-/

namespace Bcm2835.Integ

open Mem Bytes Sweep

/-! ## Steps that lose nothing -/

theorem RotateLeft_injective {r : Nat} (h0 : 0 < r) (hr : r < 32) :
    Function.Injective fun x => RotateLeft x r := by
  have hshift : (32 - r % 32) % 32 = 32 - r := by omega
  simp only [RotateLeft, hshift]
  exact Mix.rotate_injective (Nat.le_of_lt hr)

theorem mul_PRIME_1 : Function.Injective fun x : Word => x * PRIME_1 :=
  Mix.mul_injective (q := 244002641#32) (by decide)

theorem mul_PRIME_2 : Function.Injective fun x : Word => x * PRIME_2 :=
  Mix.mul_injective (q := 3066638151#32) (by decide)

theorem mul_PRIME_3 : Function.Injective fun x : Word => x * PRIME_3 :=
  Mix.mul_injective (q := 2828982549#32) (by decide)

theorem mul_PRIME_4 : Function.Injective fun x : Word => x * PRIME_4 :=
  Mix.mul_injective (q := 2701016015#32) (by decide)

theorem mul_PRIME_5 : Function.Injective fun x : Word => x * PRIME_5 :=
  Mix.mul_injective (q := 2923004241#32) (by decide)

theorem add_right_ne {a b : Word} (c : Word) (h : a ≠ b) : a + c ≠ b + c :=
  fun heq => h ((BitVec.add_left_inj c).mp heq)

theorem add_left_ne {a b : Word} (c : Word) (h : a ≠ b) : c + a ≠ c + b :=
  fun heq => h ((BitVec.add_right_inj c).mp heq)

theorem accumulate_state_ne {s t : Word} (w : Word) (h : s ≠ t) : accumulate s w ≠ accumulate t w :=
  mul_PRIME_1.ne ((RotateLeft_injective (by decide) (by decide)).ne (add_right_ne _ h))

theorem accumulate_word_ne (s : Word) {w v : Word} (h : w ≠ v) : accumulate s w ≠ accumulate s v :=
  mul_PRIME_1.ne ((RotateLeft_injective (by decide) (by decide)).ne
    (add_left_ne _ (mul_PRIME_2.ne h)))

theorem mixWord_ne {H K : Word} (m : Memory) (data : Nat) (h : H ≠ K) :
    mixWord m data H ≠ mixWord m data K :=
  mul_PRIME_4.ne ((RotateLeft_injective (by decide) (by decide)).ne (add_right_ne _ h))

theorem mixByte_ne {H K : Word} (m : Memory) (data : Nat) (h : H ≠ K) :
    mixByte m data H ≠ mixByte m data K :=
  mul_PRIME_1.ne ((RotateLeft_injective (by decide) (by decide)).ne (add_right_ne _ h))

theorem avalanche_injective : Function.Injective avalanche := by
  intro x y h
  have h16 := Mix.xorShift_injective (w := 32) (k := 16) (by decide)
  have h13 := Mix.xorShift_injective (w := 32) (k := 13) (by decide)
  have h15 := Mix.xorShift_injective (w := 32) (k := 15) (by decide)
  exact h15 (mul_PRIME_2 (h13 (mul_PRIME_3 (h16 h))))

/-! ## Words of a memory -/

section Words

variable {m m' : Memory} {a b v x : Nat}

theorem field_lt (m : Memory) (a : Nat) : field m a < 2 ^ 32 := by
  have hlt := ofLe_lt (read m a 4)
  rw [read_length] at hlt
  exact hlt

theorem field_congr (h : ∀ y, a ≤ y → y < a + 4 → m y = m' y) : field m a = field m' a :=
  congrArg ofLe (read_congr fun i hi => h (a + i) (by omega) (by omega))

theorem word_congr (h : ∀ y, a ≤ y → y < a + 4 → m y = m' y) : word m a = word m' a :=
  congrArg (BitVec.ofNat 32) (field_congr h)

/-- Numbers with different bytes are different. -/
theorem field_ne (hlow : a ≤ x) (hhigh : x < a + 4) (hne : m x ≠ m' x) : field m a ≠ field m' a := by
  intro heq
  have hbytes : ∀ n : Memory, leBytes 4 (field n a) = read n a 4 := fun n => by
    have hback := leBytes_ofLe (read n a 4)
    rwa [read_length] at hback
  have hread : read m a 4 = read m' a 4 := by rw [← hbytes m, heq, hbytes m']
  obtain ⟨i, rfl⟩ := Nat.exists_eq_add_of_le hlow
  have hi : i < 4 := by omega
  have hget : ∀ n : Memory, (read n a 4)[i]? = some (n (a + i)) := fun n => by
    simp [Mem.read, Buf.taken, hi]
  have hsome := (hget m).symm.trans (hread ▸ hget m')
  exact hne (Option.some.inj hsome)

theorem word_ne (hlow : a ≤ x) (hhigh : x < a + 4) (hne : m x ≠ m' x) : word m a ≠ word m' a := by
  intro heq
  have hnat := congrArg BitVec.toNat heq
  simp only [word, BitVec.toNat_ofNat, Nat.mod_eq_of_lt (field_lt _ _)] at hnat
  exact field_ne hlow hhigh hne hnat

theorem store_of_outside (ha : a + 4 ≤ 2 ^ 32) (hx : x < a ∨ a + 4 ≤ x) : store m a v x = m x :=
  write_of_outside m (by rwa [leBytes_length]) (by rwa [leBytes_length])

theorem field_store_of_apart (ha : a + 4 ≤ 2 ^ 32) (h : b + 4 ≤ a ∨ a + 4 ≤ b) :
    field (store m a v) b = field m b :=
  field_congr fun y hy hy' => store_of_outside ha (by omega)

theorem field_store (ha : a + 4 ≤ 2 ^ 32) (hv : v < 2 ^ 32) : field (store m a v) a = v := by
  have hread := read_write (N := 2 ^ 32) (b := leBytes 4 v) m (by rwa [leBytes_length])
  rw [leBytes_length] at hread
  rw [field, store, hread, ofLe_leBytes]
  exact Nat.mod_eq_of_lt hv

end Words

/-! ## The assembly loop -/

theorem mlaRor_mul (s w : Word) : mlaRor s w * PRIME_1 = accumulate s w := by
  rw [mlaRor, BitVec.or_comm]
  rfl

/-- With the products that it left out, a block of the assembly is a turn of the
C loop. -/
theorem asmMul_first (m : Memory) (data : Nat) (l : Lanes) :
    asmMul (asmFirst m data l) = accumulateBlock m data l := by
  simp only [asmMul, asmFirst, mlaRor_mul]
  rfl

theorem asmMul_turns (m : Memory) (data : Nat) (ks : List Nat) (l : Lanes) :
    asmMul (ks.foldl (fun l k => asmTurn m (data + 32 * k) l) l) =
      ks.foldl (fun l k => accumulateBlock m (data + 32 * k) l) (asmMul l) := by
  induction ks generalizing l with
  | nil => rfl
  | cons k ks ih =>
      rw [List.foldl_cons, List.foldl_cons, ih, asmTurn, asmMul_first]

/-- The assembly path and the C path are the same. -/
theorem accumulateBlocks_eq (m : Memory) (a n : Nat) (l : Lanes) :
    accumulateBlocks m a (a + 32 * n) l = sweep (accumulateBlock m) 32 a (a + 32 * n) l := by
  rw [accumulateBlocks]
  split
  · rename_i hle
    obtain ⟨k, rfl⟩ : ∃ k, n = k + 1 := ⟨n - 1, by omega⟩
    have hstop : a + 32 * (k + 1) = a + 32 + 32 * k := by omega
    have hturns : ∀ b j : Nat, turns 32 b (b + 32 * j) = j := turns_mul (by decide)
    refine Prod.ext ?_ ?_
    · show (sweep (asmTurn m) 32 (a + 32) (a + 32 * (k + 1)) (asmFirst m a l)).1 = _
      rw [sweep_end (by decide), hstop, sweep_end (by decide)]
    · show asmMul (sweep (asmTurn m) 32 (a + 32) (a + 32 * (k + 1)) (asmFirst m a l)).2 = _
      simp only [sweep, hturns a]
      rw [hstop, hturns, asmMul_turns, asmMul_first, List.range_succ_eq_map, List.foldl_cons,
        List.foldl_map]
      have hnext : ∀ k : Nat, a + 32 * (k + 1) = a + 32 + 32 * k := fun k => by omega
      simp only [hnext, Nat.mul_zero, Nat.add_zero]
  · rfl

/-! ## A block with one byte changed -/

/-- Just one lane is different. -/
def OneApart (l l' : Lanes) : Prop :=
  (l.s0 ≠ l'.s0 ∧ l.s1 = l'.s1 ∧ l.s2 = l'.s2) ∨ (l.s0 = l'.s0 ∧ l.s1 ≠ l'.s1 ∧ l.s2 = l'.s2) ∨
    (l.s0 = l'.s0 ∧ l.s1 = l'.s1 ∧ l.s2 ≠ l'.s2)

theorem OneApart.block {l l' : Lanes} (h : OneApart l l') (m : Memory) (data : Nat) :
    OneApart (accumulateBlock m data l) (accumulateBlock m data l') := by
  have hthree : ∀ {s t : Word} (u v w : Word), s ≠ t →
      accumulate (accumulate (accumulate s u) v) w ≠ accumulate (accumulate (accumulate t u) v) w :=
    fun u v w hne => accumulate_state_ne w (accumulate_state_ne v (accumulate_state_ne u hne))
  rcases h with ⟨h0, h1, h2⟩ | ⟨h0, h1, h2⟩ | ⟨h0, h1, h2⟩
  · refine .inl ⟨hthree _ _ _ h0, ?_, ?_⟩ <;> simp only [accumulateBlock, h1, h2]
  · refine .inr (.inl ⟨?_, hthree _ _ _ h1, ?_⟩) <;> simp only [accumulateBlock, h0, h2]
  · refine .inr (.inr ⟨?_, ?_, accumulate_state_ne _ (accumulate_state_ne _ h2)⟩) <;>
      simp only [accumulateBlock, h0, h1]

/-- A turn of the C loop as a function of the eight words. -/
def blockOf (w : Nat → Word) (l : Lanes) : Lanes where
  s0 := accumulate (accumulate (accumulate l.s0 (w 0)) (w 3)) (w 6)
  s1 := accumulate (accumulate (accumulate l.s1 (w 1)) (w 4)) (w 7)
  s2 := accumulate (accumulate l.s2 (w 2)) (w 5)

theorem accumulateBlock_eq (m : Memory) (data : Nat) (l : Lanes) :
    accumulateBlock m data l = blockOf (fun i => word m (data + 4 * i)) l := rfl

theorem blockOf_apart {w v : Nat → Word} {d : Nat} (hd : d < 8) (hne : w d ≠ v d)
    (hsame : ∀ i < 8, i ≠ d → w i = v i) (l : Lanes) : OneApart (blockOf w l) (blockOf v l) := by
  have hfirst := fun s => accumulate_word_ne s hne
  have hsecond := fun s u => accumulate_state_ne u (hfirst s)
  have hthird := fun s u v => accumulate_state_ne v (hsecond s u)
  simp only [OneApart, blockOf]
  -- the words 0, 3, 6 go to the first lane, 1, 4, 7 to the second, 2 and 5 to the third
  have hcases : d = 0 ∨ d = 1 ∨ d = 2 ∨ d = 3 ∨ d = 4 ∨ d = 5 ∨ d = 6 ∨ d = 7 := by omega
  rcases hcases with rfl | rfl | rfl | rfl | rfl | rfl | rfl | rfl
  · rw [hsame 1, hsame 2, hsame 3, hsame 4, hsame 5, hsame 6, hsame 7] <;> try decide
    exact .inl ⟨hthird _ _ _, rfl, rfl⟩
  · rw [hsame 0, hsame 2, hsame 3, hsame 4, hsame 5, hsame 6, hsame 7] <;> try decide
    exact .inr (.inl ⟨rfl, hthird _ _ _, rfl⟩)
  · rw [hsame 0, hsame 1, hsame 3, hsame 4, hsame 5, hsame 6, hsame 7] <;> try decide
    exact .inr (.inr ⟨rfl, rfl, hsecond _ _⟩)
  · rw [hsame 0, hsame 1, hsame 2, hsame 4, hsame 5, hsame 6, hsame 7] <;> try decide
    exact .inl ⟨hsecond _ _, rfl, rfl⟩
  · rw [hsame 0, hsame 1, hsame 2, hsame 3, hsame 5, hsame 6, hsame 7] <;> try decide
    exact .inr (.inl ⟨rfl, hsecond _ _, rfl⟩)
  · rw [hsame 0, hsame 1, hsame 2, hsame 3, hsame 4, hsame 6, hsame 7] <;> try decide
    exact .inr (.inr ⟨rfl, rfl, hfirst _⟩)
  · rw [hsame 0, hsame 1, hsame 2, hsame 3, hsame 4, hsame 5, hsame 7] <;> try decide
    exact .inl ⟨hfirst _, rfl, rfl⟩
  · rw [hsame 0, hsame 1, hsame 2, hsame 3, hsame 4, hsame 5, hsame 6] <;> try decide
    exact .inr (.inl ⟨rfl, hfirst _, rfl⟩)

section Changed

variable {m m' : Memory} {x : Nat}

/-- A changed byte in a block. -/
theorem accumulateBlock_apart {data : Nat} (hlow : data ≤ x) (hhigh : x < data + 32)
    (hne : m x ≠ m' x) (hsame : ∀ y, y ≠ x → data ≤ y → y < data + 32 → m y = m' y) (l : Lanes) :
    OneApart (accumulateBlock m data l) (accumulateBlock m' data l) := by
  rw [accumulateBlock_eq, accumulateBlock_eq]
  apply blockOf_apart (d := (x - data) / 4)
  · omega
  · exact word_ne (x := x) (by omega) (by omega) hne
  · intro i hi hid
    exact word_congr fun y hy hy' => hsame y (by omega) (by omega) (by omega)

end Changed

/-! ## The whole hash -/

/-- The lanes that a seed gives. -/
def lanesFrom (seed : Word) : Lanes := ⟨seed + PRIME_1 + PRIME_2, seed + PRIME_2, seed⟩

/-- The lanes at the start. -/
def seedLanes (m : Memory) (seed_ptr : Nat) : Lanes :=
  lanesFrom (if seed_ptr = 0 then 0 else word m seed_ptr)

/-- The lanes and the size in one word. -/
def combine (sz : Nat) (l : Lanes) : Word :=
  .ofNat 32 sz + RotateLeft l.s0 1 + RotateLeft l.s1 7 + RotateLeft l.s2 12

theorem OneApart.combine_ne {l l' : Lanes} (h : OneApart l l') (sz : Nat) :
    combine sz l ≠ combine sz l' := by
  rw [combine, combine]
  rcases h with ⟨h0, h1, h2⟩ | ⟨h0, h1, h2⟩ | ⟨h0, h1, h2⟩
  · rw [h1, h2]
    exact add_right_ne _ (add_right_ne _ (add_left_ne _
      ((RotateLeft_injective (by decide) (by decide)).ne h0)))
  · rw [h0, h2]
    exact add_right_ne _ (add_left_ne _ ((RotateLeft_injective (by decide) (by decide)).ne h1))
  · rw [h0, h1]
    exact add_left_ne _ ((RotateLeft_injective (by decide) (by decide)).ne h2)

section Parts

variable (p sz : Nat)

/-- The blocks, for an address space in which the region ends. -/
theorem parts_le : start_block p sz ≤ stop_block p sz ∧ stop_block p sz ≤ stop_word p sz ∧
    stop_word p sz ≤ stop p sz ∧ start_word p sz ≤ stop_word p sz ∧
      ∃ n, stop_block p sz = start_block p sz + 32 * n := by
  have hstart : 32 ∣ start_block p sz := by
    rw [start_block, stop_block]
    rcases Nat.le_total (stop p sz / 32 * 32) ((p + 31) % 2 ^ 32 / 32 * 32) with h | h
    · rw [Nat.min_eq_left h]
      exact Nat.dvd_mul_left ..
    · rw [Nat.min_eq_right h]
      exact Nat.dvd_mul_left ..
  have hstop : 32 ∣ stop_block p sz := Nat.dvd_mul_left ..
  have hle : start_block p sz ≤ stop_block p sz := Nat.min_le_left ..
  refine ⟨hle, ?_, ?_, Nat.min_le_left .., (stop_block p sz - start_block p sz) / 32, ?_⟩
  · simp only [stop_block, stop_word]
    omega
  · simp only [stop_word]
    omega
  · omega

/-- The words behind the blocks end where the bytes begin. -/
theorem stop_word_eq : ∃ n, stop_word p sz = stop_block p sz + 4 * n := by
  refine ⟨(stop p sz / 4 * 4 - stop p sz / 32 * 32) / 4, ?_⟩
  simp only [stop_word, stop_block]
  omega

/-- Where the words in front of the blocks begin. -/
def headStart : Nat := p + 1 * turns 1 p (start_word p sz)

/-- They are all between the start of the region and the blocks. -/
theorem headStart_spec {k : Nat} (hk : headStart p sz + 4 * k < start_block p sz) :
    p ≤ headStart p sz ∧ headStart p sz + 4 * k + 4 ≤ start_block p sz := by
  simp only [headStart, turns, start_word, start_block, stop_word, stop_block] at hk ⊢
  generalize stop p sz = e at hk ⊢
  omega

/-- The hash from the first lanes on, with its parts by name. -/
def hashFrom (m : Memory) (l : Lanes) : Word :=
  avalanche (sweep (mixWord m) 4 (headStart p sz) (start_block p sz)
    (sweep (mixByte m) 1 p (start_word p sz)
      (sweep (mixByte m) 1 (stop_word p sz) (stop p sz)
        (sweep (mixWord m) 4 (stop_block p sz) (stop_word p sz)
          (combine sz (sweep (accumulateBlock m) 32 (start_block p sz) (stop_block p sz)
            l).2)).2).2).2).2

theorem hash_memory_eq (m : Memory) (seed_ptr : Nat) :
    hash_memory m seed_ptr p sz = hashFrom p sz m (seedLanes m seed_ptr) := by
  obtain ⟨-, -, -, -, n, hn⟩ := parts_le p sz
  obtain ⟨n', hn'⟩ := stop_word_eq p sz
  have hblocks : accumulateBlocks m (start_block p sz) (stop_block p sz) (seedLanes m seed_ptr) =
      (stop_block p sz, (sweep (accumulateBlock m) 32 (start_block p sz) (stop_block p sz)
        (seedLanes m seed_ptr)).2) := by
    rw [hn, accumulateBlocks_eq]
    exact Prod.ext (sweep_end (by decide) _ _) rfl
  have hwords : ∀ H, (sweep (mixWord m) 4 (stop_block p sz) (stop_word p sz) H).1 =
      stop_word p sz := fun H => by
    rw [hn']
    exact sweep_end (by decide) _ _
  have hhash : hash_memory m seed_ptr p sz =
      (let blocks := accumulateBlocks m (start_block p sz) (stop_block p sz)
        (seedLanes m seed_ptr)
      let words := sweep (mixWord m) 4 blocks.1 (stop_word p sz) (combine sz blocks.2)
      let bytes := sweep (mixByte m) 1 words.1 (stop p sz) words.2
      let bytes' := sweep (mixByte m) 1 p (start_word p sz) bytes.2
      let words' := sweep (mixWord m) 4 bytes'.1 (start_block p sz) bytes'.2
      avalanche words'.2) := rfl
  rw [hhash, hblocks, hashFrom]
  simp only [hwords]
  rfl

end Parts

section Whole

variable {m m' : Memory} {seed_ptr p sz : Nat}

/-- The memories have the same seed. -/
def SameSeed (seed_ptr : Nat) (m m' : Memory) : Prop :=
  seed_ptr ≠ 0 → ∀ y, seed_ptr ≤ y → y < seed_ptr + 4 → m y = m' y

theorem seedLanes_congr (h : SameSeed seed_ptr m m') :
    seedLanes m seed_ptr = seedLanes m' seed_ptr := by
  have hseed : (if seed_ptr = 0 then 0 else word m seed_ptr) =
      if seed_ptr = 0 then 0 else word m' seed_ptr := by
    split
    · rfl
    · rename_i hne
      exact word_congr (h hne)
  simp only [seedLanes, hseed]

/-- Words that are all in front of `e` are the same in memories that agree up to
there. -/
theorem mixWords_congr {a e : Nat} (hin : ∀ k, a + 4 * k < e → a + 4 * k + 4 ≤ e)
    (h : ∀ y, a ≤ y → y < e → m y = m' y) (H : Word) :
    sweep (mixWord m) 4 a e H = sweep (mixWord m') 4 a e H := by
  refine sweep_congr (by decide) (fun k hk H => ?_) H
  have hword : word m (a + 4 * k) = word m' (a + 4 * k) :=
    word_congr fun y hy hy' => h y (by omega) (by have := hin k hk; omega)
  rw [mixWord, mixWord, hword]

theorem mixBytes_congr {a e : Nat} (h : ∀ y, a ≤ y → y < e → m y = m' y) (H : Word) :
    sweep (mixByte m) 1 a e H = sweep (mixByte m') 1 a e H := by
  refine sweep_congr (by decide) (fun k hk H => ?_) H
  rw [mixByte, mixByte, h (a + 1 * k) (by omega) hk]

theorem block_congr {data : Nat} (h : ∀ y, data ≤ y → y < data + 32 → m y = m' y) (l : Lanes) :
    accumulateBlock m data l = accumulateBlock m' data l := by
  have hword : ∀ i < 8, word m (data + 4 * i) = word m' (data + 4 * i) := fun i hi =>
    word_congr fun y hy hy' => h y (by omega) (by omega)
  simp only [accumulateBlock_eq, blockOf, hword 0 (by decide), hword 1 (by decide),
    hword 2 (by decide), hword 3 (by decide), hword 4 (by decide), hword 5 (by decide),
    hword 6 (by decide), hword 7 (by decide)]

theorem blocks_congr {a n : Nat} (h : ∀ y, a ≤ y → y < a + 32 * n → m y = m' y) (l : Lanes) :
    sweep (accumulateBlock m) 32 a (a + 32 * n) l = sweep (accumulateBlock m') 32 a (a + 32 * n) l := by
  refine sweep_congr (by decide) (fun k hk l => ?_) l
  exact block_congr (fun y hy hy' => h y (by omega) (by omega)) l

/-- What follows the region is mixed in before what is in front of the blocks. -/
theorem head_congr (h : ∀ y, p ≤ y → y < stop p sz → m y = m' y) (H : Word) :
    (sweep (mixWord m) 4 (headStart p sz) (start_block p sz)
      (sweep (mixByte m) 1 p (start_word p sz) H).2).2 =
    (sweep (mixWord m') 4 (headStart p sz) (start_block p sz)
      (sweep (mixByte m') 1 p (start_word p sz) H).2).2 := by
  obtain ⟨hblock, hword, hbyte, hhead, -⟩ := parts_le p sz
  have hbytes : ∀ H, sweep (mixByte m) 1 p (start_word p sz) H =
      sweep (mixByte m') 1 p (start_word p sz) H :=
    mixBytes_congr fun y hy hy' => h y hy (by omega)
  have hwords : ∀ H, sweep (mixWord m) 4 (headStart p sz) (start_block p sz) H =
      sweep (mixWord m') 4 (headStart p sz) (start_block p sz) H :=
    mixWords_congr (fun k hk => (headStart_spec p sz hk).2) fun y hy hy' => by
      have hspec := headStart_spec p sz (k := 0) (by omega)
      exact h y (by omega) (by omega)
  rw [hbytes, hwords]

theorem hashFrom_congr (h : ∀ y, min (start_block p sz) p ≤ y → y < stop p sz → m y = m' y)
    (l : Lanes) : hashFrom p sz m l = hashFrom p sz m' l := by
  obtain ⟨hblock, hword, hbyte, -, n, hn⟩ := parts_le p sz
  obtain ⟨n', hn'⟩ := stop_word_eq p sz
  have hblocks : ∀ l, sweep (accumulateBlock m) 32 (start_block p sz) (stop_block p sz) l =
      sweep (accumulateBlock m') 32 (start_block p sz) (stop_block p sz) l := by
    rw [hn]
    exact blocks_congr fun y hy hy' => h y (by omega) (by omega)
  have hwords : ∀ H, sweep (mixWord m) 4 (stop_block p sz) (stop_word p sz) H =
      sweep (mixWord m') 4 (stop_block p sz) (stop_word p sz) H :=
    mixWords_congr (fun k hk => by omega) fun y hy hy' => h y (by omega) (by omega)
  have hbytes : ∀ H, sweep (mixByte m) 1 (stop_word p sz) (stop p sz) H =
      sweep (mixByte m') 1 (stop_word p sz) (stop p sz) H :=
    mixBytes_congr fun y hy hy' => h y (by omega) hy'
  have hhead := head_congr (m := m) fun y hy hy' => h y (by omega) hy'
  rw [hashFrom, hashFrom, hblocks, hwords, hbytes, hhead]

/-- The hash is a function of the seed and of the bytes from `start_block` or
`p` on. -/
theorem hash_congr (hseed : SameSeed seed_ptr m m')
    (h : ∀ y, min (start_block p sz) p ≤ y → y < stop p sz → m y = m' y) :
    hash_memory m seed_ptr p sz = hash_memory m' seed_ptr p sz := by
  rw [hash_memory_eq, hash_memory_eq, seedLanes_congr hseed, hashFrom_congr h]

/-- A word with a changed byte. -/
theorem mixWord_apart {data x : Nat} (hlow : data ≤ x) (hhigh : x < data + 4) (hne : m x ≠ m' x)
    (H : Word) : mixWord m data H ≠ mixWord m' data H :=
  mul_PRIME_4.ne ((RotateLeft_injective (by decide) (by decide)).ne
    (add_left_ne _ (mul_PRIME_3.ne (word_ne hlow hhigh hne))))

/-- A changed byte. -/
theorem mixByte_apart {x : Nat} (hne : m x ≠ m' x) (H : Word) : mixByte m x H ≠ mixByte m' x H := by
  have hword : BitVec.ofNat 32 (m x).toNat ≠ BitVec.ofNat 32 (m' x).toNat := by
    intro heq
    have hnat := congrArg BitVec.toNat heq
    have hlt := (m x).toNat_lt
    have hlt' := (m' x).toNat_lt
    simp only [BitVec.toNat_ofNat] at hnat
    rw [Nat.mod_eq_of_lt (by omega), Nat.mod_eq_of_lt (by omega)] at hnat
    exact hne (UInt8.toNat_inj.mp hnat)
  exact mul_PRIME_1.ne ((RotateLeft_injective (by decide) (by decide)).ne
    (add_left_ne _ (mul_PRIME_5.ne hword)))

theorem mixWords_ne {a e : Nat} {H K : Word} (hne : H ≠ K) :
    (sweep (mixWord m) 4 a e H).2 ≠ (sweep (mixWord m) 4 a e K).2 :=
  sweep_rel (R := (· ≠ ·)) (by decide) (fun _ _ _ _ hst => mixWord_ne m _ hst) hne

theorem mixBytes_ne {a e : Nat} {H K : Word} (hne : H ≠ K) :
    (sweep (mixByte m) 1 a e H).2 ≠ (sweep (mixByte m) 1 a e K).2 :=
  sweep_rel (R := (· ≠ ·)) (by decide) (fun _ _ _ _ hst => mixByte_ne m _ hst) hne

/-- What follows the blocks loses nothing. -/
theorem hashFrom_ne {l l' : Lanes}
    (hne : combine sz (sweep (accumulateBlock m) 32 (start_block p sz) (stop_block p sz) l).2 ≠
      combine sz (sweep (accumulateBlock m) 32 (start_block p sz) (stop_block p sz) l').2) :
    hashFrom p sz m l ≠ hashFrom p sz m l' :=
  avalanche_injective.ne (mixWords_ne (mixBytes_ne (mixBytes_ne (mixWords_ne hne))))

/-- The lanes of blocks one byte of which is changed. -/
theorem blocks_apart {a n x : Nat} (hlow : a ≤ x) (hhigh : x < a + 32 * n) (hne : m x ≠ m' x)
    (hsame : ∀ y, y ≠ x → a ≤ y → y < a + 32 * n → m y = m' y) (l : Lanes) :
    OneApart (sweep (accumulateBlock m) 32 a (a + 32 * n) l).2
      (sweep (accumulateBlock m') 32 a (a + 32 * n) l).2 := by
  have hd : a + 32 * ((x - a) / 32) < a + 32 * n := by omega
  refine sweep_apart (by decide) hd (fun k hk hk' l => ?_) (fun k s t h => h.block m _)
    (fun l => ?_) l
  · exact block_congr (fun y hy hy' => hsame y (by omega) (by omega) (by omega)) l
  · exact accumulateBlock_apart (by omega) (by omega) hne
      (fun y hyx hy hy' => hsame y hyx (by omega) (by omega)) l

theorem mixWords_apart {a e n x : Nat} (he : e = a + 4 * n) (hlow : a ≤ x) (hhigh : x < e)
    (hne : m x ≠ m' x) (hsame : ∀ y, y ≠ x → a ≤ y → y < e → m y = m' y) (H : Word) :
    (sweep (mixWord m) 4 a e H).2 ≠ (sweep (mixWord m') 4 a e H).2 := by
  have hd : a + 4 * ((x - a) / 4) < e := by omega
  refine sweep_apart (R := (· ≠ ·)) (by decide) hd (fun k hk hk' H => ?_)
    (fun k s t h => mixWord_ne m _ h) (mixWord_apart (by omega) (by omega) hne) H
  have hword : word m (a + 4 * k) = word m' (a + 4 * k) :=
    word_congr fun y hy hy' => hsame y (by omega) (by omega) (by omega)
  rw [mixWord, mixWord, hword]

theorem mixBytes_apart {a e x : Nat} (hlow : a ≤ x) (hhigh : x < e) (hne : m x ≠ m' x)
    (hsame : ∀ y, y ≠ x → a ≤ y → y < e → m y = m' y) (H : Word) :
    (sweep (mixByte m) 1 a e H).2 ≠ (sweep (mixByte m') 1 a e H).2 := by
  have hx : a + 1 * (x - a) = x := by omega
  refine sweep_apart (R := (· ≠ ·)) (d := x - a) (by decide) (by omega) (fun k hk hk' H => ?_)
    (fun k s t h => mixByte_ne m _ h) (fun H => ?_) H
  · rw [mixByte, mixByte, hsame (a + 1 * k) (by omega) (by omega) hk']
  · rw [hx]
    exact mixByte_apart hne H

/-- A byte between `start_block` and the region, if there is one, changes the
hash. -/
theorem hash_ne {x : Nat} (hseed : SameSeed seed_ptr m m') (hlow : start_block p sz ≤ x)
    (hp : x < p) (hhigh : x < stop p sz) (hne : m x ≠ m' x)
    (hsame : ∀ y, y ≠ x → start_block p sz ≤ y → y < stop p sz → m y = m' y) :
    hash_memory m seed_ptr p sz ≠ hash_memory m' seed_ptr p sz := by
  obtain ⟨hblock, hword, hbyte, -, n, hn⟩ := parts_le p sz
  obtain ⟨n', hn'⟩ := stop_word_eq p sz
  rw [hash_memory_eq, hash_memory_eq, seedLanes_congr hseed, hashFrom, hashFrom]
  refine avalanche_injective.ne ?_
  rw [← head_congr (m := m) fun y hy hy' => hsame y (by omega) (by omega) hy']
  refine mixWords_ne (mixBytes_ne ?_)
  -- the byte is in a block, in a word behind the blocks, or behind the words
  rcases Nat.lt_or_ge x (stop_block p sz) with hx | hx
  · have hlanes : OneApart
        (sweep (accumulateBlock m) 32 (start_block p sz) (stop_block p sz) (seedLanes m' seed_ptr)).2
        (sweep (accumulateBlock m') 32 (start_block p sz) (stop_block p sz)
          (seedLanes m' seed_ptr)).2 := by
      rw [hn] at hx ⊢
      exact blocks_apart hlow hx hne (fun y hyx hy hy' => hsame y hyx hy (by omega)) _
    have hwords : ∀ H, sweep (mixWord m') 4 (stop_block p sz) (stop_word p sz) H =
        sweep (mixWord m) 4 (stop_block p sz) (stop_word p sz) H :=
      mixWords_congr (fun k hk => by omega) fun y hy hy' =>
        (hsame y (by omega) (by omega) (by omega)).symm
    have hbytes : ∀ H, sweep (mixByte m') 1 (stop_word p sz) (stop p sz) H =
        sweep (mixByte m) 1 (stop_word p sz) (stop p sz) H :=
      mixBytes_congr fun y hy hy' => (hsame y (by omega) (by omega) hy').symm
    rw [hwords, hbytes]
    exact mixBytes_ne (mixWords_ne (hlanes.combine_ne sz))
  · have hblocks : ∀ l, sweep (accumulateBlock m') 32 (start_block p sz) (stop_block p sz) l =
        sweep (accumulateBlock m) 32 (start_block p sz) (stop_block p sz) l := by
      rw [hn] at hx ⊢
      exact blocks_congr fun y hy hy' => (hsame y (by omega) hy (by omega)).symm
    rw [hblocks]
    rcases Nat.lt_or_ge x (stop_word p sz) with hx' | hx'
    · have hbytes : ∀ H, sweep (mixByte m') 1 (stop_word p sz) (stop p sz) H =
          sweep (mixByte m) 1 (stop_word p sz) (stop p sz) H :=
        mixBytes_congr fun y hy hy' => (hsame y (by omega) (by omega) hy').symm
      rw [hbytes]
      exact mixBytes_ne (mixWords_apart hn' hx hx' hne
        (fun y hyx hy hy' => hsame y hyx (by omega) (by omega)) _)
    · have hwords : ∀ H, sweep (mixWord m') 4 (stop_block p sz) (stop_word p sz) H =
          sweep (mixWord m) 4 (stop_block p sz) (stop_word p sz) H :=
        mixWords_congr (fun k hk => by omega) fun y hy hy' =>
          (hsame y (by omega) (by omega) (by omega)).symm
      rw [hwords]
      exact mixBytes_apart hx' hhigh hne (fun y hyx hy hy' => hsame y hyx (by omega) hy') _

end Whole

end Bcm2835.Integ

import Bcm2835.Integ.HashSpec

/-!
# Which bytes the hash absorbs

A region that begins in the middle of a 32-byte block and ends in the same block has
no block of its own: `start_block` is then in front of the region. The loops behind the
blocks start there, take in what is before the region, and take its first bytes in a
second time.
-/

namespace Bcm2835.Integ

open Mem Sweep

/-! ## Traces -/

/-- A turn, with a record of the `inc` bytes it takes in. -/
def logged {σ : Type} (f : Nat → σ → σ) (inc data : Nat) (s : σ × List Nat) : σ × List Nat :=
  (f data s.1, s.2 ++ List.range' data inc)

/-- The addresses that a loop takes in. -/
def touched (inc a stop : Nat) : List Nat :=
  (List.range (turns inc a stop)).flatMap fun k => List.range' (a + inc * k) inc

theorem sweep_logged {σ : Type} (f : Nat → σ → σ) (inc a stop : Nat) (s : σ × List Nat) :
    sweep (logged f inc) inc a stop s =
      ((sweep f inc a stop s.1).1, (sweep f inc a stop s.1).2, s.2 ++ touched inc a stop) := by
  have hfold : ∀ (ks : List Nat) (s : σ × List Nat),
      ks.foldl (fun s k => logged f inc (a + inc * k) s) s =
        (ks.foldl (fun s k => f (a + inc * k) s) s.1,
          s.2 ++ ks.flatMap fun k => List.range' (a + inc * k) inc) := by
    intro ks
    induction ks with
    | nil =>
        intro s
        rw [List.flatMap_nil, List.append_nil]
        rfl
    | cons k ks ih =>
        intro s
        rw [List.foldl_cons, ih, List.foldl_cons, List.flatMap_cons, ← List.append_assoc]
        rfl
  rw [sweep, hfold]
  rfl

/-- `hash_memory` up to the last mixing, with the addresses of the bytes it takes in, in
order. -/
def hash_trace (m : Memory) (seed_ptr p sz : Nat) : Word × List Nat :=
  (sweep (logged (mixWord m) 4) 4 (headStart p sz) (start_block p sz)
    (sweep (logged (mixByte m) 1) 1 p (start_word p sz)
      (sweep (logged (mixByte m) 1) 1 (stop_word p sz) (stop p sz)
        (sweep (logged (mixWord m) 4) 4 (stop_block p sz) (stop_word p sz)
          (Prod.map (combine sz) id
            (sweep (logged (accumulateBlock m) 32) 32 (start_block p sz) (stop_block p sz)
              (seedLanes m seed_ptr, [])).2)).2).2).2).2

/-- The addresses of the bytes that are taken in. -/
def absorbed (p sz : Nat) : List Nat :=
  touched 32 (start_block p sz) (stop_block p sz) ++ touched 4 (stop_block p sz) (stop_word p sz) ++
    touched 1 (stop_word p sz) (stop p sz) ++ touched 1 p (start_word p sz) ++
      touched 4 (headStart p sz) (start_block p sz)

theorem hash_trace_eq (m : Memory) (seed_ptr p sz : Nat) :
    avalanche (hash_trace m seed_ptr p sz).1 = hash_memory m seed_ptr p sz ∧
      (hash_trace m seed_ptr p sz).2 = absorbed p sz := by
  rw [hash_memory_eq, hashFrom, hash_trace]
  simp only [sweep_logged, Prod.map, id]
  exact ⟨trivial, rfl⟩

/-! ## Each byte once -/

theorem touched_eq {inc a n : Nat} (hinc : 0 < inc) :
    touched inc a (a + inc * n) = List.range' a (inc * n) := by
  rw [touched, turns_mul hinc]
  induction n with
  | zero => rfl
  | succ n ih =>
      rw [List.range_succ, List.flatMap_append, ih, List.flatMap_singleton, Nat.mul_succ,
        List.range'_append_1]

/-- A loop that goes up to its end takes in each byte on the way once. -/
theorem count_touched {inc a stop : Nat} (x : Nat) (hinc : 0 < inc) (hle : a ≤ stop)
    (hdvd : inc ∣ stop - a) :
    (touched inc a stop).count x = if a ≤ x ∧ x < stop then 1 else 0 := by
  obtain ⟨n, hn⟩ := hdvd
  obtain rfl : stop = a + inc * n := by omega
  rw [touched_eq hinc, List.Nodup.count List.nodup_range']
  simp only [List.mem_range'_1]

/-- A loop that starts at its end or behind it takes nothing in. -/
theorem touched_nil {inc a stop : Nat} (hinc : 0 < inc) (hle : stop ≤ a) : touched inc a stop = [] := by
  have hturns : turns inc a stop = 0 := by
    rw [turns, Nat.sub_eq_zero_of_le hle, Nat.zero_add, Nat.div_eq_of_lt (Nat.sub_lt hinc Nat.one_pos)]
  rw [touched, hturns]
  rfl

section Regions

variable {p sz : Nat}

/-- The bounds of the loops, for a region that has a multiple of 32 between its first
byte and its end. -/
theorem parts_of_le (hend : p + sz < 2 ^ 32) (hle : p ≤ (p + sz) / 32 * 32) :
    stop p sz = p + sz ∧ start_block p sz = (p + 31) / 32 * 32 ∧ start_word p sz = (p + 3) / 4 * 4 ∧
      headStart p sz = start_word p sz := by
  have hstop : stop p sz = p + sz := Nat.mod_eq_of_lt hend
  have hblock : start_block p sz = (p + 31) / 32 * 32 := by
    rw [start_block, stop_block, hstop]
    omega
  have hword : start_word p sz = (p + 3) / 4 * 4 := by
    rw [start_word, stop_word, hstop]
    omega
  refine ⟨hstop, hblock, hword, ?_⟩
  rw [headStart, turns, hword]
  omega

theorem count_absorbed (hend : p + sz < 2 ^ 32) (hle : p ≤ (p + sz) / 32 * 32) (x : Nat) :
    (absorbed p sz).count x = if p ≤ x ∧ x < p + sz then 1 else 0 := by
  obtain ⟨hstop, hblock, hword, hhead⟩ := parts_of_le hend hle
  have hsb : stop_block p sz = (p + sz) / 32 * 32 := by rw [stop_block, hstop]
  have hsw : stop_word p sz = (p + sz) / 4 * 4 := by rw [stop_word, hstop]
  rw [absorbed, hhead, hblock, hword, hstop, hsb, hsw]
  simp only [List.count_append]
  rw [count_touched x (by decide) (by omega) (by omega),
    count_touched x (by decide) (by omega) (by omega),
    count_touched x (by decide) (by omega) (by omega),
    count_touched x (by decide) (by omega) (by omega),
    count_touched x (by decide) (by omega) (by omega)]
  split_ifs <;> omega

/-- A region that reaches the end of the address space is not taken in at all. -/
theorem absorbed_wrap (hend : p + sz = 2 ^ 32) : absorbed p sz = [] := by
  have hstop : stop p sz = 0 := by rw [stop, hend, Nat.mod_self]
  have hsb : stop_block p sz = 0 := by rw [stop_block, hstop]
  have hsw : stop_word p sz = 0 := by rw [stop_word, hstop]
  have hblock : start_block p sz = 0 := by rw [start_block, hsb, Nat.zero_min]
  have hword : start_word p sz = 0 := by rw [start_word, hsw, Nat.zero_min]
  rw [absorbed, hblock, hword, hsb, hsw, hstop, touched_nil (by decide) (Nat.le_refl 0),
    touched_nil (by decide) (Nat.le_refl 0), touched_nil (by decide) (Nat.le_refl 0),
    touched_nil (by decide) (Nat.zero_le p), touched_nil (by decide) (Nat.zero_le _)]
  rfl

end Regions

/-- The hash is a function of the seed and of the bytes of the region. -/
def DependsOn (p sz : Nat) : Prop :=
  ∀ m m' seed_ptr, SameSeed seed_ptr m m' → (∀ a, p ≤ a → a < p + sz → m a = m' a) →
    hash_memory m seed_ptr p sz = hash_memory m' seed_ptr p sz

/-- The hash takes in each byte of the region once, and no other. -/
def EachOnce (p sz : Nat) : Prop :=
  ∀ m seed_ptr a, (hash_trace m seed_ptr p sz).2.count a = if p ≤ a ∧ a < p + sz then 1 else 0

/-- A byte in front of the region goes into the hash if the region begins behind the
last multiple of 32 up to its end. -/
theorem not_dependsOn {p sz : Nat} (hend : p + sz < 2 ^ 32) (hlt : (p + sz) / 32 * 32 < p) :
    ¬DependsOn p sz := by
  intro hdep
  have hstop : stop p sz = p + sz := Nat.mod_eq_of_lt hend
  have hfront : start_block p sz < p := by
    rw [start_block, stop_block, hstop]
    omega
  have hother : ∀ y, y ≠ start_block p sz →
      (fun _ => 0 : Memory) y = Function.update (fun _ => 0 : Memory) (start_block p sz) 1 y := by
    intro y hy
    rw [Function.update_of_ne hy]
  refine @hash_ne (fun _ => 0) (Function.update (fun _ => 0) (start_block p sz) 1) 0 p sz
    (start_block p sz) (fun hne => absurd rfl hne) (Nat.le_refl _) hfront (by omega) ?_
    (fun y hy _ _ => hother y hy) (hdep _ _ 0 (fun hne => absurd rfl hne) fun a ha _ => hother a (by omega))
  rw [Function.update_self]
  decide

/-- The hash reads the region, and each byte of it once, if and only if the region ends
below the last address and has a multiple of 32 from its first byte up to its end. -/
theorem hash_absorbs_iff {p sz : Nat} (hp : p < 2 ^ 32) (hsz : p + sz ≤ 2 ^ 32) :
    (DependsOn p sz ∧ EachOnce p sz) ↔ p + sz < 2 ^ 32 ∧ p ≤ (p + sz) / 32 * 32 := by
  constructor
  · rintro ⟨hdep, honce⟩
    have hend : p + sz < 2 ^ 32 := by
      by_contra hge
      have hcount := honce (fun _ => 0) 0 p
      rw [(hash_trace_eq _ _ _ _).2, absorbed_wrap (by omega), if_pos (by omega)] at hcount
      cases hcount
    refine ⟨hend, ?_⟩
    by_contra hlt
    exact not_dependsOn hend (Nat.lt_of_not_le hlt) hdep
  · rintro ⟨hend, hle⟩
    constructor
    · intro m m' seed_ptr hseed hsame
      obtain ⟨hstop, hblock, -, -⟩ := parts_of_le hend hle
      refine hash_congr hseed fun y hy hy' => hsame y ?_ (by omega)
      rw [hblock] at hy
      omega
    · intro m seed_ptr a
      rw [(hash_trace_eq _ _ _ _).2]
      exact count_absorbed hend hle a

theorem hash_absorbs_sample :
    (DependsOn 0x8003 100 ∧ EachOnce 0x8003 100) ↔
      0x8003 + 100 < 2 ^ 32 ∧ 0x8003 ≤ (0x8003 + 100) / 32 * 32 :=
  hash_absorbs_iff (by decide) (by decide)

/-- Eight bytes in the middle of a block: the hash depends on the byte at the start of
the block, and takes in the first three bytes of the region twice. -/
theorem hash_absorbs_inside :
    hash_memory (fun _ => 0) 0 0x8005 8 ≠ hash_memory (Function.update (fun _ => 0) 0x8000 1) 0 0x8005 8 ∧
      (hash_trace (fun _ => 0) 0 0x8005 8).2 =
        [0x8000, 0x8001, 0x8002, 0x8003, 0x8004, 0x8005, 0x8006, 0x8007, 0x8008, 0x8009, 0x800a,
          0x800b, 0x800c, 0x8005, 0x8006, 0x8007] ∧
      ¬(DependsOn 0x8005 8 ∧ EachOnce 0x8005 8) := by
  refine ⟨by decide +kernel, by decide +kernel, ?_⟩
  rintro ⟨hdep, _⟩
  exact not_dependsOn (by decide) (by decide) hdep

end Bcm2835.Integ

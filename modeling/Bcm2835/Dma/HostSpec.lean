import Bcm2835.Dma.Arith
import Bcm2835.Dma.EngineSpec

/-!
# Buffers of the host program

`arena_alloc` hands out aligned blocks of the arena one behind the other. The memo
of `MonomorphizeOn` keeps its one key and its one value in the same place, the word
at the null pointer: `Host.Sound` says what that word can be, and from it follows
that a width is never found, so that every call of an operation gets buffers of its
own.
-/

namespace Bcm2835.Dma

open Mem Bytes Digits

/-! ## The arena -/

/-- An address rounded down by a mask. -/
theorem and_mask {x k : Nat} (hx : x < 2 ^ 32) (hk : k ≤ 32) :
    x &&& (2 ^ 32 - 2 ^ k) = x / 2 ^ k * 2 ^ k := by
  have hmask : 2 ^ 32 - 2 ^ k = (2 ^ (32 - k) - 1) <<< k := by
    rw [Nat.shiftLeft_eq, Nat.sub_mul, ← Nat.pow_add, Nat.sub_add_cancel hk, Nat.one_mul]
  have hdiv : x / 2 ^ k < 2 ^ (32 - k) := by
    rw [Nat.div_lt_iff_lt_mul (Nat.pow_pos (by decide)), ← Nat.pow_add, Nat.sub_add_cancel hk]
    exact hx
  have hshift : x &&& (2 ^ (32 - k) - 1) <<< k = (x >>> k &&& (2 ^ (32 - k) - 1)) <<< k := by
    apply Nat.eq_of_testBit_eq
    intro i
    simp only [Nat.testBit_and, Nat.testBit_shiftLeft, Nat.testBit_shiftRight]
    by_cases hi : k ≤ i
    · simp [hi, Nat.add_sub_cancel' hi]
    · simp [hi]
  rw [hmask, hshift, Nat.and_two_pow_sub_one_eq_mod, Nat.shiftLeft_eq, Nat.shiftRight_eq_div_pow,
    Nat.mod_eq_of_lt hdiv]

/-- The free part of the arena, in memory the engine reaches, has more than `n` bytes. -/
structure Arena.Room (a : Arena) (n : Nat) : Prop where
  start_le : a.start ≤ a.p
  fits : a.p + n < a.end_
  in_dram : a.end_ ≤ ARM_DRAM_END
  above : 256 ≤ a.p

theorem Arena.Room.mono {a : Arena} {n k : Nat} (h : a.Room n) (hk : k ≤ n) : a.Room k where
  start_le := h.start_le
  fits := Nat.lt_of_le_of_lt (Nat.add_le_add_left hk _) h.fits
  in_dram := h.in_dram
  above := h.above

/-- Where the arena's next buffer of this alignment is. -/
def Arena.next (a : Arena) (align : Nat) : Nat := (a.p + align - 1) / align * align

theorem arena_alloc_eq {a : Arena} {size k n : Nat} (h : a.Room (n + (2 ^ k - 1) + size)) (hk : k ≤ 8) :
    ∃ q a', arena_alloc a size (2 ^ k) = some (q, a') ∧ a'.Room n ∧ q = a.next (2 ^ k) ∧
      q % 2 ^ k = 0 ∧ a.p ≤ q ∧ a'.p = q + size ∧ a'.end_ = a.end_ := by
  have hpow : 0 < 2 ^ k := Nat.pow_pos (by decide)
  have hle : 2 ^ k ≤ 256 := Nat.pow_le_pow_right (by decide) hk
  have hdram : ARM_DRAM_END = 536870912 := rfl
  have hstart := h.start_le
  have hfits := h.fits
  have hend := h.in_dram
  have hmax : SIZE_MAX = 4294967295 := rfl
  have hlow : (2 ^ k + SIZE_MAX) % 2 ^ 32 = 2 ^ k - 1 := by
    rw [hmax]
    omega
  have hpow2 : 2 ^ k &&& (2 ^ k + SIZE_MAX) % 2 ^ 32 = 0 := by
    rw [hlow, Nat.and_two_pow_sub_one_eq_mod, Nat.mod_self]
  have hsum : (a.p + 2 ^ k + SIZE_MAX) % 2 ^ 32 = a.p + 2 ^ k - 1 := by
    rw [hmax]
    omega
  have hmask : (2 ^ 32 - 2 ^ k) % 2 ^ 32 = 2 ^ 32 - 2 ^ k := Nat.mod_eq_of_lt (by omega)
  have hq : (a.p + 2 ^ k + SIZE_MAX) % 2 ^ 32 &&& (2 ^ 32 - 2 ^ k) % 2 ^ 32 =
      (a.p + 2 ^ k - 1) / 2 ^ k * 2 ^ k := by
    rw [hsum, hmask, and_mask (by omega) (by omega)]
  have hdiv := Nat.div_mul_le_self (a.p + 2 ^ k - 1) (2 ^ k)
  have hdiv' := Nat.lt_div_mul_add (a := a.p + 2 ^ k - 1) hpow
  have hr : ((a.p + 2 ^ k - 1) / 2 ^ k * 2 ^ k + size) % 2 ^ 32 =
      (a.p + 2 ^ k - 1) / 2 ^ k * 2 ^ k + size := Nat.mod_eq_of_lt (by omega)
  refine ⟨(a.p + 2 ^ k - 1) / 2 ^ k * 2 ^ k, { a with
    p := (a.p + 2 ^ k - 1) / 2 ^ k * 2 ^ k + size, util := (a.util + size) % 2 ^ 32 }, ?_, ?_, ?_⟩
  · rw [arena_alloc, guard_bind (by rw [hmax]; omega), guard_bind hpow2, hq]
    dsimp only
    rw [hr, guard_bind (by omega)]
    rfl
  · have habove := h.above
    exact ⟨by show a.start ≤ _ + size; omega, by show _ + size + n < a.end_; omega, hend,
      by show 256 ≤ _ + size; omega⟩
  · exact ⟨rfl, Nat.mul_mod_left .., by omega, rfl, rfl⟩

/-! ## The memo -/

/-- The memo as `_mono_set` leaves it: every entry has null pointers, and the word
there is the last value set, the address of a buffer. -/
structure Host.Sound (h : Host) : Prop where
  keysz : ∀ c ∈ h.mono_root, c.keysz = 4
  valsz : ∀ c ∈ h.mono_root, c.valsz = 4
  key : ∀ c ∈ h.mono_root, ∀ e ∈ c.monos, e.key = 0
  cell : (∀ c ∈ h.mono_root, c.monos = []) ∨ 256 ≤ ofLe (read h.mem BUS_DRAM_BASE 4)

/-- A program that has not called an operation yet. -/
theorem Host.Sound.start {h : Host} (hroot : h.mono_root = []) : h.Sound where
  keysz c hc := by simp [hroot] at hc
  valsz c hc := by simp [hroot] at hc
  key c hc := by simp [hroot] at hc
  cell := .inl fun c hc => by simp [hroot] at hc

/-- No width is found in the memo. -/
theorem Host.Sound.mono_get {h : Host} (hs : h.Sound) {c : MonoCtx} (hc : c ∈ h.mono_root) {v : Nat}
    (hv : v < 256) : mono_get h c (leBytes 4 v) = none := by
  rw [Dma.mono_get, List.findSome?_eq_none_iff]
  intro e he
  rw [if_neg]
  rw [hs.key c hc e he, hs.keysz c hc]
  intro heq
  rcases hs.cell with hnone | hcell
  · rw [hnone c hc] at he
    cases he
  · rw [Nat.zero_add, List.take_of_length_le (by simp)] at heq
    rw [heq, ofLe_leBytes] at hcell
    omega

/-- The host with a memo context for `i`. -/
theorem mono_get_or_init_ctx_eq {h : Host} (hs : h.Sound) (hroom : h.curr_context < MAX_CONTEXT)
    (i : Nat) : ∃ root n, mono_get_or_init_ctx h i 4 4 =
        some { h with mono_root := root, curr_context := n } ∧ n ≤ h.curr_context + 1 ∧
      Host.Sound { h with mono_root := root, curr_context := n } ∧
      ∃ c ∈ root, root.find? (·.instance_ = i) = some c := by
  rw [mono_get_or_init_ctx]
  by_cases hany : h.mono_root.any (·.instance_ = i)
  · rw [if_pos hany]
    refine ⟨h.mono_root, h.curr_context, rfl, Nat.le_succ _, hs, ?_⟩
    have hsome : (h.mono_root.find? (·.instance_ = i)).isSome := by
      rw [List.find?_isSome]
      exact List.any_eq_true.mp hany
    obtain ⟨c, hc⟩ := Option.isSome_iff_exists.mp hsome
    exact ⟨c, List.mem_of_find?_eq_some hc, hc⟩
  · rw [if_neg hany, guard_bind hroom]
    refine ⟨⟨i, 4, 4, []⟩ :: h.mono_root, h.curr_context + 1, rfl, Nat.le_refl _, ?_, _,
      List.mem_cons_self, List.find?_cons_of_pos (by simp)⟩
    constructor
    · intro c hc
      rcases List.mem_cons.mp hc with rfl | hc
      · rfl
      · exact hs.keysz c hc
    · intro c hc
      rcases List.mem_cons.mp hc with rfl | hc
      · rfl
      · exact hs.valsz c hc
    · intro c hc e he
      rcases List.mem_cons.mp hc with rfl | hc
      · cases he
      · exact hs.key c hc e he
    · rcases hs.cell with hnone | hcell
      · refine .inl fun c hc => ?_
        rcases List.mem_cons.mp hc with rfl | hc
        · rfl
        · exact hnone c hc
      · exact .inr hcell

/-- The host has room for `n` more memo contexts and entries. -/
structure Host.MonoRoom (h : Host) (n : Nat) : Prop where
  contexts : h.curr_context + n ≤ MAX_CONTEXT
  monos : h.curr_mono + n ≤ MAX_MONO

/-- What a call of an operation may change, besides the arena and the context: the
memo, the word at the null pointer, and what it stores in its buffers. -/
structure Host.Next (h h' : Host) (n : Nat) (mem : Memory) : Prop where
  ctx : h'.ctx = h.ctx
  sound : h'.Sound
  room : h'.MonoRoom n
  frame : ∀ a, a < BUS_DRAM_BASE ∨ BUS_DRAM_BASE + 4 ≤ a → h'.mem a = mem a

/-- A buffer monomorphized on a width is a new one. -/
theorem MonomorphizeOn_eq {h : Host} (hs : h.Sound) {n : Nat} (hroom : h.MonoRoom (n + 1)) (i : Nat)
    {v : Nat} (hv : v < 256) {expr : Host → Option (Nat × Host)} {t : Nat} {a : Arena}
    {f : Memory → Memory} (ht : 256 ≤ t) (ht' : t < 2 ^ 32)
    (hexpr : ∀ h₁ : Host, h₁.arena = h.arena →
      expr h₁ = some (t, { h₁ with arena := a, mem := f h₁.mem })) :
    ∃ h', MonomorphizeOn i v expr h = some (t, h') ∧ h'.arena = a ∧ h.Next h' n (f h.mem) := by
  have hcontexts := hroom.contexts
  have hmonos := hroom.monos
  obtain ⟨root, k, hinit, hk, hs₁, c, hc, hfind⟩ := mono_get_or_init_ctx_eq hs (by omega) i
  have hmiss : mono_get { h with mono_root := root, curr_context := k } c (leBytes 4 v) = none :=
    hs₁.mono_get hc hv
  have hguard : h.curr_mono < MAX_MONO := by omega
  have hex := hexpr { h with mono_root := root, curr_context := k } rfl
  rw [MonomorphizeOn, hinit, some_bind, hfind, some_bind, hmiss]
  show ∃ h', (do
    let r ← expr { h with mono_root := root, curr_context := k }
    let h ← mono_set r.2 i (leBytes 4 v) (leBytes 4 r.1)
    pure (r.1, h)) = some (t, h') ∧ _
  rw [hex, some_bind]
  show ∃ h', (do
    let h ← mono_set { h with mono_root := root, curr_context := k, arena := a, mem := f h.mem } i
      (leBytes 4 v) (leBytes 4 t)
    pure (t, h)) = some (t, h') ∧ _
  rw [mono_set, guard_bind hguard, hfind, some_bind]
  -- key and value go to the same place
  have hcell : ∀ m : Memory, ofLe (read (write (2 ^ 32) (write (2 ^ 32) m BUS_DRAM_BASE (leBytes 4 v))
      BUS_DRAM_BASE (leBytes 4 t)) BUS_DRAM_BASE 4) = t := by
    intro m
    have hread := read_write (write (2 ^ 32) m BUS_DRAM_BASE (leBytes 4 v)) (N := 2 ^ 32)
      (a := BUS_DRAM_BASE) (b := leBytes 4 t) (by simp [BUS_DRAM_BASE])
    rw [leBytes_length] at hread
    rw [hread, ofLe_leBytes, Nat.mod_eq_of_lt (Nat.lt_of_lt_of_eq ht' (by decide))]
  have htake : ∀ x, (leBytes 4 x).take 4 = leBytes 4 x := fun x =>
    List.take_of_length_le (by rw [leBytes_length])
  have hkeysz : c.keysz = 4 := hs₁.keysz c hc
  have hvalsz : c.valsz = 4 := hs₁.valsz c hc
  have hnull : ∀ k, (MONOS k).key + BUS_DRAM_BASE = BUS_DRAM_BASE ∧
      (MONOS k).val + BUS_DRAM_BASE = BUS_DRAM_BASE := fun k => ⟨Nat.zero_add _, Nat.zero_add _⟩
  simp only [hkeysz, hvalsz, htake, (hnull _).1, (hnull _).2]
  refine ⟨_, rfl, rfl, rfl, ⟨?_, ?_, ?_, ?_⟩, ⟨?_, ?_⟩, ?_⟩
  · intro c' hc'
    obtain ⟨c₀, hc₀, rfl⟩ := List.mem_map.mp hc'
    split
    · exact hs₁.keysz c₀ hc₀
    · exact hs₁.keysz c₀ hc₀
  · intro c' hc'
    obtain ⟨c₀, hc₀, rfl⟩ := List.mem_map.mp hc'
    split
    · exact hs₁.valsz c₀ hc₀
    · exact hs₁.valsz c₀ hc₀
  · intro c' hc' e he
    obtain ⟨c₀, hc₀, rfl⟩ := List.mem_map.mp hc'
    split at he
    · rcases List.mem_cons.mp he with rfl | he
      · rfl
      · exact hs₁.key c₀ hc₀ e he
    · exact hs₁.key c₀ hc₀ e he
  · exact .inr (by rw [hcell]; exact ht)
  · show k + n ≤ MAX_CONTEXT
    omega
  · show h.curr_mono + 1 + n ≤ MAX_MONO
    omega
  · intro x hx
    have hout : ∀ (m : Memory) y, write (2 ^ 32) m BUS_DRAM_BASE (leBytes 4 y) x = m x := by
      intro m y
      refine write_of_outside m ?_ ?_
      · rw [leBytes_length]
        decide
      · rw [leBytes_length]
        exact hx
    exact (hout _ t).trans (hout _ v)

/-- An expansion whose expression does not return does not return. -/
theorem MonomorphizeOn_none {h : Host} (hs : h.Sound) (hroom : h.curr_context < MAX_CONTEXT) (i : Nat)
    {v : Nat} (hv : v < 256) {expr : Host → Option (Nat × Host)}
    (hexpr : ∀ h₁ : Host, h₁.arena = h.arena → expr h₁ = none) : MonomorphizeOn i v expr h = none := by
  obtain ⟨root, k, hinit, _, hs₁, c, hc, hfind⟩ := mono_get_or_init_ctx_eq hs hroom i
  have hmiss : Dma.mono_get { h with mono_root := root, curr_context := k } c (leBytes 4 v) = none :=
    hs₁.mono_get hc hv
  have hnone := hexpr { h with mono_root := root, curr_context := k } rfl
  rw [MonomorphizeOn, hinit, some_bind, hfind, some_bind, hmiss]
  show (expr { h with mono_root := root, curr_context := k } >>= _) = none
  rw [hnone]
  rfl

/-! ## Buffers -/

/-- The free part of the arena, as the engine sees it. -/
def Host.free (h : Host) : Region := ⟨h.arena.p + BUS_DRAM_BASE, h.arena.end_ - h.arena.p⟩

/-- A buffer of `size` bytes for a width. -/
theorem MonomorphizeOn_alloc {h : Host} (hs : h.Sound) {n size k r : Nat} (hroom : h.MonoRoom (n + 1))
    (harena : h.arena.Room (r + (2 ^ k - 1) + size)) (hk : k ≤ 8) (i : Nat) {v : Nat} (hv : v < 256) :
    ∃ t h', MonomorphizeOn i v (Host.alloc size (2 ^ k)) h = some (t, h') ∧
      t = h.arena.next (2 ^ k) ∧ t % 2 ^ k = 0 ∧ h.arena.p ≤ t ∧ h'.arena.p = t + size ∧
      h'.arena.Room r ∧ h'.arena.end_ = h.arena.end_ ∧ h.Next h' n h.mem := by
  obtain ⟨t, a, halloc, ha, hnext_eq, halign, hlo, hhi, hend⟩ := arena_alloc_eq harena hk
  have habove := harena.above
  have hdram : ARM_DRAM_END < 2 ^ 32 := by decide
  have hfits := ha.fits
  have hlim := ha.in_dram
  have hexpr : ∀ h₁ : Host, h₁.arena = h.arena →
      Host.alloc size (2 ^ k) h₁ = some (t, { h₁ with arena := a, mem := id h₁.mem }) := by
    intro h₁ heq
    rw [Host.alloc, heq, halloc, some_bind]
    rfl
  obtain ⟨h', hmono, harena', hnext⟩ := MonomorphizeOn_eq hs hroom i hv (show 256 ≤ t by omega)
    (show t < 2 ^ 32 by omega) hexpr
  rw [← harena'] at ha hhi hend
  exact ⟨t, h', hmono, hnext_eq, halign, hlo, hhi, ha, hend, hnext⟩

/-- An entry of a table written at `a`. -/
theorem table_mem (m : Memory) {a : Nat} {f : Nat → Nat} (ha : a + 256 ≤ 2 ^ 32) {k : Nat}
    (hk : k < 256) : write (2 ^ 32) m a (Buf.taken (fun i => .ofNat (f i)) 256) (a + k) =
      .ofNat (f k) := by
  have hlen : (Buf.taken (fun i => UInt8.ofNat (f i)) 256).length = 256 := Buf.taken_length _ _
  rw [write_getElem m (by rw [hlen]; exact ha) (by rw [hlen]; exact hk)]
  simp [Buf.taken]

/-- A table for a width. -/
theorem MonomorphizeOn_table {h : Host} (hs : h.Sound) {n r : Nat} (hroom : h.MonoRoom (n + 1))
    (harena : h.arena.Room (r + 255 + 256)) (i : Nat) {v : Nat} (hv : v < 256) (f : Nat → Nat) :
    ∃ t h', MonomorphizeOn i v (Host.allocTable f) h = some (t, h') ∧ t = h.arena.next 256 ∧
      t % 256 = 0 ∧ h.arena.p ≤ t ∧ h'.arena.p = t + 256 ∧ h'.arena.Room r ∧
      h'.arena.end_ = h.arena.end_ ∧ h'.ctx = h.ctx ∧ h'.Sound ∧ h'.MonoRoom n ∧
      ∀ k < 256, h'.mem (t + BUS_DRAM_BASE + k) = .ofNat (f k) := by
  obtain ⟨t, a, halloc, ha, hnext_eq, halign, hlo, hhi, hend⟩ :=
    arena_alloc_eq (k := 8) harena (Nat.le_refl 8)
  rw [show 2 ^ 8 = 256 from rfl] at halloc halign hnext_eq
  have habove := harena.above
  have hdram : ARM_DRAM_END = 536870912 := rfl
  have hbase : BUS_DRAM_BASE = 1073741824 := rfl
  have hfits := ha.fits
  have hlim := ha.in_dram
  have htop : t + BUS_DRAM_BASE + 256 ≤ 2 ^ 32 := by omega
  have hexpr : ∀ h₁ : Host, h₁.arena = h.arena → Host.allocTable f h₁ = some (t, { h₁ with
      arena := a
      mem := (fun m => write (2 ^ 32) m (t + BUS_DRAM_BASE)
        (Buf.taken (fun i => .ofNat (f i)) 256)) h₁.mem }) := by
    intro h₁ heq
    have halloc' : arena_alloc h₁.arena 256 256 = some (t, a) := by rw [heq, halloc]
    rw [Host.allocTable, Host.alloc, halloc', some_bind]
    rfl
  obtain ⟨h', hmono, harena', hnext⟩ := MonomorphizeOn_eq hs hroom i hv
    (f := fun m => write (2 ^ 32) m (t + BUS_DRAM_BASE) (Buf.taken (fun i => .ofNat (f i)) 256))
    (show 256 ≤ t by omega) (show t < 2 ^ 32 by omega) hexpr
  rw [← harena'] at ha hhi hend
  refine ⟨t, h', hmono, hnext_eq, halign, hlo, hhi, ha, hend, hnext.ctx, hnext.sound, hnext.room,
    fun k hk => ?_⟩
  rw [hnext.frame _ (by omega)]
  exact table_mem h.mem htop hk

end Bcm2835.Dma

import Bcm2835.Dma.EmitSpec

/-!
# Chains in memory

A `Chain` is a row of control blocks and the source bytes other blocks of the
row patch. `C.In m` says that `m` holds the chain up to those bytes. The rules
give what one block does, for each kind of block the operations emit.
-/

namespace Bcm2835.Dma

open Mem Digits

/-! ## Words -/

theorem word_eq (m : Memory) (a : Nat) :
    word m a = (m a).toNat + 256 * (m (a + 1)).toNat + 65536 * (m (a + 2)).toNat +
      16777216 * (m (a + 3)).toNat := by
  simp only [word, num, value_succ, value_zero, Nat.add_zero]
  omega

theorem word_lt (m : Memory) (a : Nat) : word m a < 2 ^ 32 := by
  have h : word m a < 256 ^ 4 := value_lt (fun i => m (a + i)) 4
  exact Nat.lt_of_lt_of_eq h (by decide)

theorem num_congr {m m' : Memory} {a n : Nat} (h : ∀ i < n, m' (a + i) = m (a + i)) :
    num m' a n = num m a n := value_congr h

/-- A byte of a word. -/
theorem byte_of_word {m : Memory} {a j : Nat} (hj : j < 4) :
    (m (a + j)).toNat = word m a / 256 ^ j % 256 := (digit_value (fun i => m (a + i)) hj).symm

/-! ## Chains -/

/-- Control blocks `f 0 … f (n-1)` from `z` on; the last goes on at `exit`. -/
structure Chain where
  z : Nat
  n : Nat
  f : Nat → Cblk
  /-- The bytes of the source addresses that the chain itself writes. -/
  patched : Nat → Nat → Prop
  exit : Nat
  pos : 0 < z
  fits : z + 32 * n ≤ 2 ^ 32

namespace Chain

variable (C : Chain)

/-- Where block `k` starts, and what comes behind the last. -/
def pc (k : Nat) : Nat := if k = C.n then C.exit else C.z + 32 * k

def next (k : Nat) : Nat := if k + 1 = C.n then C.exit else (C.f k).next_cb

/-- Byte `j` of the source address of block `k`. -/
def src (k j : Nat) : Nat := srcField C.z k j

/-- The memory holds the chain, up to the patched bytes. The flags of a block
that moves a single byte make no difference. -/
structure In (m : Memory) : Prop where
  ti : ∀ k < C.n, (C.f k).txfr_len ≠ 1 → word m (C.z + 32 * k) = (C.f k).ti
  src : ∀ k < C.n, ∀ j < 4, ¬ C.patched k j →
    (m (C.src k j)).toNat = (C.f k).src_addr / 256 ^ j % 256
  dst : ∀ k < C.n, word m (C.z + 32 * k + 8) = (C.f k).dst_addr
  len : ∀ k < C.n, word m (C.z + 32 * k + 12) = (C.f k).txfr_len
  stride : ∀ k < C.n, word m (C.z + 32 * k + 16) = (C.f k).stride
  next : ∀ k < C.n, word m (C.z + 32 * k + 20) = C.next k

/-- A byte of the chain that has to stay. -/
def Fixed (a : Nat) : Prop :=
  C.z ≤ a ∧ a < C.z + 32 * C.n ∧ (∀ k < C.n, ∀ j < 4, C.patched k j → a ≠ C.src k j) ∧
    ∀ k < C.n, (C.f k).txfr_len = 1 → a < C.z + 32 * k ∨ C.z + 32 * k + 4 ≤ a

/-- The source address of block `k`. -/
def source (m : Memory) (k : Nat) : Nat := word m (C.z + 32 * k + 4)

variable {C}

theorem pc_of_lt {k : Nat} (hk : k < C.n) : C.pc k = C.z + 32 * k := if_neg (by omega)

theorem pc_ne_zero {k : Nat} (hk : k < C.n) : C.pc k ≠ 0 := by
  have := C.pos
  rw [pc_of_lt hk]
  omega

theorem word_congr {m m' : Memory} {a : Nat} (h : ∀ i < 4, m' (a + i) = m (a + i)) :
    word m' a = word m a := num_congr h

/-- What leaves the fixed bytes leaves the chain. -/
theorem In.congr {m m' : Memory} (hin : C.In m) (h : ∀ a, C.Fixed a → m' a = m a) : C.In m' := by
  -- the bytes of block `k` from `o` on, behind the source address
  have hfield : ∀ k < C.n, ∀ o, 8 ≤ o → o < 24 → ∀ i < 4, o % 4 = 0 →
      m' (C.z + 32 * k + o + i) = m (C.z + 32 * k + o + i) := by
    intro k hk o ho ho' i hi hmod
    refine h _ ⟨by omega, by omega, ?_, ?_⟩
    · intro k' _ j hj _
      show _ ≠ C.z + 32 * k' + 4 + j
      omega
    · intro k' _ _
      omega
  constructor
  · intro k hk hlen
    rw [← hin.ti k hk hlen]
    refine word_congr fun i hi => h _ ⟨by omega, by omega, ?_, ?_⟩
    · intro k' _ j hj _
      show _ ≠ C.z + 32 * k' + 4 + j
      omega
    · intro k' _ hlen'
      have hne : k ≠ k' := fun he => hlen (he ▸ hlen')
      omega
  · intro k hk j hj hnot
    rw [← hin.src k hk j hj hnot]
    refine congrArg UInt8.toNat (h _ ⟨?_, ?_, ?_, ?_⟩)
    · show C.z ≤ C.z + 32 * k + 4 + j
      omega
    · show C.z + 32 * k + 4 + j < _
      omega
    · intro k' _ j' hj' hp heq
      have hsame : C.z + 32 * k + 4 + j = C.z + 32 * k' + 4 + j' := heq
      have hk' : k = k' := by omega
      have hj' : j = j' := by omega
      subst hk' hj'
      exact hnot hp
    · intro k' _ _
      show C.z + 32 * k + 4 + j < _ ∨ _ ≤ C.z + 32 * k + 4 + j
      omega
  · intro k hk
    rw [← hin.dst k hk]
    exact word_congr fun i hi => hfield k hk 8 (by omega) (by omega) i hi rfl
  · intro k hk
    rw [← hin.len k hk]
    exact word_congr fun i hi => hfield k hk 12 (by omega) (by omega) i hi rfl
  · intro k hk
    rw [← hin.stride k hk]
    exact word_congr fun i hi => hfield k hk 16 (by omega) (by omega) i hi rfl
  · intro k hk
    rw [← hin.next k hk]
    exact word_congr fun i hi => hfield k hk 20 (by omega) (by omega) i hi rfl

/-- A source address none of whose bytes is patched. -/
theorem In.source_fixed {m : Memory} (hin : C.In m) {k : Nat} (hk : k < C.n)
    (hlt : (C.f k).src_addr < 2 ^ 32) (hfix : ∀ j < 4, ¬ C.patched k j) :
    C.source m k = (C.f k).src_addr := by
  have h0 := hin.src k hk 0 (by decide) (hfix 0 (by decide))
  have h1 := hin.src k hk 1 (by decide) (hfix 1 (by decide))
  have h2 := hin.src k hk 2 (by decide) (hfix 2 (by decide))
  have h3 := hin.src k hk 3 (by decide) (hfix 3 (by decide))
  simp only [Chain.src, srcField, Nat.add_zero] at h0 h1 h2 h3
  rw [source, word_eq]
  omega

/-- The source address of block `k` by its bytes. -/
theorem source_eq (m : Memory) (k : Nat) :
    C.source m k = (m (C.src k 0)).toNat + 256 * (m (C.src k 1)).toNat +
      65536 * (m (C.src k 2)).toNat + 16777216 * (m (C.src k 3)).toNat := word_eq ..

/-- The bytes of the source address of block `k` above the lowest. -/
def upper (C : Chain) (m : Memory) (k : Nat) : Nat :=
  256 * (m (C.src k 1)).toNat + 65536 * (m (C.src k 2)).toNat + 16777216 * (m (C.src k 3)).toNat

theorem source_upper (m : Memory) (k : Nat) :
    C.source m k = C.upper m k + (m (C.src k 0)).toNat := by
  rw [source_eq, upper]
  omega

end Chain

/-! ## Single blocks -/

theorem testBit_INC : INC.testBit 1 = false ∧ INC.testBit 4 = true ∧ INC.testBit 8 = true := by
  decide

theorem testBit_INC2D :
    INC2D.testBit 1 = true ∧ INC2D.testBit 4 = true ∧ INC2D.testBit 8 = true := by decide

theorem testBit_NOINC2D :
    NOINC2D.testBit 1 = true ∧ NOINC2D.testBit 4 = true ∧ NOINC2D.testBit 8 = false := by decide

theorem testBit_DST_INC :
    TI_DST_INC.testBit 1 = false ∧ TI_DST_INC.testBit 4 = true ∧ TI_DST_INC.testBit 8 = false := by
  decide

variable {E : Engine} {C : Chain} {m : Memory} {k : Nat}

theorem Chain.In.step_eq (hin : C.In m) (hk : k < C.n) :
    step E ⟨C.pc k, m⟩ = ⟨C.next k, (Cblk.at m (C.pc k)).transfer E m⟩ := by
  rw [step, if_neg (Chain.pc_ne_zero hk)]
  show Channel.mk (word m (C.pc k + 20)) _ = _
  rw [Chain.pc_of_lt hk, hin.next k hk]

/-- The block in memory, its source address as the memory has it. -/
theorem Chain.In.at_eq (hin : C.In m) (hk : k < C.n) (hlen : (C.f k).txfr_len ≠ 1) :
    Cblk.at m (C.pc k) = { C.f k with src_addr := C.source m k, next_cb := C.next k } := by
  rw [Chain.pc_of_lt hk, Cblk.at, hin.ti k hk hlen, hin.dst k hk, hin.len k hk, hin.stride k hk,
    hin.next k hk]
  rfl

theorem advance_zero {a : Nat} (h : a < 2 ^ 32) : advance a 0 = a := advance_nat (d := 0) h

/-- One byte is moved the same way under all flags. -/
theorem transfer_one {c : Cblk} (hlen : c.txfr_len = 1) (hdst : c.dst_addr < 2 ^ 32)
    (hsrc : c.src_addr < 2 ^ 32) :
    c.transfer E m = Function.update m c.dst_addr (m c.src_addr) := by
  have hcols : c.cols = 1 := by
    rw [Cblk.cols, hlen]
    split <;> rfl
  have hrows : c.rows = 1 := by
    rw [Cblk.rows, hlen]
    split <;> rfl
  have hd : c.dstAt 0 = c.dst_addr := by
    simp only [Cblk.dstAt, Nat.zero_div, Nat.zero_mod, Nat.cast_zero, zero_mul, add_zero,
      advance_zero hdst, ite_self]
  have hs : c.srcAt E 0 = c.src_addr := by
    simp only [Cblk.srcAt, Nat.zero_div, Nat.zero_mod, Nat.cast_zero, zero_mul, add_zero,
      E.draw_zero, advance_zero hsrc, ite_self]
  rw [Cblk.transfer, hrows, hcols, Nat.one_mul, moves_one, hd, hs]

/-- A block that moves one byte. -/
theorem Chain.In.step_one (hin : C.In m) (hk : k < C.n) (hlen : (C.f k).txfr_len = 1) :
    step E ⟨C.pc k, m⟩ =
      ⟨C.next k, Function.update m (C.f k).dst_addr (m (C.source m k))⟩ := by
  have hdst : (Cblk.at m (C.pc k)).dst_addr = (C.f k).dst_addr := by
    rw [Chain.pc_of_lt hk]
    exact hin.dst k hk
  have hlen' : (Cblk.at m (C.pc k)).txfr_len = 1 := by
    rw [Chain.pc_of_lt hk, ← hlen]
    exact hin.len k hk
  have hsrc : (Cblk.at m (C.pc k)).src_addr = C.source m k := by
    rw [Chain.pc_of_lt hk]
    rfl
  have hlt : (Cblk.at m (C.pc k)).dst_addr < 2 ^ 32 := word_lt ..
  have hlts : (Cblk.at m (C.pc k)).src_addr < 2 ^ 32 := word_lt ..
  rw [hin.step_eq hk, transfer_one hlen' hlt hlts, hdst, hsrc]

/-- The block moves `n` bytes: byte `i` comes from `off i` behind the source and goes to
`dst i`. -/
structure Cblk.Moves (E : Engine) (c : Cblk) (n : Nat) (dst off : Nat → Nat) : Prop where
  count : c.rows * c.cols = n
  dstAt : ∀ i < n, c.dstAt i = dst i
  srcAt : ∀ s, (∀ i < n, s + off i < 2 ^ 32) →
    ∀ i < n, { c with src_addr := s }.srcAt E i = s + off i

/-- Only the register depends on the source address. -/
theorem srcAt_src (c : Cblk) (s k : Nat) : { c with src_addr := s }.srcAt E k =
    if c.ti.testBit 8 then
      advance s ((k / c.cols : Nat) * (c.cols + signed16 c.stride) + (k % c.cols : Nat))
    else advance s (E.draw (k % c.cols)) := rfl

theorem Cblk.Moves.transfer {c : Cblk} {n : Nat} {dst off : Nat → Nat} (h : c.Moves E n dst off)
    (hsrc : ∀ i < n, c.src_addr + off i < 2 ^ 32) :
    c.transfer E m = moves dst (fun i => c.src_addr + off i) n m := by
  rw [Cblk.transfer, h.count]
  exact moves_congr m h.dstAt (h.srcAt c.src_addr hsrc)

theorem moves_linear {c : Cblk} (hti : c.ti = INC) (hdst : c.dst_addr + c.txfr_len ≤ 2 ^ 32) :
    c.Moves E c.txfr_len (fun i => c.dst_addr + i) (fun i => i) := by
  obtain ⟨h1, h4, h8⟩ := testBit_INC
  have hcols : c.cols = c.txfr_len := by rw [Cblk.cols, Cblk.is2D, hti, h1]; rfl
  have hrows : c.rows = 1 := by rw [Cblk.rows, Cblk.is2D, hti, h1]; rfl
  refine ⟨by rw [hrows, hcols, Nat.one_mul], fun i hi => ?_, fun s hs i hi => ?_⟩
  · simp only [Cblk.dstAt, hti, h4, if_true, hcols, Nat.div_eq_of_lt hi, Nat.mod_eq_of_lt hi,
      Nat.cast_zero, zero_mul, zero_add]
    exact advance_nat (by omega)
  · rw [srcAt_src]
    simp only [hti, h8, if_true, hcols, Nat.div_eq_of_lt hi, Nat.mod_eq_of_lt hi,
      Nat.cast_zero, zero_mul, zero_add]
    exact advance_nat (hs i hi)

/-- A block that moves bytes in a row. -/
theorem Chain.In.step_linear (hin : C.In m) (hk : k < C.n) (hti : (C.f k).ti = INC)
    (hdst : (C.f k).dst_addr + (C.f k).txfr_len ≤ 2 ^ 32)
    (hsrc : C.source m k + (C.f k).txfr_len ≤ 2 ^ 32) :
    step E ⟨C.pc k, m⟩ = ⟨C.next k, moves (fun i => (C.f k).dst_addr + i)
      (fun i => C.source m k + i) (C.f k).txfr_len m⟩ := by
  by_cases hlen : (C.f k).txfr_len = 1
  · rw [hin.step_one hk hlen, hlen, moves_one]
    rfl
  · rw [hin.step_eq hk, hin.at_eq hk hlen]
    refine congrArg (Channel.mk _) ?_
    exact (moves_linear (c := { C.f k with src_addr := C.source m k, next_cb := C.next k })
      hti hdst).transfer fun i hi => by
        have hi' : i < (C.f k).txfr_len := hi
        show C.source m k + i < _
        omega

theorem moves_draw {c : Cblk} (hti : c.ti = TI_DST_INC) (hdst : c.dst_addr + c.txfr_len ≤ 2 ^ 32) :
    c.Moves E c.txfr_len (fun i => c.dst_addr + i) (fun i => E.draw i) := by
  obtain ⟨h1, h4, h8⟩ := testBit_DST_INC
  have hcols : c.cols = c.txfr_len := by rw [Cblk.cols, Cblk.is2D, hti, h1]; rfl
  have hrows : c.rows = 1 := by rw [Cblk.rows, Cblk.is2D, hti, h1]; rfl
  refine ⟨by rw [hrows, hcols, Nat.one_mul], fun i hi => ?_, fun s hs i hi => ?_⟩
  · simp only [Cblk.dstAt, hti, h4, if_true, hcols, Nat.div_eq_of_lt hi, Nat.mod_eq_of_lt hi,
      Nat.cast_zero, zero_mul, zero_add]
    exact advance_nat (by omega)
  · rw [srcAt_src]
    simp only [hti, h8, hcols, Nat.mod_eq_of_lt hi, Bool.false_eq_true, if_false]
    exact advance_nat (hs i hi)

/-- A block that moves bytes in a row and draws them from 16 bytes. -/
theorem Chain.In.step_draw (hin : C.In m) (hk : k < C.n) (hti : (C.f k).ti = TI_DST_INC)
    (hlen : (C.f k).txfr_len ≠ 1) (hdst : (C.f k).dst_addr + (C.f k).txfr_len ≤ 2 ^ 32)
    (hsrc : C.source m k + 16 ≤ 2 ^ 32) :
    step E ⟨C.pc k, m⟩ = ⟨C.next k, moves (fun i => (C.f k).dst_addr + i)
      (fun i => C.source m k + E.draw i) (C.f k).txfr_len m⟩ := by
  rw [hin.step_eq hk, hin.at_eq hk hlen]
  refine congrArg (Channel.mk _) ?_
  exact (moves_draw (c := { C.f k with src_addr := C.source m k, next_cb := C.next k })
    hti hdst).transfer fun i _ => by
      have hdraw := E.draw_lt i
      show C.source m k + E.draw i < _
      omega

/-! ## Two dimensions -/

theorem signed16_u16 {x : Int} (hx : -2 ^ 15 ≤ x ∧ x < 2 ^ 15) (a : Nat) :
    signed16 (2 ^ 16 * a + u16 x) = x := by
  have hval : ((2 ^ 16 * a + u16 x : Nat) : Int) = x + (65536 : Nat) * (a - x / 65536) := by
    unfold u16
    omega
  show Int.bmod ((2 ^ 16 * a + u16 x : Nat) : Int) 65536 = x
  rw [hval, Int.add_mul_bmod_self_left]
  exact Int.bmod_eq_of_le (by omega) (by omega)

/-- The two strides of a block, as the engine reads them. -/
theorem signed16_stride {d s : Int} (hd : -2 ^ 15 ≤ d ∧ d < 2 ^ 15) (hs : -2 ^ 15 ≤ s ∧ s < 2 ^ 15) :
    signed16 (stride (u16 d) (u16 s) / 2 ^ 16) = d ∧ signed16 (stride (u16 d) (u16 s)) = s := by
  have hu : u16 s < 2 ^ 16 := by
    unfold u16
    omega
  have hval : stride (u16 d) (u16 s) = 2 ^ 16 * u16 d + u16 s := by
    rw [stride, ← Nat.shiftLeft_add_eq_or_of_lt hu, Nat.shiftLeft_eq, Nat.mul_comm]
  have hhigh : (2 ^ 16 * u16 d + u16 s) / 2 ^ 16 = 2 ^ 16 * 0 + u16 d := by omega
  rw [hval]
  refine ⟨?_, signed16_u16 hs (u16 d)⟩
  rw [hhigh]
  exact signed16_u16 hd 0

theorem shape_2d {c : Cblk} (hti : c.ti.testBit 1 = true) {rows cols : Nat} (hrows : 1 ≤ rows)
    (hcols : cols < 2 ^ 16) (hlen : c.txfr_len = (rows - 1) * 2 ^ 16 + cols) :
    c.rows = rows ∧ c.cols = cols := by
  constructor
  · rw [Cblk.rows, Cblk.is2D, if_pos hti, hlen]
    omega
  · rw [Cblk.cols, Cblk.is2D, if_pos hti, hlen]
    omega

/-- Bytes in a row go to one address in each of the rows `D` apart. -/
theorem moves_scatter {c : Cblk} {rows D : Nat} (hti : c.ti = INC2D) (hrows : 1 ≤ rows)
    (hlen : c.txfr_len = (rows - 1) * 2 ^ 16 + 1)
    (hds : signed16 (c.stride / 2 ^ 16) + 1 = D) (hss : signed16 c.stride = 0)
    (hdst : ∀ i < rows, c.dst_addr + D * i < 2 ^ 32) :
    c.Moves E rows (fun i => c.dst_addr + D * i) (fun i => i) := by
  obtain ⟨h1, h4, h8⟩ := testBit_INC2D
  obtain ⟨hr, hc⟩ := shape_2d (hti ▸ h1) hrows (by decide) hlen
  refine ⟨by rw [hr, hc, Nat.mul_one], fun i hi => ?_, fun s hs i hi => ?_⟩
  · have hoff : ((i : Nat) : Int) * (((1 : Nat) : Int) + signed16 (c.stride / 2 ^ 16)) +
        ((0 : Nat) : Int) = ((D * i : Nat) : Int) := by
      rw [show ((1 : Nat) : Int) + signed16 (c.stride / 2 ^ 16) = D by omega]
      push_cast
      ring
    simp only [Cblk.dstAt, hti, h4, if_true, hc, Nat.div_one, Nat.mod_one, hoff]
    exact advance_nat (hdst i hi)
  · rw [srcAt_src]
    simp only [hti, h8, if_true, hc, Nat.div_one, Nat.mod_one, hss, Nat.cast_one,
      add_zero, mul_one, Nat.cast_zero]
    exact advance_nat (hs i hi)

/-- One byte is read again for each of the rows `D` apart. -/
theorem moves_spread {c : Cblk} {rows D : Nat} (hti : c.ti = NOINC2D) (hrows : 1 ≤ rows)
    (hlen : c.txfr_len = (rows - 1) * 2 ^ 16 + 1)
    (hds : signed16 (c.stride / 2 ^ 16) + 1 = D)
    (hdst : ∀ i < rows, c.dst_addr + D * i < 2 ^ 32) :
    c.Moves E rows (fun i => c.dst_addr + D * i) (fun _ => 0) := by
  obtain ⟨h1, h4, h8⟩ := testBit_NOINC2D
  obtain ⟨hr, hc⟩ := shape_2d (hti ▸ h1) hrows (by decide) hlen
  refine ⟨by rw [hr, hc, Nat.mul_one], fun i hi => ?_, fun s hs i hi => ?_⟩
  · have hoff : ((i : Nat) : Int) * (((1 : Nat) : Int) + signed16 (c.stride / 2 ^ 16)) +
        ((0 : Nat) : Int) = ((D * i : Nat) : Int) := by
      rw [show ((1 : Nat) : Int) + signed16 (c.stride / 2 ^ 16) = D by omega]
      push_cast
      ring
    simp only [Cblk.dstAt, hti, h4, if_true, hc, Nat.div_one, Nat.mod_one, hoff]
    exact advance_nat (hdst i hi)
  · rw [srcAt_src]
    simp only [hti, h8, hc, Nat.mod_one, E.draw_zero, Bool.false_eq_true, if_false]
    exact advance_zero (hs i hi)

/-- Neighbouring bytes go in pairs to rows 32 apart; the pairs overlap. -/
theorem moves_pairs {c : Cblk} {rows : Nat} (hti : c.ti = INC2D) (hrows : 1 ≤ rows)
    (hlen : c.txfr_len = (rows - 1) * 2 ^ 16 + 2)
    (hds : signed16 (c.stride / 2 ^ 16) = 30) (hss : signed16 c.stride = -1)
    (hdst : c.dst_addr + 32 * (rows - 1) + 1 < 2 ^ 32) :
    c.Moves E (rows * 2) (fun i => c.dst_addr + (32 * (i / 2) + i % 2))
      (fun i => i / 2 + i % 2) := by
  obtain ⟨h1, h4, h8⟩ := testBit_INC2D
  obtain ⟨hr, hc⟩ := shape_2d (hti ▸ h1) hrows (by decide) hlen
  refine ⟨by rw [hr, hc], fun i hi => ?_, fun s hs i hi => ?_⟩
  · have hoff : ((i / 2 : Nat) : Int) * (((2 : Nat) : Int) + 30) + ((i % 2 : Nat) : Int) =
        ((32 * (i / 2) + i % 2 : Nat) : Int) := by omega
    simp only [Cblk.dstAt, hti, h4, if_true, hc, hds, hoff]
    exact advance_nat (by omega)
  · have hoff : ((i / 2 : Nat) : Int) * (((2 : Nat) : Int) + -1) + ((i % 2 : Nat) : Int) =
        ((i / 2 + i % 2 : Nat) : Int) := by omega
    rw [srcAt_src]
    simp only [hti, h8, if_true, hc, hss, hoff]
    exact advance_nat (hs i hi)

theorem Chain.In.step_scatter (hin : C.In m) (hk : k < C.n) {rows D : Nat}
    (hti : (C.f k).ti = INC2D) (hrows : 1 ≤ rows)
    (hlen : (C.f k).txfr_len = (rows - 1) * 2 ^ 16 + 1)
    (hds : signed16 ((C.f k).stride / 2 ^ 16) + 1 = D) (hss : signed16 (C.f k).stride = 0)
    (hdst : ∀ i < rows, (C.f k).dst_addr + D * i < 2 ^ 32)
    (hsrc : C.source m k + rows ≤ 2 ^ 32) :
    step E ⟨C.pc k, m⟩ = ⟨C.next k,
      moves (fun i => (C.f k).dst_addr + D * i) (fun i => C.source m k + i) rows m⟩ := by
  rcases Nat.eq_or_lt_of_le hrows with rfl | hmany
  · rw [hin.step_one hk hlen, moves_one]
    rfl
  · rw [hin.step_eq hk, hin.at_eq hk (by omega)]
    refine congrArg (Channel.mk _) ?_
    exact (moves_scatter (c := { C.f k with src_addr := C.source m k, next_cb := C.next k })
      hti hrows hlen hds hss hdst).transfer fun i hi => by
        show C.source m k + i < _
        omega

theorem Chain.In.step_spread (hin : C.In m) (hk : k < C.n) {rows D : Nat}
    (hti : (C.f k).ti = NOINC2D) (hrows : 1 ≤ rows)
    (hlen : (C.f k).txfr_len = (rows - 1) * 2 ^ 16 + 1)
    (hds : signed16 ((C.f k).stride / 2 ^ 16) + 1 = D)
    (hdst : ∀ i < rows, (C.f k).dst_addr + D * i < 2 ^ 32) :
    step E ⟨C.pc k, m⟩ = ⟨C.next k,
      moves (fun i => (C.f k).dst_addr + D * i) (fun _ => C.source m k) rows m⟩ := by
  rcases Nat.eq_or_lt_of_le hrows with rfl | hmany
  · rw [hin.step_one hk hlen, moves_one]
    rfl
  · rw [hin.step_eq hk, hin.at_eq hk (by omega)]
    refine congrArg (Channel.mk _) ?_
    exact (moves_spread (c := { C.f k with src_addr := C.source m k, next_cb := C.next k })
      hti hrows hlen hds hdst).transfer fun _ _ => word_lt ..

theorem Chain.In.step_pairs (hin : C.In m) (hk : k < C.n) {rows : Nat}
    (hti : (C.f k).ti = INC2D) (hrows : 1 ≤ rows)
    (hlen : (C.f k).txfr_len = (rows - 1) * 2 ^ 16 + 2)
    (hds : signed16 ((C.f k).stride / 2 ^ 16) = 30) (hss : signed16 (C.f k).stride = -1)
    (hdst : (C.f k).dst_addr + 32 * (rows - 1) + 1 < 2 ^ 32)
    (hsrc : C.source m k + rows < 2 ^ 32) :
    step E ⟨C.pc k, m⟩ = ⟨C.next k, moves (fun i => (C.f k).dst_addr + (32 * (i / 2) + i % 2))
      (fun i => C.source m k + (i / 2 + i % 2)) (rows * 2) m⟩ := by
  rw [hin.step_eq hk, hin.at_eq hk (by omega)]
  refine congrArg (Channel.mk _) ?_
  exact (moves_pairs (c := { C.f k with src_addr := C.source m k, next_cb := C.next k })
    hti hrows hlen hds hss hdst).transfer fun i hi => by
      show C.source m k + (i / 2 + i % 2) < _
      omega

end Bcm2835.Dma

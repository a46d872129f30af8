import Bcm2835.Dma.ShiftChains
import Bcm2835.Dma.Start

/-!
# Logical shifts

`Sll` is right for every width it takes, operand, count and content of its buffer.
`Srl` reads the bytes it shifts in from the upper half of its buffer, and only the
lower half is ever written: it is right where that half happens to be zero.
-/

namespace Bcm2835.Dma

open Mem Digits EmitCtx

/-! ## Counts -/

/-- A count modulo the width is so many bytes and so many bits. -/
theorem two_pow_count (c w : Nat) : (2 : Int) ^ (c % (8 * w)) = 2 ^ (c % 8) * 256 ^ (c / 8 % w) := by
  rw [Nat.mod_mul, pow_add, pow_mul]
  norm_num

theorem bytes_lt (c : Nat) {w : Nat} (hw : 2 ≤ w) : c / 8 % w < w := Nat.mod_lt _ (by omega)

/-! ## Tables -/

/-- The tables of `Sll`. -/
def Layout.sllTables (L : Layout) : List Region :=
  [L.hyper, onBus L.SLL_HYPER_SELECT (2 ^ 8), onBus L.ZERO (2 ^ 8)]

/-- The tables of `Srl`, with the zeros it copies. -/
def Layout.srlTables (L : Layout) : List Region :=
  [L.hyper, onBus L.SRL_HYPER_SELECT (2 ^ 8), onBus L.ZERO (2 ^ 8)]

theorem onBus_fits {array size : Nat} (h : array + size ≤ ARM_DRAM_END) :
    (onBus array size).start + (onBus array size).size ≤ 2 ^ 32 := by
  have hdram : ARM_DRAM_END + BUS_DRAM_BASE ≤ 2 ^ 32 := by decide
  show array + BUS_DRAM_BASE + size ≤ 2 ^ 32
  omega

theorem Layout.sllTables_fits (L : Layout) : ∀ t ∈ L.sllTables, t.start + t.size ≤ 2 ^ 32 := by
  intro t ht
  simp only [sllTables, List.mem_cons, List.not_mem_nil, or_false] at ht
  rcases ht with rfl | rfl | rfl
  · exact onBus_fits (L.in_dram ⟨L.HYPER, 2 ^ 24⟩ (by simp))
  · exact onBus_fits (L.in_dram ⟨L.SLL_HYPER_SELECT, 2 ^ 8⟩ (by simp))
  · exact onBus_fits (L.in_dram ⟨L.ZERO, 2 ^ 8⟩ (by simp))

theorem Layout.srlTables_fits (L : Layout) : ∀ t ∈ L.srlTables, t.start + t.size ≤ 2 ^ 32 := by
  intro t ht
  simp only [srlTables, List.mem_cons, List.not_mem_nil, or_false] at ht
  rcases ht with rfl | rfl | rfl
  · exact onBus_fits (L.in_dram ⟨L.HYPER, 2 ^ 24⟩ (by simp))
  · exact onBus_fits (L.in_dram ⟨L.SRL_HYPER_SELECT, 2 ^ 8⟩ (by simp))
  · exact onBus_fits (L.in_dram ⟨L.ZERO, 2 ^ 8⟩ (by simp))

/-- Where the result and the operands of a shift of `n` blocks may be: the arena is
clear of the operands and of the tables, and the result keeps clear of the arena, too. -/
structure ShiftPlacement (h : Host) (tables : List Region) (n w ret inp shf8 : Nat) : Prop where
  place : Placement ⟨h.ctx.label, 32 * n⟩ (h.free :: tables) ⟨ret, w⟩ [⟨inp, w⟩, ⟨shf8, 1⟩]
  free : ∀ t ∈ (⟨inp, w⟩ :: ⟨shf8, 1⟩ :: tables : List Region), t.Apart h.free

instance (h : Host) (tables : List Region) (n w ret inp shf8 : Nat) :
    Decidable (ShiftPlacement h tables n w ret inp shf8) :=
  decidable_of_iff (_ ∧ _) ⟨fun ⟨h1, h2⟩ => ⟨h1, h2⟩, fun h => ⟨h.place, h.free⟩⟩

/-- The tables and the row of bytes that the call of the shift has stored. -/
def ShiftReady (h h' : Host) (ws : List (Nat × UInt8)) (m : Memory) : Prop :=
  Has m ws ∧ ∀ a, h.shiftTable.Mem a → m a = h'.mem a

theorem ShiftReady.congr {h h' : Host} {ws : List (Nat × UInt8)} {tables : List Region} {m m' : Memory}
    (hready : ShiftReady h h' ws m) (hws : ∀ x ∈ ws, Region.Any tables x.1)
    (hsame : ∀ a, Region.Any (h.shiftTable :: tables) a → m' a = m a) : ShiftReady h h' ws m' := by
  refine ⟨hready.1.congr fun x hx => hsame x.1 ?_, fun a ha => ?_⟩
  · obtain ⟨r, hr, hra⟩ := hws x hx
    exact ⟨r, List.mem_cons_of_mem _ hr, hra⟩
  · rw [hsame a ⟨_, List.mem_cons_self, ha⟩, hready.2 a ha]

theorem ShiftReady.of_row {h h' : Host} {ws : List (Nat × UInt8)} {m : Memory} {f : Nat → Nat}
    (hhas : Has m ws) (hrow : ∀ k < 256, h'.mem (h.shiftTable.start + k) = .ofNat (f k))
    (hbytes : ∀ k < 256, m (h.shiftTable.start + k) = .ofNat (f k)) : ShiftReady h h' ws m := by
  refine ⟨hhas, fun a ⟨hlo, hhi⟩ => ?_⟩
  obtain ⟨k, rfl⟩ := Nat.exists_eq_add_of_le hlo
  have hk : k < 256 := Nat.lt_of_add_lt_add_left hhi
  rw [hrow k hk, hbytes k hk]

/-- The row of bytes a call stores. -/
theorem ShiftBuffers.entry_at {h h' : Host} {f : Nat → Nat} {w select tmp n r : Nat}
    (hb : ShiftBuffers h h' w f select tmp n r) (k : Nat) (hk : k < 256) :
    h'.mem (h.shiftTable.start + k) = .ofNat (f k) := by
  show h'.mem (h.arena.next 256 + BUS_DRAM_BASE + k) = _
  rw [← hb.select_eq]
  exact hb.entry k hk

/-- The entry for a count. -/
theorem ShiftReady.select {h h' : Host} {ws : List (Nat × UInt8)} {m : Memory} {f : Nat → Nat}
    {w select tmp n r : Nat} (hready : ShiftReady h h' ws m)
    (hb : ShiftBuffers h h' w f select tmp n r) {c : Nat} (hc : c < 256) (hf : f c < 256) :
    (m (select + BUS_DRAM_BASE + c)).toNat = f c := by
  have hin : h.shiftTable.Mem (select + BUS_DRAM_BASE + c) := by
    rw [hb.select_eq]
    exact ⟨Nat.le_add_right .., Nat.add_lt_add_left hc _⟩
  rw [hready.2 _ hin, hb.entry c hc, UInt8.toNat_ofNat', Nat.mod_eq_of_lt hf]

/-! ## Bits -/

section Bits

variable {P : ShiftPlace} {m : Memory}

/-- The digits of the operand. -/
theorem idigit_num (m : Memory) (inp : Nat) {w i : Nat} (hi : i < w) :
    idigit (num m inp w) i = (m (inp + i)).toNat := by
  rw [idigit_natCast, num, digit_value _ hi]

theorem idigit_num_of_le (m : Memory) (inp : Nat) {w i : Nat} (hi : w ≤ i) :
    idigit (num m inp w) i = 0 := by
  rw [idigit_natCast, num, digit_value_of_le _ hi]
  rfl

/-- What `HYPER` has for a lookup of `Sll`. -/
theorem sll_lookup {s i : Nat} (hi : i < P.w) (hs : s < 8)
    (hrow : ∀ x < 2 ^ 16, ∀ s < 8, (m (P.table + (x * 256 + HYPER_SLL + s))).toNat = x <<< s >>> 8 % 256) :
    ((m (P.lookupSrc m P.inp 2 (HYPER_SLL + s) i)).toNat : Int) =
      idigit ((num m P.inp P.w : Int) * 2 ^ s) i := by
  have h0 := (m (P.inp + (i - 1))).toNat_lt
  have h1 := (m (P.inp + i)).toNat_lt
  have hval : ∀ x, x <<< s >>> 8 % 256 = x * 2 ^ s / 256 % 256 := fun x => by
    rw [Nat.shiftLeft_eq, Nat.shiftRight_eq_div_pow]
  rw [idigit_shiftLeft _ (by omega), idigit_num m P.inp hi]
  rcases Nat.eq_zero_or_pos i with rfl | hpos
  · have hat : P.lookupSrc m P.inp 2 (HYPER_SLL + s) 0 =
        P.table + ((m P.inp).toNat * 256 * 256 + HYPER_SLL + s) := by
      rw [ShiftPlace.lookupSrc, if_pos rfl]
      omega
    rw [Nat.add_zero] at h1
    rw [hat, hrow _ (by omega) s hs, hval, if_pos rfl, Nat.add_zero, Nat.mul_comm (m P.inp).toNat 256]
    push_cast
    rw [zero_add]
  · have hat : P.lookupSrc m P.inp 2 (HYPER_SLL + s) i = P.table +
        (((m (P.inp + (i - 1))).toNat + 256 * (m (P.inp + i)).toNat) * 256 + HYPER_SLL + s) := by
      rw [ShiftPlace.lookupSrc, if_neg (by omega)]
      omega
    rw [hat, hrow _ (by omega) s hs, hval, if_neg (by omega), idigit_num m P.inp (by omega)]
    push_cast
    rfl

/-- What `HYPER` has for a lookup of `Srl` or `Sra`, but for the highest byte. -/
theorem srl_lookup {edge b s j : Nat} {X : Int} (hj : j + 1 < P.w) (hs : s < 8)
    (hX : ∀ i < P.w, idigit X i = (m (P.inp + i)).toNat)
    (hrow : ∀ x < 2 ^ 16, ∀ s < 8, (m (P.table + (x * 256 + HYPER_SRL + s))).toNat = x >>> s % 256) :
    ((m (P.lookupSrc m edge b (HYPER_SRL + s) (j + 1))).toNat : Int) = idigit (X / 2 ^ s) j := by
  have h0 := (m (P.inp + j)).toNat_lt
  have h1 := (m (P.inp + (j + 1))).toNat_lt
  have hat : P.lookupSrc m edge b (HYPER_SRL + s) (j + 1) = P.table +
      (((m (P.inp + j)).toNat + 256 * (m (P.inp + (j + 1))).toNat) * 256 + HYPER_SRL + s) := by
    rw [ShiftPlace.lookupSrc, if_neg (by omega), Nat.add_sub_cancel]
    omega
  rw [idigit_shift _ (by omega), hX j (by omega), hX (j + 1) hj, hat, hrow _ (by omega) s hs,
    Nat.shiftRight_eq_div_pow]
  push_cast
  rfl

/-- The highest byte of `Srl`. -/
theorem srl_lookup_top {s : Nat} (hw : 2 ≤ P.w) (hs : s < 8)
    (hrow : ∀ x < 2 ^ 16, ∀ s < 8, (m (P.table + (x * 256 + HYPER_SRL + s))).toNat = x >>> s % 256) :
    ((m (P.lookupSrc m (P.inp + (P.w - 1)) 1 (HYPER_SRL + s) 0)).toNat : Int) =
      idigit ((num m P.inp P.w : Int) / 2 ^ s) (P.w - 1) := by
  have h0 := (m (P.inp + (P.w - 1))).toNat_lt
  have hat : P.lookupSrc m (P.inp + (P.w - 1)) 1 (HYPER_SRL + s) 0 =
      P.table + ((m (P.inp + (P.w - 1))).toNat * 256 + HYPER_SRL + s) := by
    rw [ShiftPlace.lookupSrc, if_pos rfl]
    omega
  rw [idigit_shift _ (by omega), idigit_num m P.inp (by omega), idigit_num_of_le m P.inp (by omega),
    hat, hrow _ (by omega) s hs, Nat.shiftRight_eq_div_pow, mul_zero, add_zero]
  push_cast
  rfl

theorem idigit_num_shift_of_le (m : Memory) (inp : Nat) {w i s : Nat} (hs : s < 8) (hi : w ≤ i) :
    idigit ((num m inp w : Int) / 2 ^ s) i = 0 := by
  rw [idigit_shift _ (by omega), idigit_num_of_le m inp hi, idigit_num_of_le m inp (by omega)]
  simp

theorem lookupDst_sll (buf : Nat) (i : Nat) : ShiftPlace.lookupDst buf 0 1 i = buf + i := by
  rw [ShiftPlace.lookupDst]
  split <;> omega

theorem lookupDst_srl_zero (buf w : Nat) : ShiftPlace.lookupDst buf (w - 1) 0 0 = buf + (w - 1) :=
  congrArg (buf + ·) (if_pos rfl)

theorem lookupDst_srl_succ (buf w j : Nat) : ShiftPlace.lookupDst buf (w - 1) 0 (j + 1) = buf + j := by
  rw [ShiftPlace.lookupDst, if_neg (by omega), Nat.zero_add, Nat.add_sub_cancel]

/-- Where the lookups of `Srl` and `Sra` go, all of it in the lower half of the buffer. -/
theorem lookupDst_srl_lt (buf : Nat) {w i : Nat} (hi : i < w) :
    ∃ k < w, ShiftPlace.lookupDst buf (w - 1) 0 i = buf + k := by
  rcases Nat.eq_zero_or_pos i with rfl | hpos
  · exact ⟨w - 1, by omega, lookupDst_srl_zero buf w⟩
  · obtain ⟨j, rfl⟩ : ∃ j, i = j + 1 := ⟨i - 1, by omega⟩
    exact ⟨j, by omega, lookupDst_srl_succ buf w j⟩

theorem lookupDst_srl_inj (buf : Nat) {w i j : Nat} (hi : i < w) (hj : j < w)
    (h : ShiftPlace.lookupDst buf (w - 1) 0 i = ShiftPlace.lookupDst buf (w - 1) 0 j) : i = j := by
  simp only [ShiftPlace.lookupDst] at h
  split at h <;> split at h <;> omega

end Bits

/-! ## Runs -/

section Runs

variable {E : Engine} {C : Chain} {P : ShiftPlace} {tables : List Region} {m : Memory} {zeros : Nat}

/-- One run of `Sll`. -/
theorem sll_run (hc : Logical C P zeros P.inp 2 (ShiftPlace.lookupDst (P.tmp + P.w) 0 1))
    (hzeros : (⟨zeros, 2 ^ 8⟩ : Region) ∈ tables) (h : P.Apart C tables) (hin : C.In m)
    (hrow : ∀ x < 2 ^ 16, ∀ s < 8, (m (P.table + (x * 256 + HYPER_SLL + s))).toNat = x <<< s >>> 8 % 256)
    (hsel : ∀ c < 256, (m (P.row + c)).toNat = HYPER_SLL + c % 8)
    (hzero : ∀ k < 256, m (zeros + k) = 0)
    (hselect : ∀ c < 256, (m (P.select + c)).toNat = P.w - c / 8 % P.w) :
    ∃ m', after E C.n ⟨C.z, m⟩ = ⟨C.exit, m'⟩ ∧ C.In m' ∧ P.Leaves C m m' ∧
      num m' P.ret P.w = num m P.inp P.w * 2 ^ ((m P.shf8).toNat % (8 * P.w)) % 256 ^ P.w := by
  have hw := h.w_ge
  have hw' := h.w_le
  have hc256 : (m P.shf8).toNat < 256 := (m P.shf8).toNat_lt
  generalize hcount : (m P.shf8).toNat = c at hc256 ⊢
  have hk := bytes_lt c hw
  have hs : c % 8 < 8 := Nat.mod_lt _ (by decide)
  have hdst : ∀ i, ShiftPlace.lookupDst (P.tmp + P.w) 0 1 i = P.tmp + P.w + i :=
    lookupDst_sll (P.tmp + P.w)
  have hedge : (⟨P.inp, P.w⟩ : Region).Mem P.inp := 
    ⟨Nat.le_refl _, Nat.lt_add_of_pos_right (show 0 < P.w by omega)⟩
  have hsel' : (m (P.row + (m P.shf8).toNat)).toNat = HYPER_SLL + c % 8 := by
    rw [hcount, hsel c hc256]
  have hselect' : (m (P.select + (m P.shf8).toNat)).toNat = P.w - c / 8 % P.w := by
    rw [hcount, hselect c hc256]
  obtain ⟨m₁, m', hrun, hin', hret, hleaves, hbits, hclear, _⟩ := hc.finish (E := E) hzeros h (.inr rfl)
    hedge hin
    (fun i hi => ⟨P.w + i, by omega, by rw [hdst, Nat.add_assoc]⟩)
    (fun i _ j _ heq => by rw [hdst, hdst] at heq; omega) hsel' hselect' (Nat.sub_le ..)
  refine ⟨m', hrun, hin', hleaves, ?_⟩
  -- digit by digit: zeros from below, then the bits
  have hdigit : ∀ i < P.w, ((m' (P.ret + i)).toNat : Int) =
      idigit ((num m P.inp P.w : Int) * 2 ^ (c % 8) * 256 ^ (c / 8 % P.w)) i := by
    intro i hi
    rw [hret i hi, idigit_mul_pow]
    split
    · next hlow =>
        have hat : P.tmp + (P.w - c / 8 % P.w) + i = P.tmp + (P.w - c / 8 % P.w + i) := by omega
        rw [hat, hclear _ (by omega) fun k _ => by rw [hdst]; omega, hzero _ (by omega)]
        rfl
    · next hhigh =>
        have hat : P.tmp + (P.w - c / 8 % P.w) + i =
            ShiftPlace.lookupDst (P.tmp + P.w) 0 1 (i - c / 8 % P.w) := by
          rw [hdst]
          omega
        rw [hat, hbits _ (by omega)]
        exact sll_lookup (by omega) hs hrow
  have hnum : (num m' P.ret P.w : Int) = _ := value_of_idigits hdigit
  rw [mul_assoc, ← two_pow_count] at hnum
  exact_mod_cast hnum

/-- One run of `Srl`: the bytes from the upper half of the buffer should be zero. -/
theorem srl_run (hc : Logical C P zeros (P.inp + (P.w - 1)) 1 (ShiftPlace.lookupDst P.tmp (P.w - 1) 0))
    (hzeros : (⟨zeros, 2 ^ 8⟩ : Region) ∈ tables) (h : P.Apart C tables) (hin : C.In m)
    (hrow : ∀ x < 2 ^ 16, ∀ s < 8, (m (P.table + (x * 256 + HYPER_SRL + s))).toNat = x >>> s % 256)
    (hsel : ∀ c < 256, (m (P.row + c)).toNat = HYPER_SRL + c % 8)
    (hselect : ∀ c < 256, (m (P.select + c)).toNat = c / 8 % P.w) :
    ∃ m', after E C.n ⟨C.z, m⟩ = ⟨C.exit, m'⟩ ∧ C.In m' ∧ P.Leaves C m m' ∧
      (num m' P.ret P.w = num m P.inp P.w / 2 ^ ((m P.shf8).toNat % (8 * P.w)) ↔
        ∀ i < (m P.shf8).toNat / 8 % P.w, m (P.tmp + P.w + i) = 0) := by
  have hw := h.w_ge
  have hw' := h.w_le
  have hc256 : (m P.shf8).toNat < 256 := (m P.shf8).toNat_lt
  generalize hcount : (m P.shf8).toNat = c at hc256 ⊢
  have hk := bytes_lt c hw
  have hs : c % 8 < 8 := Nat.mod_lt _ (by decide)
  have hedge : (⟨P.inp, P.w⟩ : Region).Mem (P.inp + (P.w - 1)) :=
    ⟨Nat.le_add_right .., Nat.add_lt_add_left (show P.w - 1 < P.w by omega) _⟩
  have hsel' : (m (P.row + (m P.shf8).toNat)).toNat = HYPER_SRL + c % 8 := by
    rw [hcount, hsel c hc256]
  have hselect' : (m (P.select + (m P.shf8).toNat)).toNat = c / 8 % P.w := by
    rw [hcount, hselect c hc256]
  obtain ⟨m₁, m', hrun, hin', hret, hleaves, hbits, _, hupper⟩ := hc.finish (E := E) hzeros h (.inl rfl)
    hedge hin
    (fun i hi => by
      obtain ⟨k, hk, hdk⟩ := lookupDst_srl_lt P.tmp hi
      exact ⟨k, by omega, hdk⟩)
    (fun i hi j hj heq => lookupDst_srl_inj P.tmp hi hj heq) hsel' hselect' (Nat.le_of_lt hk)
  refine ⟨m', hrun, hin', hleaves, ?_⟩
  -- the buffer: the bits, and whatever was behind them
  have hlow : ∀ j < P.w, ((m₁ (P.tmp + j)).toNat : Int) =
      idigit ((num m P.inp P.w : Int) / 2 ^ (c % 8)) j := by
    intro j hj
    rcases Nat.lt_or_ge (j + 1) P.w with hlt | hge
    · rw [← lookupDst_srl_succ P.tmp P.w j, hbits (j + 1) hlt]
      exact srl_lookup hlt hs (fun i hi => idigit_num m P.inp hi) hrow
    · obtain rfl : j = P.w - 1 := by omega
      rw [← lookupDst_srl_zero P.tmp P.w, hbits 0 (by omega)]
      exact srl_lookup_top hw hs hrow
  have hhigh : ∀ i < P.w, m₁ (P.tmp + P.w + i) = m (P.tmp + P.w + i) := by
    intro i hi
    refine hupper i hi fun k hk => ?_
    obtain ⟨j, hj, hdj⟩ := lookupDst_srl_lt P.tmp hk
    omega
  have hquot : ((num m P.inp P.w / 2 ^ (c % (8 * P.w)) : Nat) : Int) =
      (num m P.inp P.w : Int) / 2 ^ (c % 8) / 256 ^ (c / 8 % P.w) := by
    push_cast
    rw [two_pow_count, Int.ediv_ediv_of_nonneg (by positivity)]
  have hdigit : ∀ i, idigit ((num m P.inp P.w / 2 ^ (c % (8 * P.w)) : Nat) : Int) i =
      idigit ((num m P.inp P.w : Int) / 2 ^ (c % 8)) (c / 8 % P.w + i) := by
    intro i
    rw [hquot, idigit_div_pow]
  constructor
  · intro heq i hi
    -- digit `w - k + i` of the result is byte `w + i` of the buffer
    have hat : P.tmp + c / 8 % P.w + (P.w - c / 8 % P.w + i) = P.tmp + P.w + i := by omega
    have hbyte : ((m' (P.ret + (P.w - c / 8 % P.w + i))).toNat : Int) = 0 := by
      rw [← idigit_num m' P.ret (show P.w - c / 8 % P.w + i < P.w by omega), heq, hdigit]
      exact idigit_num_shift_of_le m P.inp hs (by omega)
    rw [hret _ (by omega), hat, hhigh i (by omega)] at hbyte
    exact UInt8.toNat_inj.mp (Int.ofNat.inj hbyte)
  · intro hzero
    have hall : ∀ i < P.w, ((m' (P.ret + i)).toNat : Int) =
        idigit ((num m P.inp P.w / 2 ^ (c % (8 * P.w)) : Nat) : Int) i := by
      intro i hi
      rw [hret i hi, hdigit]
      rcases Nat.lt_or_ge (c / 8 % P.w + i) P.w with hin | hout
      · rw [Nat.add_assoc]
        exact hlow _ hin
      · have hat : P.tmp + c / 8 % P.w + i = P.tmp + P.w + (c / 8 % P.w + i - P.w) := by omega
        rw [idigit_num_shift_of_le m P.inp hs hout, hat, hhigh _ (by omega), hzero _ (by omega)]
        rfl
    have hnum : (num m' P.ret P.w : Int) = _ := value_of_idigits hall
    have hlt : num m P.inp P.w / 2 ^ (c % (8 * P.w)) < 256 ^ P.w :=
      Nat.lt_of_le_of_lt (Nat.div_le_self ..) (value_lt _ _)
    have hmod : (num m' P.ret P.w : Int) =
        ((num m P.inp P.w / 2 ^ (c % (8 * P.w)) % 256 ^ P.w : Nat) : Int) := by
      rw [hnum]
      push_cast
      rfl
    rw [Nat.mod_eq_of_lt hlt] at hmod
    exact Int.ofNat.inj hmod

end Runs

/-! ## Calls -/

section Calls

variable (L : Layout) {h h' : Host} {w n r N ret inp shf8 select tmp : Nat} {f : Nat → Nat}
  {tables : List Region} (row : Nat)

/-- What a shift relies on between its runs are ranges it reads and does not write. -/
theorem ShiftBuffers.kept (hb : ShiftBuffers h h' w f select tmp n r)
    (hp : ShiftPlacement h tables N w ret inp shf8) :
    ∀ t ∈ h.shiftTable :: tables, t ∈ (shiftPlace L h row w ret inp shf8 select tmp).others tables ∧
      Region.Apart ⟨ret, w⟩ t := by
  intro t ht
  rcases List.mem_cons.mp ht with rfl | ht
  · have htable : h.shiftTable = ⟨select + BUS_DRAM_BASE, 2 ^ 8⟩ := by
      rw [hb.select_eq]
      rfl
    refine ⟨?_, (hb.table_within.apart (hp.place.ret_tables h.free List.mem_cons_self).symm).symm⟩
    rw [htable]
    exact ShiftPlace.select_mem _
  · exact ⟨List.mem_append_right _ ht, hp.place.ret_tables t (List.mem_cons_of_mem _ ht)⟩

/-- The stores of a shift's initializer are in its tables. -/
theorem mem_shift_tables {L : Layout} {row : Nat} {s : Nat → Nat → Nat} (hrow : row + 8 ≤ 256) (hhyper : L.hyper ∈ tables)
    (hsel : onBus select (2 ^ 8) ∈ tables) {x : Nat × UInt8} (hx : x ∈ init_shift L row select s) :
    Region.Any tables x.1 := by
  rcases mem_init_shift hrow hx with hin | hin
  · exact ⟨_, hhyper, hin⟩
  · exact ⟨_, hsel, hin⟩

end Calls

/-- `Sll` shifts to the left, modulo the width, on every run of the chain, whatever its
buffer holds and wherever the result is. -/
theorem sll_computes (E : Engine) (L : Layout) {h : Host} {w ret inp shf8 : Nat} (hs : h.Sound)
    (hmono : h.MonoRoom 2) (hw : 2 ≤ w) (hw' : w ≤ 127)
    (harena : h.arena.Room (255 + 2 * w + 255 + 256)) (hroom : h.ctx.Room (w + 8))
    (hp : ShiftPlacement h L.sllTables (w + 8) w ret inp shf8) :
    ∃ h', Sll L h w ret inp shf8 = some h' ∧
      (∀ k < 256, h'.mem (h.shiftTable.start + k) = .ofNat (w - k / 8 % w)) ∧
      Computes E h.ctx (some h'.ctx) (Region.Any (h.shiftTable :: L.sllTables))
        (fun m => ShiftReady h h' (init_sll L) m ∧ ∀ k < 256, m (L.ZERO + BUS_DRAM_BASE + k) = 0)
        (fun m m' => num m' ret w =
          num m inp w * 2 ^ ((m shf8).toNat % (8 * w)) % 256 ^ w) := by
  have hlabel := hroom.label_lt
  have hpos : 0 < h.ctx.label := by
    show 0 < h.ctx.p + BUS_DRAM_BASE
    exact Nat.add_pos_right _ (by decide)
  have hfits : h.ctx.label + 32 * (w + 8) ≤ 2 ^ 32 := by omega
  have hsel : L.SLL_HYPER_SELECT + 2 ^ 8 ≤ ARM_DRAM_END :=
    L.in_dram ⟨L.SLL_HYPER_SELECT, 2 ^ 8⟩ (by simp)
  rw [← Nat.zero_add (255 + 2 * w + 255 + 256)] at harena
  obtain ⟨select, tmp, h', hcall, hb, hctx⟩ := logicalShift_eq (n := 0) (r := 0) L hs hmono hw hw'
    (by simpa only [Nat.add_assoc] using harena) hroom 0 w L.SLL_HYPER_SELECT 2 0 1 inp ret inp shf8
    (fun i => w - i / 8 % w) (Sll8 L) (fun _ _ => rfl) (Nat.le_refl w) hsel (by decide) (by omega)
    (by decide)
  have hzero : (⟨L.ZERO + BUS_DRAM_BASE, 2 ^ 8⟩ : Region) ∈ L.sllTables :=
    List.mem_cons_of_mem _ (List.mem_cons_of_mem _ List.mem_cons_self)
  have hrow : onBus L.SLL_HYPER_SELECT (2 ^ 8) ∈ L.sllTables :=
    List.mem_cons_of_mem _ List.mem_cons_self
  have hbytes : ∀ c, w - c / 8 % w < 256 := fun c => by omega
  refine ⟨h', hcall, hb.entry_at, ?_⟩
  have hapart : (shiftPlace L h L.SLL_HYPER_SELECT w ret inp shf8 select tmp).Apart
      ((shiftPlace L h L.SLL_HYPER_SELECT w ret inp shf8 select tmp).logicalChain
        (L.ZERO + BUS_DRAM_BASE) inp 2 (ShiftPlace.lookupDst (tmp + BUS_DRAM_BASE + w) 0 1) 0 hpos
        hfits) L.sllTables :=
    hb.apart hw hw' rfl rfl L.sll_select_aligned List.mem_cons_self hrow L.sllTables_fits hp.place hp.free
  have hkept := hb.kept L L.SLL_HYPER_SELECT hp
  refine hapart.computes hroom rfl rfl (Nat.succ_pos _) (congrArg some hctx) (fun t ht => (hkept t ht).1)
    (fun t ht => (hkept t ht).2) ?_ ?_
  · intro m m' hsame ⟨hready, hz⟩
    refine ⟨hready.congr (fun x hx => mem_shift_tables (by decide) List.mem_cons_self hrow hx) hsame,
      fun k hk => ?_⟩
    rw [hsame _ ⟨_, List.mem_cons_of_mem _ hzero, Nat.le_add_right .., Nat.add_lt_add_left hk _⟩, hz k hk]
  · intro m hin ⟨hready, hz⟩
    exact sll_run ShiftPlace.logicalChain_logical hzero hapart hin
      (fun x hx s hs => hready.1.shift_row (by decide) hx hs)
      (fun c hc => hready.1.shift_select (by decide) hc) hz
      (fun c hc => hready.select hb hc (hbytes c))

/-- A row of 256 bytes at `a`. -/
def storedRow (a : Nat) (f : Nat → Nat) : List (Nat × UInt8) :=
  (List.range 256).map fun k => (a + k, .ofNat (f k))

theorem stores_row (m : Memory) (ws : List (Nat × UInt8)) (a : Nat) (f : Nat → Nat) {k : Nat}
    (hk : k < 256) : stores m (ws ++ storedRow a f) (a + k) = .ofNat (f k) := by
  have hrow : ∀ w ∈ storedRow a f, w.2 = UInt8.ofNat (f (w.1 - a)) := by
    intro w hw
    obtain ⟨i, _, rfl⟩ := List.mem_map.mp hw
    show UInt8.ofNat (f i) = UInt8.ofNat (f (a + i - a))
    rw [Nat.add_sub_cancel_left]
  have happend : stores m (ws ++ storedRow a f) = stores (stores m ws) (storedRow a f) :=
    List.foldl_append
  rw [happend]
  exact stores_has (g := fun x => .ofNat (f (x - a))) hrow _ (a + k, .ofNat (f k)) (List.mem_map.mpr ⟨k, List.mem_range.mpr hk, rfl⟩)

/-- The first run of a shift loaded over the tables, some data and its row of bytes. -/
theorem Computes.on_row {E : Engine} {start : EmitCtx} {emitted : Option EmitCtx}
    {keep : Nat → Prop} {ready : Memory → Prop} {post : Memory → Memory → Prop}
    (h : Computes E start emitted keep ready post) (L : Layout) (data : List (Nat × UInt8)) (a : Nat)
    (f : Nat → Nat) (n : Nat)
    (hready : ∀ m, Filled L m → (∀ k < 256, m (a + k) = .ofNat (f k)) → ready m)
    (hp : (closed emitted).p = start.p + 32 * n)
    (hfits : ∀ k < n, ((closed emitted).blk (start.p + 32 * k)).Fits)
    (hcode : ∀ r ∈ L.regions, r.Apart ⟨start.label, (closed emitted).p - start.p⟩)
    (hrow : Region.Apart ⟨a, 256⟩ ⟨start.label, (closed emitted).p - start.p⟩)
    (hdata : ∀ r ∈ L.regions, ∀ w ∈ data ++ storedRow a f, r.Apart ⟨w.1, 1⟩) :
    ∃ m', Halts E (program L start emitted (data ++ storedRow a f)) start.label m' ∧
      post (program L start emitted (data ++ storedRow a f)) m' := by
  refine h.once (load_loaded hp hfits _) (hready _ (load_filled L hcode hdata) fun k hk => ?_)
  have hout : a + 256 ≤ start.p + BUS_DRAM_BASE ∨
      start.p + BUS_DRAM_BASE + ((closed emitted).p - start.p) ≤ a := hrow
  exact (load_of_apart (by omega) _).trans (stores_row _ data a f hk)

/-- An operand of two bytes, 0x01ff, and the count 9. -/
def sampleShift : List (Nat × UInt8) := [(0x40200000, 0xff), (0x40200001, 0x01), (0x40200010, 9)]

theorem Host.sample_room {n : Nat} (hn : n < 4096) : Host.sample.arena.Room n where
  start_le := Nat.le_refl _
  fits := by
    show 0x300000 + n < 0x301000
    omega
  in_dram := by decide
  above := by decide

/-- 0x01ff << 9 = 0xfe00 modulo the width, in the place of the operand. -/
theorem sll_computes_sample : ∃ m', Halts Engine.sample
    (program Layout.sample EmitCtx.sample
      ((Sll Layout.sample Host.sample 2 0x40200000 0x40200000 0x40200010).map (·.ctx))
      (sampleShift ++ storedRow 0x40300000 fun k => 2 - k / 8 % 2))
    EmitCtx.sample.label m' ∧ num m' 0x40200000 2 = 0xfe00 := by
  obtain ⟨h', hcall, hrow, h⟩ := @sll_computes Engine.sample Layout.sample Host.sample 2 0x40200000
    0x40200000 0x40200010 (.start rfl) ⟨by decide, by decide⟩ (by decide) (by decide)
    (Host.sample_room (by decide)) (EmitCtx.sample_room (by decide)) (by decide +kernel)
  have hctx : some h'.ctx =
      (Sll Layout.sample Host.sample 2 0x40200000 0x40200000 0x40200010).map (·.ctx) := by
    rw [hcall]
    rfl
  rw [hctx] at h
  obtain ⟨m', hhalts, hnum⟩ := h.on_row Layout.sample sampleShift 0x40300000
    (fun k => 2 - k / 8 % 2) 10
    (fun m hm hbytes => ⟨.of_row (hm.init _ (by simp [initializers])) hrow hbytes, hm.zero⟩)
    (by decide +kernel) (by decide +kernel) (by decide +kernel) (by decide +kernel) (by decide +kernel)
  exact ⟨m', hhalts, hnum.trans (by decide +kernel)⟩

/-- `Srl` shifts to the right on exactly the runs that find as many zeros in the upper
half of the buffer as they shift in bytes. -/
theorem srl_computes_iff (E : Engine) (L : Layout) {h : Host} {w ret inp shf8 : Nat} (hs : h.Sound)
    (hmono : h.MonoRoom 2) (hw : 2 ≤ w) (hw' : w ≤ 127)
    (harena : h.arena.Room (255 + 2 * w + 255 + 256)) (hroom : h.ctx.Room (w + 8))
    (hp : ShiftPlacement h L.srlTables (w + 8) w ret inp shf8) :
    ∃ h', Srl L h w ret inp shf8 = some h' ∧
      (∀ k < 256, h'.mem (h.shiftTable.start + k) = .ofNat (k / 8 % w)) ∧
      Computes E h.ctx (some h'.ctx) (Region.Any (h.shiftTable :: L.srlTables))
        (ShiftReady h h' (init_srl L))
        (fun m m' => num m' ret w = num m inp w / 2 ^ ((m shf8).toNat % (8 * w)) ↔
          ∀ i < (m shf8).toNat / 8 % w, m ((h.shiftBuffer w).start + w + i) = 0) := by
  have hlabel := hroom.label_lt
  have hpos : 0 < h.ctx.label := by
    show 0 < h.ctx.p + BUS_DRAM_BASE
    exact Nat.add_pos_right _ (by decide)
  have hfits : h.ctx.label + 32 * (w + 8) ≤ 2 ^ 32 := by omega
  have hsel : L.SRL_HYPER_SELECT + 2 ^ 8 ≤ ARM_DRAM_END :=
    L.in_dram ⟨L.SRL_HYPER_SELECT, 2 ^ 8⟩ (by simp)
  have hinp : inp + w ≤ 2 ^ 32 := hp.place.input_fits ⟨inp, w⟩ (by simp)
  have hedge : bus_add inp ((w : Int) - 1) = inp + (w - 1) := by
    rw [show (w : Int) - 1 = ((w - 1 : Nat) : Int) by omega]
    exact bus_add_nat (by omega)
  rw [← Nat.zero_add (255 + 2 * w + 255 + 256)] at harena
  obtain ⟨select, tmp, h', hcall, hb, hctx⟩ := logicalShift_eq (n := 0) (r := 0) L hs hmono hw hw'
    (by simpa only [Nat.add_assoc] using harena) hroom 2 0 L.SRL_HYPER_SELECT 1 (w - 1) 0
    (inp + (w - 1)) ret inp shf8 (fun i => i / 8 % w) (Srl8 L) (fun _ _ => by rw [Srl8, hedge])
    (Nat.zero_le w) hsel (by decide) (by omega) (by decide)
  have hzero : (⟨L.ZERO + BUS_DRAM_BASE, 2 ^ 8⟩ : Region) ∈ L.srlTables :=
    List.mem_cons_of_mem _ (List.mem_cons_of_mem _ List.mem_cons_self)
  have hrow : onBus L.SRL_HYPER_SELECT (2 ^ 8) ∈ L.srlTables :=
    List.mem_cons_of_mem _ List.mem_cons_self
  have hbytes : ∀ c, c / 8 % w < 256 := fun c => (bytes_lt c hw).trans (by omega)
  have hbuffer : (h.shiftBuffer w).start = tmp + BUS_DRAM_BASE := by
    rw [hb.tmp_eq, hb.select_eq]
    rfl
  refine ⟨h', hcall, hb.entry_at, ?_⟩
  have hapart : (shiftPlace L h L.SRL_HYPER_SELECT w ret inp shf8 select tmp).Apart
      ((shiftPlace L h L.SRL_HYPER_SELECT w ret inp shf8 select tmp).logicalChain
        (L.ZERO + BUS_DRAM_BASE) (inp + (w - 1)) 1 (ShiftPlace.lookupDst (tmp + BUS_DRAM_BASE) (w - 1) 0) 0 hpos
        hfits) L.srlTables :=
    hb.apart hw hw' rfl rfl L.srl_select_aligned List.mem_cons_self hrow L.srlTables_fits hp.place hp.free
  have hkept := hb.kept L L.SRL_HYPER_SELECT hp
  refine hapart.computes hroom rfl rfl (Nat.succ_pos _) (congrArg some hctx) (fun t ht => (hkept t ht).1)
    (fun t ht => (hkept t ht).2) ?_ ?_
  · intro m m' hsame hready
    exact hready.congr (fun x hx => mem_shift_tables (by decide) List.mem_cons_self hrow hx) hsame
  · intro m hin hready
    rw [hbuffer]
    exact srl_run ShiftPlace.logicalChain_logical hzero hapart hin
      (fun x hx s hs => hready.1.shift_row (by decide) hx hs)
      (fun c hc => hready.1.shift_select (by decide) hc)
      (fun c hc => hready.select hb hc (hbytes c))

/-- 0x01ff >> 9 = 0 in the place of the operand, the buffer all zero. -/
theorem srl_computes_iff_sample : ∃ m', Halts Engine.sample
    (program Layout.sample EmitCtx.sample
      ((Srl Layout.sample Host.sample 2 0x40200000 0x40200000 0x40200010).map (·.ctx))
      (sampleShift ++ storedRow 0x40300000 fun k => k / 8 % 2))
    EmitCtx.sample.label m' ∧ num m' 0x40200000 2 = 0 := by
  obtain ⟨h', hcall, hrow, h⟩ := @srl_computes_iff Engine.sample Layout.sample Host.sample 2 0x40200000
    0x40200000 0x40200010 (.start rfl) ⟨by decide, by decide⟩ (by decide) (by decide)
    (Host.sample_room (by decide)) (EmitCtx.sample_room (by decide)) (by decide +kernel)
  have hctx : some h'.ctx =
      (Srl Layout.sample Host.sample 2 0x40200000 0x40200000 0x40200010).map (·.ctx) := by
    rw [hcall]
    rfl
  rw [hctx] at h
  obtain ⟨m', hhalts, hnum⟩ := h.on_row Layout.sample sampleShift 0x40300000
    (fun k => k / 8 % 2) 10
    (fun m hm hbytes => .of_row (hm.init _ (by simp [initializers])) hrow hbytes)
    (by decide +kernel) (by decide +kernel) (by decide +kernel) (by decide +kernel) (by decide +kernel)
  exact ⟨m', hhalts, (hnum.mpr (by decide +kernel)).trans (by decide +kernel)⟩

/-- With a one left behind in the buffer, 0x01ff >> 9 is 0x0100. -/
theorem srl_shifts_in_one : ∃ m m', Filled Layout.sample m ∧
    Loaded (closed ((Srl Layout.sample Host.sample 2 0x40200000 0x40200000 0x40200010).map (·.ctx)))
      EmitCtx.sample.p m ∧
    (∀ k < 256, m (Host.sample.shiftTable.start + k) = .ofNat (k / 8 % 2)) ∧
    Halts Engine.sample m EmitCtx.sample.label m' ∧
    num m 0x40200000 2 / 2 ^ ((m 0x40200010).toNat % (8 * 2)) = 0 ∧ num m' 0x40200000 2 = 0x0100 := by
  refine ⟨program Layout.sample EmitCtx.sample
      ((Srl Layout.sample Host.sample 2 0x40200000 0x40200000 0x40200010).map (·.ctx))
      ((sampleShift ++ [(0x40300102, 1)]) ++ storedRow 0x40300000 fun k => k / 8 % 2),
    (after Engine.sample 10 ⟨EmitCtx.sample.label, program Layout.sample EmitCtx.sample
      ((Srl Layout.sample Host.sample 2 0x40200000 0x40200000 0x40200010).map (·.ctx))
      ((sampleShift ++ [(0x40300102, 1)]) ++ storedRow 0x40300000 fun k => k / 8 % 2)⟩).mem,
    load_filled Layout.sample (by decide +kernel) (by decide +kernel),
    load_loaded (n := 10) (by decide +kernel) (by decide +kernel) _, fun k hk => ?_,
    halts_of_conblk 10 (by decide +kernel), by decide +kernel, by decide +kernel⟩
  have hend : (closed ((Srl Layout.sample Host.sample 2 0x40200000 0x40200000 0x40200010).map
      (·.ctx))).p + BUS_DRAM_BASE ≤ 0x40300000 := by decide +kernel
  exact (load_of_apart (.inr (hend.trans (Nat.le_add_right _ k))) _).trans
    (stores_row _ _ 0x40300000 _ hk)

end Bcm2835.Dma

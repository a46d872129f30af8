import Bcm2835.Dma.ShiftRuns

/-!
# Shifts, whole chains

The chains `Sll`, `Srl` and `Sra` emit, run to the end: the bits go to the buffer, the
last three blocks take the result out of it, and nothing else changes but source
addresses.
-/

namespace Bcm2835.Dma

open Mem Digits EmitCtx

/-! ## Where the host puts a shift -/

/-- The table of the bytes a shift selects. -/
def Host.shiftTable (h : Host) : Region := onBus (h.arena.next 256) 256

/-- The buffer of a shift. -/
def Host.shiftBuffer (h : Host) (w : Nat) : Region := onBus (h.arena.next 256 + 256) (2 * w)

section Place

variable {L : Layout} {h h' : Host} {w n r N row ret inp shf8 select tmp : Nat} {f : Nat → Nat}
  {tables : List Region} {C : Chain}

theorem ShiftBuffers.table_within (hb : ShiftBuffers h h' w f select tmp n r) :
    h.shiftTable.Within h.free := by
  have htable := hb.select_eq
  have hfree := hb.free_le
  have hle := hb.select_le
  have hlt := hb.tmp_lt
  show h.arena.p + BUS_DRAM_BASE ≤ h.arena.next 256 + BUS_DRAM_BASE ∧
    h.arena.next 256 + BUS_DRAM_BASE + 256 ≤ h.arena.p + BUS_DRAM_BASE + (h.arena.end_ - h.arena.p)
  omega

theorem ShiftBuffers.buffer_within (hb : ShiftBuffers h h' w f select tmp n r) :
    (h.shiftBuffer w).Within h.free := by
  have htable := hb.select_eq
  have hbuf := hb.tmp_eq
  have hfree := hb.free_le
  have hlt := hb.tmp_lt
  show h.arena.p + BUS_DRAM_BASE ≤ h.arena.next 256 + 256 + BUS_DRAM_BASE ∧
    h.arena.next 256 + 256 + BUS_DRAM_BASE + 2 * w ≤
      h.arena.p + BUS_DRAM_BASE + (h.arena.end_ - h.arena.p)
  omega

/-- Operands and tables that keep clear of the arena, and a result that keeps clear of
both, are apart from the buffer and the code. -/
theorem ShiftBuffers.apart (hb : ShiftBuffers h h' w f select tmp n r) (hw : 2 ≤ w) (hw' : w ≤ 127)
    (hz : C.z = h.ctx.label) (hn : C.n = N) (hrow : row % 256 = 0) (hhyper : L.hyper ∈ tables)
    (hsel : onBus row (2 ^ 8) ∈ tables) (hfits : ∀ t ∈ tables, t.start + t.size ≤ 2 ^ 32)
    (ho : Placement ⟨h.ctx.label, 32 * N⟩ (h.free :: tables) ⟨ret, w⟩ [⟨inp, w⟩, ⟨shf8, 1⟩])
    (hfree : ∀ t ∈ (⟨inp, w⟩ :: ⟨shf8, 1⟩ :: tables : List Region), t.Apart h.free) :
    (shiftPlace L h row w ret inp shf8 select tmp).Apart C tables := by
  have halign := L.hyper_aligned
  have hbase : BUS_DRAM_BASE = 1073741824 := rfl
  have hdram : ARM_DRAM_END = 536870912 := rfl
  have hend := hb.in_dram
  have hle := hb.select_le
  have hlt := hb.tmp_lt
  have htable : (⟨select + BUS_DRAM_BASE, 2 ^ 8⟩ : Region) = h.shiftTable := by
    rw [hb.select_eq]
    rfl
  have hbuffer : (⟨tmp + BUS_DRAM_BASE, 2 * w⟩ : Region) = h.shiftBuffer w := by
    rw [hb.tmp_eq, hb.select_eq]
    rfl
  have hcode : (⟨C.z, 32 * C.n⟩ : Region) = ⟨h.ctx.label, 32 * N⟩ := by rw [hz, hn]
  -- a range is a table, the row of bytes selected, the result or an operand
  have hcases : ∀ t ∈ (shiftPlace L h row w ret inp shf8 select tmp).others tables,
      t ∈ tables ∨ t = h.shiftTable ∨ t = ⟨ret, w⟩ ∨ t = ⟨inp, w⟩ ∨ t = ⟨shf8, 1⟩ := by
    intro t ht
    rcases List.mem_append.mp ht with ht | ht
    · simp only [List.mem_cons, List.not_mem_nil, or_false] at ht
      rcases ht with rfl | rfl | rfl | rfl | rfl | rfl
      · exact .inl hhyper
      · exact .inl hsel
      · exact .inr (.inl htable)
      · exact .inr (.inr (.inl rfl))
      · exact .inr (.inr (.inr (.inl rfl)))
      · exact .inr (.inr (.inr (.inr rfl)))
    · exact .inl ht
  have hcode_free : Region.Apart ⟨h.ctx.label, 32 * N⟩ h.free :=
    ho.code_tables h.free List.mem_cons_self
  refine ⟨hw, hw', ?_, ?_, ?_, ?_, ?_, ?_, fun t ht => ?_, fun t ht => ?_, fun t ht => ?_⟩
  · show (L.HYPER + BUS_DRAM_BASE) % 2 ^ 24 = 0
    omega
  · show (row + BUS_DRAM_BASE) % 256 = 0
    omega
  · have := hb.select_aligned
    show (select + BUS_DRAM_BASE) % 256 = 0
    omega
  · have := hb.tmp_aligned
    show (tmp + BUS_DRAM_BASE) % 256 = 0
    omega
  · show tmp + BUS_DRAM_BASE + 2 * w ≤ 2 ^ 32
    omega
  · rw [hcode]
    show Region.Apart ⟨tmp + BUS_DRAM_BASE, 2 * w⟩ _
    rw [hbuffer]
    exact hb.buffer_within.apart hcode_free.symm
  · rcases hcases t ht with ht | rfl | rfl | rfl | rfl
    · exact hfits t ht
    · rw [← htable]
      show select + BUS_DRAM_BASE + 2 ^ 8 ≤ 2 ^ 32
      omega
    · exact Nat.le_of_lt ho.ret_fits
    · exact ho.input_fits ⟨inp, w⟩ (by simp)
    · exact ho.input_fits ⟨shf8, 1⟩ (by simp)
  · rw [hcode]
    rcases hcases t ht with ht | rfl | rfl | rfl | rfl
    · exact (ho.code_tables t (List.mem_cons_of_mem _ ht)).symm
    · exact hb.table_within.apart hcode_free.symm
    · exact ho.ret_code
    · exact ho.input_code ⟨inp, w⟩ (by simp)
    · exact ho.input_code ⟨shf8, 1⟩ (by simp)
  · show t.Apart ⟨tmp + BUS_DRAM_BASE, 2 * w⟩
    rw [hbuffer]
    rcases hcases t ht with ht | rfl | rfl | rfl | rfl
    · exact (hb.buffer_within.apart (hfree t (by simp [ht])).symm).symm
    · exact .inl (by
        show h.arena.next 256 + BUS_DRAM_BASE + 256 ≤ h.arena.next 256 + 256 + BUS_DRAM_BASE
        omega)
    · exact (hb.buffer_within.apart (ho.ret_tables h.free List.mem_cons_self).symm).symm
    · exact (hb.buffer_within.apart (hfree ⟨inp, w⟩ (by simp)).symm).symm
    · exact (hb.buffer_within.apart (hfree ⟨shf8, 1⟩ (by simp)).symm).symm

end Place

/-! ## Chains -/

namespace ShiftPlace

variable (P : ShiftPlace)

theorem tailBlock_next {t k : Nat} (hk : k < t + 3) (htk : t ≤ k) :
    (P.tailBlock t k).next_cb = P.z + 32 * (k + 1) := by
  unfold tailBlock
  split
  · next h => rw [h]; rfl
  split
  · next h => rw [h]; rfl
  · obtain rfl : k = t + 2 := by omega
    rfl

theorem logicalBlock_next (zeros edge b : Nat) (dst : Nat → Nat) {k : Nat} (hk : k < P.w + 8) :
    (P.logicalBlock zeros edge b dst k).next_cb = P.z + 32 * (k + 1) := by
  rcases Nat.lt_or_ge k (P.w + 5) with hlt | hge
  · rcases Nat.lt_or_ge k 5 with hfew | hmany
    · interval_cases k <;> rfl
    · obtain ⟨i, rfl⟩ : ∃ i, k = 5 + i := ⟨k - 5, by omega⟩
      rw [P.logicalBlock_lookup _ _ _ _ (by omega)]
      rfl
  · obtain ⟨i, rfl⟩ : ∃ i, k = P.w + 5 + i := ⟨k - (P.w + 5), by omega⟩
    rw [P.logicalBlock_tail]
    exact P.tailBlock_next (by omega) (by omega)

theorem arithmeticBlock_next (which bufs hi : Nat) (hw : 1 ≤ P.w) {k : Nat} (hk : k < P.w + 10) :
    (P.arithmeticBlock which bufs hi k).next_cb = P.z + 32 * (k + 1) := by
  rcases Nat.lt_or_ge k (P.w + 7) with hlt | hge
  · rcases Nat.lt_or_ge k 8 with hfew | hmany
    · interval_cases k <;> rfl
    · obtain ⟨i, rfl⟩ : ∃ i, k = 8 + i := ⟨k - 8, by omega⟩
      rw [P.arithmeticBlock_lookup _ _ _ (by omega)]
      rfl
  · obtain ⟨i, rfl⟩ : ∃ i, k = P.w + 7 + i := ⟨k - (P.w + 7), by omega⟩
    rw [P.arithmeticBlock_tail _ _ _ _ hw]
    exact P.tailBlock_next (by omega) (by omega)

/-- The chain `Sll` or `Srl` emits. -/
def logicalChain (zeros edge b : Nat) (dst : Nat → Nat) (exit : Nat) (pos : 0 < P.z)
    (fits : P.z + 32 * (P.w + 8) ≤ 2 ^ 32) : Chain where
  z := P.z
  n := P.w + 8
  f := P.logicalBlock zeros edge b dst
  patched k j := (k = 3 ∨ k = P.w + 6 ∨ k = P.w + 7) ∧ j = 0 ∨
    5 ≤ k ∧ k < P.w + 5 ∧ (j = 0 ∨ k = 5 ∧ j = b ∨ 6 ≤ k ∧ (j = 1 ∨ j = 2))
  exit := exit
  pos := pos
  fits := fits

/-- The chain `Sra` emits. -/
def arithmeticChain (which bufs hi exit : Nat) (pos : 0 < P.z)
    (fits : P.z + 32 * (P.w + 10) ≤ 2 ^ 32) : Chain where
  z := P.z
  n := P.w + 10
  f := P.arithmeticBlock which bufs hi
  patched k j := (k = 1 ∨ k = 2 ∨ k = 5 ∨ k = 7 ∨ k = P.w + 8 ∨ k = P.w + 9) ∧ j = 0 ∨
    k = 7 ∧ j = 1 ∨ 8 ≤ k ∧ k < P.w + 7 ∧ j ≤ 2
  exit := exit
  pos := pos
  fits := fits

variable {P} {pos : 0 < P.z} {exit : Nat}

theorem logicalChain_logical {zeros edge b : Nat} {dst : Nat → Nat}
    {fits : P.z + 32 * (P.w + 8) ≤ 2 ^ 32} :
    Logical (P.logicalChain zeros edge b dst exit pos fits) P zeros edge b dst where
  z_eq := rfl
  n_eq := rfl
  block _ _ := rfl
  next _ hk := Chain.next_eq_pc (P.logicalBlock_next zeros edge b dst hk)
  patched _ _ := Iff.rfl

theorem arithmeticChain_arithmetic {which bufs hi : Nat} (hw : 1 ≤ P.w)
    {fits : P.z + 32 * (P.w + 10) ≤ 2 ^ 32} :
    Arithmetic (P.arithmeticChain which bufs hi exit pos fits) P which bufs hi where
  z_eq := rfl
  n_eq := rfl
  block _ _ := rfl
  next _ hk := Chain.next_eq_pc (P.arithmeticBlock_next which bufs hi hw hk)
  patched _ _ := Iff.rfl

end ShiftPlace

/-! ## Runs -/

section Runs

variable {E : Engine} {C : Chain} {P : ShiftPlace} {tables : List Region} {m m₁ : Memory}

/-- What a run of a shift leaves alone. -/
def ShiftPlace.Leaves (P : ShiftPlace) (C : Chain) (m m' : Memory) : Prop :=
  ∀ a, C.Clear a → (∀ i < 2 * P.w, a ≠ P.tmp + i) → (∀ i < P.w, a ≠ P.ret + i) → m' a = m a

theorem Chain.Goes.whole {n : Nat} {m' : Memory} (hn : 0 < C.n) (h : C.Goes E 0 C.n n m m') :
    after E n ⟨C.z, m⟩ = ⟨C.exit, m'⟩ := by
  have hstart : C.pc 0 = C.z := Chain.pc_of_lt hn
  have hend : C.pc C.n = C.exit := if_pos rfl
  rw [← hstart, h, hend]

/-- From the bits in the buffer to the end. -/
theorem Tail.finish {t : Nat} (ht : Tail C P t) (h : P.Apart C tables) (hgo : C.Goes E 0 t t m m₁)
    (hin : C.In m₁) (hkeep : ∀ a, C.Clear a → (∀ i < 2 * P.w, a ≠ P.tmp + i) → m₁ a = m a) {q : Nat}
    (hq : (m (P.select + (m P.shf8).toNat)).toNat = q) (hqw : q ≤ P.w) :
    ∃ m', after E C.n ⟨C.z, m⟩ = ⟨C.exit, m'⟩ ∧ C.In m' ∧
      (∀ i < P.w, m' (P.ret + i) = m₁ (P.tmp + q + i)) ∧ P.Leaves C m m' := by
  have hn := ht.n_eq
  have hsame : ∀ {r : Region} {a : Nat}, r ∈ P.others tables → r.Mem a → m₁ a = m a :=
    fun hr ha => hkeep _ (h.clear hr ha) fun i hi => h.ne_buffer hr ha hi
  have hcount : m₁ P.shf8 = m P.shf8 :=
    hsame P.shf8_mem ⟨Nat.le_refl _, Nat.lt_succ_self _⟩
  have hq₁ : (m₁ (P.select + (m₁ P.shf8).toNat)).toNat = q := by
    rw [hcount, hsame P.select_mem ⟨Nat.le_add_right .., Nat.add_lt_add_left (UInt8.toNat_lt _) _⟩, hq]
  obtain ⟨m', hgo', hin', hret, hframe⟩ := ht.run (E := E) h hin hq₁ hqw
  refine ⟨m', ?_, hin', hret, fun a ha hbuf hout => ?_⟩
  · have hall := hgo.trans hgo'
    rw [← hn] at hall
    exact hall.whole (by omega)
  · rw [hframe a ha hout, hkeep a ha hbuf]

/-- A whole run of `Sll` or `Srl`. -/
theorem Logical.finish {zeros edge b : Nat} {dst : Nat → Nat} (hc : Logical C P zeros edge b dst)
    (hzeros : (⟨zeros, 2 ^ 8⟩ : Region) ∈ tables) (h : P.Apart C tables) (hb : b = 1 ∨ b = 2)
    (hedge : (⟨P.inp, P.w⟩ : Region).Mem edge) (hin : C.In m)
    (hdst : ∀ i < P.w, ∃ k < 2 * P.w, dst i = P.tmp + k)
    (hinj : ∀ i < P.w, ∀ j < P.w, dst i = dst j → i = j) {sel q : Nat}
    (hsel : (m (P.row + (m P.shf8).toNat)).toNat = sel)
    (hq : (m (P.select + (m P.shf8).toNat)).toNat = q) (hqw : q ≤ P.w) :
    ∃ m₁ m' : Memory, after E C.n ⟨C.z, m⟩ = ⟨C.exit, m'⟩ ∧ C.In m' ∧
      (∀ i < P.w, m' (P.ret + i) = m₁ (P.tmp + q + i)) ∧ P.Leaves C m m' ∧
      (∀ i < P.w, m₁ (dst i) = m (P.lookupSrc m edge b sel i)) ∧
      (∀ i < P.w, (∀ k < P.w, P.tmp + i ≠ dst k) → m₁ (P.tmp + i) = m (zeros + i)) ∧
      ∀ i < P.w, (∀ k < P.w, P.tmp + P.w + i ≠ dst k) → m₁ (P.tmp + P.w + i) = m (P.tmp + P.w + i) := by
  obtain ⟨m₁, hgo, hin₁, hbits, hclear, hframe⟩ :=
    hc.run (E := E) hzeros h hb hedge hin hdst hinj hsel
  have hkeep : ∀ a, C.Clear a → (∀ i < 2 * P.w, a ≠ P.tmp + i) → m₁ a = m a := by
    intro a ha hbuf
    refine hframe a ha (fun i hi => hbuf i (by omega)) fun k hk => ?_
    obtain ⟨j, hj, hdj⟩ := hdst k hk
    rw [hdj]
    exact hbuf j hj
  obtain ⟨m', hrun, hin', hret, hleaves⟩ := hc.tail.finish h hgo hin₁ hkeep hq hqw
  refine ⟨m₁, m', hrun, hin', hret, hleaves, hbits, hclear, fun i hi hne => ?_⟩
  refine hframe _ ?_ (fun k hk => by omega) hne
  rw [Nat.add_assoc]
  exact h.clear_buffer (by omega)

/-- A whole run of `Sra`. -/
theorem Arithmetic.finish {which bufs hi : Nat} (hc : Arithmetic C P which bufs hi)
    (hwhich : (⟨which, 2 ^ 8⟩ : Region) ∈ tables) (hbufs : (⟨bufs, 2 ^ 5⟩ : Region) ∈ tables)
    (hhi : (⟨hi, 2 ^ 16⟩ : Region) ∈ tables) (h : P.Apart C tables) (hin : C.In m)
    (hwhich_al : which % 256 = 0) (hbufs_al : bufs % 32 = 0) (hhi_al : hi % 2 ^ 16 = 0)
    {sel b q : Nat} (hsel : (m (P.row + (m P.shf8).toNat)).toNat = sel) (hb : b ≤ 1)
    (hsign : (m (which + (m (P.inp + (P.w - 1))).toNat)).toNat = (bufs + 16 * b) % 256) {x : UInt8}
    (hx : ∀ i < 16, m (bufs + 16 * b + i) = x)
    (hq : (m (P.select + (m P.shf8).toNat)).toNat = q) (hqw : q ≤ P.w) :
    ∃ m₁ m' : Memory, after E C.n ⟨C.z, m⟩ = ⟨C.exit, m'⟩ ∧ C.In m' ∧
      (∀ i < P.w, m' (P.ret + i) = m₁ (P.tmp + q + i)) ∧ P.Leaves C m m' ∧
      (∀ i < P.w, m₁ (ShiftPlace.lookupDst P.tmp (P.w - 1) 0 i) = m (P.signedSrc m hi sel i)) ∧
      ∀ i < P.w, m₁ (P.tmp + P.w + i) = x := by
  have hw := h.w_ge
  obtain ⟨m₁, hgo, hin₁, hbits, hsext, hkeep⟩ := hc.run (E := E) hwhich hbufs hhi h hin hwhich_al
    hbufs_al hhi_al hsel hb hsign hx
  obtain ⟨m', hrun, hin', hret, hleaves⟩ :=
    (hc.tail (by omega)).finish h hgo hin₁ hkeep hq hqw
  exact ⟨m₁, m', hrun, hin', hret, hleaves, hbits, hsext⟩

/-- A shift computes what each of its runs does, if what it relies on are tables that
the result keeps clear of. -/
theorem ShiftPlace.Apart.computes (h : P.Apart C tables) {start : EmitCtx}
    {emitted : Option EmitCtx} (hroom : start.Room C.n) (hz : C.z = start.label) (hexit : C.exit = 0)
    (hn : 0 < C.n) (hem : emitted = some (start.fill C.f C.n)) {kept : List Region}
    (hkept : ∀ r ∈ kept, r ∈ P.others tables) (hret : ∀ r ∈ kept, Region.Apart ⟨P.ret, P.w⟩ r)
    {ready : Memory → Prop} {post : Memory → Memory → Prop}
    (hready : ∀ m m', (∀ a, Region.Any kept a → m' a = m a) → ready m → ready m')
    (hrun : ∀ m, C.In m → ready m → ∃ m', after E C.n ⟨C.z, m⟩ = ⟨C.exit, m'⟩ ∧ C.In m' ∧
      P.Leaves C m m' ∧ post m m') :
    Computes E start emitted (Region.Any kept) ready post := by
  refine .of_chain hroom hz hexit hn hem hready fun m hin hr => ?_
  obtain ⟨m', hgo, hin', hleaves, hpost⟩ := hrun m hin hr
  rw [hexit] at hgo
  refine ⟨m', halts_of_after hgo, ⟨hin', hready m m' ?_ hr⟩, hpost⟩
  rintro a ⟨r, hr, ha⟩
  have hout : P.ret + P.w ≤ r.start ∨ r.start + r.size ≤ P.ret := hret r hr
  obtain ⟨hlo, hhi⟩ := ha
  exact hleaves a (h.clear (hkept r hr) ⟨hlo, hhi⟩)
    (fun i hi => h.ne_buffer (hkept r hr) ⟨hlo, hhi⟩ hi) fun i hi => by omega

end Runs

end Bcm2835.Dma

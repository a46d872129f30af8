import Bcm2835.Dma.ShiftSpec

/-!
# Shifts, run by run

One run of the chains of `Sll`, `Srl` and `Sra`: the bytes the lookups leave in the
buffer, and the bytes the last block takes out of it.
-/

namespace Bcm2835.Dma

open Mem Digits EmitCtx

/-! ## Places that do not meet -/

namespace ShiftPlace

/-- The buffer. -/
def buffer (P : ShiftPlace) : Region := ⟨P.tmp, 2 * P.w⟩

/-- The other ranges a shift reads or writes, the tables of one kind of shift among
them. -/
def others (P : ShiftPlace) (tables : List Region) : List Region :=
  [⟨P.table, 2 ^ 24⟩, ⟨P.row, 2 ^ 8⟩, ⟨P.select, 2 ^ 8⟩, ⟨P.ret, P.w⟩, ⟨P.inp, P.w⟩, ⟨P.shf8, 1⟩] ++
    tables

theorem table_mem (P : ShiftPlace) {tables : List Region} :
    (⟨P.table, 2 ^ 24⟩ : Region) ∈ P.others tables := by simp [others]

theorem row_mem (P : ShiftPlace) {tables : List Region} :
    (⟨P.row, 2 ^ 8⟩ : Region) ∈ P.others tables := by simp [others]

theorem select_mem (P : ShiftPlace) {tables : List Region} :
    (⟨P.select, 2 ^ 8⟩ : Region) ∈ P.others tables := by simp [others]

theorem ret_mem (P : ShiftPlace) {tables : List Region} :
    (⟨P.ret, P.w⟩ : Region) ∈ P.others tables := by simp [others]

theorem inp_mem (P : ShiftPlace) {tables : List Region} :
    (⟨P.inp, P.w⟩ : Region) ∈ P.others tables := by simp [others]

theorem shf8_mem (P : ShiftPlace) {tables : List Region} :
    (⟨P.shf8, 1⟩ : Region) ∈ P.others tables := by simp [others]

/-- Buffer and code are clear of everything else. -/
structure Apart (P : ShiftPlace) (C : Chain) (tables : List Region) : Prop where
  w_ge : 2 ≤ P.w
  w_le : P.w ≤ 127
  table_aligned : P.table % 2 ^ 24 = 0
  row_aligned : P.row % 256 = 0
  select_aligned : P.select % 256 = 0
  tmp_aligned : P.tmp % 256 = 0
  tmp_fits : P.tmp + 2 * P.w ≤ 2 ^ 32
  tmp_code : Region.Apart ⟨P.tmp, 2 * P.w⟩ ⟨C.z, 32 * C.n⟩
  fits : ∀ r ∈ P.others tables, r.start + r.size ≤ 2 ^ 32
  code : ∀ r ∈ P.others tables, r.Apart ⟨C.z, 32 * C.n⟩
  apart : ∀ r ∈ P.others tables, r.Apart P.buffer

end ShiftPlace

variable {E : Engine} {C : Chain} {P : ShiftPlace} {tables : List Region} {m : Memory}

namespace ShiftPlace.Apart

variable (h : P.Apart C tables)

include h

theorem clear {r : Region} (hr : r ∈ P.others tables) {a : Nat} (ha : r.Mem a) : C.Clear a := by
  have happ : r.start + r.size ≤ C.z ∨ C.z + 32 * C.n ≤ r.start := h.code r hr
  obtain ⟨hlo, hhi⟩ := ha
  rcases happ with happ | happ
  · exact .inl (by omega)
  · exact .inr (by omega)

theorem clear_buffer {i : Nat} (hi : i < 2 * P.w) : C.Clear (P.tmp + i) := by
  have happ : P.tmp + 2 * P.w ≤ C.z ∨ C.z + 32 * C.n ≤ P.tmp := h.tmp_code
  rcases happ with happ | happ
  · exact .inl (by omega)
  · exact .inr (by omega)

theorem ne_buffer {r : Region} (hr : r ∈ P.others tables) {a : Nat} (ha : r.Mem a) {i : Nat}
    (hi : i < 2 * P.w) : a ≠ P.tmp + i := by
  have happ : r.start + r.size ≤ P.tmp ∨ P.tmp + 2 * P.w ≤ r.start := h.apart r hr
  obtain ⟨hlo, hhi⟩ := ha
  omega

/-- Operands and tables are what they were, if nothing outside of code and buffer has
changed. -/
theorem reads {m' : Memory} {r : Region} {a : Nat}
    (hkeep : ∀ a, C.Clear a → (∀ i < 2 * P.w, a ≠ P.tmp + i) → m' a = m a)
    (hr : r ∈ P.others tables) (ha : r.Mem a) : m' a = m a :=
  hkeep a (h.clear hr ha) fun _ hi => h.ne_buffer hr ha hi

theorem shf8_clear : C.Clear P.shf8 := h.clear P.shf8_mem ⟨Nat.le_refl _, Nat.lt_succ_self _⟩

theorem row_clear (x : UInt8) : C.Clear (P.row + x.toNat) :=
  h.clear P.row_mem ⟨Nat.le_add_right .., Nat.add_lt_add_left x.toNat_lt _⟩

theorem inp_clear {i : Nat} (hi : i < P.w) : C.Clear (P.inp + i) :=
  h.clear P.inp_mem ⟨Nat.le_add_right .., Nat.add_lt_add_left hi _⟩

/-- The lookups of a shift: what they leave in the buffer. -/
theorem lookups {u : Nat} {dst src : Nat → Nat} (hL : Chain.Lookups C u P.w dst) (hin : C.In m)
    (hdst : ∀ i < P.w, ∃ k < 2 * P.w, dst i = P.tmp + k)
    (hsrc : ∀ i < P.w, C.source m (u + i) = src i)
    (hmem : ∀ i < P.w, ∃ r ∈ P.others tables, r.Mem (src i)) :
    ∃ m', C.Goes E u (u + P.w) P.w m m' ∧ C.In m' ∧ (∀ i < P.w, m' (dst i) = m (src i)) ∧
      ∀ a, (∀ i < P.w, a ≠ dst i) → m' a = m a := by
  refine hL.run hin hsrc (fun i hi j hj => ?_) (Nat.le_refl _)
  obtain ⟨k, hk, hdk⟩ := hdst j hj
  obtain ⟨r, hr, hri⟩ := hmem i hi
  rw [hdk]
  exact h.ne_buffer hr hri hk

end ShiftPlace.Apart

/-! ## The last three blocks -/

/-- Blocks `t`, `t + 1` and `t + 2` are the last of a shift. -/
structure Tail (C : Chain) (P : ShiftPlace) (t : Nat) : Prop where
  z_eq : C.z = P.z
  n_eq : C.n = t + 3
  block : ∀ i < 3, C.f (t + i) = P.tailBlock t (t + i)
  next : ∀ i < 3, C.next (t + i) = C.pc (t + i + 1)
  fixed : ∀ j, ¬ C.patched t j
  patched : C.patched (t + 1) 0 ∧ C.patched (t + 2) 0
  upper : ∀ j, 1 ≤ j → ¬ C.patched (t + 1) j ∧ ¬ C.patched (t + 2) j

/-- A source address whose lowest byte is patched. -/
theorem source_of_low {k x T : Nat} (hin : C.In m) (hk : k < C.n) (hT : (C.f k).src_addr = T)
    (hfits : T < 2 ^ 32) (hupper : ∀ j, 1 ≤ j → ¬ C.patched k j)
    (hlow : (m (C.src k 0)).toNat = x) : C.source m k = T / 256 * 256 + x := by
  have h1 := hin.src k hk 1 (by decide) (hupper 1 (by decide))
  have h2 := hin.src k hk 2 (by decide) (hupper 2 (by decide))
  have h3 := hin.src k hk 3 (by decide) (hupper 3 (by decide))
  rw [hT] at h1 h2 h3
  rw [Chain.source_eq, hlow, h1, h2, h3]
  omega

/-- The same in an aligned table. -/
theorem source_of_aligned {k x T : Nat} (hin : C.In m) (hk : k < C.n) (hT : (C.f k).src_addr = T)
    (halign : T % 256 = 0) (hfits : T < 2 ^ 32) (hupper : ∀ j, 1 ≤ j → ¬ C.patched k j)
    (hlow : (m (C.src k 0)).toNat = x) : C.source m k = T + x := by
  rw [source_of_low hin hk hT hfits hupper hlow]
  omega

/-- The result is `w` bytes of the buffer, from the byte selected for the count. -/
theorem Tail.run {t : Nat} (ht : Tail C P t) (h : P.Apart C tables) (hin : C.In m) {q : Nat}
    (hq : (m (P.select + (m P.shf8).toNat)).toNat = q) (hqw : q ≤ P.w) :
    ∃ m', C.Goes E t (t + 3) 3 m m' ∧ C.In m' ∧ (∀ i < P.w, m' (P.ret + i) = m (P.tmp + q + i)) ∧
      ∀ a, C.Clear a → (∀ i < P.w, a ≠ P.ret + i) → m' a = m a := by
  have hn := ht.n_eq
  have hz := ht.z_eq
  have hsrc : ∀ k j, srcField P.z k j = C.src k j := fun k j => by rw [← hz]; rfl
  have hb0 := ht.block 0 (by decide)
  have hb1 := ht.block 1 (by decide)
  have hb2 := ht.block 2 (by decide)
  rw [Nat.add_zero, P.tailBlock_zero, hsrc] at hb0
  rw [P.tailBlock_one, hsrc] at hb1
  rw [P.tailBlock_two] at hb2
  have hshf : P.shf8 + 1 ≤ 2 ^ 32 := h.fits ⟨P.shf8, 1⟩ P.shf8_mem
  have hsel : P.select + 2 ^ 8 ≤ 2 ^ 32 := h.fits ⟨P.select, 2 ^ 8⟩ P.select_mem
  have hret : P.ret + P.w ≤ 2 ^ 32 := h.fits ⟨P.ret, P.w⟩ P.ret_mem
  have hcount : (m P.shf8).toNat < 256 := (m P.shf8).toNat_lt
  have hout : P.ret + P.w ≤ P.tmp ∨ P.tmp + 2 * P.w ≤ P.ret := h.apart ⟨P.ret, P.w⟩ P.ret_mem
  have hw := h.w_le
  have hw' := h.w_ge
  have htmp := h.tmp_fits
  have hshf_clear : C.Clear P.shf8 := h.clear P.shf8_mem ⟨Nat.le_refl _, Nat.lt_succ_self _⟩
  have hsel_clear : C.Clear (P.select + (m P.shf8).toNat) :=
    h.clear P.select_mem ⟨Nat.le_add_right .., Nat.add_lt_add_left hcount _⟩
  -- the count goes to the next block
  have hs0 : C.source m t = P.shf8 := by
    rw [hin.source_fixed (by omega) (by rw [hb0]; exact hshf) fun j _ => ht.fixed j, hb0]
    rfl
  obtain ⟨m₁, hgo₁, hin₁, hget₁, hkeep₁⟩ := hin.patch (E := E) (k := t) (p := t + 1) (j := 0)
    (S := P.shf8) (by omega) (by rw [hb0]; exact ⟨rfl, rfl, rfl⟩) (by omega) (by decide) ht.patched.1
    (ht.next 0 (by decide))
  rw [hs0] at hget₁
  -- the byte selected for it goes to the last block
  have hs1 : C.source m₁ (t + 1) = P.select + (m P.shf8).toNat :=
    source_of_aligned hin₁ (by omega) (by rw [hb1]; rfl) h.select_aligned (by omega)
      (fun j hj => (ht.upper j hj).1) (by rw [hget₁])
  obtain ⟨m₂, hgo₂, hin₂, hget₂, hkeep₂⟩ := hin₁.patch (E := E) (k := t + 1) (p := t + 2) (j := 0)
    (S := P.select) (by omega) (by rw [hb1]; exact ⟨rfl, rfl, rfl⟩) (by omega) (by decide)
    ht.patched.2 (ht.next 1 (by decide))
  rw [hs1, hkeep₁ _ (hsel_clear.ne_src (by omega) (by decide))] at hget₂
  -- the copy
  have hs2 : C.source m₂ (t + 2) = P.tmp + q :=
    source_of_aligned hin₂ (by omega) (by rw [hb2]; rfl) h.tmp_aligned (by omega)
      (fun j hj => (ht.upper j hj).2) (by rw [hget₂, hq])
  obtain ⟨m₃, hgo₃, hin₃, hget₃, hkeep₃⟩ := hin₂.copy (E := E) (k := t + 2) (l := t + 3)
    (d := P.ret) (T := P.tmp) (w := P.w) (by omega) (by rw [hb2]; exact ⟨rfl, rfl, rfl, rfl⟩) hs2
    (by omega) hret (by show P.tmp + q + P.w ≤ P.ret ∨ P.ret + P.w ≤ P.tmp + q; omega)
    (fun i hi => h.clear P.ret_mem ⟨Nat.le_add_right .., Nat.add_lt_add_left hi _⟩)
    (ht.next 2 (by decide))
  have hsame : ∀ a, C.Clear a → m₂ a = m a := fun a ha => by
    rw [hkeep₂ a (ha.ne_src (by omega) (by decide)), hkeep₁ a (ha.ne_src (by omega) (by decide))]
  refine ⟨m₃, (hgo₁.trans hgo₂).trans hgo₃, hin₃, fun i hi => ?_, fun a ha hne => ?_⟩
  · rw [hget₃ i hi]
    refine hsame _ ?_
    rw [Nat.add_assoc]
    exact h.clear_buffer (by omega)
  · rw [hkeep₃ a hne, hsame a ha]

/-! ## Bits, for `Sll` and `Srl` -/

/-- The chain starts with the blocks of `Sll` or `Srl`. -/
structure Logical (C : Chain) (P : ShiftPlace) (zeros edge b : Nat) (dst : Nat → Nat) : Prop where
  z_eq : C.z = P.z
  n_eq : C.n = P.w + 8
  block : ∀ k < P.w + 8, C.f k = P.logicalBlock zeros edge b dst k
  next : ∀ k < P.w + 8, C.next k = C.pc (k + 1)
  patched : ∀ k j, C.patched k j ↔ (k = 3 ∨ k = P.w + 6 ∨ k = P.w + 7) ∧ j = 0 ∨
    5 ≤ k ∧ k < P.w + 5 ∧ (j = 0 ∨ k = 5 ∧ j = b ∨ 6 ≤ k ∧ (j = 1 ∨ j = 2))

/-- What lookup `i` reads, the row for the count being `sel`. -/
def ShiftPlace.lookupSrc (P : ShiftPlace) (m : Memory) (edge b sel i : Nat) : Nat :=
  P.table + sel + if i = 0 then 256 ^ b * (m edge).toNat
    else 256 * (m (P.inp + (i - 1))).toNat + 65536 * (m (P.inp + i)).toNat

theorem ShiftPlace.lookupSrc_mem (P : ShiftPlace) (m : Memory) {edge b sel i : Nat}
    (hb : b = 1 ∨ b = 2) (hsel : sel < 256) :
    (⟨P.table, 2 ^ 24⟩ : Region).Mem (P.lookupSrc m edge b sel i) := by
  have h0 := (m edge).toNat_lt
  have h1 := (m (P.inp + (i - 1))).toNat_lt
  have h2 := (m (P.inp + i)).toNat_lt
  show P.table ≤ P.lookupSrc m edge b sel i ∧ P.lookupSrc m edge b sel i < P.table + 2 ^ 24
  rw [lookupSrc]
  split
  · rcases hb with rfl | rfl <;> omega
  · omega

theorem Logical.tail {zeros edge b : Nat} {dst : Nat → Nat} (hc : Logical C P zeros edge b dst) :
    Tail C P (P.w + 5) where
  z_eq := hc.z_eq
  n_eq := hc.n_eq
  block i hi := by rw [hc.block _ (by omega), P.logicalBlock_tail]
  next i hi := hc.next _ (by omega)
  fixed j := by
    rw [hc.patched]
    omega
  patched := by
    rw [hc.patched, hc.patched]
    omega
  upper j hj := by
    rw [hc.patched, hc.patched]
    omega

/-- What the source bytes patched in front of the last three blocks of `Sll` and `Srl`
hold. -/
def ShiftPlace.logicalVal (P : ShiftPlace) (m : Memory) (edge p i : Nat) : UInt8 :=
  if p = 3 then m P.shf8
  else if i = 0 then m (P.row + (m P.shf8).toNat)
  else if p = 5 then m edge
  else m (P.inp + (p - 6 + (i - 1)))

section Logical

variable {zeros edge b : Nat} {dst : Nat → Nat} {m' : Memory}

/-- The first block: zeros in the lower half of the buffer. -/
theorem Logical.clears (hc : Logical C P zeros edge b dst) (hzeros : (⟨zeros, 2 ^ 8⟩ : Region) ∈ tables)
    (h : P.Apart C tables) (hin : C.In m) :
    ∃ m', C.Goes E 0 1 1 m m' ∧ C.In m' ∧ (∀ i < P.w, m' (P.tmp + i) = m (zeros + i)) ∧
      ∀ a, (∀ i < P.w, a ≠ P.tmp + i) → m' a = m a := by
  have hn := hc.n_eq
  have hw := h.w_le
  have htmp := h.tmp_fits
  have hmem : (⟨zeros, 2 ^ 8⟩ : Region) ∈ P.others tables := List.mem_append_right _ hzeros
  have hfits : zeros + 2 ^ 8 ≤ 2 ^ 32 := h.fits _ hmem
  have hout : zeros + 2 ^ 8 ≤ P.tmp ∨ P.tmp + 2 * P.w ≤ zeros := h.apart _ hmem
  have hb := hc.block 0 (by omega)
  have hS : C.source m 0 = zeros := by
    rw [hin.source_fixed (by omega) (by rw [hb]; show zeros < _; omega)
      (fun j _ => by rw [hc.patched]; omega), hb]
    rfl
  have hmove : Chain.IsMove (C.f 0) INC P.tmp zeros P.w := by
    rw [hb]
    exact Chain.linear_isMove ..
  exact hin.copy (by omega) hmove hS (by omega) (by omega)
    (by show zeros + P.w ≤ P.tmp ∨ P.tmp + P.w ≤ zeros; omega)
    (fun i hi => h.clear_buffer (by omega)) (hc.next 0 (by omega))

/-- The four blocks in front of the lookups patch all their source bytes. -/
theorem Logical.patches (hc : Logical C P zeros edge b dst) (h : P.Apart C tables)
    (hb : b = 1 ∨ b = 2) (hedge : (⟨P.inp, P.w⟩ : Region).Mem edge) (hin : C.In m) :
    ∃ m', C.Goes E 1 5 4 m m' ∧
      C.Patches (P.logicalVal m edge) m (fun p i => C.patched p i ∧ p < P.w + 5) m' := by
  have hn := hc.n_eq
  have hz := hc.z_eq
  have hw := h.w_le
  have hw' := h.w_ge
  have hsrc : ∀ k j, srcField P.z k j = C.src k j := fun k j => by rw [← hz]; rfl
  have hshf : P.shf8 + 1 ≤ 2 ^ 32 := h.fits _ P.shf8_mem
  have hinp : P.inp + P.w ≤ 2 ^ 32 := h.fits _ P.inp_mem
  have hinp' : P.inp + P.w ≤ C.z ∨ C.z + 32 * C.n ≤ P.inp := h.code _ P.inp_mem
  have hrow : P.row + 2 ^ 8 ≤ 2 ^ 32 := h.fits _ P.row_mem
  have hcode := C.fits
  have hedge_lt : edge < P.inp + P.w := hedge.2
  have hb1 := hc.block 1 (by omega)
  have hb2 := hc.block 2 (by omega)
  have hb3 := hc.block 3 (by omega)
  have hb4 := hc.block 4 (by omega)
  -- the operand, in pairs
  obtain ⟨m₁, hgo₁, hp₁⟩ := (Chain.Patches.start hin (P.logicalVal m edge)).pairs (E := E) (k := 1)
    (S := P.inp) (u := 6) (r := P.w - 1) (by omega)
    (by rw [hb1, ← hsrc]; exact Chain.strided_isPairs ..) (by omega) (by omega)
    (fun i hi => by rw [hc.patched, hc.patched]; omega) (fun j _ => by rw [hc.patched]; omega)
    (by omega) (fun i hi => h.inp_clear (by omega))
    (fun i hi => by
      simp [ShiftPlace.logicalVal, show 6 + i ≠ 3 by omega, show 6 + i ≠ 5 by omega])
    (hc.next 1 (by omega))
  -- the count
  have hs2 : C.source m₁ 2 = P.shf8 := by
    rw [hp₁.chain.source_fixed (by omega) (by rw [hb2]; exact hshf)
      (fun j _ => by rw [hc.patched]; omega), hb2]
    rfl
  obtain ⟨m₂, hgo₂, hp₂⟩ := hp₁.patch (E := E) (k := 2) (p := 3) (j := 0) (by omega)
    (by rw [hb2, ← hsrc]; exact Chain.linear_isByte ..) hs2 h.shf8_clear (by omega) (by decide)
    (by rw [hc.patched]; omega) rfl (hc.next 2 (by omega))
  -- the row for it, in all lookups
  have hs3 : C.source m₂ 3 = P.row + (m P.shf8).toNat := by
    have hlt := (m P.shf8).toNat_lt
    refine source_of_aligned hp₂.chain (by omega) (by rw [hb3]; rfl) h.row_aligned (by omega)
      (fun j hj => by rw [hc.patched]; omega) ?_
    rw [hp₂.field 3 0 (by decide) (.inr ⟨rfl, rfl⟩)]
    rfl
  obtain ⟨m₃, hgo₃, hp₃⟩ := hp₂.spread (E := E) (k := 3) (u := 5) (j := 0) (r := P.w) (D := 1)
    (by omega) (by rw [hb3, ← hsrc]; exact Chain.strided_isSpread (D := 31) (by decide) ..) hs3
    (h.row_clear _) (by omega) (by decide) (fun i hi => by omega) (by decide)
    (fun i hi => by rw [hc.patched]; omega)
    (fun i hi => by simp [ShiftPlace.logicalVal, show 5 + i ≠ 3 by omega]) (hc.next 3 (by omega))
  -- the byte of the first lookup
  have hs4 : C.source m₃ 4 = edge := by
    rw [hp₃.chain.source_fixed (by omega) (by rw [hb4]; show edge < _; omega)
      (fun j _ => by rw [hc.patched]; omega), hb4]
    rfl
  obtain ⟨m₄, hgo₄, hp₄⟩ := hp₃.patch (E := E) (k := 4) (p := 5) (j := b) (by omega)
    (by rw [hb4, ← hsrc]; exact Chain.linear_isByte ..) hs4 (h.clear P.inp_mem hedge) (by omega)
    (by omega) (by rw [hc.patched]; omega) (by simp [ShiftPlace.logicalVal, show b ≠ 0 by omega])
    (hc.next 4 (by omega))
  refine ⟨m₄, ((hgo₁.trans hgo₂).trans hgo₃).trans hgo₄, hp₄.mono fun p i hi hpi => ?_⟩
  rw [hc.patched] at hpi
  rcases hpi with ⟨⟨hp, rfl⟩ | ⟨hlo, hhi, rfl | ⟨rfl, rfl⟩ | ⟨hlater, hj⟩⟩, hlt⟩
  · exact .inl (.inl (.inr ⟨by omega, rfl⟩))
  · exact .inl (.inr ⟨⟨p - 5, by omega, by omega⟩, rfl⟩)
  · exact .inr ⟨rfl, rfl⟩
  · exact .inl (.inl (.inl (.inr ⟨⟨p - 6, by omega, by omega⟩, hj⟩)))

/-- What the lookups read then. -/
theorem Logical.source (hc : Logical C P zeros edge b dst) (h : P.Apart C tables)
    (hb : b = 1 ∨ b = 2)
    (hp : C.Patches (P.logicalVal m edge) m (fun p i => C.patched p i ∧ p < P.w + 5) m') {sel : Nat}
    (hsel : (m (P.row + (m P.shf8).toNat)).toNat = sel) {i : Nat} (hi : i < P.w) :
    C.source m' (5 + i) = P.lookupSrc m edge b sel i := by
  have hn := hc.n_eq
  have halign := h.table_aligned
  have htable : P.table + 2 ^ 24 ≤ 2 ^ 32 := h.fits _ P.table_mem
  have hfix : ∀ j < 4, ¬ C.patched (5 + i) j →
      (m' (C.src (5 + i) j)).toNat = P.table / 256 ^ j % 256 := by
    intro j hj hnot
    have hsrc := hp.chain.src (5 + i) (by omega) j hj hnot
    rwa [hc.block _ (by omega), P.logicalBlock_lookup _ _ _ _ hi] at hsrc
  have hlow : (m' (C.src (5 + i) 0)).toNat = sel := by
    rw [hp.field (5 + i) 0 (by decide) ⟨by rw [hc.patched]; omega, by omega⟩, ShiftPlace.logicalVal,
      if_neg (by omega), if_pos rfl, hsel]
  have htop := hfix 3 (by decide) (by rw [hc.patched]; omega)
  rw [Chain.source_eq, hlow, htop, ShiftPlace.lookupSrc]
  rcases Nat.eq_zero_or_pos i with rfl | hpos
  · -- of the two operand bytes of the first lookup one is left as emitted
    have hother : ∀ j, j = 1 ∨ j = 2 → j ≠ b → (m' (C.src (5 + 0) j)).toNat = 0 := by
      intro j hj hne
      rw [hfix j (by omega) (by rw [hc.patched]; omega)]
      rcases hj with rfl | rfl <;> omega
    have hone : m' (C.src (5 + 0) b) = m edge := by
      rw [hp.field (5 + 0) b (by omega) ⟨by rw [hc.patched]; omega, by omega⟩, ShiftPlace.logicalVal,
        if_neg (by decide), if_neg (by omega), if_pos rfl]
    rw [if_pos rfl]
    rcases hb with rfl | rfl
    · rw [hother 2 (.inr rfl) (by decide), hone]
      omega
    · rw [hother 1 (.inl rfl) (by decide), hone]
      omega
  · have hpair : ∀ j, j = 1 ∨ j = 2 → m' (C.src (5 + i) j) = m (P.inp + (i - 1 + (j - 1))) := by
      intro j hj
      rw [hp.field (5 + i) j (by omega) ⟨by rw [hc.patched]; omega, by omega⟩,
        ShiftPlace.logicalVal, if_neg (by omega), if_neg (by omega), if_neg (by omega),
        show 5 + i - 6 = i - 1 by omega]
    rw [if_neg (by omega), hpair 1 (.inl rfl), hpair 2 (.inr rfl), show i - 1 + (1 - 1) = i - 1 by omega,
      show i - 1 + (2 - 1) = i by omega]
    omega

theorem ShiftPlace.lookupSrc_congr (P : ShiftPlace) {sel i : Nat} (hedge : m' edge = m edge)
    (hinp : ∀ j < P.w, m' (P.inp + j) = m (P.inp + j)) (hi : i < P.w) :
    P.lookupSrc m' edge b sel i = P.lookupSrc m edge b sel i := by
  rw [lookupSrc, lookupSrc, hedge, hinp i hi, hinp (i - 1) (by omega)]

/-- The zeros and the shifted bytes are in the buffer. -/
theorem Logical.run (hc : Logical C P zeros edge b dst)
    (hzeros : (⟨zeros, 2 ^ 8⟩ : Region) ∈ tables) (h : P.Apart C tables) (hb : b = 1 ∨ b = 2)
    (hedge : (⟨P.inp, P.w⟩ : Region).Mem edge) (hin : C.In m)
    (hdst : ∀ i < P.w, ∃ k < 2 * P.w, dst i = P.tmp + k)
    (hinj : ∀ i < P.w, ∀ j < P.w, dst i = dst j → i = j) {sel : Nat}
    (hsel : (m (P.row + (m P.shf8).toNat)).toNat = sel) :
    ∃ m', C.Goes E 0 (P.w + 5) (P.w + 5) m m' ∧ C.In m' ∧
      (∀ i < P.w, m' (dst i) = m (P.lookupSrc m edge b sel i)) ∧
      (∀ i < P.w, (∀ k < P.w, P.tmp + i ≠ dst k) → m' (P.tmp + i) = m (zeros + i)) ∧
      ∀ a, C.Clear a → (∀ i < P.w, a ≠ P.tmp + i) → (∀ k < P.w, a ≠ dst k) → m' a = m a := by
  have hn := hc.n_eq
  obtain ⟨m₀, hgo₀, hin₀, hzero, hkeep₀⟩ := hc.clears (E := E) hzeros h hin
  have hread₀ : ∀ {r : Region} {a : Nat}, r ∈ P.others tables → r.Mem a → m₀ a = m a :=
    h.reads fun a _ hne => hkeep₀ a fun i hi => hne i (by omega)
  have hshf : m₀ P.shf8 = m P.shf8 := hread₀ P.shf8_mem ⟨Nat.le_refl _, Nat.lt_succ_self _⟩
  have hsel₀ : (m₀ (P.row + (m₀ P.shf8).toNat)).toNat = sel := by
    rw [hshf, hread₀ P.row_mem ⟨Nat.le_add_right .., Nat.add_lt_add_left (m P.shf8).toNat_lt _⟩, hsel]
  have hsel_lt : sel < 256 := hsel ▸ (m (P.row + (m P.shf8).toNat)).toNat_lt
  obtain ⟨m₁, hgo₁, hp⟩ := hc.patches (E := E) h hb hedge hin₀
  have hread₁ : ∀ {r : Region} {a : Nat}, r ∈ P.others tables → r.Mem a → m₁ a = m a :=
    h.reads fun a ha hne => by rw [hp.clear a ha, hkeep₀ a fun i hi => hne i (by omega)]
  have hmem : ∀ i, (⟨P.table, 2 ^ 24⟩ : Region).Mem (P.lookupSrc m edge b sel i) := fun i =>
    P.lookupSrc_mem m hb hsel_lt
  have hL : Chain.Lookups C 5 P.w dst :=
    .of_linear (by omega)
      (fun i hi => ⟨_, by rw [hc.block _ (by omega), P.logicalBlock_lookup _ _ _ _ hi]⟩)
      (fun i hi => hc.next _ (by omega)) hinj fun i hi => by
        obtain ⟨k, hk, hdk⟩ := hdst i hi
        rw [hdk]
        exact h.clear_buffer hk
  obtain ⟨m₂, hgo₂, hin₂, hget, hkeep₂⟩ := h.lookups (E := E) hL hp.chain hdst
    (fun i hi => (hc.source h hb hp hsel₀ hi).trans <| P.lookupSrc_congr (hread₀ P.inp_mem hedge)
      (fun j hj => hread₀ P.inp_mem ⟨Nat.le_add_right .., Nat.add_lt_add_left hj _⟩) hi)
    fun i _ => ⟨_, P.table_mem, hmem i⟩
  refine ⟨m₂, ?_, hin₂, fun i hi => ?_, fun i hi hne => ?_, fun a ha hne hne' => ?_⟩
  · have hgo := (hgo₀.trans hgo₁).trans hgo₂
    rwa [show 1 + 4 + P.w = P.w + 5 by omega] at hgo
  · rw [hget i hi, hread₁ P.table_mem (hmem i)]
  · rw [hkeep₂ _ hne, hp.clear _ (h.clear_buffer (by omega)), hzero i hi]
  · rw [hkeep₂ a hne', hp.clear a ha, hkeep₀ a hne]

end Logical

/-! ## Bits, for `Sra` -/

/-- The chain starts with the blocks of `Sra`. -/
structure Arithmetic (C : Chain) (P : ShiftPlace) (which bufs hi : Nat) : Prop where
  z_eq : C.z = P.z
  n_eq : C.n = P.w + 10
  block : ∀ k < P.w + 10, C.f k = P.arithmeticBlock which bufs hi k
  next : ∀ k < P.w + 10, C.next k = C.pc (k + 1)
  patched : ∀ k j, C.patched k j ↔
    (k = 1 ∨ k = 2 ∨ k = 5 ∨ k = 7 ∨ k = P.w + 8 ∨ k = P.w + 9) ∧ j = 0 ∨ k = 7 ∧ j = 1 ∨
      8 ≤ k ∧ k < P.w + 7 ∧ j ≤ 2

/-- What lookup `i` of `Sra` reads, the row for the count being `sel`. -/
def ShiftPlace.signedSrc (P : ShiftPlace) (m : Memory) (hi sel i : Nat) : Nat :=
  if i = 0 then hi + (m P.shf8).toNat + 256 * (m (P.inp + (P.w - 1))).toNat
  else P.table + sel + 256 * (m (P.inp + (i - 1))).toNat + 65536 * (m (P.inp + i)).toNat

theorem Arithmetic.tail {which bufs hi : Nat} (hc : Arithmetic C P which bufs hi) (hw : 1 ≤ P.w) :
    Tail C P (P.w + 7) where
  z_eq := hc.z_eq
  n_eq := hc.n_eq
  block i hi := by rw [hc.block _ (by omega), P.arithmeticBlock_tail _ _ _ _ hw]
  next i hi := hc.next _ (by omega)
  fixed j := by
    rw [hc.patched]
    omega
  patched := by
    rw [hc.patched, hc.patched]
    omega
  upper j hj := by
    rw [hc.patched, hc.patched]
    omega

section Arithmetic

variable {which bufs hi b sel : Nat} {m' : Memory}

theorem ShiftPlace.signedSrc_congr (P : ShiftPlace) (hw : 1 ≤ P.w) {i : Nat}
    (hshf : m' P.shf8 = m P.shf8) (hinp : ∀ j < P.w, m' (P.inp + j) = m (P.inp + j)) (hi' : i < P.w) :
    P.signedSrc m' hi sel i = P.signedSrc m hi sel i := by
  rw [signedSrc, signedSrc, hshf, hinp i hi', hinp (i - 1) (by omega), hinp (P.w - 1) (by omega)]

theorem ShiftPlace.signedSrc_mem (P : ShiftPlace) (hhi : (⟨hi, 2 ^ 16⟩ : Region) ∈ tables)
    (hsel : sel < 256) (m : Memory) (i : Nat) :
    ∃ r ∈ P.others tables, r.Mem (P.signedSrc m hi sel i) := by
  have h0 := (m P.shf8).toNat_lt
  have h1 := (m (P.inp + (i - 1))).toNat_lt
  have h2 := (m (P.inp + i)).toNat_lt
  have h3 := (m (P.inp + (P.w - 1))).toNat_lt
  rw [signedSrc]
  split
  · exact ⟨_, List.mem_append_right _ hhi, by show hi ≤ _; omega, by show _ < hi + 2 ^ 16; omega⟩
  · exact ⟨_, P.table_mem, by show P.table ≤ _; omega, by show _ < P.table + 2 ^ 24; omega⟩

/-- The first three blocks: the sign in the upper half of the buffer, drawn from 16 bytes
that are the same. -/
theorem Arithmetic.signs (hc : Arithmetic C P which bufs hi)
    (hwhich : (⟨which, 2 ^ 8⟩ : Region) ∈ tables) (hbufs : (⟨bufs, 2 ^ 5⟩ : Region) ∈ tables)
    (h : P.Apart C tables) (hin : C.In m) (hwhich_al : which % 256 = 0) (hbufs_al : bufs % 32 = 0)
    (hb : b ≤ 1)
    (hsign : (m (which + (m (P.inp + (P.w - 1))).toNat)).toNat = (bufs + 16 * b) % 256) {x : UInt8}
    (hx : ∀ i < 16, m (bufs + 16 * b + i) = x) :
    ∃ m', C.Goes E 0 3 3 m m' ∧ C.In m' ∧ (∀ i < P.w, m' (P.tmp + P.w + i) = x) ∧
      ∀ a, C.Clear a → (∀ i < P.w, a ≠ P.tmp + P.w + i) → m' a = m a := by
  have hn := hc.n_eq
  have hz := hc.z_eq
  have hw := h.w_le
  have hw' := h.w_ge
  have htmp := h.tmp_fits
  have hsrc : ∀ k j, srcField P.z k j = C.src k j := fun k j => by rw [← hz]; rfl
  have hwhich' : (⟨which, 2 ^ 8⟩ : Region) ∈ P.others tables := List.mem_append_right _ hwhich
  have hbufs' : (⟨bufs, 2 ^ 5⟩ : Region) ∈ P.others tables := List.mem_append_right _ hbufs
  have hwhich_fits : which + 2 ^ 8 ≤ 2 ^ 32 := h.fits _ hwhich'
  have hbufs_fits : bufs + 2 ^ 5 ≤ 2 ^ 32 := h.fits _ hbufs'
  have hbufs_out : bufs + 2 ^ 5 ≤ P.tmp ∨ P.tmp + 2 * P.w ≤ bufs := h.apart _ hbufs'
  have hinp : P.inp + P.w ≤ 2 ^ 32 := h.fits _ P.inp_mem
  have hlt := (m (P.inp + (P.w - 1))).toNat_lt
  have hb0 := hc.block 0 (by omega)
  have hb1 := hc.block 1 (by omega)
  have hb2 := hc.block 2 (by omega)
  let val : Nat → Nat → UInt8 := fun p _ =>
    if p = 1 then m (P.inp + (P.w - 1)) else m (which + (m (P.inp + (P.w - 1))).toNat)
  -- the highest byte of the operand
  have hs0 : C.source m 0 = P.inp + (P.w - 1) := by
    rw [hin.source_fixed (by omega) (by rw [hb0]; show P.inp + (P.w - 1) < _; omega)
      (fun j _ => by rw [hc.patched]; omega), hb0]
    rfl
  obtain ⟨m₁, hgo₁, hp₁⟩ := (Chain.Patches.start hin val).patch (E := E) (k := 0) (p := 1) (j := 0)
    (by omega) (by rw [hb0, ← hsrc]; exact Chain.linear_isByte ..) hs0 (h.inp_clear (by omega))
    (by omega) (by decide) (by rw [hc.patched]; omega) rfl (hc.next 0 (by omega))
  -- it selects the sign
  have hs1 : C.source m₁ 1 = which + (m (P.inp + (P.w - 1))).toNat :=
    source_of_aligned hp₁.chain (by omega) (by rw [hb1]; rfl) hwhich_al (by omega)
      (fun j hj => by rw [hc.patched]; omega)
      (by rw [hp₁.field 1 0 (by decide) (.inr ⟨rfl, rfl⟩)]; rfl)
  obtain ⟨m₂, hgo₂, hp₂⟩ := hp₁.patch (E := E) (k := 1) (p := 2) (j := 0) (by omega)
    (by rw [hb1, ← hsrc]; exact Chain.linear_isByte ..) hs1
    (h.clear hwhich' ⟨Nat.le_add_right .., Nat.add_lt_add_left hlt _⟩) (by omega) (by decide)
    (by rw [hc.patched]; omega) rfl (hc.next 1 (by omega))
  have hlow : (m₂ (C.src 2 0)).toNat = (bufs + 16 * b) % 256 := by
    rw [hp₂.field 2 0 (by decide) (.inr ⟨rfl, rfl⟩)]
    exact hsign
  have hs2 : C.source m₂ 2 = bufs + 16 * b := by
    rw [source_of_low hp₂.chain (by omega) (by rw [hb2]; rfl) (show bufs < 2 ^ 32 by omega)
      (fun j hj => by rw [hc.patched]; omega) hlow]
    omega
  have hmove : Chain.IsMove (C.f 2) TI_DST_INC (P.tmp + P.w) bufs P.w := by
    rw [hb2]
    exact Chain.linear_isMove ..
  have hbuf_clear : ∀ i < P.w, C.Clear (P.tmp + P.w + i) := fun i hi => by
    rw [Nat.add_assoc]
    exact h.clear_buffer (by omega)
  obtain ⟨m₃, hgo₃, hin₃, hget, hkeep⟩ := hp₂.chain.fill (E := E) (k := 2) (l := 3) (x := x)
    (by omega) hmove hw' hs2 (by omega) (by omega)
    (by show bufs + 16 * b + 16 ≤ P.tmp + P.w ∨ P.tmp + P.w + P.w ≤ bufs + 16 * b; omega)
    (fun i hi => by
      have hmem : (⟨bufs, 2 ^ 5⟩ : Region).Mem (bufs + 16 * b + i) :=
        ⟨by show bufs ≤ _; omega, by show _ < bufs + 2 ^ 5; omega⟩
      rw [hp₂.clear _ (h.clear hbufs' hmem)]
      exact hx i hi) hbuf_clear (hc.next 2 (by omega))
  refine ⟨m₃, (hgo₁.trans hgo₂).trans hgo₃, hin₃, hget, fun a ha hne => ?_⟩
  rw [hkeep a hne, hp₂.clear a ha]

/-- What the source bytes patched behind them and in front of the last three blocks hold. -/
def ShiftPlace.arithmeticVal (P : ShiftPlace) (m : Memory) (p i : Nat) : UInt8 :=
  if p = 5 then m P.shf8
  else if p = 7 then if i = 0 then m P.shf8 else m (P.inp + (P.w - 1))
  else if i = 0 then m (P.row + (m P.shf8).toNat)
  else m (P.inp + (p - 8 + (i - 1)))

/-- The next four blocks patch all source bytes of the lookups. -/
theorem Arithmetic.patches (hc : Arithmetic C P which bufs hi) (h : P.Apart C tables)
    (hin : C.In m) :
    ∃ m', C.Goes E 3 7 4 m m' ∧
      C.Patches (P.arithmeticVal m) m (fun p i => C.patched p i ∧ 5 ≤ p ∧ p < P.w + 7) m' := by
  have hn := hc.n_eq
  have hz := hc.z_eq
  have hw := h.w_le
  have hw' := h.w_ge
  have hsrc : ∀ k j, srcField P.z k j = C.src k j := fun k j => by rw [← hz]; rfl
  have hshf : P.shf8 + 1 ≤ 2 ^ 32 := h.fits _ P.shf8_mem
  have hinp : P.inp + P.w ≤ 2 ^ 32 := h.fits _ P.inp_mem
  have hinp' : P.inp + P.w ≤ C.z ∨ C.z + 32 * C.n ≤ P.inp := h.code _ P.inp_mem
  have hrow : P.row + 2 ^ 8 ≤ 2 ^ 32 := h.fits _ P.row_mem
  have hcode := C.fits
  have hb3 := hc.block 3 (by omega)
  have hb4 := hc.block 4 (by omega)
  have hb5 := hc.block 5 (by omega)
  have hb6 := hc.block 6 (by omega)
  -- the operand, in pairs
  obtain ⟨m₁, hgo₁, hp₁⟩ := (Chain.Patches.start hin (P.arithmeticVal m)).pairs (E := E) (k := 3)
    (S := P.inp) (u := 8) (r := P.w - 1) (by omega)
    (by rw [hb3, ← hsrc]; exact Chain.strided_isPairs ..) (by omega) (by omega)
    (fun i hi => by rw [hc.patched, hc.patched]; omega) (fun j _ => by rw [hc.patched]; omega)
    (by omega) (fun i hi => h.inp_clear (by omega))
    (fun i hi => by
      simp [ShiftPlace.arithmeticVal, show 8 + i ≠ 5 by omega, show 8 + i ≠ 7 by omega])
    (hc.next 3 (by omega))
  -- the count, for the row and for the first lookup
  have hs4 : C.source m₁ 4 = P.shf8 := by
    rw [hp₁.chain.source_fixed (by omega) (by rw [hb4]; exact hshf)
      (fun j _ => by rw [hc.patched]; omega), hb4]
    rfl
  obtain ⟨m₂, hgo₂, hp₂⟩ := hp₁.spread (E := E) (k := 4) (u := 5) (j := 0) (r := 2) (D := 2)
    (by omega) (by rw [hb4, ← hsrc]; exact Chain.strided_isSpread (D := 63) (by decide) ..) hs4
    h.shf8_clear (by decide) (by decide) (fun i hi => by omega) (by decide)
    (fun i hi => by rw [hc.patched]; omega)
    (fun i hi => by
      rcases Nat.lt_succ_iff_lt_or_eq.mp hi with hzero | rfl
      · rw [Nat.lt_one_iff.mp hzero]
        rfl
      · rfl)
    (hc.next 4 (by omega))
  -- the row, in all lookups but the first
  have hs5 : C.source m₂ 5 = P.row + (m P.shf8).toNat := by
    have hlt := (m P.shf8).toNat_lt
    refine source_of_aligned hp₂.chain (by omega) (by rw [hb5]; rfl) h.row_aligned (by omega)
      (fun j hj => by rw [hc.patched]; omega) ?_
    rw [hp₂.field 5 0 (by decide) (.inr ⟨⟨0, by decide, rfl⟩, rfl⟩)]
    rfl
  obtain ⟨m₃, hgo₃, hp₃⟩ := hp₂.spread (E := E) (k := 5) (u := 8) (j := 0) (r := P.w - 1) (D := 1)
    (by omega) (by rw [hb5, ← hsrc]; exact Chain.strided_isSpread (D := 31) (by decide) ..) hs5
    (h.row_clear _) (by omega) (by decide) (fun i hi => by omega) (by decide)
    (fun i hi => by rw [hc.patched]; omega)
    (fun i hi => by
      simp [ShiftPlace.arithmeticVal, show 8 + i ≠ 5 by omega, show 8 + i ≠ 7 by omega])
    (hc.next 5 (by omega))
  -- the byte of the first lookup
  have hs6 : C.source m₃ 6 = P.inp + (P.w - 1) := by
    rw [hp₃.chain.source_fixed (by omega) (by rw [hb6]; show P.inp + (P.w - 1) < _; omega)
      (fun j _ => by rw [hc.patched]; omega), hb6]
    rfl
  obtain ⟨m₄, hgo₄, hp₄⟩ := hp₃.patch (E := E) (k := 6) (p := 7) (j := 1) (by omega)
    (by rw [hb6, ← hsrc]; exact Chain.linear_isByte ..) hs6 (h.inp_clear (by omega)) (by omega)
    (by decide) (by rw [hc.patched]; omega) rfl (hc.next 6 (by omega))
  refine ⟨m₄, ((hgo₁.trans hgo₂).trans hgo₃).trans hgo₄, hp₄.mono fun p i hi hpi => ?_⟩
  rw [hc.patched] at hpi
  obtain ⟨hpatched, hlo, hhi⟩ := hpi
  rcases hpatched with ⟨hp, rfl⟩ | ⟨rfl, rfl⟩ | ⟨hlater, -, hj⟩
  · obtain rfl | rfl : p = 5 ∨ p = 7 := by omega
    · exact .inl (.inl (.inr ⟨⟨0, by decide, rfl⟩, rfl⟩))
    · exact .inl (.inl (.inr ⟨⟨1, by decide, rfl⟩, rfl⟩))
  · exact .inr ⟨rfl, rfl⟩
  · rcases Nat.eq_zero_or_pos i with rfl | hpos
    · exact .inl (.inr ⟨⟨p - 8, by omega, by omega⟩, rfl⟩)
    · exact .inl (.inl (.inl (.inr ⟨⟨p - 8, by omega, by omega⟩, by omega⟩)))

/-- What the lookups read then. -/
theorem Arithmetic.source (hc : Arithmetic C P which bufs hi) (h : P.Apart C tables)
    (hhi : (⟨hi, 2 ^ 16⟩ : Region) ∈ tables) (hhi_al : hi % 2 ^ 16 = 0)
    (hp : C.Patches (P.arithmeticVal m) m (fun p i => C.patched p i ∧ 5 ≤ p ∧ p < P.w + 7) m')
    (hsel : (m (P.row + (m P.shf8).toNat)).toNat = sel) {i : Nat} (hi' : i < P.w) :
    C.source m' (7 + i) = P.signedSrc m hi sel i := by
  have hn := hc.n_eq
  have hfits : hi + 2 ^ 16 ≤ 2 ^ 32 := h.fits _ (List.mem_append_right _ hhi)
  have halign := h.table_aligned
  have htable : P.table + 2 ^ 24 ≤ 2 ^ 32 := h.fits _ P.table_mem
  have hfield : ∀ j ≤ 2, C.patched (7 + i) j → m' (C.src (7 + i) j) = P.arithmeticVal m (7 + i) j :=
    fun j hj hpj => hp.field (7 + i) j (by omega) ⟨hpj, by omega, by omega⟩
  rw [Chain.source_eq, ShiftPlace.signedSrc]
  rcases Nat.eq_zero_or_pos i with rfl | hpos
  · have hfix : ∀ j, j = 2 ∨ j = 3 → (m' (C.src (7 + 0) j)).toNat = hi / 256 ^ j % 256 := by
      intro j hj
      have hsrc := hp.chain.src (7 + 0) (by omega) j (by omega) (by rw [hc.patched]; omega)
      rw [hc.block _ (by omega)] at hsrc
      exact hsrc
    rw [if_pos rfl, hfield 0 (by decide) (by rw [hc.patched]; omega),
      hfield 1 (by decide) (by rw [hc.patched]; omega), hfix 2 (.inl rfl), hfix 3 (.inr rfl)]
    show (m P.shf8).toNat + 256 * (m (P.inp + (P.w - 1))).toNat + _ + _ = _
    omega
  · have htop : (m' (C.src (7 + i) 3)).toNat = P.table / 256 ^ 3 % 256 := by
      have hsrc := hp.chain.src (7 + i) (by omega) 3 (by decide) (by rw [hc.patched]; omega)
      rw [show 7 + i = 8 + (i - 1) by omega] at hsrc ⊢
      rwa [hc.block _ (by omega), P.arithmeticBlock_lookup _ _ _ (by omega)] at hsrc
    have hlow : m' (C.src (7 + i) 0) = m (P.row + (m P.shf8).toNat) := by
      rw [hfield 0 (by decide) (by rw [hc.patched]; omega), ShiftPlace.arithmeticVal,
        if_neg (by omega), if_neg (by omega), if_pos rfl]
    have hpair : ∀ j, j = 1 ∨ j = 2 → m' (C.src (7 + i) j) = m (P.inp + (i - 1 + (j - 1))) := by
      intro j hj
      rw [hfield j (by omega) (by rw [hc.patched]; omega), ShiftPlace.arithmeticVal,
        if_neg (by omega), if_neg (by omega), if_neg (by omega), show 7 + i - 8 = i - 1 by omega]
    rw [if_neg (by omega), hlow, hsel, hpair 1 (.inl rfl), hpair 2 (.inr rfl), htop,
      show i - 1 + (1 - 1) = i - 1 by omega, show i - 1 + (2 - 1) = i by omega]
    omega

/-- The lookups of `Sra`. -/
theorem Arithmetic.lookups (hc : Arithmetic C P which bufs hi) (h : P.Apart C tables) :
    Chain.Lookups C 7 P.w (ShiftPlace.lookupDst P.tmp (P.w - 1) 0) := by
  have hn := hc.n_eq
  have hw := h.w_ge
  refine .of_linear (z := P.z) (by omega) (fun i hi => ?_) (fun i hi => hc.next _ (by omega))
    (fun i hi j hj heq => ?_) fun i hi => ?_
  · rcases Nat.eq_zero_or_pos i with rfl | hpos
    · exact ⟨_, hc.block 7 (by omega)⟩
    · refine ⟨P.table, ?_⟩
      rw [hc.block _ (by omega), show 7 + i = 8 + (i - 1) by omega,
        P.arithmeticBlock_lookup _ _ _ (by omega), ShiftPlace.lookupDst, if_neg (by omega),
        Nat.zero_add]
  · simp only [ShiftPlace.lookupDst] at heq
    split at heq <;> split at heq <;> omega
  · rw [ShiftPlace.lookupDst]
    exact h.clear_buffer (by split <;> omega)

/-- The sign and the shifted bytes are in the buffer. -/
theorem Arithmetic.run (hc : Arithmetic C P which bufs hi)
    (hwhich : (⟨which, 2 ^ 8⟩ : Region) ∈ tables) (hbufs : (⟨bufs, 2 ^ 5⟩ : Region) ∈ tables)
    (hhi : (⟨hi, 2 ^ 16⟩ : Region) ∈ tables) (h : P.Apart C tables) (hin : C.In m)
    (hwhich_al : which % 256 = 0) (hbufs_al : bufs % 32 = 0) (hhi_al : hi % 2 ^ 16 = 0)
    (hsel : (m (P.row + (m P.shf8).toNat)).toNat = sel) (hb : b ≤ 1)
    (hsign : (m (which + (m (P.inp + (P.w - 1))).toNat)).toNat = (bufs + 16 * b) % 256) {x : UInt8}
    (hx : ∀ i < 16, m (bufs + 16 * b + i) = x) :
    ∃ m', C.Goes E 0 (P.w + 7) (P.w + 7) m m' ∧ C.In m' ∧
      (∀ i < P.w, m' (ShiftPlace.lookupDst P.tmp (P.w - 1) 0 i) = m (P.signedSrc m hi sel i)) ∧
      (∀ i < P.w, m' (P.tmp + P.w + i) = x) ∧
      ∀ a, C.Clear a → (∀ i < 2 * P.w, a ≠ P.tmp + i) → m' a = m a := by
  have hw := h.w_ge
  have hdst : ∀ i < P.w, ∃ k < P.w, ShiftPlace.lookupDst P.tmp (P.w - 1) 0 i = P.tmp + k := by
    intro i hi
    rw [ShiftPlace.lookupDst]
    split
    · exact ⟨P.w - 1, by omega, rfl⟩
    · exact ⟨0 + (i - 1), by omega, rfl⟩
  obtain ⟨m₀, hgo₀, hin₀, hsext, hkeep₀⟩ := hc.signs (E := E) hwhich hbufs h hin hwhich_al hbufs_al hb
    hsign hx
  have hkept₀ : ∀ a, C.Clear a → (∀ i < 2 * P.w, a ≠ P.tmp + i) → m₀ a = m a := fun a ha hne =>
    hkeep₀ a ha fun i hi => by
      rw [Nat.add_assoc]
      exact hne _ (by omega)
  have hread₀ : ∀ {r : Region} {a : Nat}, r ∈ P.others tables → r.Mem a → m₀ a = m a :=
    h.reads hkept₀
  have hshf : m₀ P.shf8 = m P.shf8 := hread₀ P.shf8_mem ⟨Nat.le_refl _, Nat.lt_succ_self _⟩
  have hsel₀ : (m₀ (P.row + (m₀ P.shf8).toNat)).toNat = sel := by
    rw [hshf, hread₀ P.row_mem ⟨Nat.le_add_right .., Nat.add_lt_add_left (m P.shf8).toNat_lt _⟩, hsel]
  have hsel_lt : sel < 256 := hsel ▸ (m (P.row + (m P.shf8).toNat)).toNat_lt
  obtain ⟨m₁, hgo₁, hp⟩ := hc.patches (E := E) h hin₀
  have hread₁ : ∀ {r : Region} {a : Nat}, r ∈ P.others tables → r.Mem a → m₁ a = m a :=
    h.reads fun a ha hne => by rw [hp.clear a ha, hkept₀ a ha hne]
  obtain ⟨m₂, hgo₂, hin₂, hget, hkeep₂⟩ := h.lookups (E := E) (hc.lookups h) hp.chain
    (fun i hi => by
      obtain ⟨k, hk, hdk⟩ := hdst i hi
      exact ⟨k, by omega, hdk⟩)
    (fun i hi => (hc.source h hhi hhi_al hp hsel₀ hi).trans <| P.signedSrc_congr (by omega) hshf
      (fun j hj => hread₀ P.inp_mem ⟨Nat.le_add_right .., Nat.add_lt_add_left hj _⟩) hi)
    fun i _ => P.signedSrc_mem hhi hsel_lt m i
  refine ⟨m₂, ?_, hin₂, fun i hi => ?_, fun i hi => ?_, fun a ha hne => ?_⟩
  · have hgo := (hgo₀.trans hgo₁).trans hgo₂
    rwa [show 3 + 4 + P.w = P.w + 7 by omega] at hgo
  · obtain ⟨r, hr, hri⟩ := P.signedSrc_mem hhi hsel_lt m i
    rw [hget i hi, hread₁ hr hri]
  · have hclear : C.Clear (P.tmp + P.w + i) := by
      rw [Nat.add_assoc]
      exact h.clear_buffer (by omega)
    rw [hkeep₂ _ fun t ht => by
      obtain ⟨k, hk, hdk⟩ := hdst t ht
      omega, hp.clear _ hclear, hsext i hi]
  · rw [hkeep₂ _ fun t ht => by
      obtain ⟨k, hk, hdk⟩ := hdst t ht
      rw [hdk]
      exact hne k (by omega), hp.clear a ha, hkept₀ a ha hne]

end Arithmetic

end Bcm2835.Dma

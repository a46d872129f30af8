import Bcm2835.Dma.Theorems.Shifts
import Bcm2835.Dma.Theorems.Signed

/-!
# Arithmetic shifts

`Sra` is right for every width it takes. The sign fills the upper half of its buffer
from 16 bytes that are all the same, so that widths above 16 make no difference to a
transfer that draws from only 16 bytes.
-/

namespace Bcm2835.Dma

open Mem Digits EmitCtx

/-- The tables of `Sra`. -/
def Layout.sraTables (L : Layout) : List Region :=
  [L.hyper, onBus L.SRL_HYPER_SELECT (2 ^ 8), onBus L.SEXT_WHICH (2 ^ 8), onBus L.SEXT_BUFS (2 ^ 5),
    onBus L.SRA_HI (2 ^ 16)]

theorem Layout.sraTables_fits (L : Layout) : ∀ t ∈ L.sraTables, t.start + t.size ≤ 2 ^ 32 := by
  intro t ht
  simp only [sraTables, List.mem_cons, List.not_mem_nil, or_false] at ht
  rcases ht with rfl | rfl | rfl | rfl | rfl
  · exact onBus_fits (L.in_dram ⟨L.HYPER, 2 ^ 24⟩ (by simp))
  · exact onBus_fits (L.in_dram ⟨L.SRL_HYPER_SELECT, 2 ^ 8⟩ (by simp))
  · exact onBus_fits (L.in_dram ⟨L.SEXT_WHICH, 2 ^ 8⟩ (by simp))
  · exact onBus_fits (L.in_dram ⟨L.SEXT_BUFS, 2 ^ 5⟩ (by simp))
  · exact onBus_fits (L.in_dram ⟨L.SRA_HI, 2 ^ 16⟩ (by simp))

/-! ## Digits -/

/-- Every digit to the left of a number is this one. -/
def signDigit (top : Nat) : Int := if top < 128 then 0 else 255

section Digits

variable {m : Memory} {inp w s : Nat}

theorem idigit_snum (hw : 1 ≤ w) {i : Nat} (hi : w ≤ i) :
    idigit (snum m inp w) i = signDigit (m (inp + (w - 1))).toNat := by
  obtain ⟨n, rfl⟩ : ∃ n, w = n + 1 := ⟨w - 1, by omega⟩
  rw [snum, idigit_signed_of_le _ hi]
  rfl

/-- The sign shifted right goes on to the left. -/
theorem idigit_snum_shift (hw : 1 ≤ w) (hs : s < 8) {i : Nat} (hi : w ≤ i) :
    idigit (snum m inp w / 2 ^ s) i = signDigit (m (inp + (w - 1))).toNat := by
  rw [idigit_shift _ (by omega), idigit_snum hw hi, idigit_snum hw (show w ≤ i + 1 by omega)]
  unfold signDigit
  split <;> interval_cases s <;> decide

/-- A signed byte, shifted, is the byte with its sign behind it. -/
theorem bmod_shift {t : Nat} (ht : t < 256) (hs : s < 8) :
    Int.bmod t 256 / 2 ^ s % 256 = ((t : Int) + 256 * signDigit t) / 2 ^ s % 256 := by
  have hbmod : Int.bmod t 256 = if t < 128 then (t : Int) else t - 256 := by
    rw [Int.bmod_def]
    split <;> split <;> omega
  rw [hbmod, signDigit]
  split <;> interval_cases s <;> omega

/-- A shift to the right stays in range. -/
theorem snum_div_range (m : Memory) (inp w k : Nat) :
    -(256 ^ w : Int) ≤ 2 * (snum m inp w / 2 ^ k) ∧ 2 * (snum m inp w / 2 ^ k) < 256 ^ w := by
  obtain ⟨hlo, hhi⟩ := signed_range (fun i => m (inp + i)) w
  have hpos : (0 : Int) < 2 ^ k := by positivity
  show _ ≤ 2 * (signed _ w / 2 ^ k) ∧ _
  rcases Int.lt_or_le (signed (fun i => m (inp + i)) w) 0 with hneg | hnonneg
  · have hle : signed (fun i => m (inp + i)) w ≤ signed (fun i => m (inp + i)) w / 2 ^ k := by
      rw [Int.le_ediv_iff_mul_le hpos]
      nlinarith
    have hlt : signed (fun i => m (inp + i)) w / 2 ^ k < 0 := Int.ediv_neg_of_neg_of_pos hneg hpos
    have hpow : (0 : Int) < 256 ^ w := by positivity
    exact ⟨by omega, by show 2 * (signed _ w / 2 ^ k) < _; omega⟩
  · have hle : signed (fun i => m (inp + i)) w / 2 ^ k ≤ signed (fun i => m (inp + i)) w :=
      Int.ediv_le_self _ hnonneg
    have hge : 0 ≤ signed (fun i => m (inp + i)) w / 2 ^ k := Int.ediv_nonneg hnonneg hpos.le
    have hpow : (0 : Int) < 256 ^ w := by positivity
    exact ⟨by omega, by show 2 * (signed _ w / 2 ^ k) < _; omega⟩

end Digits

/-! ## Runs -/

/-- One run of `Sra`. -/
theorem sra_run {E : Engine} {C : Chain} {P : ShiftPlace} {tables : List Region} {m : Memory}
    {which bufs hi : Nat} (hc : Arithmetic C P which bufs hi)
    (hwhich : (⟨which, 2 ^ 8⟩ : Region) ∈ tables) (hbufs : (⟨bufs, 2 ^ 5⟩ : Region) ∈ tables)
    (hhi : (⟨hi, 2 ^ 16⟩ : Region) ∈ tables) (h : P.Apart C tables) (hin : C.In m)
    (hwhich_al : which % 256 = 0) (hbufs_al : bufs % 32 = 0) (hhi_al : hi % 2 ^ 16 = 0)
    (hrow : ∀ x < 2 ^ 16, ∀ s < 8, (m (P.table + (x * 256 + HYPER_SRL + s))).toNat = x >>> s % 256)
    (hsel : ∀ c < 256, (m (P.row + c)).toNat = HYPER_SRL + c % 8)
    (hsign : ∀ t < 256, (m (which + t)).toNat = (bufs + 16 * (if t < 128 then 0 else 1)) % 256)
    (hbyte : ∀ b ≤ 1, ∀ k < 16, (m (bufs + 16 * b + k)).toNat = 255 * b)
    (htop : ∀ t < 256, ∀ c < 256, ((m (hi + (t * 256 + c))).toNat : Int) =
      Int.bmod t 256 / 2 ^ (c % 8) % 256)
    (hselect : ∀ c < 256, (m (P.select + c)).toNat = c / 8 % P.w) :
    ∃ m', after E C.n ⟨C.z, m⟩ = ⟨C.exit, m'⟩ ∧ C.In m' ∧ P.Leaves C m m' ∧
      snum m' P.ret P.w = snum m P.inp P.w / 2 ^ ((m P.shf8).toNat % (8 * P.w)) := by
  have hw := h.w_ge
  have hw' := h.w_le
  have hc256 : (m P.shf8).toNat < 256 := (m P.shf8).toNat_lt
  have ht256 : (m (P.inp + (P.w - 1))).toNat < 256 := (m (P.inp + (P.w - 1))).toNat_lt
  generalize hcount : (m P.shf8).toNat = c at hc256 ⊢
  have hk := bytes_lt c hw
  have hs : c % 8 < 8 := Nat.mod_lt _ (by decide)
  have hsel' : (m (P.row + (m P.shf8).toNat)).toNat = HYPER_SRL + c % 8 := by
    rw [hcount, hsel c hc256]
  have hselect' : (m (P.select + (m P.shf8).toNat)).toNat = c / 8 % P.w := by
    rw [hcount, hselect c hc256]
  have hb : (if (m (P.inp + (P.w - 1))).toNat < 128 then 0 else 1) ≤ 1 := by split <;> omega
  -- the sign fills 16 bytes
  have hx : ∀ i < 16, m (bufs + 16 * (if (m (P.inp + (P.w - 1))).toNat < 128 then 0 else 1) + i) =
      .ofNat (255 * (if (m (P.inp + (P.w - 1))).toNat < 128 then 0 else 1)) := by
    intro i hi
    apply UInt8.toNat_inj.mp
    rw [hbyte _ hb i hi]
    split <;> rfl
  obtain ⟨m₁, m', hrun, hin', hret, hleaves, hbits, hsext⟩ := hc.finish (E := E) hwhich hbufs hhi h hin
    hwhich_al hbufs_al hhi_al hsel' hb (hsign _ ht256) hx hselect' (Nat.le_of_lt hk)
  refine ⟨m', hrun, hin', hleaves, ?_⟩
  have hX : ∀ i < P.w, idigit (snum m P.inp P.w) i = (m (P.inp + i)).toNat := fun i hi =>
    idigit_signed (fun i => m (P.inp + i)) hi
  have hlow : ∀ j < P.w, ((m₁ (P.tmp + j)).toNat : Int) = idigit (snum m P.inp P.w / 2 ^ (c % 8)) j := by
    intro j hj
    rcases Nat.lt_or_ge (j + 1) P.w with hlt | hge
    · have hat : P.signedSrc m hi (HYPER_SRL + c % 8) (j + 1) =
          P.lookupSrc m P.inp 1 (HYPER_SRL + c % 8) (j + 1) := by
        rw [ShiftPlace.signedSrc, ShiftPlace.lookupSrc, if_neg (by omega), if_neg (by omega), Nat.add_assoc]
      rw [← lookupDst_srl_succ P.tmp P.w j, hbits (j + 1) hlt, hat]
      exact srl_lookup hlt hs hX hrow
    · obtain rfl : j = P.w - 1 := by omega
      have hat : P.signedSrc m hi (HYPER_SRL + c % 8) 0 =
          hi + ((m (P.inp + (P.w - 1))).toNat * 256 + c) := by
        rw [ShiftPlace.signedSrc, if_pos rfl, hcount]
        omega
      rw [← lookupDst_srl_zero P.tmp P.w, hbits 0 (by omega), hat, htop _ ht256 c hc256,
        bmod_shift ht256 hs, idigit_shift _ (by omega), hX _ (by omega),
        idigit_snum (by omega) (show P.w ≤ P.w - 1 + 1 by omega)]
  have hdigit : ∀ i < P.w, ((m' (P.ret + i)).toNat : Int) =
      idigit (snum m P.inp P.w / 2 ^ (c % (8 * P.w))) i := by
    intro i hi
    rw [hret i hi, two_pow_count, ← Int.ediv_ediv_of_nonneg (by positivity), idigit_div_pow]
    rcases Nat.lt_or_ge (c / 8 % P.w + i) P.w with hin | hout
    · rw [Nat.add_assoc]
      exact hlow _ hin
    · have hat : P.tmp + c / 8 % P.w + i = P.tmp + P.w + (c / 8 % P.w + i - P.w) := by omega
      rw [hat, hsext _ (by omega), idigit_snum_shift (by omega) hs hout, signDigit]
      split <;> rfl
  obtain ⟨hlo, hhi⟩ := snum_div_range m P.inp P.w (c % (8 * P.w))
  exact signed_of_idigits hdigit hlo hhi

/-! ## Calls -/

/-- The initializers of the tables of `Sra`. -/
def init_sra_tables (L : Layout) : List (Nat × UInt8) := init_srl L ++ (init_sext L ++ init_sra L)

theorem mem_sra_tables {L : Layout} {x : Nat × UInt8} (hx : x ∈ init_sra_tables L) :
    Region.Any L.sraTables x.1 := by
  rcases List.mem_append.mp hx with hx | hx
  · exact mem_shift_tables (by decide) List.mem_cons_self (List.mem_cons_of_mem _ List.mem_cons_self) hx
  rcases List.mem_append.mp hx with hx | hx
  · have hwhich : onBus L.SEXT_WHICH (2 ^ 8) ∈ L.sraTables := by simp [Layout.sraTables]
    have hbufs : onBus L.SEXT_BUFS (2 ^ 5) ∈ L.sraTables := by simp [Layout.sraTables]
    rcases mem_init_sext hx with ⟨hlo, hhi⟩ | ⟨hlo, hhi⟩
    · exact ⟨_, hwhich, hlo, hhi⟩
    · exact ⟨_, hbufs, hlo, hhi⟩
  · have hsra : onBus L.SRA_HI (2 ^ 16) ∈ L.sraTables := by simp [Layout.sraTables]
    exact ⟨_, hsra, mem_init_sra hx⟩

/-- `Sra` shifts a number in two's complement to the right, rounding down, on every run
of the chain, whatever its buffer holds and wherever the result is. -/
theorem sra_computes (E : Engine) (L : Layout) {h : Host} {w ret inp shf8 : Nat} (hs : h.Sound)
    (hmono : h.MonoRoom 2) (hw : 2 ≤ w) (hw' : w ≤ 127)
    (harena : h.arena.Room (255 + 2 * w + 255 + 256)) (hroom : h.ctx.Room (w + 10))
    (hp : ShiftPlacement h L.sraTables (w + 10) w ret inp shf8) :
    ∃ h', Sra L h w ret inp shf8 = some h' ∧
      (∀ k < 256, h'.mem (h.shiftTable.start + k) = .ofNat (k / 8 % w)) ∧
      Computes E h.ctx (some h'.ctx) (Region.Any (h.shiftTable :: L.sraTables))
        (ShiftReady h h' (init_sra_tables L))
        (fun m m' => snum m' ret w = snum m inp w / 2 ^ ((m shf8).toNat % (8 * w))) := by
  have hlabel := hroom.label_lt
  have hpos : 0 < h.ctx.label := by
    show 0 < h.ctx.p + BUS_DRAM_BASE
    exact Nat.add_pos_right _ (by decide)
  have hfits : h.ctx.label + 32 * (w + 10) ≤ 2 ^ 32 := by omega
  have hbase : BUS_DRAM_BASE % 2 ^ 16 = 0 := by decide
  have hinp : inp + w ≤ 2 ^ 32 := hp.place.input_fits ⟨inp, w⟩ (by simp)
  have hwhich_al := L.sext_which_aligned
  have hbufs_al := L.sext_bufs_aligned
  have hhi_al := L.sra_hi_aligned
  rw [← Nat.zero_add (255 + 2 * w + 255 + 256)] at harena
  obtain ⟨select, tmp, h', hcall, hb, hctx⟩ := Sra_eq (n := 0) (r := 0) L hs hmono hw hw'
    (by simpa only [Nat.add_assoc] using harena) hroom hinp
  have hrow : onBus L.SRL_HYPER_SELECT (2 ^ 8) ∈ L.sraTables :=
    List.mem_cons_of_mem _ List.mem_cons_self
  have hwhich : onBus L.SEXT_WHICH (2 ^ 8) ∈ L.sraTables := by simp [Layout.sraTables]
  have hbufs : onBus L.SEXT_BUFS (2 ^ 5) ∈ L.sraTables := by simp [Layout.sraTables]
  have hhi : onBus L.SRA_HI (2 ^ 16) ∈ L.sraTables := by simp [Layout.sraTables]
  have hbytes : ∀ c, c / 8 % w < 256 := fun c => (bytes_lt c hw).trans (by omega)
  refine ⟨h', hcall, hb.entry_at, ?_⟩
  have hapart : (shiftPlace L h L.SRL_HYPER_SELECT w ret inp shf8 select tmp).Apart
      ((shiftPlace L h L.SRL_HYPER_SELECT w ret inp shf8 select tmp).arithmeticChain
        (L.SEXT_WHICH + BUS_DRAM_BASE) (L.SEXT_BUFS + BUS_DRAM_BASE) (L.SRA_HI + BUS_DRAM_BASE) 0 hpos
        hfits) L.sraTables :=
    hb.apart hw hw' rfl rfl L.srl_select_aligned List.mem_cons_self hrow L.sraTables_fits hp.place hp.free
  have hkept := hb.kept L L.SRL_HYPER_SELECT hp
  refine hapart.computes hroom rfl rfl (Nat.succ_pos _) (congrArg some hctx) (fun t ht => (hkept t ht).1)
    (fun t ht => (hkept t ht).2) ?_ ?_
  · intro m m' hsame hready
    exact hready.congr (fun x hx => mem_sra_tables hx) hsame
  · intro m hin hready
    have hsrl : Has m (init_srl L) := hready.1.of_append_left
    have hsext : Has m (init_sext L) := hready.1.of_append_right.of_append_left
    have hsra : Has m (init_sra L) := hready.1.of_append_right.of_append_right
    refine sra_run (ShiftPlace.arithmeticChain_arithmetic (show 1 ≤ w by omega)) hwhich hbufs hhi hapart hin
      (by omega) (by omega) (by omega) (fun x hx s hs => hsrl.shift_row (by decide) hx hs)
      (fun c hc => hsrl.shift_select (by decide) hc) (fun t ht => ?_) (fun b hb k hk => ?_)
      (fun t ht c hc => hsra.sra ht hc) (fun c hc => hready.select hb hc (hbytes c))
    · rw [hsext.sext_which ht]
      omega
    · rw [Nat.add_assoc]
      exact hsext.sext_bufs hb hk

/-- 0x81ff >> 9 = 0xffc0, a negative number, in the place of the operand. -/
theorem sra_computes_sample : ∃ m', Halts Engine.sample
    (program Layout.sample EmitCtx.sample
      ((Sra Layout.sample Host.sample 2 0x40200000 0x40200000 0x40200010).map (·.ctx))
      ([(0x40200000, 0xff), (0x40200001, 0x81), (0x40200010, 9)] ++
        storedRow 0x40300000 fun k => k / 8 % 2))
    EmitCtx.sample.label m' ∧ snum m' 0x40200000 2 = -64 := by
  obtain ⟨h', hcall, hrow, h⟩ := @sra_computes Engine.sample Layout.sample Host.sample 2 0x40200000
    0x40200000 0x40200010 (.start rfl) ⟨by decide, by decide⟩ (by decide) (by decide)
    (Host.sample_room (by decide)) (EmitCtx.sample_room (by decide)) (by decide +kernel)
  have hctx : some h'.ctx =
      (Sra Layout.sample Host.sample 2 0x40200000 0x40200000 0x40200010).map (·.ctx) := by
    rw [hcall]
    rfl
  rw [hctx] at h
  obtain ⟨m', hhalts, hnum⟩ := h.on_row Layout.sample
    [(0x40200000, 0xff), (0x40200001, 0x81), (0x40200010, 9)] 0x40300000 (fun k => k / 8 % 2) 12
    (fun m hm hbytes => .of_row
      ((hm.init _ (by simp [initializers])).append ((hm.init _ (by simp [initializers])).append
        (hm.init _ (by simp [initializers])))) hrow hbytes)
    (by decide +kernel) (by decide +kernel) (by decide +kernel) (by decide +kernel) (by decide +kernel)
  exact ⟨m', hhalts, hnum.trans (by decide +kernel)⟩

end Bcm2835.Dma

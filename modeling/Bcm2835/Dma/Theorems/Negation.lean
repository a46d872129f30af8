import Bcm2835.Dma.Append
import Bcm2835.Dma.HostSpec
import Bcm2835.Dma.Theorems.Increment
import Bcm2835.Dma.Theorems.Bitwise

/-!
# Negation

`Neg` complements into a buffer and increments out of it. Its own assertion admits
widths up to 255, `Not` only those below 16, and the width 3 is no alignment: on the
others it is right.
-/

namespace Bcm2835.Dma

open Mem Digits EmitCtx

/-! ## What is accepted -/

theorem guard_false {α : Type} {p : Prop} [Decidable p] (h : ¬ p) (k : Unit → Option α) :
    ((guard p : Option Unit) >>= k) = none := by
  rw [guard, if_neg h]
  rfl

theorem Not_none (L : Layout) (ctx : EmitCtx) {w : Nat} (hw : 16 ≤ w) (ret inp : Nat) :
    Not L ctx w ret inp = none := by
  rw [Not, guard_bind (by omega), guard_false (by omega)]

/-- 3 is not a power of 2. -/
theorem alloc_three_none (h : Host) (size : Nat) : Host.alloc size 3 h = none := by
  have hthree : ¬ (3 &&& ((3 + SIZE_MAX) % 2 ^ 32) = 0) := by decide
  rw [Host.alloc, arena_alloc]
  rcases Decidable.em (size ≤ SIZE_MAX / 2) with hsize | hsize
  · rw [guard_bind hsize, guard_false hthree]
    rfl
  · rw [guard_false hsize]
    rfl

theorem Neg_none (L : Layout) {h : Host} (hs : h.Sound) (hmono : h.MonoRoom 1) {w : Nat} (hw : w ≤ 255)
    (hbad : ¬ (w < 16 ∧ w ≠ 3)) (ret inp : Nat) : Neg L h w ret inp = none := by
  have hcontexts := hmono.contexts
  rw [Neg, guard_bind (by omega)]
  rcases Decidable.em (w = 3) with rfl | hne
  · have hmiss : MonomorphizeOn 0 3 (Host.alloc 3 (min (min 3 4) 16)) h = none :=
      MonomorphizeOn_none hs (by omega) 0 (by decide) fun h₁ _ => alloc_three_none h₁ 3
    rw [hmiss]
    rfl
  · rcases MonomorphizeOn 0 w (Host.alloc w (min (min w 4) 16)) h with _ | ⟨tmp, h₁⟩
    · rfl
    · show (bus tmp >>= fun b => Not L h₁.ctx w b inp >>= _) = none
      rcases bus tmp with _ | b
      · rfl
      · rw [some_bind, Not_none L _ (by omega)]
        rfl

/-- The alignments `Neg` asks for. -/
theorem neg_align {w : Nat} (hw : 1 ≤ w) (hne : w ≠ 3) : ∃ k ≤ 2, min (min w 4) 16 = 2 ^ k := by
  rcases Nat.lt_or_ge w 4 with hlt | hge
  · rcases (show w = 1 ∨ w = 2 by omega) with rfl | rfl
    · exact ⟨0, by decide, rfl⟩
    · exact ⟨1, by decide, rfl⟩
  · exact ⟨2, Nat.le_refl 2, by omega⟩

/-! ## One run -/

/-- The tables of `Neg`. -/
def Layout.negTables (L : Layout) : List Region := [L.not, L.super]

/-- What the tables of `Neg` have. -/
def NegReady (L : Layout) (m : Memory) : Prop := Has m (init_not L) ∧ Has m (init_increment L)

theorem NegReady.congr {L : Layout} {m m' : Memory} (h : NegReady L m)
    (hsame : ∀ a, Region.Any L.negTables a → m' a = m a) : NegReady L m' := by
  refine ⟨h.1.congr fun x hx => hsame x.1 ⟨L.not, List.mem_cons_self, mem_init_not hx⟩,
    h.2.congr fun x hx => hsame x.1 ⟨L.super, List.mem_cons_of_mem _ List.mem_cons_self, ?_⟩⟩
  exact mem_init_increment hx

/-- The chain of `Neg`, its buffer at `tmp`. -/
def negChain (L : Layout) (z w ret inp tmp exit : Nat) (pos : 0 < z)
    (fits : z + 32 * (w + 1 + 2 * w) ≤ 2 ^ 32) : Chain :=
  (notChain L.not.start z w tmp inp (z + 32 * (w + 1)) pos (by omega)).append
    (incChain L.super.start (z + 32 * (w + 1)) w ret tmp exit (by omega) (by omega)) rfl

variable {E : Engine} {L : Layout} {z w ret inp tmp exit : Nat} {pos : 0 < z}
  {fits : z + 32 * (w + 1 + 2 * w) ≤ 2 ^ 32} {m : Memory}

/-- One run: the complement and one is the negative. -/
theorem negChain_computes (hw : 1 ≤ w)
    (ho : Placement ⟨z, 32 * (w + 1 + 2 * w)⟩ L.negTables ⟨ret, w⟩ [⟨inp, w⟩])
    (htmp : Placement ⟨z, 32 * (w + 1 + 2 * w)⟩ L.negTables ⟨tmp, w⟩ []) (h : NegReady L m)
    (hin : (negChain L z w ret inp tmp exit pos fits).In m) :
    ∃ m' k, after E k ⟨z, m⟩ = ⟨exit, m'⟩ ∧ (negChain L z w ret inp tmp exit pos fits).In m' ∧
      NegReady L m' ∧ (num m' ret w : Int) = (-(num m inp w : Int)) % 256 ^ w := by
  have hlow : Region.Within ⟨z, 32 * (w + 1)⟩ ⟨z, 32 * (w + 1 + 2 * w)⟩ :=
    ⟨Nat.le_refl z, by show z + 32 * (w + 1) ≤ z + 32 * (w + 1 + 2 * w); omega⟩
  have hhigh : Region.Within ⟨z + 32 * (w + 1), 32 * (2 * w)⟩ ⟨z, 32 * (w + 1 + 2 * w)⟩ :=
    ⟨Nat.le_add_right .., by
      show z + 32 * (w + 1) + 32 * (2 * w) ≤ z + 32 * (w + 1 + 2 * w)
      omega⟩
  have hnot_mem : L.not ∈ L.negTables := List.mem_cons_self
  have hsuper_mem : L.super ∈ L.negTables := List.mem_cons_of_mem _ List.mem_cons_self
  have hexit : ∀ k, k + 1 = w + 1 →
      (notBlock L.not.start z w tmp inp k).next_cb = z + 32 * (w + 1) := by
    intro k hk
    rw [notBlock_next, hk]
  have hC := hin.left hexit (show 0 < 2 * w by omega)
  have hD := hin.right
  have hoC : Placement ⟨z, 32 * (w + 1)⟩ [L.not] ⟨tmp, w⟩ [⟨inp, w⟩] :=
    { ret_fits := htmp.ret_fits
      input_fits := ho.input_fits
      ret_code := (hlow.apart htmp.ret_code.symm).symm
      input_code := fun r hr => (hlow.apart (ho.input_code r hr).symm).symm
      ret_tables := fun t ht => htmp.ret_tables t (by rw [List.mem_singleton.mp ht]; exact hnot_mem)
      code_tables := fun t ht =>
        hlow.apart (ho.code_tables t (by rw [List.mem_singleton.mp ht]; exact hnot_mem)) }
  have hoD : Placement ⟨z + 32 * (w + 1), 32 * (2 * w)⟩ [L.super] ⟨ret, w⟩ [⟨tmp, w⟩] :=
    { ret_fits := ho.ret_fits
      input_fits := fun r hr => by
        rw [List.mem_singleton.mp hr]
        exact Nat.le_of_lt htmp.ret_fits
      ret_code := (hhigh.apart ho.ret_code.symm).symm
      input_code := fun r hr => by
        rw [List.mem_singleton.mp hr]
        exact (hhigh.apart htmp.ret_code.symm).symm
      ret_tables := fun t ht => ho.ret_tables t (by rw [List.mem_singleton.mp ht]; exact hsuper_mem)
      code_tables := fun t ht =>
        hhigh.apart (ho.code_tables t (by rw [List.mem_singleton.mp ht]; exact hsuper_mem)) }
  have hret : ret + w ≤ z ∨ z + 32 * (w + 1 + 2 * w) ≤ ret := ho.ret_code
  have hbuf : tmp + w ≤ z ∨ z + 32 * (w + 1 + 2 * w) ≤ tmp := htmp.ret_code
  -- tables are clear of the code, of the buffer and of the result
  have htable : ∀ a, Region.Any L.negTables a → (a < z ∨ z + 32 * (w + 1 + 2 * w) ≤ a) ∧
      (a < tmp ∨ tmp + w ≤ a) ∧ (a < ret ∨ ret + w ≤ a) := by
    rintro a ⟨t, ht, hlo, hhi⟩
    have h1 : z + 32 * (w + 1 + 2 * w) ≤ t.start ∨ t.start + t.size ≤ z := ho.code_tables t ht
    have h2 : tmp + w ≤ t.start ∨ t.start + t.size ≤ tmp := htmp.ret_tables t ht
    have h3 : ret + w ≤ t.start ∨ t.start + t.size ≤ ret := ho.ret_tables t ht
    omega
  obtain ⟨m₁, hrun₁, hbytes, hframe₁⟩ := notChain_computes (E := E) L hw hoC h.1 hC
  have hC₁ := hC.congr fun a ha => hframe₁ a ha.2.2.1 (by
    have hlo : z ≤ a := ha.1
    have hhi : a < z + 32 * (w + 1) := ha.2.1
    omega)
  have hD₁ := hD.of_beside (C := notChain L.not.start z w tmp inp (z + 32 * (w + 1)) pos
    (by omega)) (.inr (Nat.le_refl _)) fun a hlo hhi hne => hframe₁ a (fun k hk j hj _ => hne k hk j hj) (by
      have hlo' : z + 32 * (w + 1) ≤ a := hlo
      have hhi' : a < z + 32 * (w + 1) + 32 * (2 * w) := hhi
      omega)
  have h₁ : NegReady L m₁ := h.congr fun a ha => by
    obtain ⟨hcode, hout, _⟩ := htable a ha
    refine hframe₁ a (fun k hk j hj _ => ?_) hout
    rw [srcField]
    omega
  obtain ⟨m₂, hrun₂, hnum, hframe₂⟩ := incChain_computes (E := E) L hw hoD h₁.2 hD₁
  have hC₂ := hC₁.of_beside (C := incChain L.super.start (z + 32 * (w + 1)) w ret tmp exit
    (by omega) (by omega)) (.inl (Nat.le_refl _)) fun a hlo hhi hne =>
      hframe₂ a (fun k hk j hj _ => hne k hk j hj) (by
        have hlo' : z ≤ a := hlo
        have hhi' : a < z + 32 * (w + 1) := hhi
        omega)
  have hD₂ := hD₁.congr fun a ha => hframe₂ a ha.2.2.1 (by
    have hlo : z + 32 * (w + 1) ≤ a := ha.1
    have hhi : a < z + 32 * (w + 1) + 32 * (2 * w) := ha.2.1
    omega)
  refine ⟨m₂, w + 1 + 2 * w, ?_, hC₂.append hD₂ hexit (show 0 < 2 * w by omega), ?_, ?_⟩
  · rw [after_add, hrun₁, hrun₂]
  · refine h₁.congr fun a ha => ?_
    obtain ⟨hcode, _, hout⟩ := htable a ha
    refine hframe₂ a (fun k hk j hj _ => ?_) hout
    rw [srcField]
    omega
  · have hcompl : num m₁ tmp w = value (fun i => ~~~m (inp + i)) w := value_congr hbytes
    have hsum : value (fun i => ~~~m (inp + i)) w + num m inp w + 1 = 256 ^ w :=
      value_not (fun i => m (inp + i)) w
    have hneg : ((value (fun i => ~~~m (inp + i)) w + 1 : Nat) : Int) =
        -(num m inp w : Int) + 256 ^ w := by
      have hcast : (256 : Int) ^ w = (256 ^ w : Nat) := by push_cast; rfl
      rw [hcast]
      omega
    rw [hnum, hcompl, Int.natCast_mod, hneg]
    push_cast
    rw [Int.add_emod_right]

/-! ## Calls -/

/-- Where the result and the operand of `Neg` may be: the code and the tables keep clear
of the arena. -/
structure NegPlacement (L : Layout) (h : Host) (w ret inp : Nat) : Prop where
  place : Placement ⟨h.ctx.label, 32 * (w + 1 + 2 * w)⟩ L.negTables ⟨ret, w⟩ [⟨inp, w⟩]
  free : ∀ t ∈ (⟨h.ctx.label, 32 * (w + 1 + 2 * w)⟩ :: L.negTables : List Region), h.free.Apart t

instance (L : Layout) (h : Host) (w ret inp : Nat) : Decidable (NegPlacement L h w ret inp) :=
  decidable_of_iff (_ ∧ _) ⟨fun ⟨h1, h2⟩ => ⟨h1, h2⟩, fun h => ⟨h.place, h.free⟩⟩

/-- A call of `Neg` with a width it can take. -/
theorem Neg_eq (L : Layout) {h : Host} {w ret inp : Nat} (hs : h.Sound) (hmono : h.MonoRoom 1)
    (hw : 1 ≤ w) (hw' : w < 16) (hne : w ≠ 3) (harena : h.arena.Room (3 + w))
    (hroom : h.ctx.Room (w + 1 + 2 * w)) (hret : ret + w < 2 ^ 32) (pos : 0 < h.ctx.label)
    (fits : h.ctx.label + 32 * (w + 1 + 2 * w) ≤ 2 ^ 32) :
    ∃ tmp h', Neg L h w ret inp = some h' ∧ Region.Within (onBus tmp w) h.free ∧
      tmp + w < h.arena.end_ ∧ h.arena.end_ ≤ ARM_DRAM_END ∧
      h'.ctx = h.ctx.fill (negChain L h.ctx.label w ret inp (tmp + BUS_DRAM_BASE) 0 pos fits).f
        (negChain L h.ctx.label w ret inp (tmp + BUS_DRAM_BASE) 0 pos fits).n := by
  obtain ⟨k, hk, halign⟩ := neg_align hw hne
  have hpow : 2 ^ k ≤ 4 := Nat.pow_le_pow_right (by decide) hk
  have hdram : ARM_DRAM_END = 536870912 := rfl
  have hbase : BUS_DRAM_BASE = 1073741824 := rfl
  obtain ⟨tmp, h₁, hbuf, _, _, hlo, hhi, harena₁, hend, hnext⟩ := @MonomorphizeOn_alloc h hs 0 w k 0
    hmono (harena.mono (by omega)) (by omega) 0 w (by omega)
  have hfits := harena₁.fits
  have hlim := harena.in_dram
  have hbus : bus tmp = some (tmp + BUS_DRAM_BASE) := bus_dram (by omega)
  have hnot := @Not_eq L h.ctx w (tmp + BUS_DRAM_BASE) inp (hroom.mono (show w + 1 ≤ w + 1 + 2 * w by omega)) hw hw'
    (show tmp + BUS_DRAM_BASE + w < 2 ^ 32 by omega)
  have hinc := @Inc_eq L _ w ret (tmp + BUS_DRAM_BASE)
    (hroom.fill (notBlock (L.NOT + BUS_DRAM_BASE) h.ctx.label w (tmp + BUS_DRAM_BASE) inp)) hw
    (by omega) hret
  rw [EmitCtx.label_fill] at hinc
  have hfill : (h.ctx.fill (notBlock (L.NOT + BUS_DRAM_BASE) h.ctx.label w (tmp + BUS_DRAM_BASE) inp)
      (w + 1)).fill (incBlock (L.SUPER + BUS_DRAM_BASE) (h.ctx.label + 32 * (w + 1)) w ret
        (tmp + BUS_DRAM_BASE)) (2 * w) = _ :=
    (EmitCtx.fill_append (C := notChain L.not.start h.ctx.label w (tmp + BUS_DRAM_BASE) inp
      (h.ctx.label + 32 * (w + 1)) pos (by omega)) (D := incChain L.super.start
      (h.ctx.label + 32 * (w + 1)) w ret (tmp + BUS_DRAM_BASE) 0 (by omega) (by omega)) (h := rfl)
      h.ctx).symm
  generalize hc : negChain L h.ctx.label w ret inp (tmp + BUS_DRAM_BASE) 0 pos fits = C
  refine ⟨tmp, { h₁ with ctx := h.ctx.fill C.f C.n }, ?_, ?_, by omega, hlim, hc ▸ rfl⟩
  · rw [Neg, guard_bind (by omega), halign, hbuf, some_bind]
    show (bus tmp >>= fun b => Not L h₁.ctx w b inp >>= _) = _
    rw [hbus, some_bind, hnext.ctx, hnot, some_bind, some_bind, hinc, hfill, ← hc]
    rfl
  · show h.arena.p + BUS_DRAM_BASE ≤ tmp + BUS_DRAM_BASE ∧
      tmp + BUS_DRAM_BASE + w ≤ h.arena.p + BUS_DRAM_BASE + (h.arena.end_ - h.arena.p)
    omega

/-- `Neg` returns and leaves the negative modulo the width, on every run of the chain and
for every placement of result and operand, for exactly the widths below 16 but 3. -/
theorem neg_computes_iff (E : Engine) (L : Layout) {h : Host} {w ret inp : Nat} (hs : h.Sound)
    (hmono : h.MonoRoom 1) (hw : 1 ≤ w) (hw' : w ≤ 255) (harena : h.arena.Room (3 + w))
    (hroom : h.ctx.Room (w + 1 + 2 * w)) (hp : NegPlacement L h w ret inp) :
    (∃ h', Neg L h w ret inp = some h' ∧
      Computes E h.ctx (some h'.ctx) (Region.Any L.negTables) (NegReady L)
        (fun m m' => (num m' ret w : Int) = (-(num m inp w : Int)) % 256 ^ w)) ↔
      w < 16 ∧ w ≠ 3 := by
  constructor
  · rintro ⟨h', hcall, _⟩
    by_contra hbad
    rw [Neg_none L hs hmono hw' hbad] at hcall
    cases hcall
  · rintro ⟨hlt, hne⟩
    have hlabel := hroom.label_lt
    have hpos : 0 < h.ctx.label := by
      show 0 < h.ctx.p + BUS_DRAM_BASE
      exact Nat.add_pos_right _ (by decide)
    have hfits : h.ctx.label + 32 * (w + 1 + 2 * w) ≤ 2 ^ 32 := by omega
    obtain ⟨tmp, h', hcall, hin, htmp, hend, hctx⟩ :=
      @Neg_eq L h w ret inp hs hmono hw hlt hne harena hroom hp.place.ret_fits hpos hfits
    have hdram : ARM_DRAM_END = 536870912 := rfl
    have hbase : BUS_DRAM_BASE = 1073741824 := rfl
    have hbuf : Placement ⟨h.ctx.label, 32 * (w + 1 + 2 * w)⟩ L.negTables
        ⟨tmp + BUS_DRAM_BASE, w⟩ [] :=
      { ret_fits := by
          show tmp + BUS_DRAM_BASE + w < 2 ^ 32
          omega
        input_fits := nofun
        ret_code := hin.apart (hp.free _ List.mem_cons_self)
        input_code := nofun
        ret_tables := fun t ht => hin.apart (hp.free t (List.mem_cons_of_mem _ ht))
        code_tables := hp.place.code_tables }
    refine ⟨h', hcall, .of_chain
      (C := negChain L h.ctx.label w ret inp (tmp + BUS_DRAM_BASE) 0 hpos hfits)
      hroom rfl rfl (show 0 < w + 1 + 2 * w by omega) (congrArg some hctx) ?_ ?_⟩
    · intro m m' hsame h
      exact h.congr hsame
    · intro m hin h
      obtain ⟨m', k, hrun, hin', h', hnum⟩ := negChain_computes (E := E) hw hp.place hbuf h hin
      exact ⟨m', halts_of_after hrun, ⟨hin', h'⟩, hnum⟩

/-- -0x01ff = 0xfe01 modulo the width, in the place of the operand; 3 is refused. -/
theorem neg_computes_iff_sample :
    (∃ m', Halts Engine.sample
      (program Layout.sample EmitCtx.sample
        ((Neg Layout.sample Host.sample 2 0x40200000 0x40200000).map (·.ctx)) sampleCount)
      EmitCtx.sample.label m' ∧ num m' 0x40200000 2 = 0xfe01) ∧
    ¬ ∃ h', Neg Layout.sample Host.sample 3 0x40200000 0x40200000 = some h' ∧
      Computes Engine.sample Host.sample.ctx (some h'.ctx) (Region.Any Layout.sample.negTables)
        (NegReady Layout.sample)
        (fun m m' => (num m' 0x40200000 3 : Int) = (-(num m 0x40200000 3 : Int)) % 256 ^ 3) := by
  have harena : ∀ w ≤ 255, Host.sample.arena.Room (3 + w) := fun w hw =>
    { start_le := Nat.le_refl _
      fits := by
        show 0x300000 + (3 + w) < 0x301000
        omega
      in_dram := by decide
      above := by decide }
  constructor
  · obtain ⟨h', hcall, h⟩ := (@neg_computes_iff Engine.sample Layout.sample Host.sample 2 0x40200000
      0x40200000 (.start rfl) ⟨by decide, by decide⟩ (by decide) (by decide) (harena 2 (by decide))
      (EmitCtx.sample_room (by decide)) (by decide +kernel)).mpr (by decide)
    have hctx : some h'.ctx =
        (Neg Layout.sample Host.sample 2 0x40200000 0x40200000).map (·.ctx) := by
      rw [hcall]
      rfl
    rw [hctx] at h
    obtain ⟨m', hhalts, hnum⟩ := h.on_program Layout.sample sampleCount 7
      (fun m hm => ⟨hm.init _ (by simp [initializers]), hm.init _ (by simp [initializers])⟩)
      (by decide +kernel) (by decide +kernel) (by decide +kernel) (by decide +kernel)
    exact ⟨m', hhalts, Int.ofNat.inj (hnum.trans (by decide +kernel))⟩
  · exact fun hcall => absurd ((@neg_computes_iff Engine.sample Layout.sample Host.sample 3 0x40200000
      0x40200000 (.start rfl) ⟨by decide, by decide⟩ (by decide) (by decide) (harena 3 (by decide))
      (EmitCtx.sample_room (by decide)) (by decide +kernel)).mp hcall) (by decide)

/-- The widths 3 and 16 are admitted by the assertion of `Neg`, and refused behind it. -/
theorem neg_refuses : Neg Layout.sample Host.sample 3 0x40200000 0x40200000 = none ∧
    Neg Layout.sample Host.sample 16 0x40200000 0x40200000 = none := by decide +kernel

end Bcm2835.Dma

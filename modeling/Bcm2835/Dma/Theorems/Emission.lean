import Bcm2835.Dma.EmitSpec
import Bcm2835.Lib.TSys

/-!
# Runs of the emitter

Any sequence of emissions and alignment skips, closed with `End`. Every block points
at the slot behind it; a skip moves the pointer of the block just before the skipped
slots, and `End` that of the block just before the end. This is the last block emitted
unless a skip came in between, and then that block is left pointing at a skipped slot.
-/

namespace Bcm2835.Dma

/-! ## Following `next_cb` -/

/-- From the bus address `a`, the engine runs the blocks at `es` one after the other and is
left with `b`. -/
def Leads (blk : Nat → Cblk) : Nat → List Nat → Nat → Prop
  | a, [], b => a = b
  | a, e :: es, b => a = e + BUS_DRAM_BASE ∧ Leads blk (blk e).next_cb es b

/-- From `a`, it runs the blocks at `es` and halts. -/
def Visits (blk : Nat → Cblk) (a : Nat) (es : List Nat) : Prop := Leads blk a es 0

variable {blk blk' : Nat → Cblk} {a b c e : Nat} {es : List Nat}

theorem leads_snoc : Leads blk a (es ++ [e]) b ↔
    Leads blk a es (e + BUS_DRAM_BASE) ∧ (blk e).next_cb = b := by
  induction es generalizing a with
  | nil => exact Iff.rfl
  | cons f es ih => exact (and_congr_right fun _ => ih).trans and_assoc.symm

theorem Leads.congr (h : Leads blk a es b) (hsame : ∀ f ∈ es, blk' f = blk f) : Leads blk' a es b := by
  induction es generalizing a with
  | nil => exact h
  | cons f es ih =>
      obtain ⟨hf, hes⟩ := List.forall_mem_cons.mp hsame
      refine ⟨h.1, ?_⟩
      rw [hf]
      exact ih h.2 hes

/-- A block that is run points at the next one, or out of the chain. -/
theorem Leads.next_cb (h : Leads blk a es b) (he : e ∈ es) :
    (blk e).next_cb = b ∨ ∃ f ∈ es, (blk e).next_cb = f + BUS_DRAM_BASE := by
  induction es generalizing a with
  | nil => cases he
  | cons f es ih =>
      rcases List.mem_cons.mp he with rfl | he
      · cases es with
        | nil => exact .inl h.2
        | cons g es => exact .inr ⟨g, by simp, h.2.1⟩
      · rcases ih h.2 he with hb | ⟨g, hg, hnext⟩
        · exact .inl hb
        · exact .inr ⟨g, List.mem_cons_of_mem _ hg, hnext⟩

/-- Moving the pointer of the last block. -/
theorem Leads.relink (h : Leads blk a (es ++ [e]) b) (he : e ∉ es) :
    Leads (Function.update blk e { blk e with next_cb := c }) a (es ++ [e]) c := by
  obtain ⟨hes, -⟩ := leads_snoc.mp h
  refine leads_snoc.mpr ⟨hes.congr fun f hf => ?_, ?_⟩
  · have hne : f ≠ e := by
      rintro rfl
      exact he hf
    exact Function.update_of_ne hne _ _
  · rw [Function.update_self]

/-! ## Operations -/

inductive EmitOp
  | emitStridedWith (flags dst src : Nat) (rows cols dst_stride src_stride : Int)
  | emitStrided (dst src : Nat) (rows cols dst_stride src_stride : Int)
  | emitWith (flags dst src len : Nat)
  | emit (dst src len : Nat)
  | skipToAlign (align : Nat)

def EmitOp.run (ctx : EmitCtx) : EmitOp → Option EmitCtx
  | .emitStridedWith flags dst src rows cols dst_stride src_stride =>
      EmitStridedWith ctx flags dst src rows cols dst_stride src_stride
  | .emitStrided dst src rows cols dst_stride src_stride =>
      EmitStrided ctx dst src rows cols dst_stride src_stride
  | .emitWith flags dst src len => EmitWith ctx flags dst src len
  | .emit dst src len => Emit ctx dst src len
  | .skipToAlign align => SkipToAlign ctx align true

def EmitOp.emits : EmitOp → Bool
  | .skipToAlign _ => false
  | _ => true

variable {ctx ctx' : EmitCtx}

/-- An emission writes one block, which points behind itself. -/
theorem EmitOp.run_emits {op : EmitOp} (hop : op.emits = true) (h : op.run ctx = some ctx') :
    ∃ cb, ctx' = ctx.push cb ∧ bus (ctx.p + 32) = some cb.next_cb ∧ ctx.used < ctx.cap := by
  cases op with
  | emitStridedWith =>
      obtain ⟨len, next, hctx, -, -, hnext, hcap⟩ := EmitStridedWith_some h
      exact ⟨_, hctx, hnext, hcap⟩
  | emitStrided =>
      obtain ⟨len, next, hctx, -, -, hnext, hcap⟩ := EmitStridedWith_some h
      exact ⟨_, hctx, hnext, hcap⟩
  | emitWith =>
      obtain ⟨next, hctx, hnext, hcap⟩ := EmitWith_some h
      exact ⟨_, hctx, hnext, hcap⟩
  | emit =>
      obtain ⟨next, hctx, hnext, hcap⟩ := EmitWith_some h
      exact ⟨_, hctx, hnext, hcap⟩
  | skipToAlign => cases hop

theorem Branch_blk_of_ne {label : Nat} (h : Branch ctx label = some ctx') (he : e ≠ ctx.p - 32) :
    ctx'.blk e = ctx.blk e := by
  obtain ⟨-, rfl⟩ := Branch_some h
  exact Function.update_of_ne he _ _

/-- A skip moves one pointer, to where it skips to. -/
theorem SkipToAlign_some {align : Nat} (h : SkipToAlign ctx align true = some ctx') :
    ctx.base < ctx.p ∧ (skipTarget ctx.p align - ctx.base) / 32 < ctx.cap ∧
      ∃ b, bus (skipTarget ctx.p align) = some b ∧ ctx' = { ctx with
        p := skipTarget ctx.p align
        blk := Function.update ctx.blk (ctx.p - 32) { ctx.blk (ctx.p - 32) with next_cb := b } } := by
  obtain ⟨-, h⟩ := guard_some h
  obtain ⟨-, h⟩ := guard_some h
  obtain ⟨-, h⟩ := guard_some h
  obtain ⟨hcap, h⟩ := guard_some h
  obtain ⟨ctx₁, hbranch, h⟩ := bind_some h
  obtain ⟨b, hb, hbranch⟩ := bind_some hbranch
  obtain ⟨hbase, rfl⟩ := Branch_some hbranch
  exact ⟨hbase, hcap, b, hb, (Option.some.inj h).symm⟩

theorem skipTarget_le (p align : Nat) : p ≤ skipTarget p align := Nat.le_add_right ..

theorem skipTarget_aligned {p : Nat} (hp : p % 32 = 0) (align : Nat) : skipTarget p align % 32 = 0 := by
  rw [skipTarget, Nat.add_mul_mod_self_right, hp]

/-! ## Runs -/

/-- A context, and where the blocks emitted into it are, in the order of emission. -/
structure Emission where
  ctx : EmitCtx
  emitted : List Nat

def Emission.step (s : Emission) (op : EmitOp) : Option Emission :=
  (op.run s.ctx).map fun ctx => ⟨ctx, if op.emits then s.emitted ++ [s.ctx.p] else s.emitted⟩

/-- `p` is within the array. -/
def EmitCtx.Bounded (ctx : EmitCtx) : Prop := ctx.base ≤ ctx.p ∧ ctx.p ≤ ctx.base + 32 * ctx.cap

/-- No slot has been skipped since the last emission. -/
def Emission.Tight (s : Emission) : Prop := s.emitted.getLast? = some (s.ctx.p - 32)

instance Emission.decTight (s : Emission) : Decidable s.Tight := inferInstanceAs (Decidable (_ = _))

/-- A skip that leaves slots out comes directly behind an emission. -/
def Emission.Connects (s : Emission) : EmitOp → Prop
  | .skipToAlign align => s.Tight ∨ skipTarget s.ctx.p align = s.ctx.p
  | _ => True

instance Emission.decConnects (s : Emission) (op : EmitOp) : Decidable (s.Connects op) :=
  match op with
  | .skipToAlign _ => inferInstanceAs (Decidable (_ ∨ _))
  | .emitStridedWith .. | .emitStrided .. | .emitWith .. | .emit .. => .isTrue trivial

/-- The state of a run on the array `ctx₀`. -/
structure Emission.Within (ctx₀ : EmitCtx) (s : Emission) : Prop where
  base_eq : s.ctx.base = ctx₀.base
  cap_eq : s.ctx.cap = ctx₀.cap
  base_aligned : ctx₀.base % 32 = 0
  in_dram : ctx₀.base + 32 * ctx₀.cap ≤ ARM_DRAM_END
  aligned : s.ctx.p % 32 = 0
  base_le : ctx₀.base ≤ s.ctx.p
  le_cap : s.ctx.p ≤ ctx₀.base + 32 * ctx₀.cap
  sorted : s.emitted.Pairwise (· < ·)
  behind : ∀ e ∈ s.emitted, e % 32 = 0 ∧ ctx₀.base ≤ e ∧ e + 32 ≤ s.ctx.p
  outside : ∀ a, ¬(ctx₀.base ≤ a ∧ a < ctx₀.base + 32 * ctx₀.cap) → s.ctx.blk a = ctx₀.blk a

/-- The chain so far runs the emitted blocks and goes on to `p`. -/
structure Emission.Linked (a : Nat) (s : Emission) : Prop where
  nonempty : s.emitted ≠ []
  leads : ∃ b, bus s.ctx.p = some b ∧ Leads s.ctx.blk a s.emitted b

/-- An emitted block points at a skipped slot. -/
def Emission.Broken (s : Emission) : Prop :=
  ∃ e ∈ s.emitted, ∃ g, (s.ctx.blk e).next_cb = g + BUS_DRAM_BASE ∧ g ∉ s.emitted ∧ g < s.ctx.p ∧
    e + 32 < s.ctx.p

variable {ctx₀ : EmitCtx} {s s' : Emission} {op : EmitOp} {ops : List EmitOp}

theorem Emission.step_some (h : s.step op = some s') :
    op.run s.ctx = some s'.ctx ∧ s'.emitted = if op.emits then s.emitted ++ [s.ctx.p] else s.emitted := by
  obtain ⟨ctx, hctx, rfl⟩ := Option.map_eq_some_iff.mp h
  exact ⟨hctx, rfl⟩

/-! ### One step -/

/-- Where an emission writes there is a slot. -/
theorem Emission.Within.slot (h : s.Within ctx₀) (hused : s.ctx.used < s.ctx.cap) :
    s.ctx.p + 32 ≤ ctx₀.base + 32 * ctx₀.cap := by
  have hle := h.base_le
  have halign := h.aligned
  have hbase := h.base_aligned
  rw [EmitCtx.used, h.base_eq, h.cap_eq] at hused
  omega

theorem Emission.Within.emit (h : s.Within ctx₀) (cb : Cblk) (hused : s.ctx.used < s.ctx.cap) :
    Emission.Within ctx₀ ⟨s.ctx.push cb, s.emitted ++ [s.ctx.p]⟩ := by
  have hslot := h.slot hused
  have halign := h.aligned
  have hle := h.base_le
  refine { h with
    aligned := ?_
    base_le := Nat.le_add_right_of_le hle
    le_cap := hslot
    sorted := ?_
    behind := ?_
    outside := ?_ }
  · show (s.ctx.p + 32) % 32 = 0
    omega
  · refine List.pairwise_append.mpr ⟨h.sorted, List.pairwise_singleton _ _, fun e he f hf => ?_⟩
    have hlt := (h.behind e he).2.2
    rw [List.mem_singleton.mp hf]
    omega
  · intro e he
    show _ ∧ _ ∧ e + 32 ≤ s.ctx.p + 32
    rcases List.mem_append.mp he with he | he
    · have hbehind := h.behind e he
      omega
    · rw [List.mem_singleton.mp he]
      exact ⟨halign, hle, Nat.le_refl _⟩
  · intro a ha
    have hne : a ≠ s.ctx.p := by omega
    exact (Function.update_of_ne hne _ _).trans (h.outside a ha)

/-- Moving a pointer of the block before `p`, and `p` to a slot behind it. -/
theorem Emission.Within.relink (h : s.Within ctx₀) (hlt : s.ctx.base < s.ctx.p) {q : Nat}
    (hq : s.ctx.p ≤ q) (hq' : q ≤ ctx₀.base + 32 * ctx₀.cap) (halign : q % 32 = 0) (cb : Cblk) :
    Emission.Within ctx₀ ⟨{ s.ctx with p := q, blk := Function.update s.ctx.blk (s.ctx.p - 32) cb },
      s.emitted⟩ := by
  have hp := h.aligned
  have hbase := h.base_aligned
  have hcap := h.le_cap
  rw [h.base_eq] at hlt
  refine { h with
    aligned := halign
    base_le := Nat.le_trans h.base_le hq
    le_cap := hq'
    behind := fun e he => ?_
    outside := fun a ha => ?_ }
  · have hbehind := h.behind e he
    exact ⟨hbehind.1, hbehind.2.1, Nat.le_trans hbehind.2.2 hq⟩
  · have hne : a ≠ s.ctx.p - 32 := by omega
    exact (Function.update_of_ne hne _ _).trans (h.outside a ha)

theorem Emission.Within.skip_slot (h : s.Within ctx₀) {q : Nat} (hq : s.ctx.p ≤ q) (halign : q % 32 = 0)
    (hcap : (q - s.ctx.base) / 32 < s.ctx.cap) : q + 32 ≤ ctx₀.base + 32 * ctx₀.cap := by
  have hle := h.base_le
  have hbase := h.base_aligned
  rw [h.base_eq, h.cap_eq] at hcap
  omega

/-- What an operation does to the blocks and to `p`. -/
inductive Emission.Effect (s : Emission) : EmitOp → Emission → Prop
  | emit {op : EmitOp} (cb : Cblk) : op.emits = true → bus (s.ctx.p + 32) = some cb.next_cb →
      s.ctx.used < s.ctx.cap → Effect s op ⟨s.ctx.push cb, s.emitted ++ [s.ctx.p]⟩
  | skip {align : Nat} (q b : Nat) : q = skipTarget s.ctx.p align → s.ctx.base < s.ctx.p →
      s.ctx.p ≤ q → q % 32 = 0 → (q - s.ctx.base) / 32 < s.ctx.cap → bus q = some b →
      Effect s (.skipToAlign align) ⟨{ s.ctx with
        p := q
        blk := Function.update s.ctx.blk (s.ctx.p - 32)
          { s.ctx.blk (s.ctx.p - 32) with next_cb := b } }, s.emitted⟩

theorem Emission.Within.effect (h : s.Within ctx₀) (hstep : s.step op = some s') : s.Effect op s' := by
  obtain ⟨hrun, hemitted⟩ := Emission.step_some hstep
  obtain ⟨ctx', emitted'⟩ := s'
  rcases Bool.eq_false_or_eq_true op.emits with hop | hop
  · obtain ⟨cb, hctx, hnext, hused⟩ := EmitOp.run_emits hop hrun
    rw [hop, if_pos rfl] at hemitted
    subst hctx hemitted
    exact .emit cb hop hnext hused
  · cases op with
    | skipToAlign align =>
        obtain ⟨hbase, hcap, b, hb, hctx⟩ := SkipToAlign_some hrun
        subst hctx hemitted
        exact .skip _ b rfl hbase (skipTarget_le ..) (skipTarget_aligned h.aligned _) hcap hb
    | _ => cases hop

theorem Emission.Within.step (h : s.Within ctx₀) (hstep : s.step op = some s') : s'.Within ctx₀ := by
  cases h.effect hstep with
  | emit cb hop hnext hused => exact h.emit cb hused
  | skip q b hq hbase hle halign hcap hb =>
      have hslot := h.skip_slot hle halign hcap
      exact h.relink hbase hle (by omega) halign _

/-! ### The chain -/

/-- The engine's address of a slot, or of the end of the array. -/
theorem bus_le {p b : Nat} (hp : p ≤ ARM_DRAM_END) (h : bus p = some b) : p + BUS_DRAM_BASE ≤ b := by
  rcases Nat.lt_or_eq_of_le hp with hlt | rfl
  · rw [bus_dram hlt] at h
    exact Nat.le_of_eq (Option.some.inj h)
  · rw [show bus ARM_DRAM_END = some 0x7e000000 by decide] at h
    rw [← Option.some.inj h]
    decide

theorem Emission.Within.lt_p (h : s.Within ctx₀) {e : Nat} (he : e ∈ s.emitted) : e < s.ctx.p := by
  have hbehind := h.behind e he
  omega

theorem Emission.Within.p_not_mem (h : s.Within ctx₀) : s.ctx.p ∉ s.emitted :=
  fun hmem => Nat.lt_irrefl _ (h.lt_p hmem)

/-- The last block of a run, and whether it is just before `p`. -/
theorem Emission.Linked.last (h : s.Linked a) (hw : s.Within ctx₀) :
    ∃ es e, s.emitted = es ++ [e] ∧ e ∉ es ∧ (s.Tight ↔ e = s.ctx.p - 32) ∧
      (e ≠ s.ctx.p - 32 → e + 32 < s.ctx.p ∧ s.ctx.p - 32 ∉ s.emitted) := by
  obtain ⟨es, e, hes⟩ : ∃ es e, s.emitted = es ++ [e] :=
    ⟨_, _, (List.dropLast_append_getLast h.nonempty).symm⟩
  have hsorted := hw.sorted
  rw [hes] at hsorted
  have hlt : ∀ f ∈ es, f < e := fun f hf =>
    (List.pairwise_append.mp hsorted).2.2 f hf e (List.mem_singleton_self e)
  have hbehind := hw.behind e (by rw [hes]; simp)
  refine ⟨es, e, hes, fun hmem => Nat.lt_irrefl _ (hlt e hmem), ?_, fun hne => ⟨by omega, ?_⟩⟩
  · unfold Emission.Tight
    rw [hes, List.getLast?_concat, Option.some_inj]
  · intro hmem
    rw [hes] at hmem
    rcases List.mem_append.mp hmem with hmem | hmem
    · have hf := hlt _ hmem
      omega
    · exact hne (List.mem_singleton.mp hmem).symm

/-- The first emission starts the chain. -/
theorem Emission.Linked.start (hw : s.Within ctx₀) (hs : s.emitted = []) (hop : op.emits = true)
    (hstep : s.step op = some s') : s'.Linked (s.ctx.p + BUS_DRAM_BASE) := by
  cases hw.effect hstep with
  | skip => cases hop
  | emit cb _ hnext hused =>
      refine ⟨by simp, cb.next_cb, hnext, ?_⟩
      rw [hs]
      refine ⟨rfl, ?_⟩
      show (Function.update s.ctx.blk s.ctx.p cb s.ctx.p).next_cb = cb.next_cb
      rw [Function.update_self]

theorem Emission.Linked.step (h : s.Linked a) (hw : s.Within ctx₀) (hconn : s.Connects op)
    (hstep : s.step op = some s') : s'.Linked a := by
  obtain ⟨b, hb, hleads⟩ := h.leads
  cases hw.effect hstep with
  | emit cb hop hnext hused =>
      have hslot := hw.slot hused
      have hdram := hw.in_dram
      rw [bus_dram (by omega)] at hb
      rw [← Option.some.inj hb] at hleads
      refine ⟨by simp, cb.next_cb, hnext, leads_snoc.mpr ⟨hleads.congr fun e he => ?_, ?_⟩⟩
      · exact Function.update_of_ne (Nat.ne_of_lt (hw.lt_p he)) _ _
      · show (Function.update s.ctx.blk s.ctx.p cb s.ctx.p).next_cb = cb.next_cb
        rw [Function.update_self]
  | skip q b' hq hbase hle halign hcap hb' =>
      refine ⟨h.nonempty, b', hb', ?_⟩
      obtain ⟨es, e, hes, hnot, htight, hloose⟩ := h.last hw
      by_cases he : e = s.ctx.p - 32
      · show Leads (Function.update s.ctx.blk (s.ctx.p - 32) _) a s.emitted b'
        rw [hes] at hleads ⊢
        rw [← he]
        exact hleads.relink hnot
      · -- the pointer of a skipped slot moves, to where the chain already goes
        have hqp : q = s.ctx.p := by
          rcases hconn with ht | hp
          · exact absurd (htight.mp ht) he
          · rw [hq, hp]
        rw [hqp, hb] at hb'
        rw [← Option.some.inj hb']
        refine hleads.congr fun f hf => Function.update_of_ne ?_ _ _
        rintro rfl
        exact (hloose he).2 hf

/-- A skip behind skipped slots leaves the last block pointing at the first of them. -/
theorem Emission.Linked.breaks (h : s.Linked a) (hw : s.Within ctx₀) (hconn : ¬s.Connects op)
    (hstep : s.step op = some s') : s'.Broken := by
  obtain ⟨b, hb, hleads⟩ := h.leads
  cases hw.effect hstep with
  | emit cb hop =>
      cases op with
      | skipToAlign => cases hop
      | _ => exact absurd trivial hconn
  | skip q b' hq hbase hle halign hcap hb' =>
      obtain ⟨es, e, hes, hnot, htight, hloose⟩ := h.last hw
      have he : e ≠ s.ctx.p - 32 := fun he => hconn (.inl (htight.mpr he))
      have hne : q ≠ s.ctx.p := fun hqp => hconn (.inr (hq ▸ hqp))
      have hslot := hw.skip_slot hle halign hcap
      have hdram := hw.in_dram
      have hlast := (hloose he).1
      rw [bus_dram (by omega)] at hb
      rw [hes] at hleads
      refine ⟨e, by simp [hes], s.ctx.p, ?_, hw.p_not_mem, by show s.ctx.p < q; omega,
        by show e + 32 < q; omega⟩
      show (Function.update s.ctx.blk (s.ctx.p - 32) _ e).next_cb = _
      rw [Function.update_of_ne he, (leads_snoc.mp hleads).2, ← Option.some.inj hb]

theorem Emission.Broken.step (h : s.Broken) (hw : s.Within ctx₀) (hstep : s.step op = some s') :
    s'.Broken := by
  obtain ⟨e, he, g, hnext, hg, hgp, hep⟩ := h
  cases hw.effect hstep with
  | emit cb hop =>
      refine ⟨e, List.mem_append_left _ he, g, ?_, ?_, Nat.lt_add_right _ hgp, Nat.lt_add_right _ hep⟩
      · show (Function.update s.ctx.blk s.ctx.p cb e).next_cb = _
        rw [Function.update_of_ne (by omega), hnext]
      · intro hmem
        rcases List.mem_append.mp hmem with hmem | hmem
        · exact hg hmem
        · exact Nat.ne_of_lt hgp (List.mem_singleton.mp hmem)
  | skip q b hq hbase hle =>
      refine ⟨e, he, g, ?_, hg, Nat.lt_of_lt_of_le hgp hle, Nat.lt_of_lt_of_le hep hle⟩
      show (Function.update s.ctx.blk (s.ctx.p - 32) _ e).next_cb = _
      rw [Function.update_of_ne (by omega), hnext]

/-! ### Whole runs -/

theorem Emission.Within.exec (h : s.Within ctx₀) (hrun : TSys.exec Emission.step s ops = some s') :
    s'.Within ctx₀ :=
  TSys.inv_of_exec (I := fun t _ => t.Within ctx₀) (fun _ _ _ _ hs hstep => hs.step hstep) h hrun

theorem Emission.Within.bounded (h : s.Within ctx₀) :
    TSys.All Emission.step (fun t _ => t.ctx.Bounded) s ops := by
  refine TSys.all_of_inv (I := fun t _ => t.Within ctx₀) (fun _ _ _ _ hs hstep => hs.step hstep)
    (fun t _ _ ht => ?_) h
  unfold EmitCtx.Bounded
  rw [ht.base_eq, ht.cap_eq]
  exact ⟨ht.base_le, ht.le_cap⟩

theorem Emission.Broken.exec (h : s.Broken) (hw : s.Within ctx₀)
    (hrun : TSys.exec Emission.step s ops = some s') : s'.Broken := by
  have hinv := TSys.inv_of_exec (I := fun t _ => t.Broken ∧ t.Within ctx₀)
    (fun _ _ _ _ hs hstep => ⟨hs.1.step hs.2 hstep, hs.2.step hstep⟩) ⟨h, hw⟩ hrun
  exact hinv.1

/-- A run keeps the chain if all its skips connect, and breaks it for good otherwise. -/
theorem Emission.Linked.exec (h : s.Linked a) (hw : s.Within ctx₀)
    (hrun : TSys.exec Emission.step s ops = some s') :
    (TSys.All Emission.step Emission.Connects s ops ∧ s'.Linked a) ∨
      (¬TSys.All Emission.step Emission.Connects s ops ∧ s'.Broken) := by
  induction ops generalizing s with
  | nil => exact .inl ⟨trivial, Option.some.inj hrun ▸ h⟩
  | cons op ops ih =>
      obtain ⟨t, hstep, hrest⟩ := TSys.exec_cons hrun
      rw [TSys.all_cons_iff hstep]
      by_cases hconn : s.Connects op
      · rcases ih (h.step hw hconn hstep) (hw.step hstep) hrest with ⟨hall, hlinked⟩ | ⟨hall, hbroken⟩
        · exact .inl ⟨⟨hconn, hall⟩, hlinked⟩
        · exact .inr ⟨fun hconns => hall hconns.2, hbroken⟩
      · exact .inr ⟨fun hconns => hconn hconns.1,
          (h.breaks hw hconn hstep).exec (hw.step hstep) hrest⟩

/-! ### The end of the chain -/

/-- A pointer to a slot is not null. -/
theorem bus_ne_zero {n : Nat} : n + BUS_DRAM_BASE ≠ 0 := by
  rw [BUS_DRAM_BASE]
  omega

theorem Emission.Linked.ends (h : s.Linked a) (hw : s.Within ctx₀) (hend : End s.ctx = some ctx') :
    Visits ctx'.blk a s.emitted ↔ s.Tight := by
  obtain ⟨b, hb, hleads⟩ := h.leads
  obtain ⟨es, e, hes, hnot, htight, hloose⟩ := h.last hw
  rw [htight]
  constructor
  · intro hvisits
    by_contra he
    have hdram : s.ctx.p ≤ ARM_DRAM_END := Nat.le_trans hw.le_cap hw.in_dram
    have hmem : e ∈ s.emitted := by simp [hes]
    have hsame := Branch_blk_of_ne hend he
    have hbus := bus_le hdram hb
    rw [hes] at hleads
    have hlast := (leads_snoc.mp hleads).2
    rcases hvisits.next_cb hmem with hzero | ⟨f, hf, hnext⟩
    · rw [hsame, hlast] at hzero
      exact bus_ne_zero (Nat.le_zero.mp (hzero ▸ hbus))
    · rw [hsame, hlast] at hnext
      have hlt := hw.lt_p hf
      omega
  · intro he
    obtain ⟨-, rfl⟩ := Branch_some hend
    show Leads (Function.update s.ctx.blk (s.ctx.p - 32) _) a s.emitted 0
    rw [hes] at hleads ⊢
    rw [← he]
    exact hleads.relink hnot

theorem Emission.Broken.ends (h : s.Broken) (hend : End s.ctx = some ctx') :
    ¬Visits ctx'.blk a s.emitted := by
  obtain ⟨e, he, g, hnext, hg, hgp, hep⟩ := h
  intro hvisits
  have hsame := Branch_blk_of_ne hend (show e ≠ s.ctx.p - 32 by omega)
  rcases hvisits.next_cb he with hzero | ⟨f, hf, hf'⟩
  · rw [hsame, hnext] at hzero
    exact bus_ne_zero hzero
  · rw [hsame, hnext] at hf'
    exact hg (Nat.add_right_cancel hf' ▸ hf)

/-- A block array in the DRAM, nothing emitted into it yet. -/
structure EmitCtx.Empty (ctx : EmitCtx) : Prop where
  p_eq : ctx.p = ctx.base
  base_aligned : ctx.base % 32 = 0
  in_dram : ctx.base + 32 * ctx.cap ≤ ARM_DRAM_END

theorem EmitCtx.Empty.within (h : ctx₀.Empty) : Emission.Within ctx₀ ⟨ctx₀, []⟩ where
  base_eq := rfl
  cap_eq := rfl
  base_aligned := h.base_aligned
  in_dram := h.in_dram
  aligned := by
    show ctx₀.p % 32 = 0
    rw [h.p_eq, h.base_aligned]
  base_le := Nat.le_of_eq h.p_eq.symm
  le_cap := Nat.le_trans (Nat.le_of_eq h.p_eq) (Nat.le_add_right ..)
  sorted := .nil
  behind := nofun
  outside _ _ := rfl

/-- A closed run: `p` stays in the array, nothing else is written, and from the first block on
the engine runs exactly the emitted blocks, in order and once each, and halts. -/
structure Emission.Chained (ctx₀ : EmitCtx) (ops : List EmitOp) (s : Emission) (ctx' : EmitCtx) : Prop where
  bounded : TSys.All Emission.step (fun t _ => t.ctx.Bounded) ⟨ctx₀, []⟩ ops ∧ ctx'.Bounded
  outside : ∀ a, ¬(ctx₀.base ≤ a ∧ a < ctx₀.base + 32 * ctx₀.cap) → ctx'.blk a = ctx₀.blk a
  visits : Visits ctx'.blk (ctx₀.base + BUS_DRAM_BASE) s.emitted
  once : s.emitted.Nodup

/-- A run that does not panic is chained if and only if no skip that leaves slots out is followed by
another such skip, or by `End`, before the next emission. -/
theorem emission_chained_iff (h : ctx₀.Empty) (hop : op.emits = true)
    (hrun : TSys.exec Emission.step ⟨ctx₀, []⟩ (op :: ops) = some s) (hend : End s.ctx = some ctx') :
    Emission.Chained ctx₀ (op :: ops) s ctx' ↔
      TSys.All Emission.step Emission.Connects ⟨ctx₀, []⟩ (op :: ops) ∧ s.Tight := by
  have hw := h.within
  obtain ⟨t, hstep, hrest⟩ := TSys.exec_cons hrun
  have hws := hw.exec hrun
  have hfirst : t.Linked (ctx₀.base + BUS_DRAM_BASE) := by
    rw [← h.p_eq]
    exact .start hw rfl hop hstep
  have hconn : Emission.Connects ⟨ctx₀, []⟩ op := by
    cases op with
    | skipToAlign => cases hop
    | _ => trivial
  have hframe : Visits ctx'.blk (ctx₀.base + BUS_DRAM_BASE) s.emitted ↔
      Emission.Chained ctx₀ (op :: ops) s ctx' := by
    refine ⟨fun hv => ⟨⟨hw.bounded, ?_⟩, fun b hb => ?_, hv, hws.sorted.imp Nat.ne_of_lt⟩, fun hc => hc.visits⟩
    · obtain ⟨-, rfl⟩ := Branch_some hend
      show s.ctx.base ≤ s.ctx.p ∧ s.ctx.p ≤ s.ctx.base + 32 * s.ctx.cap
      rw [hws.base_eq, hws.cap_eq]
      exact ⟨hws.base_le, hws.le_cap⟩
    · obtain ⟨hlt, rfl⟩ := Branch_some hend
      rw [hws.base_eq] at hlt
      exact (hws.relink (hws.base_eq ▸ hlt) (Nat.le_refl _) hws.le_cap hws.aligned _).outside b hb
  rw [← hframe, TSys.all_cons_iff hstep]
  rcases hfirst.exec (hw.step hstep) hrest with ⟨hconns, hlinked⟩ | ⟨hconns, hbroken⟩
  · rw [hlinked.ends hws hend]
    exact ⟨fun ht => ⟨⟨hconn, hconns⟩, ht⟩, fun ht => ht.2⟩
  · exact ⟨fun hv => absurd hv (hbroken.ends hend), fun hc => absurd hc.1.2 hconns⟩

/-- Sixteen blocks. -/
def EmitCtx.sixteen : EmitCtx where
  base := 0x100000
  p := 0x100000
  cap := 16
  blk _ := ⟨0, 0, 0, 0, 0, 0⟩

/-- A block, a skip, and a block at the end of it. -/
def skipOps : List EmitOp := [.skipToAlign 128, .emit 0x40200000 0x40200100 16]

theorem emission_chained_iff_skip : ∃ s ctx',
    TSys.exec Emission.step ⟨.sixteen, []⟩ (.emit 0x40200000 0x40200010 16 :: skipOps) = some s ∧
      End s.ctx = some ctx' ∧ Emission.Chained .sixteen (.emit 0x40200000 0x40200010 16 :: skipOps) s ctx' := by
  obtain ⟨s, hrun⟩ := Option.isSome_iff_exists.mp (show (TSys.exec Emission.step ⟨.sixteen, []⟩
    (.emit 0x40200000 0x40200010 16 :: skipOps)).isSome by decide)
  have htight : ∀ t ∈ TSys.exec Emission.step ⟨.sixteen, []⟩ (.emit 0x40200000 0x40200010 16 :: skipOps),
      t.Tight ∧ (End t.ctx).isSome := by decide
  obtain ⟨hs, hend⟩ := htight s hrun
  obtain ⟨ctx', hend⟩ := Option.isSome_iff_exists.mp hend
  exact ⟨s, ctx', hrun, hend, (emission_chained_iff ⟨rfl, by decide, by decide⟩ rfl hrun hend).mpr
    ⟨by decide, hs⟩⟩

/-- `End` behind a skip: the one block emitted points at a slot that was never written. -/
theorem emission_unended : ∃ s ctx',
    TSys.exec Emission.step ⟨.sixteen, []⟩ [.emit 0x40200000 0x40200010 16, .skipToAlign 128] = some s ∧
      End s.ctx = some ctx' ∧ s.emitted = [0x100000] ∧ (ctx'.blk 0x100000).next_cb = 0x40100080 ∧
        ¬Visits ctx'.blk (0x100000 + BUS_DRAM_BASE) s.emitted := by
  obtain ⟨s, hrun⟩ := Option.isSome_iff_exists.mp (show (TSys.exec Emission.step ⟨.sixteen, []⟩
    [.emit 0x40200000 0x40200010 16, .skipToAlign 128]).isSome by decide)
  have hends : ∀ t ∈ TSys.exec Emission.step ⟨.sixteen, []⟩ [.emit 0x40200000 0x40200010 16, .skipToAlign 128],
      t.emitted = [0x100000] ∧ (End t.ctx).isSome ∧
        ∀ c ∈ End t.ctx, (c.blk 0x100000).next_cb = 0x40100080 := by decide
  obtain ⟨hemitted, hend, hnext⟩ := hends s hrun
  obtain ⟨ctx', hend⟩ := Option.isSome_iff_exists.mp hend
  refine ⟨s, ctx', hrun, hend, hemitted, hnext _ hend, ?_⟩
  rw [hemitted]
  rintro ⟨-, hnull⟩
  exact absurd (hnull.symm.trans (hnext _ hend)) (by decide)

end Bcm2835.Dma

import Bcm2835.Dma.EngineSpec

/-!
# Chains as the program finds them

`Loaded` says that the blocks a context has taken since `start` are in memory,
`Reruns` that a chain is run again and again. Neither says anything about the
memory outside of the blocks: operands and buffers are arbitrary, and the program
may change them between two runs.
-/

namespace Bcm2835.Dma

open Mem Digits

/-- The blocks of `ctx` from `start` on are in memory. -/
def Loaded (ctx : EmitCtx) (start : Nat) (m : Memory) : Prop :=
  ∀ k, start + 32 * k < ctx.p → Cblk.at m (start + BUS_DRAM_BASE + 32 * k) = ctx.blk (start + 32 * k)

/-- `mems i` is the memory before run `i` of the chain at `z`. Between two runs
the program leaves the bytes of `keep` alone. -/
def Reruns (E : Engine) (z : Nat) (keep : Nat → Prop) (mems : Nat → Memory) : Prop :=
  ∀ i m', Halts E (mems i) z m' → ∀ a, keep a → mems (i + 1) a = m' a

/-- A range of memory, as a set of addresses. -/
def Region.Mem (r : Region) (a : Nat) : Prop := r.start ≤ a ∧ a < r.start + r.size

theorem Region.Apart.symm {r s : Region} (h : r.Apart s) : s.Apart r := Or.symm h

/-- `r` lies in `s`. -/
def Region.Within (r s : Region) : Prop := s.start ≤ r.start ∧ r.start + r.size ≤ s.start + s.size

theorem Region.Within.apart {r s t : Region} (hr : r.Within s) (h : s.Apart t) : r.Apart t := by
  obtain ⟨hlo, hhi⟩ := hr
  rcases h with h | h
  · exact .inl (by omega)
  · exact .inr (by omega)

/-- An address in one of the regions. -/
def Region.Any (rs : List Region) (a : Nat) : Prop := ∃ r ∈ rs, r.Mem a

/-- Where a result and its inputs may be: none of them in the blocks, the result
in no table, and the blocks in no table either. -/
structure Placement (code : Region) (tables : List Region) (ret : Region) (inputs : List Region) :
    Prop where
  ret_fits : ret.start + ret.size < 2 ^ 32
  input_fits : ∀ r ∈ inputs, r.start + r.size ≤ 2 ^ 32
  ret_code : ret.Apart code
  input_code : ∀ r ∈ inputs, r.Apart code
  ret_tables : ∀ t ∈ tables, ret.Apart t
  code_tables : ∀ t ∈ tables, code.Apart t

instance (code ret : Region) (tables inputs : List Region) :
    Decidable (Placement code tables ret inputs) :=
  decidable_of_iff (ret.start + ret.size < 2 ^ 32 ∧ (∀ r ∈ inputs, r.start + r.size ≤ 2 ^ 32) ∧
      ret.Apart code ∧ (∀ r ∈ inputs, r.Apart code) ∧ (∀ t ∈ tables, ret.Apart t) ∧
      ∀ t ∈ tables, code.Apart t)
    ⟨fun ⟨h1, h2, h3, h4, h5, h6⟩ => ⟨h1, h2, h3, h4, h5, h6⟩,
      fun h => ⟨h.ret_fits, h.input_fits, h.ret_code, h.input_code, h.ret_tables, h.code_tables⟩⟩

/-- Code in memory, source address included. -/
theorem Chain.In.of_blocks {C : Chain} {m : Memory}
    (h : ∀ k < C.n, Cblk.at m (C.z + 32 * k) = { C.f k with next_cb := C.next k }) : C.In m where
  ti k hk _ := congrArg Cblk.ti (h k hk)
  src k hk j hj _ := by
    have hsrc : word m (C.z + 32 * k + 4) = (C.f k).src_addr := congrArg Cblk.src_addr (h k hk)
    rw [← hsrc]
    exact byte_of_word hj
  dst k hk := congrArg Cblk.dst_addr (h k hk)
  len k hk := congrArg Cblk.txfr_len (h k hk)
  stride k hk := congrArg Cblk.stride (h k hk)
  next k hk := congrArg Cblk.next_cb (h k hk)

/-- `End` only changes the successor of the last block. -/
theorem End_fill {ctx : EmitCtx} {n : Nat} (h : ctx.Room n) (f : Nat → Cblk) (hn : 0 < n) :
    End (ctx.fill f n) = some { ctx.fill f n with
      blk := Function.update (ctx.fill f n).blk (ctx.p + 32 * (n - 1))
        { f (n - 1) with next_cb := 0 } } := by
  have hbase := h.base_le
  have hlast : (ctx.fill f n).p - 32 = ctx.p + 32 * (n - 1) := by
    rw [EmitCtx.fill_p]
    omega
  rw [End, Branch, guard_bind (by rw [EmitCtx.fill_p, EmitCtx.fill_base]; omega), hlast,
    EmitCtx.fill_blk ctx f (by omega)]
  rfl

/-- A chain closed by `End` and loaded. -/
theorem Chain.In.of_loaded {ctx ctx' : EmitCtx} {C : Chain} {m : Memory} (hroom : ctx.Room C.n)
    (hz : C.z = ctx.label) (hexit : C.exit = 0) (hn : 0 < C.n)
    (hend : End (ctx.fill C.f C.n) = some ctx') (hload : Loaded ctx' ctx.p m) : C.In m := by
  rw [End_fill hroom C.f hn] at hend
  cases hend
  refine .of_blocks fun k hk => ?_
  have hat := hload k (by show _ < (ctx.fill C.f C.n).p; rw [EmitCtx.fill_p]; omega)
  have hzk : ctx.p + BUS_DRAM_BASE + 32 * k = C.z + 32 * k := by rw [hz]; rfl
  rw [hzk] at hat
  rw [hat]
  show Function.update (ctx.fill C.f C.n).blk _ _ _ = _
  rcases Nat.lt_or_ge k (C.n - 1) with hlt | hge
  · rw [Function.update_of_ne (by omega), EmitCtx.fill_blk ctx C.f hk, Chain.next,
      if_neg (by omega)]
  · obtain rfl : k = C.n - 1 := by omega
    rw [Function.update_self, Chain.next, if_pos (by omega), hexit]

/-- A chain not closed, whose last block goes on behind it. -/
theorem Chain.In.of_open {ctx : EmitCtx} {C : Chain} {m : Memory} (hz : C.z = ctx.label)
    (hexit : ∀ k, k + 1 = C.n → (C.f k).next_cb = C.exit)
    (hload : Loaded (ctx.fill C.f C.n) ctx.p m) : C.In m := by
  refine .of_blocks fun k hk => ?_
  have hat := hload k (by rw [EmitCtx.fill_p]; omega)
  have hzk : ctx.p + BUS_DRAM_BASE + 32 * k = C.z + 32 * k := by rw [hz]; rfl
  rw [hzk, EmitCtx.fill_blk ctx C.f hk] at hat
  rw [hat, Chain.next]
  split
  · next h => rw [← hexit k h]
  · rfl

theorem Chain.next_eq_pc {C : Chain} {k : Nat} (h : (C.f k).next_cb = C.z + 32 * (k + 1)) : C.next k = C.pc (k + 1) := by
  rw [next, pc]
  split
  · rfl
  · exact h

/-- A chain that goes through to the exit 0 halts. -/
theorem halts_of_after {E : Engine} {n a : Nat} {m m' : Memory}
    (h : after E n ⟨a, m⟩ = ⟨0, m'⟩) : Halts E m a m' := ⟨n, h⟩

theorem halts_of_conblk {E : Engine} {a : Nat} {m : Memory} (n : Nat)
    (h : (after E n ⟨a, m⟩).conblk_ad = 0) : Halts E m a (after E n ⟨a, m⟩).mem :=
  ⟨n, by rw [← h]⟩

/-- What every run keeps holds before every run. -/
theorem Reruns.invariant {E : Engine} {z : Nat} {keep : Nat → Prop} {mems : Nat → Memory}
    (h : Reruns E z keep mems) {I : Memory → Prop} (h0 : I (mems 0))
    (hcongr : ∀ m m', (∀ a, keep a → m' a = m a) → I m → I m')
    (hrun : ∀ m, I m → ∃ m', Halts E m z m' ∧ I m') (i : Nat) : I (mems i) := by
  induction i with
  | zero => exact h0
  | succ i ih =>
      obtain ⟨m', hhalts, hm'⟩ := hrun _ ih
      exact hcongr m' _ (h i m' hhalts) hm'

/-- What an operation has emitted from `start` on, closed by `End`, takes `m` to a
memory `m'` with `post m m'` on every run: whatever else is in memory, and whatever
the program changes between two runs besides the blocks and the `tables`. -/
def Computes (E : Engine) (start : EmitCtx) (emitted : Option EmitCtx) (tables : Nat → Prop)
    (ready : Memory → Prop) (post : Memory → Memory → Prop) : Prop :=
  ∃ ctx₁ ctx₂, emitted = some ctx₁ ∧ End ctx₁ = some ctx₂ ∧
    ∀ mems, Loaded ctx₂ start.p (mems 0) → ready (mems 0) →
      Reruns E start.label (fun a => Region.Mem ⟨start.label, ctx₁.p - start.p⟩ a ∨ tables a) mems →
      ∀ i, ∃ m', Halts E (mems i) start.label m' ∧ post (mems i) m'

/-- An operation computes what its chain computes, if a run keeps the chain and
the tables. -/
theorem Computes.of_chain {E : Engine} {start : EmitCtx} {emitted : Option EmitCtx}
    {tables : Nat → Prop} {ready : Memory → Prop} {post : Memory → Memory → Prop} {C : Chain}
    (hroom : start.Room C.n) (hz : C.z = start.label) (hexit : C.exit = 0) (hn : 0 < C.n)
    (hem : emitted = some (start.fill C.f C.n))
    (hready : ∀ m m', (∀ a, tables a → m' a = m a) → ready m → ready m')
    (hrun : ∀ m, C.In m → ready m → ∃ m', Halts E m C.z m' ∧ (C.In m' ∧ ready m') ∧ post m m') :
    Computes E start emitted tables ready post := by
  refine ⟨_, _, hem, End_fill hroom C.f hn, fun mems hload hr0 hre i => ?_⟩
  have hin0 : C.In (mems 0) := .of_loaded hroom hz hexit hn (End_fill hroom C.f hn) hload
  have hinv : C.In (mems i) ∧ ready (mems i) := by
    refine hre.invariant (I := fun m => C.In m ∧ ready m) ⟨hin0, hr0⟩ ?_ ?_ i
    · intro m m' hkeep ⟨hin, hr⟩
      refine ⟨hin.congr fun a ⟨hlo, hhi, _⟩ => hkeep a (.inl ?_), ?_⟩
      · refine ⟨by rw [← hz]; exact hlo, ?_⟩
        show a < start.label + ((start.fill C.f C.n).p - start.p)
        rw [EmitCtx.fill_p, ← hz]
        omega
      · exact hready m m' (fun a ha => hkeep a (.inr ha)) hr
    · intro m ⟨hin, hr⟩
      obtain ⟨m', hhalts, hkept, _⟩ := hrun m hin hr
      exact ⟨m', hz ▸ hhalts, hkept⟩
  obtain ⟨m', hhalts, _, hpost⟩ := hrun _ hinv.1 hinv.2
  exact ⟨m', hz ▸ hhalts, hpost⟩

end Bcm2835.Dma

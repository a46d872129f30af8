import Bcm2835.Dma.Filled

/-!
# Programs in memory

A context is loaded by storing its blocks where the engine finds them, and a chain
that is run on one memory can be run again and again. Both turn what `Computes`
says into one run on a memory that is given.
-/

namespace Bcm2835.Dma

open Mem Digits

/-! ## Loading -/

/-- Byte `o` of a control block. -/
def Cblk.byte (c : Cblk) (o : Nat) : UInt8 :=
  .ofNat ([c.ti, c.src_addr, c.dst_addr, c.txfr_len, c.stride, c.next_cb].getD (o / 4) 0 /
    256 ^ (o % 4) % 256)

/-- All fields are words. -/
def Cblk.Fits (c : Cblk) : Prop :=
  c.ti < 2 ^ 32 ∧ c.src_addr < 2 ^ 32 ∧ c.dst_addr < 2 ^ 32 ∧ c.txfr_len < 2 ^ 32 ∧
    c.stride < 2 ^ 32 ∧ c.next_cb < 2 ^ 32

instance (c : Cblk) : Decidable c.Fits := inferInstanceAs (Decidable (_ ∧ _))

/-- The memory `m` with the blocks of `ctx` from `start` on. -/
def EmitCtx.load (ctx : EmitCtx) (start : Nat) (m : Memory) : Memory := fun a =>
  if start + BUS_DRAM_BASE ≤ a ∧ a < ctx.p + BUS_DRAM_BASE then
    (ctx.blk (start + 32 * ((a - (start + BUS_DRAM_BASE)) / 32))).byte
      ((a - (start + BUS_DRAM_BASE)) % 32)
  else m a

theorem word_byte {m : Memory} {a x : Nat} (hx : x < 2 ^ 32)
    (h : ∀ j < 4, m (a + j) = .ofNat (x / 256 ^ j % 256)) : word m a = x := by
  have hj : ∀ j < 4, (m (a + j)).toNat = x / 256 ^ j % 256 := by
    intro j hj
    rw [h j hj, UInt8.toNat_ofNat', Nat.mod_mod]
  have h0 := hj 0 (by decide)
  have h1 := hj 1 (by decide)
  have h2 := hj 2 (by decide)
  have h3 := hj 3 (by decide)
  rw [Nat.add_zero] at h0
  rw [word_eq, h0, h1, h2, h3]
  omega

/-- Loading puts the blocks in memory. -/
theorem load_loaded {ctx : EmitCtx} {start n : Nat} (hp : ctx.p = start + 32 * n)
    (hfits : ∀ k < n, (ctx.blk (start + 32 * k)).Fits) (m : Memory) :
    Loaded ctx start (ctx.load start m) := by
  intro k hk
  have hkn : k < n := by omega
  obtain ⟨hti, hsrc, hdst, hlen, hstride, hnext⟩ := hfits k hkn
  have hget : ∀ f < 6, ∀ j < 4, ctx.load start m (start + BUS_DRAM_BASE + 32 * k + 4 * f + j) =
      (ctx.blk (start + 32 * k)).byte (4 * f + j) := by
    intro f hf j hj
    have hoff : start + BUS_DRAM_BASE + 32 * k + 4 * f + j - (start + BUS_DRAM_BASE) =
        32 * k + (4 * f + j) := by omega
    rw [EmitCtx.load, if_pos ⟨by omega, by omega⟩, hoff, Nat.mul_add_div (by decide),
      Nat.div_eq_of_lt (by omega), Nat.add_zero, Nat.mul_add_mod, Nat.mod_eq_of_lt (by omega)]
  have hbyte : ∀ f < 6, ∀ j < 4, (ctx.blk (start + 32 * k)).byte (4 * f + j) =
      .ofNat ([(ctx.blk (start + 32 * k)).ti, (ctx.blk (start + 32 * k)).src_addr,
        (ctx.blk (start + 32 * k)).dst_addr, (ctx.blk (start + 32 * k)).txfr_len,
        (ctx.blk (start + 32 * k)).stride, (ctx.blk (start + 32 * k)).next_cb].getD f 0 /
        256 ^ j % 256) := by
    intro f hf j hj
    rw [Cblk.byte, show (4 * f + j) / 4 = f by omega, show (4 * f + j) % 4 = j by omega]
  have hword : ∀ f < 6, ∀ x < 2 ^ 32, [(ctx.blk (start + 32 * k)).ti,
      (ctx.blk (start + 32 * k)).src_addr, (ctx.blk (start + 32 * k)).dst_addr,
      (ctx.blk (start + 32 * k)).txfr_len, (ctx.blk (start + 32 * k)).stride,
      (ctx.blk (start + 32 * k)).next_cb].getD f 0 = x →
      word (ctx.load start m) (start + BUS_DRAM_BASE + 32 * k + 4 * f) = x := by
    intro f hf x hx hfield
    refine word_byte hx fun j hj => ?_
    rw [hget f hf j hj, hbyte f hf j hj, hfield]
  have h0 := hword 0 (by decide) _ hti rfl
  have h1 := hword 1 (by decide) _ hsrc rfl
  have h2 := hword 2 (by decide) _ hdst rfl
  have h3 := hword 3 (by decide) _ hlen rfl
  have h4 := hword 4 (by decide) _ hstride rfl
  have h5 := hword 5 (by decide) _ hnext rfl
  rw [Nat.mul_zero, Nat.add_zero] at h0
  rw [Cblk.at, h0, h1, h2, h3, h4, h5]

theorem load_of_apart {ctx : EmitCtx} {start a : Nat}
    (h : a < start + BUS_DRAM_BASE ∨ ctx.p + BUS_DRAM_BASE ≤ a) (m : Memory) :
    ctx.load start m a = m a := if_neg (by omega)

/-! ## One run -/

/-- What an operation emitted, closed by `End`. -/
def closed (emitted : Option EmitCtx) : EmitCtx :=
  (emitted >>= End).getD ⟨0, 0, 0, fun _ => ⟨0, 0, 0, 0, 0, 0⟩⟩

open Classical in
/-- The memories before the runs of a chain that is run again and again. -/
noncomputable def rerun (E : Engine) (z : Nat) (m : Memory) : Nat → Memory
  | 0 => m
  | i + 1 =>
      if h : ∃ m', Halts E (rerun E z m i) z m' then h.choose else rerun E z m i

theorem rerun_reruns (E : Engine) (z : Nat) (keep : Nat → Prop) (m : Memory) :
    Reruns E z keep (rerun E z m) := by
  intro i m' hm' a _
  have hex : ∃ m', Halts E (rerun E z m i) z m' := ⟨m', hm'⟩
  rw [rerun, dif_pos hex, hex.choose_spec.unique hm']

/-- The first run. -/
theorem Computes.once {E : Engine} {start : EmitCtx} {emitted : Option EmitCtx} {tables : Nat → Prop}
    {ready : Memory → Prop} {post : Memory → Memory → Prop}
    (h : Computes E start emitted tables ready post) {m : Memory}
    (hload : Loaded (closed emitted) start.p m) (hready : ready m) :
    ∃ m', Halts E m start.label m' ∧ post m m' := by
  obtain ⟨ctx₁, ctx₂, hem, hend, hruns⟩ := h
  have hclosed : closed emitted = ctx₂ := by
    rw [closed, hem, some_bind, hend]
    rfl
  rw [hclosed] at hload
  exact hruns (rerun E start.label m) hload hready (rerun_reruns E start.label _ m) 0

/-- Blocks and data that are clear of the tables leave them filled. -/
theorem load_filled (L : Layout) {ctx : EmitCtx} {start : Nat} {data : List (Nat × UInt8)}
    (hcode : ∀ r ∈ L.regions, r.Apart ⟨start + BUS_DRAM_BASE, ctx.p - start⟩)
    (hdata : ∀ r ∈ L.regions, ∀ w ∈ data, r.Apart ⟨w.1, 1⟩) :
    Filled L (ctx.load start (stores (tables L) data)) := by
  refine (tables_filled L).congr fun a ha => ?_
  obtain ⟨r, hr, hlo, hhi⟩ := ha
  have hblocks : r.start + r.size ≤ start + BUS_DRAM_BASE ∨
      start + BUS_DRAM_BASE + (ctx.p - start) ≤ r.start := hcode r hr
  rw [load_of_apart (by omega), stores_of_ne]
  intro w hw
  have hout : r.start + r.size ≤ w.1 ∨ w.1 + 1 ≤ r.start := hdata r hr w hw
  omega

/-- A program loaded over the tables and some data. -/
def program (L : Layout) (start : EmitCtx) (emitted : Option EmitCtx) (data : List (Nat × UInt8)) :
    Memory := (closed emitted).load start.p (stores (tables L) data)

/-- The first run of a program loaded over the tables. -/
theorem Computes.on_program {E : Engine} {start : EmitCtx} {emitted : Option EmitCtx}
    {keep : Nat → Prop} {ready : Memory → Prop} {post : Memory → Memory → Prop}
    (h : Computes E start emitted keep ready post) (L : Layout) (data : List (Nat × UInt8)) (n : Nat)
    (hready : ∀ m, Filled L m → ready m) (hp : (closed emitted).p = start.p + 32 * n)
    (hfits : ∀ k < n, ((closed emitted).blk (start.p + 32 * k)).Fits)
    (hcode : ∀ r ∈ L.regions, r.Apart ⟨start.label, (closed emitted).p - start.p⟩)
    (hdata : ∀ r ∈ L.regions, ∀ w ∈ data, r.Apart ⟨w.1, 1⟩) :
    ∃ m', Halts E (program L start emitted data) start.label m' ∧
      post (program L start emitted data) m' :=
  h.once (load_loaded hp hfits _) (hready _ (load_filled L hcode hdata))

/-! ## An example board -/

def Engine.sample : Engine where
  draw k := k % 16
  draw_lt k := Nat.mod_lt k (by decide)
  draw_zero := rfl

/-- An empty context with room for 64 blocks. -/
def EmitCtx.sample : EmitCtx := ⟨0x100000, 0x100000, 64, fun _ => ⟨0, 0, 0, 0, 0, 0⟩⟩

theorem EmitCtx.sample_room {n : Nat} (hn : n ≤ 64) : EmitCtx.sample.Room n where
  aligned := rfl
  base_aligned := rfl
  base_le := Nat.le_refl _
  used_le := by
    show 0 + n ≤ 64
    omega
  in_dram := by
    show 0x100000 + 32 * n < 0x20000000
    omega

/-- An arena of a page. -/
def Arena.sample : Arena := ⟨0x300000, 0x301000, 0x300000, 0⟩

/-- A program that has not called an operation. -/
def Host.sample : Host :=
  ⟨⟨0x100000, 0x100000, 64, fun _ => ⟨0, 0, 0, 0, 0, 0⟩⟩, .sample, [], 0, 0, fun _ => 0⟩

end Bcm2835.Dma

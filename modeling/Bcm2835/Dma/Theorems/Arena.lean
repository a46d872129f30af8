import Bcm2835.Dma.HostSpec
import Bcm2835.Lib.TSys

/-!
# Runs of the arena

Any sequence of `arena_alloc` and `arena_reset` on an arena below the end of the DRAM.
No rounding and no sum that decides about an address wraps, at no size and no
alignment, so the blocks handed out since the last reset lie apart. `util` is never
set back, and its sum is exact as long as all sizes together stay below 2^32.
-/

namespace Bcm2835.Dma

/-! ## One call -/

/-- An arena in the DRAM window. -/
structure Arena.InDram (a : Arena) : Prop where
  start_pos : 0 < a.start
  start_le : a.start ≤ a.p
  lt_end : a.p < a.end_
  end_le : a.end_ ≤ ARM_DRAM_END

/-- A block of this size and alignment ends before the arena does. -/
def Arena.Fits (a : Arena) (size align : Nat) : Prop :=
  size ≤ SIZE_MAX / 2 ∧ a.next align + size < a.end_

instance Arena.decFits (a : Arena) (size align : Nat) : Decidable (a.Fits size align) :=
  inferInstanceAs (Decidable (_ ∧ _))

variable {a : Arena} {size k : Nat}

/-- The rounded address is the first multiple of the alignment from `p` on. -/
theorem Arena.next_bounds (a : Arena) (k : Nat) :
    a.next (2 ^ k) % 2 ^ k = 0 ∧ a.p ≤ a.next (2 ^ k) ∧ a.next (2 ^ k) < a.p + 2 ^ k := by
  have hpow : 0 < 2 ^ k := Nat.pow_pos (by decide)
  have hle := Nat.div_mul_le_self (a.p + 2 ^ k - 1) (2 ^ k)
  have hlt := Nat.lt_div_mul_add (a := a.p + 2 ^ k - 1) hpow
  unfold Arena.next
  exact ⟨Nat.mul_mod_left .., by omega, by omega⟩

/-- The rounded address leaves room for every size the assertion admits. -/
theorem Arena.InDram.next_le (h : a.InDram) (hk : k ≤ 31) : a.next (2 ^ k) ≤ 2 ^ 31 := by
  obtain ⟨hmod, _, hlt⟩ := a.next_bounds k
  have hp := h.lt_end
  have hend := h.end_le
  have hdram : ARM_DRAM_END = 2 ^ 29 := rfl
  rcases Nat.lt_or_eq_of_le hk with hk | rfl
  · have hpow : 2 ^ k ≤ 2 ^ 30 := Nat.pow_le_pow_right (by decide) (Nat.le_of_lt_succ hk)
    omega
  · -- the only multiples of 2^31 below 2^29 + 2^31 are 0 and 2^31
    omega

theorem arena_alloc_iff (h : a.InDram) (hk : k ≤ 31) :
    arena_alloc a size (2 ^ k) =
      if a.Fits size (2 ^ k) then
        some (a.next (2 ^ k), { a with
          p := a.next (2 ^ k) + size
          util := (a.util + size) % 2 ^ 32 })
      else none := by
  have hpow : 0 < 2 ^ k := Nat.pow_pos (by decide)
  have hle : 2 ^ k ≤ 2 ^ 31 := Nat.pow_le_pow_right (by decide) hk
  have hmax : SIZE_MAX = 4294967295 := rfl
  have hdram : ARM_DRAM_END = 536870912 := rfl
  have hstart := h.start_le
  have hlt := h.lt_end
  have hend := h.end_le
  have hnext := h.next_le hk
  have hp := (a.next_bounds k).2.1
  have hlow : (2 ^ k + SIZE_MAX) % 2 ^ 32 = 2 ^ k - 1 := by
    rw [hmax]
    omega
  have hpow2 : 2 ^ k &&& (2 ^ k + SIZE_MAX) % 2 ^ 32 = 0 := by
    rw [hlow, Nat.and_two_pow_sub_one_eq_mod, Nat.mod_self]
  have hsum : (a.p + 2 ^ k + SIZE_MAX) % 2 ^ 32 = a.p + 2 ^ k - 1 := by
    rw [hmax]
    omega
  have hmask : (2 ^ 32 - 2 ^ k) % 2 ^ 32 = 2 ^ 32 - 2 ^ k := Nat.mod_eq_of_lt (by omega)
  have hq : (a.p + 2 ^ k + SIZE_MAX) % 2 ^ 32 &&& (2 ^ 32 - 2 ^ k) % 2 ^ 32 = a.next (2 ^ k) := by
    rw [hsum, hmask, and_mask (by omega) (by omega), Arena.next]
  unfold arena_alloc
  by_cases hsize : size ≤ SIZE_MAX / 2
  · have hr : (a.next (2 ^ k) + size) % 2 ^ 32 = a.next (2 ^ k) + size :=
      Nat.mod_eq_of_lt (by rw [hmax] at hsize; omega)
    rw [guard_bind hsize, guard_bind hpow2, hq]
    dsimp only
    rw [hr]
    by_cases hfit : a.next (2 ^ k) + size < a.end_
    · rw [guard_bind (by omega), if_pos ⟨hsize, hfit⟩]
      rfl
    · have hbad : ¬¬(a.end_ ≤ a.next (2 ^ k) + size ∨ a.next (2 ^ k) + size < a.start) := by omega
      rw [if_neg fun hf => hfit hf.2, guard, if_neg hbad]
      rfl
  · rw [if_neg fun hf => hsize hf.1, guard, if_neg hsize]
    rfl

/-! ## Runs -/

/-- `size` bytes at `q`. -/
structure Block where
  q : Nat
  size : Nat
deriving DecidableEq

def Block.Apart (b c : Block) : Prop := b.q + b.size ≤ c.q ∨ c.q + c.size ≤ b.q

inductive ArenaOp
  | alloc (size align : Nat)
  | reset

/-- The arguments `arena_alloc` is called with: a 32-bit size, and an alignment from 1 to 2^31. -/
def ArenaOp.Admissible : ArenaOp → Prop
  | .alloc size align => size < 2 ^ 32 ∧ ∃ k ≤ 31, align = 2 ^ k
  | .reset => True

/-- The arena, and the blocks handed out since the last reset. -/
structure ArenaRun where
  arena : Arena
  live : List Block

/-- One operation. A call that panics leaves the arena as it was. -/
def ArenaRun.step (s : ArenaRun) : ArenaOp → ArenaRun
  | .alloc size align =>
      match arena_alloc s.arena size align with
      | none => s
      | some (q, a) => ⟨a, ⟨q, size⟩ :: s.live⟩
  | .reset => ⟨arena_reset s.arena, []⟩

/-- An operation as a step of a run. -/
def ArenaRun.next (s : ArenaRun) (op : ArenaOp) : Option ArenaRun := some (s.step op)

/-- What a call may return: an aligned block of the arena, apart from the live ones. -/
structure ArenaRun.Sound (s : ArenaRun) (size align q : Nat) (a : Arena) : Prop where
  aligned : q % align = 0
  inside : s.arena.start ≤ q ∧ q + size ≤ s.arena.end_
  apart : ∀ b ∈ s.live, Block.Apart ⟨q, size⟩ b
  /-- the rounding has not wrapped -/
  rounded : s.arena.p ≤ q ∧ q < s.arena.p + align
  /-- the sum has not wrapped -/
  behind : a.p = q + size

/-- The operation panics or returns such a block. -/
def ArenaRun.CallSound (s : ArenaRun) : ArenaOp → Prop
  | .alloc size align => ∀ q a, arena_alloc s.arena size align = some (q, a) → s.Sound size align q a
  | .reset => True

/-- It also counts the block. -/
def ArenaRun.CallOk (s : ArenaRun) : ArenaOp → Prop
  | .alloc size align => ∀ q a, arena_alloc s.arena size align = some (q, a) →
      s.Sound size align q a ∧ a.util = s.arena.util + size
  | .reset => True

/-- A block that fits can still be counted. -/
def ArenaRun.Counts (s : ArenaRun) : ArenaOp → Prop
  | .alloc size align => s.arena.Fits size align → s.arena.util + size < 2 ^ 32
  | .reset => True

instance ArenaRun.decCounts (s : ArenaRun) (op : ArenaOp) : Decidable (s.Counts op) :=
  match op with
  | .alloc _ _ => inferInstanceAs (Decidable (_ → _))
  | .reset => .isTrue trivial

/-- The blocks lie between the arena's start and `p`. -/
structure ArenaRun.Inv (s : ArenaRun) : Prop where
  arena : s.arena.InDram
  live : ∀ b ∈ s.live, b.q + b.size ≤ s.arena.p

variable {s : ArenaRun}

theorem ArenaRun.Inv.alloc_sound (h : s.Inv) (hk : k ≤ 31) {q : Nat} {a : Arena}
    (halloc : arena_alloc s.arena size (2 ^ k) = some (q, a)) :
    s.arena.Fits size (2 ^ k) ∧ s.Sound size (2 ^ k) q a ∧
      a = { s.arena with p := q + size, util := (s.arena.util + size) % 2 ^ 32 } := by
  rw [arena_alloc_iff h.arena hk] at halloc
  split at halloc
  · rename_i hfits
    obtain ⟨rfl, rfl⟩ := Prod.mk.inj (Option.some.inj halloc)
    obtain ⟨hmod, hp, hlt⟩ := s.arena.next_bounds k
    refine ⟨hfits, ⟨hmod, ⟨Nat.le_trans h.arena.start_le hp, Nat.le_of_lt hfits.2⟩, ?_, ⟨hp, hlt⟩, rfl⟩, rfl⟩
    intro b hb
    exact .inr (Nat.le_trans (h.live b hb) hp)
  · cases halloc

theorem ArenaRun.Inv.step (h : s.Inv) {op : ArenaOp} (hop : op.Admissible) : (s.step op).Inv := by
  cases op with
  | alloc size align =>
      obtain ⟨-, k, hk, rfl⟩ := hop
      rcases halloc : arena_alloc s.arena size (2 ^ k) with _ | ⟨q, a⟩
      · have hstep : s.step (.alloc size (2 ^ k)) = s := by rw [ArenaRun.step, halloc]
        rw [hstep]
        exact h
      · have hstep : s.step (.alloc size (2 ^ k)) = ⟨a, ⟨q, size⟩ :: s.live⟩ := by
          rw [ArenaRun.step, halloc]
        rw [hstep]
        obtain ⟨hfits, hsound, rfl⟩ := h.alloc_sound hk halloc
        have hq := hsound.rounded.1
        have hend : q + size < s.arena.end_ := by
          have hlt := hfits.2
          rw [arena_alloc_iff h.arena hk, if_pos hfits] at halloc
          obtain ⟨rfl, -⟩ := Prod.mk.inj (Option.some.inj halloc)
          exact hlt
        refine ⟨⟨h.arena.start_pos, Nat.le_trans hsound.inside.1 (Nat.le_add_right ..), hend,
          h.arena.end_le⟩, ?_⟩
        intro b hb
        rcases List.mem_cons.mp hb with rfl | hb
        · exact Nat.le_refl _
        · exact Nat.le_trans (h.live b hb) (Nat.le_trans hq (Nat.le_add_right ..))
  | reset =>
      exact ⟨⟨h.arena.start_pos, Nat.le_refl _, Nat.lt_of_le_of_lt h.arena.start_le h.arena.lt_end,
        h.arena.end_le⟩, nofun⟩

theorem ArenaRun.Inv.callSound (h : s.Inv) {op : ArenaOp} (hop : op.Admissible) : s.CallSound op := by
  cases op with
  | alloc size align =>
      intro q a halloc
      obtain ⟨-, k, hk, rfl⟩ := hop
      exact (h.alloc_sound hk halloc).2.1
  | reset => trivial

/-- A call counts its block exactly when the count does not overflow. -/
theorem ArenaRun.Inv.callOk_iff (h : s.Inv) {op : ArenaOp} (hop : op.Admissible) :
    s.CallOk op ↔ s.Counts op := by
  cases op with
  | reset => exact Iff.rfl
  | alloc size align =>
      obtain ⟨-, k, hk, rfl⟩ := hop
      constructor
      · intro hok hfits
        have hutil := (hok _ _ ((arena_alloc_iff h.arena hk).trans (if_pos hfits))).2
        have hlt : (s.arena.util + size) % 2 ^ 32 < 2 ^ 32 := Nat.mod_lt _ (by decide)
        rw [← hutil]
        exact hlt
      · intro hcounts q a halloc
        obtain ⟨hfits, hsound, rfl⟩ := h.alloc_sound hk halloc
        exact ⟨hsound, Nat.mod_eq_of_lt (hcounts hfits)⟩

/-- An arena initialised as `ARENA` is. -/
structure Arena.Fresh (a : Arena) : Prop where
  start_pos : 0 < a.start
  start_lt : a.start < a.end_
  end_le : a.end_ ≤ ARM_DRAM_END
  p_eq : a.p = a.start
  util_eq : a.util = 0

theorem Arena.Fresh.inv (h : a.Fresh) : (ArenaRun.mk a []).Inv where
  arena := ⟨h.start_pos, Nat.le_of_eq h.p_eq.symm, h.p_eq ▸ h.start_lt, h.end_le⟩
  live := nofun

/-- The invariant of a run with the operations still to come. -/
def ArenaRun.RunInv (s : ArenaRun) (ops : List ArenaOp) : Prop :=
  s.Inv ∧ ∀ op ∈ ops, op.Admissible

theorem ArenaRun.RunInv.next (s : ArenaRun) (op : ArenaOp) (ops : List ArenaOp) (s' : ArenaRun)
    (h : s.RunInv (op :: ops)) (hs' : s.next op = some s') : s'.RunInv ops := by
  obtain ⟨hop, hops⟩ := List.forall_mem_cons.mp h.2
  exact ⟨Option.some.inj hs' ▸ h.1.step hop, hops⟩

theorem Arena.Fresh.ok_iff (h : a.Fresh) {ops : List ArenaOp} (hops : ∀ op ∈ ops, op.Admissible) :
    TSys.All ArenaRun.next ArenaRun.CallOk ⟨a, []⟩ ops ↔
      TSys.All ArenaRun.next ArenaRun.Counts ⟨a, []⟩ ops :=
  TSys.all_iff_of_inv ArenaRun.RunInv.next (fun _ op _ hs => hs.1.callOk_iff (hs.2 op List.mem_cons_self))
    ⟨h.inv, hops⟩

/-- Every call of a run panics or returns a sound block, and no sum wraps, `util` included, if and
only if the count of a block never overflows: `arena_reset` does not set it back. -/
theorem arena_runs_ok_iff (h : a.Fresh) {ops : List ArenaOp} (hops : ∀ op ∈ ops, op.Admissible) :
    TSys.All ArenaRun.next ArenaRun.CallSound ⟨a, []⟩ ops ∧
      (TSys.All ArenaRun.next ArenaRun.CallOk ⟨a, []⟩ ops ↔
        TSys.All ArenaRun.next ArenaRun.Counts ⟨a, []⟩ ops) :=
  ⟨TSys.all_of_inv ArenaRun.RunInv.next (fun _ op _ hs => hs.1.callSound (hs.2 op List.mem_cons_self))
    ⟨h.inv, hops⟩, h.ok_iff hops⟩

/-- The largest arena that starts behind the first page. -/
def Arena.large : Arena where
  start := 0x1000
  end_ := 0x20000000
  p := 0x1000
  util := 0

theorem Arena.large_fresh : Arena.large.Fresh := ⟨by decide, by decide, by decide, rfl, rfl⟩

/-- `n` times a block of nearly all of that arena, each given back by a reset. -/
def refills (n : Nat) : List ArenaOp :=
  (List.replicate n [ArenaOp.alloc 0x1fff0000 256, ArenaOp.reset]).flatten

theorem refills_admissible (n : Nat) : ∀ op ∈ refills n, op.Admissible := by
  intro op hop
  obtain ⟨l, hl, hop⟩ := List.mem_flatten.mp hop
  rw [List.eq_of_mem_replicate hl] at hop
  rcases List.mem_cons.mp hop with rfl | hop
  · exact ⟨by decide, 8, by decide, by decide⟩
  · rw [List.mem_singleton.mp hop]
    trivial

theorem arena_runs_ok_iff_refills :
    TSys.All ArenaRun.next ArenaRun.CallOk ⟨Arena.large, []⟩ (refills 8) :=
  (arena_runs_ok_iff Arena.large_fresh (refills_admissible 8)).2.mpr (by decide +kernel)

/-- The ninth block takes `util` past 2^32, unnoticed. -/
theorem arena_util_wraps : ¬TSys.All ArenaRun.next ArenaRun.CallOk ⟨Arena.large, []⟩ (refills 9) := by
  rw [Arena.large_fresh.ok_iff (refills_admissible 9)]
  decide +kernel

end Bcm2835.Dma

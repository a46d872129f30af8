import Bcm2835.Dma.Theorems.Arena

/-!
# The figures of an arena

`arena_get_stats` behind any sequence of `arena_alloc` and `arena_reset`. Nothing is
lost from the books: what a run hands out is either live or has gone back with a
reset (`util_step`). `util` counts both, so it is the total of the live blocks only
while what has gone back counts for nothing.
-/

namespace Bcm2835.Dma

/-- The total size of the blocks. -/
def total (bs : List Block) : Nat := (bs.map Block.size).sum

/-- The figures of an arena from `start` to `end_`, the live blocks being known. -/
def ArenaRun.Accounts (s : ArenaRun) (start end_ : Nat) : Prop :=
  (arena_get_stats s.arena).cap = end_ - start ∧
    (arena_get_stats s.arena).util = total s.live ∧
    (arena_get_stats s.arena).util + (arena_get_stats s.arena).rem ≤ (arena_get_stats s.arena).cap

instance ArenaRun.decAccounts (s : ArenaRun) (start end_ : Nat) : Decidable (s.Accounts start end_) :=
  inferInstanceAs (Decidable (_ ∧ _ ∧ _))

/-- `mk_arena` returns an arena, and its figures are right behind every sequence of
operations. -/
def Accounted (start end_ : Nat) : Prop :=
  ∃ a, mk_arena start end_ = some a ∧ ∀ ops, (∀ op ∈ ops, op.Admissible) →
    ∀ s, TSys.exec ArenaRun.next ⟨a, []⟩ ops = some s → s.Accounts start end_

/-- The size an operation takes back. -/
def ArenaRun.back (s : ArenaRun) : ArenaOp → Nat
  | .alloc _ _ => 0
  | .reset => total s.live

/-- The size all resets of a run take back. -/
def ArenaRun.returned (s : ArenaRun) : List ArenaOp → Nat
  | [] => 0
  | op :: ops => s.back op + (s.step op).returned ops

variable {s s' : ArenaRun} {op : ArenaOp} {ops : List ArenaOp} {start end_ : Nat}

theorem arena_alloc_util {a a' : Arena} {size align q : Nat}
    (h : arena_alloc a size align = some (q, a')) : a'.util = (a.util + size) % 2 ^ 32 := by
  unfold arena_alloc at h
  obtain ⟨_, _, h⟩ := Option.bind_eq_some_iff.mp h
  obtain ⟨_, _, h⟩ := Option.bind_eq_some_iff.mp h
  obtain ⟨_, _, h⟩ := Option.bind_eq_some_iff.mp h
  obtain ⟨-, rfl⟩ := Prod.mk.inj (Option.some.inj h)
  rfl

/-- What has been counted is live or taken back. -/
theorem ArenaRun.util_step (s : ArenaRun) (op : ArenaOp) :
    (s.step op).arena.util + total s.live ≡
      s.arena.util + s.back op + total (s.step op).live [MOD 2 ^ 32] := by
  cases op with
  | alloc size align =>
      rcases halloc : arena_alloc s.arena size align with _ | ⟨q, a⟩
      · have hstep : s.step (.alloc size align) = s := by rw [ArenaRun.step, halloc]
        rw [hstep]
        exact Nat.ModEq.refl _
      · have hstep : s.step (.alloc size align) = ⟨a, ⟨q, size⟩ :: s.live⟩ := by
          rw [ArenaRun.step, halloc]
        have hlive : total (⟨q, size⟩ :: s.live) = size + total s.live := by
          rw [total, List.map_cons, List.sum_cons, total]
        rw [hstep, arena_alloc_util halloc, hlive]
        have hsum : s.arena.util + s.back (.alloc size align) + (size + total s.live) =
            s.arena.util + size + total s.live := by
          show s.arena.util + 0 + _ = _
          omega
        rw [hsum]
        exact (Nat.mod_modEq _ _).add_right _
  | reset => exact Nat.ModEq.refl _

theorem exec_next (h : TSys.exec ArenaRun.next s (op :: ops) = some s') :
    TSys.exec ArenaRun.next (s.step op) ops = some s' := by
  obtain ⟨t, ht, hrest⟩ := TSys.exec_cons h
  exact Option.some.inj ht ▸ hrest

/-- The same of a whole run. -/
theorem ArenaRun.util_run (h : TSys.exec ArenaRun.next s ops = some s') :
    s'.arena.util + total s.live ≡ s.arena.util + s.returned ops + total s'.live [MOD 2 ^ 32] := by
  induction ops generalizing s with
  | nil => exact Option.some.inj h ▸ Nat.ModEq.refl _
  | cons op ops ih =>
      have hrest := ih (exec_next h)
      have hstep := s.util_step op
      refine Nat.ModEq.add_right_cancel' (total (s.step op).live) ?_
      have hleft : s'.arena.util + total s.live + total (s.step op).live =
          s'.arena.util + total (s.step op).live + total s.live := by omega
      have hright : s.arena.util + s.returned (op :: ops) + total s'.live + total (s.step op).live =
          s.arena.util + s.back op + total (s.step op).live + ((s.step op).returned ops + total s'.live) := by
        show s.arena.util + (s.back op + (s.step op).returned ops) + _ + _ = _
        omega
      rw [hleft, hright]
      calc s'.arena.util + total (s.step op).live + total s.live
          ≡ (s.step op).arena.util + (s.step op).returned ops + total s'.live + total s.live [MOD 2 ^ 32] :=
            hrest.add_right _
        _ = (s.step op).arena.util + total s.live + ((s.step op).returned ops + total s'.live) := by omega
        _ ≡ _ [MOD 2 ^ 32] := hstep.add_right _

/-- The live blocks of an arena from `start` to `end_` take up no more than what lies
below `p`. -/
structure ArenaRun.Tally (start end_ : Nat) (s : ArenaRun) : Prop where
  inv : s.Inv
  start_eq : s.arena.start = start
  end_eq : s.arena.end_ = end_
  live_le : start + total s.live ≤ s.arena.p
  util_lt : s.arena.util < 2 ^ 32

theorem ArenaRun.Tally.step (h : s.Tally start end_) (hop : op.Admissible) :
    (s.step op).Tally start end_ := by
  have hinv := h.inv.step hop
  cases op with
  | alloc size align =>
      obtain ⟨-, k, hk, rfl⟩ := hop
      rcases halloc : arena_alloc s.arena size (2 ^ k) with _ | ⟨q, a⟩
      · have hstep : s.step (.alloc size (2 ^ k)) = s := by rw [ArenaRun.step, halloc]
        rw [hstep]
        exact h
      · have hstep : s.step (.alloc size (2 ^ k)) = ⟨a, ⟨q, size⟩ :: s.live⟩ := by
          rw [ArenaRun.step, halloc]
        rw [hstep] at hinv ⊢
        obtain ⟨-, hsound, rfl⟩ := h.inv.alloc_sound hk halloc
        refine ⟨hinv, h.start_eq, h.end_eq, ?_, Nat.mod_lt _ (by decide)⟩
        have hlive : total (⟨q, size⟩ :: s.live) = size + total s.live := by
          rw [total, List.map_cons, List.sum_cons, total]
        have hq := hsound.rounded.1
        have hle := h.live_le
        show start + total (⟨q, size⟩ :: s.live) ≤ q + size
        omega
  | reset => exact ⟨hinv, h.start_eq, h.end_eq, Nat.le_of_eq h.start_eq.symm, h.util_lt⟩

theorem ArenaRun.Tally.run (h : s.Tally start end_) (hops : ∀ op ∈ ops, op.Admissible)
    (hexec : TSys.exec ArenaRun.next s ops = some s') : s'.Tally start end_ := by
  induction ops generalizing s with
  | nil => exact Option.some.inj hexec ▸ h
  | cons op ops ih =>
      obtain ⟨hop, hops⟩ := List.forall_mem_cons.mp hops
      exact ih (h.step hop) hops (exec_next hexec)

/-- The other two figures are always right. -/
theorem ArenaRun.Tally.accounts_iff (h : s.Tally start end_) :
    s.Accounts start end_ ↔ s.arena.util = total s.live := by
  have hstart := h.inv.arena.start_le
  have hlt := h.inv.arena.lt_end
  have hend := h.inv.arena.end_le
  have hle := h.live_le
  have hdram : ARM_DRAM_END = 536870912 := rfl
  rw [h.start_eq] at hstart
  rw [h.end_eq] at hlt hend
  have hcap : (arena_get_stats s.arena).cap = end_ - start := by
    show (s.arena.end_ + 2 ^ 32 - s.arena.start) % 2 ^ 32 = _
    rw [h.start_eq, h.end_eq]
    omega
  have hrem : (arena_get_stats s.arena).rem = end_ - s.arena.p := by
    show (s.arena.end_ + 2 ^ 32 - s.arena.p) % 2 ^ 32 = _
    rw [h.end_eq]
    omega
  constructor
  · exact fun hacc => hacc.2.1
  · intro hutil
    have hutil' : (arena_get_stats s.arena).util = total s.live := hutil
    refine ⟨hcap, hutil', ?_⟩
    rw [hcap, hrem, hutil']
    omega

/-- An arena as `mk_arena` and `ARENA` set it up. -/
theorem ArenaRun.tally_mk (hpos : 0 < start) (hlt : start < end_) (hend : end_ ≤ ARM_DRAM_END) :
    (ArenaRun.mk ⟨start, end_, start, 0⟩ []).Tally start end_ where
  inv := Arena.Fresh.inv ⟨hpos, hlt, hend, rfl, rfl⟩
  start_eq := rfl
  end_eq := rfl
  live_le := Nat.le_refl _
  util_lt := Nat.pow_pos (by decide)

/-- `mk_arena` refuses every arena that ends behind its start. Of an arena set up without
it, as `ARENA` is, `cap` and `rem` are right behind every run, and `util` is exactly
behind those whose resets take back nothing, counted modulo 2^32. -/
theorem arena_accounting (hlt : start < end_) :
    mk_arena start end_ = none ∧ ¬Accounted start end_ ∧
      (0 < start → end_ ≤ ARM_DRAM_END → ∀ ops, (∀ op ∈ ops, op.Admissible) → ∀ s,
        TSys.exec ArenaRun.next ⟨⟨start, end_, start, 0⟩, []⟩ ops = some s →
          (s.Accounts start end_ ↔
            ArenaRun.returned ⟨⟨start, end_, start, 0⟩, []⟩ ops % 2 ^ 32 = 0)) := by
  have hnone : mk_arena start end_ = none := by
    rw [mk_arena, guard, if_neg (Nat.not_le_of_lt hlt)]
    rfl
  refine ⟨hnone, ?_, ?_⟩
  · rintro ⟨a, ha, -⟩
    rw [hnone] at ha
    cases ha
  · intro hpos hend ops hops s hexec
    have htally := (ArenaRun.tally_mk hpos hlt hend).run hops hexec
    have hutil : s.arena.util ≡ ArenaRun.returned ⟨⟨start, end_, start, 0⟩, []⟩ ops + total s.live
        [MOD 2 ^ 32] := by
      have hrun := ArenaRun.util_run hexec
      rwa [show total [] = 0 from rfl, Nat.add_zero, Nat.zero_add] at hrun
    have hle := htally.live_le
    have hp := htally.inv.arena.lt_end
    have hin := htally.inv.arena.end_le
    have hdram : ARM_DRAM_END = 536870912 := rfl
    rw [htally.accounts_iff]
    rw [Nat.ModEq, Nat.mod_eq_of_lt htally.util_lt] at hutil
    omega

/-- A page, and 16 bytes of it that a reset takes back. -/
def ArenaRun.page : ArenaRun := ⟨⟨0x1000, 0x2000, 0x1000, 0⟩, []⟩

def lend : List ArenaOp := [.alloc 16 4, .reset]

theorem arena_accounting_page : ¬Accounted 0x1000 0x2000 ∧
    ∀ s, TSys.exec ArenaRun.next ArenaRun.page [.alloc 16 4, .alloc 40 8] = some s →
      s.Accounts 0x1000 0x2000 := by
  obtain ⟨-, hnot, hruns⟩ := arena_accounting (show 0x1000 < 0x2000 by decide)
  refine ⟨hnot, fun s hs => (hruns (by decide) (by decide) _ ?_ s hs).mpr (by decide +kernel)⟩
  intro op hop
  simp only [List.mem_cons, List.not_mem_nil, or_false] at hop
  rcases hop with rfl | rfl
  · exact ⟨by decide, 2, by decide, by decide⟩
  · exact ⟨by decide, 3, by decide, by decide⟩

/-- `mk_arena` panics on a page. Were it to return, `util` would be 16 behind a reset. -/
theorem mk_arena_page : mk_arena 0x1000 0x2000 = none ∧ ¬Accounted 0x1000 0x2000 ∧
    ∃ s, TSys.exec ArenaRun.next ArenaRun.page lend = some s ∧ s.live = [] ∧
      (arena_get_stats s.arena).util = 16 := by
  refine ⟨rfl, ?_, _, rfl, by decide +kernel, by decide +kernel⟩
  rintro ⟨a, ha, -⟩
  cases ha

end Bcm2835.Dma

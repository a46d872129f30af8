import Bcm2835.Pup.Aeabi

/-!
# What the library routines do

`memmove_run` and `memset_run` are the whole routines. A loop has its invariant as a
structure, with the place in the listing for a field, and `Within.loop` takes it through.
-/

namespace Bcm2835.Pup

open Arm (Reg)
open ArmCond Mem

/-! ## `__aeabi_memmove` -/

section Move

variable {m : Memory} {dst src n i : Nat} {c : Cpu} {s : State}

/-- In the loop that copies upwards, after `i` bytes, or behind it. -/
structure Upwards (m : Memory) (dst src n i : Nat) (c : Cpu) : Prop where
  pc : c.pc = if i < n then 18 else 22
  r1 : c.state.reg .r1 = (src + i) % 2 ^ 32
  r2 : c.state.reg .r2 = (src + n) % 2 ^ 32
  r3 : c.state.reg .r3 = (dst + i + (2 ^ 32 - 1)) % 2 ^ 32
  mem : c.state.mem = move m dst src i

/-- In the loop that copies downwards, with `n - i` bytes to go, or behind it. -/
structure Downwards (m : Memory) (dst src n i : Nat) (c : Cpu) : Prop where
  pc : c.pc = if i < n then 9 else 13
  r1 : c.state.reg .r1 = (dst + (n - i)) % 2 ^ 32
  r2 : c.state.reg .r2 = src
  r3 : c.state.reg .r3 = src + (n - i)
  mem : c.state.mem = move m (dst + (n - i)) (src + (n - i)) i

theorem Upwards.turn (hdst : dst + n ≤ 2 ^ 32) (hsrc : src + n ≤ 2 ^ 32) (hn : n < 2 ^ 32)
    (hsafe : dst ≤ src ∨ src + n ≤ dst) (hi : i < n) (h : Upwards m dst src n i c) :
    ∃ c', Within aeabi_memmove_arm 4 c c' ∧ Upwards m dst src n (i + 1) c' := by
  obtain ⟨pc, s⟩ := c
  obtain ⟨hpc, h1, h2, h3, hmem⟩ := h
  rw [if_pos hi] at hpc
  dsimp only at hpc h1 h2 h3 hmem
  subst hpc
  let ops : List Op := [.ldrb .r12 .r1 (.post 1), .cmp .r2 (.reg .r1), .strb .r12 .r3 (.pre 1)]
  let s' := ops.foldl Op.apply s
  have hrun : Within aeabi_memmove_arm 3 ⟨18, s⟩ ⟨21, s'⟩ := .ops (l := ops) rfl
  have h1' : s'.reg .r1 = (s.reg .r1 + 1) % 2 ^ 32 := by simp [s', ops, Op.apply]
  have h2' : s'.reg .r2 = s.reg .r2 := by simp [s', ops, Op.apply]
  have h3' : s'.reg .r3 = (s.reg .r3 + 1) % 2 ^ 32 := by simp [s', ops, Op.apply]
  have hz : s'.z = decide (s.reg .r2 = (s.reg .r1 + 1) % 2 ^ 32) := by simp [s', ops, Op.apply]
  have hmem' : s'.mem = Function.update s.mem ((s.reg .r3 + 1) % 2 ^ 32) (s.mem (s.reg .r1)) := by
    simp [s', ops, Op.apply]
  have hne : Cond.ne.holds s' = decide (i + 1 < n) := by
    rw [Cond.holds, hz, ← decide_not]
    exact decide_eq_decide.mpr (by omega)
  have hat : (s.reg .r3 + 1) % 2 ^ 32 = dst + i := by omega
  have hfrom : s.reg .r1 = src + i := by omega
  refine ⟨⟨if i + 1 < n then 18 else 22, s'⟩, hrun.trans (.branch rfl hne), rfl,
    by dsimp only; omega, h2'.trans h2, by dsimp only; omega, ?_⟩
  dsimp only
  rw [hmem', hat, hfrom, hmem, move_up hsafe hi]

theorem Downwards.turn (hdst : dst + n ≤ 2 ^ 32) (hsrc : src + n ≤ 2 ^ 32) (hlt : src ≤ dst)
    (hi : i < n) (h : Downwards m dst src n i c) :
    ∃ c', Within aeabi_memmove_arm 4 c c' ∧ Downwards m dst src n (i + 1) c' := by
  obtain ⟨pc, s⟩ := c
  obtain ⟨hpc, h1, h2, h3, hmem⟩ := h
  rw [if_pos hi] at hpc
  dsimp only at hpc h1 h2 h3 hmem
  subst hpc
  let ops : List Op :=
    [.ldrb .r12 .r3 (.pre (neg 1)), .cmp .r2 (.reg .r3), .strb .r12 .r1 (.pre (neg 1))]
  let s' := ops.foldl Op.apply s
  have hrun : Within aeabi_memmove_arm 3 ⟨9, s⟩ ⟨12, s'⟩ := .ops (l := ops) rfl
  have h1' : s'.reg .r1 = (s.reg .r1 + neg 1) % 2 ^ 32 := by simp [s', ops, Op.apply]
  have h2' : s'.reg .r2 = s.reg .r2 := by simp [s', ops, Op.apply]
  have h3' : s'.reg .r3 = (s.reg .r3 + neg 1) % 2 ^ 32 := by simp [s', ops, Op.apply]
  have hz : s'.z = decide (s.reg .r2 = (s.reg .r3 + neg 1) % 2 ^ 32) := by simp [s', ops, Op.apply]
  have hmem' : s'.mem = Function.update s.mem ((s.reg .r1 + neg 1) % 2 ^ 32)
      (s.mem ((s.reg .r3 + neg 1) % 2 ^ 32)) := by
    simp [s', ops, Op.apply]
  have hneg : neg 1 = 2 ^ 32 - 1 := rfl
  have hfrom : (s.reg .r3 + neg 1) % 2 ^ 32 = src + (n - (i + 1)) := by omega
  have hat : (s.reg .r1 + neg 1) % 2 ^ 32 = dst + (n - (i + 1)) := by omega
  have hne : Cond.ne.holds s' = decide (i + 1 < n) := by
    rw [Cond.holds, hz, ← decide_not]
    exact decide_eq_decide.mpr (by omega)
  refine ⟨⟨if i + 1 < n then 9 else 13, s'⟩, hrun.trans (.branch rfl hne), rfl,
    by dsimp only; omega, h2'.trans h2, h3'.trans hfrom, ?_⟩
  dsimp only
  rw [hmem', hat, hfrom, hmem, show n - i = n - (i + 1) + 1 by omega, ← Nat.add_assoc,
    ← Nat.add_assoc, move_down (by omega)]

/-- Behind the first two branches, whichever way they go. -/
theorem memmove_upwards (hdst : s.reg .r0 + s.reg .r2 ≤ 2 ^ 32)
    (hsrc : s.reg .r1 + s.reg .r2 ≤ 2 ^ 32) (hn : s.reg .r2 < 2 ^ 32)
    (hsafe : s.reg .r0 ≤ s.reg .r1 ∨ s.reg .r1 + s.reg .r2 ≤ s.reg .r0) :
    ∃ c', Within aeabi_memmove_arm (4 * s.reg .r2 + 4) ⟨14, s⟩ c' ∧
      Returning aeabi_memmove_arm c' (s.reg .lr) ∧
      c'.state.mem = move s.mem (s.reg .r0) (s.reg .r1) (s.reg .r2) := by
  let s₁ := Op.apply s (.cmp .r2 (.imm 0))
  have hcmp : Within aeabi_memmove_arm 1 ⟨14, s⟩ ⟨15, s₁⟩ := .op rfl rfl
  have hz : s₁.z = decide (s.reg .r2 = 0) := rfl
  by_cases hzero : s.reg .r2 = 0
  · have hne : Cond.ne.holds s₁ = false := by simp [Cond.holds, hz, hzero]
    refine ⟨⟨23, s₁⟩, ?_, ⟨.al, .lr, rfl, rfl, rfl⟩, ?_⟩
    · exact (hcmp.trans ((Within.skip rfl hne).trans ((Within.skip rfl hne).trans
        (.taken rfl (by simp [Cond.holds, hz, hzero]))))).mono (Nat.le_add_left _ _)
    · rw [hzero, move_zero]
      rfl
  · have hne : Cond.ne.holds s₁ = true := by simp [Cond.holds, hz, hzero]
    let s₂ := Op.apply s₁ (.add .r2 .r1 (.reg .r2))
    let s₃ := Op.apply s₂ (.sub .r3 .r0 (.imm 1))
    have hne₂ : Cond.ne.holds s₂ = true := by simp [Cond.holds, s₂, Op.apply, hz, hzero]
    have heq : Cond.eq.holds s₃ = false := by simp [Cond.holds, s₃, s₂, Op.apply, hz, hzero]
    have hstart : Upwards s.mem (s.reg .r0) (s.reg .r1) (s.reg .r2) 0 ⟨18, s₃⟩ := by
      have h1 : s₃.reg .r1 = s.reg .r1 := by simp [s₃, s₂, s₁, Op.apply]
      have h2 : s₃.reg .r2 = (s.reg .r1 + s.reg .r2) % 2 ^ 32 := by simp [s₃, s₂, s₁, Op.apply]
      have h3 : s₃.reg .r3 = (s.reg .r0 + (2 ^ 32 - 1)) % 2 ^ 32 := by simp [s₃, s₂, s₁, Op.apply]
      have hmem : s₃.mem = s.mem := by simp [s₃, s₂, s₁, Op.apply]
      refine ⟨(if_pos (by omega)).symm, ?_, h2, ?_, hmem.trans move_zero.symm⟩
      · dsimp only
        omega
      · dsimp only
        omega
    obtain ⟨⟨pc, s'⟩, hloop, hend⟩ := Within.loop
      (I := Upwards s.mem (s.reg .r0) (s.reg .r1) (s.reg .r2))
      (fun i hi c hc => hc.turn hdst hsrc hn hsafe hi) hstart
    obtain rfl : pc = 22 := hend.pc.trans (if_neg (Nat.lt_irrefl _))
    have hrun : Within aeabi_memmove_arm (4 * s.reg .r2 + 4) ⟨14, s⟩ ⟨22, s'⟩ :=
      (hcmp.trans ((Within.op rfl hne).trans ((Within.op rfl hne₂).trans
        ((Within.passed rfl heq).trans hloop)))).mono (by omega)
    exact ⟨⟨22, s'⟩, hrun, ⟨.al, .lr, rfl, rfl, hrun.reg_eq (by decide)⟩, hend.mem⟩

/-- With a destination that starts inside of the source. -/
theorem memmove_downwards (hdst : s.reg .r0 + s.reg .r2 ≤ 2 ^ 32)
    (hsrc : s.reg .r1 + s.reg .r2 < 2 ^ 32) (h3 : s.reg .r3 = s.reg .r1 + s.reg .r2)
    (hlt : s.reg .r1 < s.reg .r0) (hin : s.reg .r0 < s.reg .r1 + s.reg .r2) :
    ∃ c', Within aeabi_memmove_arm (4 * s.reg .r2 + 4) ⟨5, s⟩ c' ∧
      Returning aeabi_memmove_arm c' (s.reg .lr) ∧
      c'.state.mem = move s.mem (s.reg .r0) (s.reg .r1) (s.reg .r2) := by
  let s₁ := Op.apply s (.cmp .r2 (.imm 0))
  let s₂ := Op.apply s₁ (.add .r1 .r0 (.reg .r2))
  let s₃ := Op.apply s₂ (.rsb .r2 .r2 (.reg .r3))
  have heq : Cond.eq.holds s₂ = false := by
    refine (Cond.holds_congr rfl rfl _).trans (Cond.eq_cmp.trans (decide_eq_false ?_))
    rw [State.value_imm]
    omega
  have hstart : Downwards s.mem (s.reg .r0) (s.reg .r1) (s.reg .r2) 0 ⟨9, s₃⟩ := by
    have h1 : s₃.reg .r1 = (s.reg .r0 + s.reg .r2) % 2 ^ 32 := by simp [s₃, s₂, s₁, Op.apply]
    have h2 : s₃.reg .r2 = (s.reg .r3 + (2 ^ 32 - s.reg .r2)) % 2 ^ 32 := by
      simp [s₃, s₂, s₁, Op.apply]
    have h3' : s₃.reg .r3 = s.reg .r3 := by simp [s₃, s₂, s₁, Op.apply]
    have hmem : s₃.mem = s.mem := by simp [s₃, s₂, s₁, Op.apply]
    refine ⟨(if_pos (by omega)).symm, h1, ?_, h3'.trans h3, hmem.trans move_zero.symm⟩
    dsimp only
    omega
  obtain ⟨⟨pc, s'⟩, hloop, hend⟩ := Within.loop
    (I := Downwards s.mem (s.reg .r0) (s.reg .r1) (s.reg .r2))
    (fun i hi c hc => hc.turn hdst (Nat.le_of_lt hsrc) (Nat.le_of_lt hlt) hi) hstart
  obtain rfl : pc = 13 := hend.pc.trans (if_neg (Nat.lt_irrefl _))
  have hrun : Within aeabi_memmove_arm (4 * s.reg .r2 + 4) ⟨5, s⟩ ⟨13, s'⟩ :=
    ((Within.op (o := .cmp .r2 (.imm 0)) rfl rfl).trans ((Within.op rfl rfl).trans
      ((Within.stays rfl heq).trans ((Within.op rfl rfl).trans hloop)))).mono (by omega)
  refine ⟨⟨13, s'⟩, hrun, ⟨.al, .lr, rfl, rfl, hrun.reg_eq (by decide)⟩, hend.mem.trans ?_⟩
  rw [Nat.sub_self, Nat.add_zero, Nat.add_zero]

/-- The whole routine, for blocks that end in the address space. -/
theorem memmove_run (hwords : s.Words) (hdst : s.reg .r0 + s.reg .r2 ≤ 2 ^ 32)
    (hsrc : s.reg .r1 + s.reg .r2 ≤ 2 ^ 32) :
    ∃ c', Within aeabi_memmove_arm (4 * s.reg .r2 + 10) ⟨0, s⟩ c' ∧
      Returning aeabi_memmove_arm c' (s.reg .lr) ∧
      c'.state.mem = move s.mem (s.reg .r0) (s.reg .r1) (s.reg .r2) := by
  have hn := hwords .r2
  let s₁ := Op.apply s (.cmp .r0 (.reg .r1))
  have hcmp : Within aeabi_memmove_arm 1 ⟨0, s⟩ ⟨1, s₁⟩ := .op rfl rfl
  have hls : Cond.ls.holds s₁ = decide (s.reg .r0 ≤ s.reg .r1) := Cond.ls_cmp
  by_cases hle : s.reg .r0 ≤ s.reg .r1
  · obtain ⟨c', hrun, hret, hmem⟩ := memmove_upwards (s := s₁) hdst hsrc hn (.inl hle)
    have hbls : Within aeabi_memmove_arm 1 ⟨1, s₁⟩ ⟨14, s₁⟩ :=
      .taken rfl (by rw [hls, decide_eq_true hle])
    exact ⟨c', (hcmp.trans (hbls.trans hrun)).mono (show 1 + (1 + (4 * s.reg .r2 + 4)) ≤ _ by omega),
      hret, hmem⟩
  · have hbls : Within aeabi_memmove_arm 1 ⟨1, s₁⟩ ⟨2, s₁⟩ :=
      .passed rfl (by rw [hls, decide_eq_false hle])
    let s₂ := Op.apply s₁ (.add .r3 .r1 (.reg .r2))
    let s₃ := Op.apply s₂ (.cmp .r0 (.reg .r3))
    have hends : Within aeabi_memmove_arm 2 ⟨2, s₁⟩ ⟨4, s₃⟩ :=
      .ops (l := [.add .r3 .r1 (.reg .r2), .cmp .r0 (.reg .r3)]) rfl
    have hreg : ∀ r, r ≠ .r3 → s₃.reg r = s.reg r := fun r hr => State.set_reg_of_ne hr
    have h0 := hreg .r0 (by decide)
    have h1 := hreg .r1 (by decide)
    have h2 := hreg .r2 (by decide)
    have hlr := hreg .lr (by decide)
    have hmem₃ : s₃.mem = s.mem := by simp [s₃, s₂, s₁, Op.apply]
    have h3 : s₃.reg .r3 = s.reg .r1 + s.reg .r2 := by
      have h3 : s₃.reg .r3 = (s.reg .r1 + s.reg .r2) % 2 ^ 32 := by simp [s₃, s₂, s₁, Op.apply]
      omega
    have hcs : Cond.cs.holds s₃ = decide (s.reg .r1 + s.reg .r2 ≤ s.reg .r0) := by
      rw [← h3, ← h0]
      exact Cond.cs_cmp
    by_cases hover : s.reg .r1 + s.reg .r2 ≤ s.reg .r0
    · obtain ⟨c', hrun, hret, hmem⟩ := memmove_upwards (s := s₃) (by omega) (by omega) (by omega)
        (.inr (by omega))
      have hbcs : Within aeabi_memmove_arm 1 ⟨4, s₃⟩ ⟨14, s₃⟩ :=
        .taken rfl (by rw [hcs, decide_eq_true hover])
      refine ⟨c', (hcmp.trans (hbls.trans (hends.trans (hbcs.trans hrun)))).mono ?_, hlr ▸ hret, ?_⟩
      · omega
      · rw [hmem, hmem₃, h0, h1, h2]
    · obtain ⟨c', hrun, hret, hmem⟩ := memmove_downwards (s := s₃) (by omega) (by omega) (by omega)
        (by omega) (by omega)
      have hbcs : Within aeabi_memmove_arm 1 ⟨4, s₃⟩ ⟨5, s₃⟩ :=
        .passed rfl (by rw [hcs, decide_eq_false hover])
      refine ⟨c', (hcmp.trans (hbls.trans (hends.trans (hbcs.trans hrun)))).mono ?_, hlr ▸ hret, ?_⟩
      · omega
      · rw [hmem, hmem₃, h0, h1, h2]

end Move

/-! ## `__aeabi_memset` -/

section Set

variable {m : Memory} {dst n j sp : Nat} {v : UInt8} {c : Cpu} {s : State}

/-- `j` of the `n` bytes are behind the pointer. -/
structure Progress (dst n sp : Nat) (v : UInt8) (j : Nat) (s : State) : Prop where
  r1 : s.reg .r1 = n - j
  r2 : UInt8.ofNat (s.reg .r2) = v
  r3 : s.reg .r3 = (dst + j) % 2 ^ 32
  sp : s.reg .sp = sp

theorem Progress.congr (h : Progress dst n sp v j s) {s' : State} (h1 : s'.reg .r1 = s.reg .r1)
    (h2 : s'.reg .r2 = s.reg .r2) (h3 : s'.reg .r3 = s.reg .r3) (hsp : s'.reg .sp = s.reg .sp) :
    Progress dst n sp v j s' :=
  ⟨h1.trans h.r1, h2 ▸ h.r2, h3.trans h.r3, hsp.trans h.sp⟩

/-! ### Words -/

/-- `lr` holds the byte four times over. -/
structure Replicated (v : UInt8) (s : State) : Prop where
  bytes : Bytes.leBytes 4 (s.reg .lr) = List.replicate 4 v

/-- In the loop that sets four words at a time, after `i` turns, or behind it. -/
structure FourWords (m : Memory) (dst n sp : Nat) (v : UInt8) (j i : Nat) (c : Cpu) : Prop
    extends Progress dst n sp v j c.state, Replicated v c.state where
  pc : c.pc = if i < (n - j) / 16 then 24 else 32
  r4 : c.state.reg .r4 = n - j - 16 * i
  r12 : c.state.reg .r12 = (dst + j + 16 * i + 16) % 2 ^ 32
  mem : c.state.mem = fill m dst (j + 16 * i) v

/-- In the loop that sets one word at a time. -/
structure OneWord (m : Memory) (dst n sp : Nat) (v : UInt8) (j i : Nat) (c : Cpu) : Prop
    extends Progress dst n sp v j c.state, Replicated v c.state where
  pc : c.pc = if i < (n - j) / 4 then 41 else 45
  r12 : c.state.reg .r12 = n - j - 4 * i
  r4 : c.state.reg .r4 = (dst + j + 4 * i) % 2 ^ 32
  mem : c.state.mem = fill m dst (j + 4 * i) v

/-- A word of equal bytes behind the ones that are set. -/
theorem fill_word {w k a : Nat} (hw : Bytes.leBytes 4 w = List.replicate 4 v) (ha : a = dst + k)
    (hfit : dst + k + 4 ≤ 2 ^ 32) :
    write (2 ^ 32) (fill m dst k v) a (Bytes.leBytes 4 w) = fill m dst (k + 4) v := by
  rw [hw, ha, fill_bytes 4 hfit]

theorem FourWords.turn {i : Nat} (hdst : dst + n ≤ 2 ^ 32) (hn : n < 2 ^ 32) (hi : i < (n - j) / 16)
    (h : FourWords m dst n sp v j i c) :
    ∃ c', Within aeabi_memset_arm 8 c c' ∧ FourWords m dst n sp v j (i + 1) c' := by
  obtain ⟨pc, s⟩ := c
  obtain ⟨hprogress, ⟨hlr⟩, hpc, h4, h12, hmem⟩ := h
  rw [if_pos hi] at hpc
  dsimp only at hprogress hlr hpc h4 h12 hmem
  subst hpc
  let stores : List Op := [.str .lr .r12 (.offset (neg 16)), .str .lr .r12 (.offset (neg 12)),
    .str .lr .r12 (.offset (neg 8)), .str .lr .r12 (.offset (neg 4)), .add .r12 .r12 (.imm 16)]
  let s₁ := Op.apply s (.sub .r4 .r4 (.imm 16))
  let s₂ := Op.apply s₁ (.cmp .r4 (.imm 15))
  let s' := stores.foldl Op.apply s₂
  have hsub : Within aeabi_memset_arm 1 ⟨24, s⟩ ⟨25, s₁⟩ := .op rfl rfl
  have hcmp : Within aeabi_memset_arm 1 ⟨25, s₁⟩ ⟨26, s₂⟩ := .op rfl rfl
  have hrun : Within aeabi_memset_arm 7 ⟨24, s⟩ ⟨31, s'⟩ :=
    hsub.trans (hcmp.trans (.ops (l := stores) rfl))
  have h4₁ : s₁.reg .r4 = n - j - 16 * (i + 1) := by
    have h4₁ : s₁.reg .r4 = (s.reg .r4 + (2 ^ 32 - 16)) % 2 ^ 32 := by simp [s₁, Op.apply]
    omega
  have hhi : Cond.hi.holds s' = decide (i + 1 < (n - j) / 16) := by
    have hcmp : Cond.hi.holds s' = decide (15 < s₁.reg .r4) :=
      (Cond.holds_ops (l := stores) (by decide) s₂ .hi).trans Cond.hi_cmp
    exact hcmp.trans (decide_eq_decide.mpr (by omega))
  have hreg : ∀ r, r ≠ .r4 → r ≠ .r12 → s'.reg r = s.reg r := fun r hr4 hr12 => by
    simp [s', stores, s₂, s₁, Op.apply, Function.update_of_ne hr4, Function.update_of_ne hr12]
  refine ⟨⟨if i + 1 < (n - j) / 16 then 24 else 32, s'⟩, hrun.trans (.branch rfl hhi),
    ⟨?_, ⟨?_⟩, rfl, ?_, ?_, ?_⟩⟩
  · exact hprogress.congr (hreg _ (by decide) (by decide)) (hreg _ (by decide) (by decide))
      (hreg _ (by decide) (by decide)) (hreg _ (by decide) (by decide))
  · dsimp only
    rw [hreg .lr (by decide) (by decide)]
    exact hlr
  · exact (show s'.reg .r4 = s₁.reg .r4 by simp [s', stores, s₂, s₁, Op.apply]).trans h4₁
  · have h12' : s'.reg .r12 = (s.reg .r12 + 16) % 2 ^ 32 := by simp [s', stores, s₂, s₁, Op.apply]
    dsimp only
    omega
  · have hstores : s'.mem = write (2 ^ 32) (write (2 ^ 32) (write (2 ^ 32) (write (2 ^ 32) s.mem
        ((s.reg .r12 + neg 16) % 2 ^ 32) (Bytes.leBytes 4 (s.reg .lr)))
        ((s.reg .r12 + neg 12) % 2 ^ 32) (Bytes.leBytes 4 (s.reg .lr)))
        ((s.reg .r12 + neg 8) % 2 ^ 32) (Bytes.leBytes 4 (s.reg .lr)))
        ((s.reg .r12 + neg 4) % 2 ^ 32) (Bytes.leBytes 4 (s.reg .lr)) := by
      simp [s', stores, s₂, s₁, Op.apply]
    have hneg : neg 16 = 2 ^ 32 - 16 ∧ neg 12 = 2 ^ 32 - 12 ∧ neg 8 = 2 ^ 32 - 8 ∧
      neg 4 = 2 ^ 32 - 4 := ⟨rfl, rfl, rfl, rfl⟩
    dsimp only
    rw [hstores, hmem, fill_word hlr (by omega) (by omega), fill_word hlr (by omega) (by omega),
      fill_word hlr (by omega) (by omega), fill_word hlr (by omega) (by omega)]
    exact congrArg (fill m dst · v) (by omega)

theorem OneWord.turn {i : Nat} (hdst : dst + n ≤ 2 ^ 32) (hn : n < 2 ^ 32) (hi : i < (n - j) / 4)
    (h : OneWord m dst n sp v j i c) :
    ∃ c', Within aeabi_memset_arm 4 c c' ∧ OneWord m dst n sp v j (i + 1) c' := by
  obtain ⟨pc, s⟩ := c
  obtain ⟨hprogress, ⟨hlr⟩, hpc, h12, h4, hmem⟩ := h
  rw [if_pos hi] at hpc
  dsimp only at hprogress hlr hpc h4 h12 hmem
  subst hpc
  let s₁ := Op.apply s (.sub .r12 .r12 (.imm 4))
  let s₂ := Op.apply s₁ (.cmp .r12 (.imm 3))
  let s' := Op.apply s₂ (.str .lr .r4 (.post 4))
  have hsub : Within aeabi_memset_arm 1 ⟨41, s⟩ ⟨42, s₁⟩ := .op rfl rfl
  have hcmp : Within aeabi_memset_arm 1 ⟨42, s₁⟩ ⟨43, s₂⟩ := .op rfl rfl
  have hrun : Within aeabi_memset_arm 3 ⟨41, s⟩ ⟨44, s'⟩ := hsub.trans (hcmp.trans (.op rfl rfl))
  have h12₁ : s₁.reg .r12 = n - j - 4 * (i + 1) := by
    have h12₁ : s₁.reg .r12 = (s.reg .r12 + (2 ^ 32 - 4)) % 2 ^ 32 := by simp [s₁, Op.apply]
    omega
  have hhi : Cond.hi.holds s' = decide (i + 1 < (n - j) / 4) := by
    have hcmp : Cond.hi.holds s' = decide (3 < s₁.reg .r12) :=
      (Cond.holds_ops (l := [.str .lr .r4 (.post 4)]) (by decide) s₂ .hi).trans Cond.hi_cmp
    exact hcmp.trans (decide_eq_decide.mpr (by omega))
  have hreg : ∀ r, r ≠ .r4 → r ≠ .r12 → s'.reg r = s.reg r := fun r hr4 hr12 => by
    simp [s', s₂, s₁, Op.apply, Function.update_of_ne hr4, Function.update_of_ne hr12]
  refine ⟨⟨if i + 1 < (n - j) / 4 then 41 else 45, s'⟩, hrun.trans (.branch rfl hhi),
    ⟨?_, ⟨?_⟩, rfl, ?_, ?_, ?_⟩⟩
  · exact hprogress.congr (hreg _ (by decide) (by decide)) (hreg _ (by decide) (by decide))
      (hreg _ (by decide) (by decide)) (hreg _ (by decide) (by decide))
  · dsimp only
    rw [hreg .lr (by decide) (by decide)]
    exact hlr
  · exact (show s'.reg .r12 = s₁.reg .r12 by simp [s', s₂, s₁, Op.apply]).trans h12₁
  · have h4' : s'.reg .r4 = (s.reg .r4 + 4) % 2 ^ 32 := by simp [s', s₂, s₁, Op.apply]
    dsimp only
    omega
  · have hstores : s'.mem = write (2 ^ 32) s.mem (s.reg .r4) (Bytes.leBytes 4 (s.reg .lr)) := by
      simp [s', s₂, s₁, Op.apply]
    dsimp only
    rw [hstores, hmem, fill_word hlr (by omega) (by omega)]
    exact congrArg (fill m dst · v) (by omega)

/-- The loop that sets four words at a time is entered. -/
theorem FourWords.entered (hlong : 16 ≤ n - j) (h : Progress dst n sp v j s) (hlr : Replicated v s)
    (hmem : s.mem = fill m dst j v) :
    ∃ c', Within aeabi_memset_arm 2 ⟨22, s⟩ c' ∧ FourWords m dst n sp v j 0 c' := by
  let s₁ := Op.apply s (.mov .r4 (.reg .r1))
  let s₂ := Op.apply s₁ (.add .r12 .r3 (.imm 16))
  have hreg : ∀ r, r ≠ .r4 → r ≠ .r12 → s₂.reg r = s.reg r := fun r hr4 hr12 => by
    simp [s₂, s₁, Op.apply, Function.update_of_ne hr4, Function.update_of_ne hr12]
  have h4 : s₂.reg .r4 = s.reg .r1 := by simp [s₂, s₁, Op.apply]
  have h12 : s₂.reg .r12 = (s.reg .r3 + 16) % 2 ^ 32 := by simp [s₂, s₁, Op.apply]
  have hmem₂ : s₂.mem = s.mem := by simp [s₂, s₁, Op.apply]
  refine ⟨⟨24, s₂⟩, (Within.op (s := s) rfl rfl).trans (.op rfl rfl),
    h.congr (hreg _ (by decide) (by decide)) (hreg _ (by decide) (by decide))
      (hreg _ (by decide) (by decide)) (hreg _ (by decide) (by decide)), ⟨?_⟩,
    (if_pos (by omega)).symm, h4.trans h.r1, ?_, hmem₂.trans hmem⟩
  · dsimp only
    rw [hreg .lr (by decide) (by decide)]
    exact hlr.bytes
  · have h3 := h.r3
    dsimp only
    omega

/-- What follows from the count and the pointer behind the loop. -/
theorem FourWords.left (hn : n < 2 ^ 32) (hlong : 16 ≤ n - j)
    (h : FourWords m dst n sp v j ((n - j) / 16) ⟨32, s⟩) :
    ∃ s', Within aeabi_memset_arm 6 ⟨32, s⟩ ⟨38, s'⟩ ∧
      Progress dst n sp v (j + (n - j) / 16 * 16) s' ∧ Replicated v s' ∧
      s'.mem = fill m dst (j + (n - j) / 16 * 16) v ∧
      Cond.ls.holds s' = decide (n - (j + (n - j) / 16 * 16) ≤ 3) := by
  let t₁ := Op.apply s (.sub .r12 .r1 (.imm 16))
  let t₂ := Op.apply t₁ (.bic .r12 .r12 (.imm 15))
  let t₃ := Op.apply t₂ (.and .r1 .r1 (.imm 15))
  let t₄ := Op.apply t₃ (.add .r12 .r12 (.imm 16))
  let t₅ := Op.apply t₄ (.cmp .r1 (.imm 3))
  let s' := Op.apply t₅ (.add .r3 .r3 (.reg .r12))
  have h1 : s.reg .r1 = n - j := h.r1
  have h3 : s.reg .r3 = (dst + j) % 2 ^ 32 := h.r3
  have ht₁ : t₁.reg .r12 = n - j - 16 := by
    have hsub : t₁.reg .r12 = _ := Op.sub_self s .r12 .r1 (.imm 16)
    rw [State.value_imm] at hsub
    omega
  have ht₂ : t₂.reg .r12 = (n - j - 16) / 2 ^ 4 * 2 ^ 4 := by
    have hbic := Op.bic_self t₁ .r12 .r12 (.imm (2 ^ 4 - 1))
    rw [State.value_imm, ht₁, and_mask_high (by omega) (by decide)] at hbic
    exact hbic
  have ht₃ : t₃.reg .r1 = (n - j) % 2 ^ 4 := by
    have hand := Op.and_self t₂ .r1 .r1 (.imm (2 ^ 4 - 1))
    rw [State.value_imm, Nat.and_two_pow_sub_one_eq_mod] at hand
    refine hand.trans (congrArg (· % 2 ^ 4) ?_)
    simp (disch := decide) only [t₂, t₁, Op.apply_reg, h1]
  have ht₄ : t₄.reg .r12 = (n - j) / 16 * 16 := by
    have hadd : t₄.reg .r12 = _ := Op.add_self t₃ .r12 .r12 (.imm 16)
    have hkept : t₃.reg .r12 = t₂.reg .r12 := Op.apply_reg (by decide) t₂
    rw [State.value_imm] at hadd
    omega
  have hcount : t₄.reg .r1 = t₃.reg .r1 := Op.apply_reg (by decide) t₃
  have hls : Cond.ls.holds s' = decide (t₄.reg .r1 ≤ 3) :=
    (Cond.holds_ops (l := [.add .r3 .r3 (.reg .r12)]) (by decide) t₅ .ls).trans Cond.ls_cmp
  refine ⟨s', ?_, ⟨?_, ?_, ?_, ?_⟩, ⟨?_⟩, ?_, ?_⟩
  · exact (Within.op (s := s) rfl rfl).trans ((Within.op (s := t₁) rfl rfl).trans
      ((Within.op (s := t₂) rfl rfl).trans ((Within.op (s := t₃) rfl rfl).trans
        ((Within.op (s := t₄) rfl rfl).trans (.op (s := t₅) rfl rfl)))))
  · have hkept : s'.reg .r1 = t₄.reg .r1 := by
      simp (disch := decide) only [s', t₅, Op.apply_reg]
    omega
  · have hkept : s'.reg .r2 = s.reg .r2 := by
      simp (disch := decide) only [s', t₅, t₄, t₃, t₂, t₁, Op.apply_reg]
    rw [hkept]
    exact h.r2
  · have hadd : s'.reg .r3 = (t₅.reg .r3 + t₅.reg .r12) % 2 ^ 32 := Op.add_self ..
    have hkept : t₅.reg .r3 = s.reg .r3 := by
      simp (disch := decide) only [t₅, t₄, t₃, t₂, t₁, Op.apply_reg]
    have hkept' : t₅.reg .r12 = t₄.reg .r12 := Op.apply_reg (by decide) t₄
    omega
  · have hkept : s'.reg .sp = s.reg .sp := by
      simp (disch := decide) only [s', t₅, t₄, t₃, t₂, t₁, Op.apply_reg]
    exact hkept.trans h.sp
  · have hkept : s'.reg .lr = s.reg .lr := by
      simp (disch := decide) only [s', t₅, t₄, t₃, t₂, t₁, Op.apply_reg]
    rw [hkept]
    exact h.bytes
  · have hkept : s'.mem = s.mem := by
      simp (disch := decide) only [s', t₅, t₄, t₃, t₂, t₁, Op.apply_mem]
    rw [hkept, Nat.mul_comm]
    exact h.mem
  · exact hls.trans (decide_eq_decide.mpr (by omega))

/-- The loop that sets four words at a time. -/
theorem four_words (hdst : dst + n ≤ 2 ^ 32) (hn : n < 2 ^ 32) (hlong : 16 ≤ n - j)
    (h : Progress dst n sp v j s) (hlr : Replicated v s) (hmem : s.mem = fill m dst j v) :
    ∃ s' j', Within aeabi_memset_arm (n - j + 16) ⟨22, s⟩ ⟨38, s'⟩ ∧ j ≤ j' ∧ j' ≤ n ∧
      Progress dst n sp v j' s' ∧ Replicated v s' ∧ s'.mem = fill m dst j' v ∧
      Cond.ls.holds s' = decide (n - j' ≤ 3) := by
  obtain ⟨c, hentry, hstart⟩ := FourWords.entered hlong h hlr hmem
  obtain ⟨⟨pc, s₁⟩, hloop, hend⟩ := Within.loop (I := FourWords m dst n sp v j)
    (fun i hi c hc => hc.turn hdst hn hi) hstart
  obtain rfl : pc = 32 := hend.pc.trans (if_neg (Nat.lt_irrefl _))
  obtain ⟨s', hexit, hrest⟩ := hend.left hn hlong
  exact ⟨s', j + (n - j) / 16 * 16, (hentry.trans (hloop.trans hexit)).mono (by omega), by omega,
    by omega, hrest⟩

/-- The loop that sets one word at a time is entered. -/
theorem OneWord.entered (hlong : 4 ≤ n - j) (h : Progress dst n sp v j s) (hlr : Replicated v s)
    (hmem : s.mem = fill m dst j v) :
    ∃ c', Within aeabi_memset_arm 2 ⟨39, s⟩ c' ∧ OneWord m dst n sp v j 0 c' := by
  let s₁ := Op.apply s (.mov .r4 (.reg .r3))
  let s₂ := Op.apply s₁ (.mov .r12 (.reg .r1))
  have hreg : ∀ r, r ≠ .r4 → r ≠ .r12 → s₂.reg r = s.reg r := fun r hr4 hr12 => by
    simp [s₂, s₁, Op.apply, Function.update_of_ne hr4, Function.update_of_ne hr12]
  have h4 : s₂.reg .r4 = s.reg .r3 := by simp [s₂, s₁, Op.apply]
  have h12 : s₂.reg .r12 = s.reg .r1 := by simp [s₂, s₁, Op.apply]
  have hmem₂ : s₂.mem = s.mem := by simp [s₂, s₁, Op.apply]
  refine ⟨⟨41, s₂⟩, (Within.op (s := s) rfl rfl).trans (.op rfl rfl),
    h.congr (hreg _ (by decide) (by decide)) (hreg _ (by decide) (by decide))
      (hreg _ (by decide) (by decide)) (hreg _ (by decide) (by decide)), ⟨?_⟩,
    (if_pos (by omega)).symm, h12.trans h.r1, h4.trans h.r3, hmem₂.trans hmem⟩
  dsimp only
  rw [hreg .lr (by decide) (by decide)]
  exact hlr.bytes

/-- What follows from the count and the pointer behind the loop. -/
theorem OneWord.left (hn : n < 2 ^ 32) (hlong : 4 ≤ n - j)
    (h : OneWord m dst n sp v j ((n - j) / 4) ⟨45, s⟩) :
    ∃ s', Within aeabi_memset_arm 5 ⟨45, s⟩ ⟨50, s'⟩ ∧
      Progress dst n sp v (j + (n - j) / 4 * 4) s' ∧
      s'.mem = fill m dst (j + (n - j) / 4 * 4) v := by
  let t₁ := Op.apply s (.sub .r12 .r1 (.imm 4))
  let t₂ := Op.apply t₁ (.bic .r12 .r12 (.imm 3))
  let t₃ := Op.apply t₂ (.add .r12 .r12 (.imm 4))
  let t₄ := Op.apply t₃ (.add .r3 .r3 (.reg .r12))
  let s' := Op.apply t₄ (.and .r1 .r1 (.imm 3))
  have h1 : s.reg .r1 = n - j := h.r1
  have h3 : s.reg .r3 = (dst + j) % 2 ^ 32 := h.r3
  have ht₁ : t₁.reg .r12 = n - j - 4 := by
    have hsub : t₁.reg .r12 = _ := Op.sub_self s .r12 .r1 (.imm 4)
    rw [State.value_imm] at hsub
    omega
  have ht₂ : t₂.reg .r12 = (n - j - 4) / 2 ^ 2 * 2 ^ 2 := by
    have hbic := Op.bic_self t₁ .r12 .r12 (.imm (2 ^ 2 - 1))
    rw [State.value_imm, ht₁, and_mask_high (by omega) (by decide)] at hbic
    exact hbic
  have ht₃ : t₃.reg .r12 = (n - j) / 4 * 4 := by
    have hadd : t₃.reg .r12 = _ := Op.add_self t₂ .r12 .r12 (.imm 4)
    rw [State.value_imm] at hadd
    omega
  refine ⟨s', ?_, ⟨?_, ?_, ?_, ?_⟩, ?_⟩
  · exact (Within.op (s := s) rfl rfl).trans ((Within.op (s := t₁) rfl rfl).trans
      ((Within.op (s := t₂) rfl rfl).trans ((Within.op (s := t₃) rfl rfl).trans
        (.op (s := t₄) rfl rfl))))
  · have hand := Op.and_self t₄ .r1 .r1 (.imm (2 ^ 2 - 1))
    have hkept : t₄.reg .r1 = s.reg .r1 := by
      simp (disch := decide) only [t₄, t₃, t₂, t₁, Op.apply_reg]
    rw [State.value_imm, Nat.and_two_pow_sub_one_eq_mod, hkept, h1] at hand
    refine hand.trans ?_
    omega
  · have hkept : s'.reg .r2 = s.reg .r2 := by
      simp (disch := decide) only [s', t₄, t₃, t₂, t₁, Op.apply_reg]
    rw [hkept]
    exact h.r2
  · have hadd : t₄.reg .r3 = (t₃.reg .r3 + t₃.reg .r12) % 2 ^ 32 := Op.add_self ..
    have hkept : t₃.reg .r3 = s.reg .r3 := by
      simp (disch := decide) only [t₃, t₂, t₁, Op.apply_reg]
    have hkept' : s'.reg .r3 = t₄.reg .r3 := Op.apply_reg (by decide) t₄
    omega
  · have hkept : s'.reg .sp = s.reg .sp := by
      simp (disch := decide) only [s', t₄, t₃, t₂, t₁, Op.apply_reg]
    exact hkept.trans h.sp
  · have hkept : s'.mem = s.mem := by
      simp (disch := decide) only [s', t₄, t₃, t₂, t₁, Op.apply_mem]
    rw [hkept, Nat.mul_comm]
    exact h.mem

/-- The loop that sets one word at a time. -/
theorem one_words (hdst : dst + n ≤ 2 ^ 32) (hn : n < 2 ^ 32) (hlong : 4 ≤ n - j)
    (h : Progress dst n sp v j s) (hlr : Replicated v s) (hmem : s.mem = fill m dst j v) :
    ∃ s' j', Within aeabi_memset_arm (n - j + 7) ⟨39, s⟩ ⟨50, s'⟩ ∧ j' ≤ n ∧
      Progress dst n sp v j' s' ∧ s'.mem = fill m dst j' v := by
  obtain ⟨c, hentry, hstart⟩ := OneWord.entered hlong h hlr hmem
  obtain ⟨⟨pc, s₁⟩, hloop, hend⟩ := Within.loop (I := OneWord m dst n sp v j)
    (fun i hi c hc => hc.turn hdst hn hi) hstart
  obtain rfl : pc = 45 := hend.pc.trans (if_neg (Nat.lt_irrefl _))
  obtain ⟨s', hexit, hrest⟩ := hend.left hn hlong
  exact ⟨s', j + (n - j) / 4 * 4, (hentry.trans (hloop.trans hexit)).mono (by omega), by omega,
    hrest⟩

/-- Four times the same byte. -/
theorem leBytes_replicate {x : Nat} (hx : x < 2 ^ 8) :
    Bytes.leBytes 4 (x * (2 ^ 8 + 1) * (2 ^ 16 + 1)) = List.replicate 4 (.ofNat x) := by
  have hbyte : ∀ y, y % 256 = x → UInt8.ofNat y = .ofNat x := fun y hy => by
    rw [← UInt8.toNat_inj, UInt8.toNat_ofNat', UInt8.toNat_ofNat']
    omega
  have h₁ : x * (2 ^ 8 + 1) * (2 ^ 16 + 1) / 256 = x * 65793 :=
    Nat.div_eq_of_lt_le (by omega) (by omega)
  have h₂ : x * 65793 / 256 = x * 257 := Nat.div_eq_of_lt_le (by omega) (by omega)
  have h₃ : x * 257 / 256 = x := Nat.div_eq_of_lt_le (by omega) (by omega)
  have hb₁ := hbyte (x * (2 ^ 8 + 1) * (2 ^ 16 + 1)) (by omega)
  have hb₂ := hbyte (x * 65793) (by omega)
  have hb₃ := hbyte (x * 257) (by omega)
  simp only [Bytes.leBytes, List.replicate, h₁, h₂, h₃, hb₁, hb₂, hb₃]

/-- `lr` is made up in front of the words. -/
theorem replicated (h2 : UInt8.ofNat (s.reg .r2) = v) :
    Replicated v ([.and .lr .r2 (.imm 255), .orr .lr .lr (.lsl .lr 8), .cmp .r1 (.imm 15),
      .orr .lr .lr (.lsl .lr 16)].foldl Op.apply s) := by
  let t₁ := Op.apply s (.and .lr .r2 (.imm 255))
  let t₂ := Op.apply t₁ (.orr .lr .lr (.lsl .lr 8))
  let t₃ := Op.apply t₂ (.cmp .r1 (.imm 15))
  let t₄ := Op.apply t₃ (.orr .lr .lr (.lsl .lr 16))
  obtain ⟨x, hx⟩ : ∃ x, s.reg .r2 % 2 ^ 8 = x := ⟨_, rfl⟩
  have hlt : x < 2 ^ 8 := hx ▸ Nat.mod_lt _ (by decide)
  have ht₁ : t₁.reg .lr = x := by
    have hand : t₁.reg .lr = _ := Op.and_self s .lr .r2 (.imm (2 ^ 8 - 1))
    rw [hand, State.value_imm, Nat.and_two_pow_sub_one_eq_mod, hx]
  have ht₂ : t₂.reg .lr = x * (2 ^ 8 + 1) := by
    have horr : t₂.reg .lr = t₁.reg .lr ||| (t₁.reg .lr <<< 8) % 2 ^ 32 := Op.orr_self ..
    have hsmall : x <<< 8 < 2 ^ 32 := by rw [Nat.shiftLeft_eq]; omega
    rw [horr, ht₁, Nat.mod_eq_of_lt hsmall, or_shift hlt]
  have ht₃ : t₃.reg .lr = t₂.reg .lr := Op.apply_reg (by decide) t₂
  have ht₄ : t₄.reg .lr = x * (2 ^ 8 + 1) * (2 ^ 16 + 1) := by
    have horr : t₄.reg .lr = t₃.reg .lr ||| (t₃.reg .lr <<< 16) % 2 ^ 32 := Op.orr_self ..
    have hsmall : (x * (2 ^ 8 + 1)) <<< 16 < 2 ^ 32 := by rw [Nat.shiftLeft_eq]; omega
    rw [horr, ht₃, ht₂, Nat.mod_eq_of_lt hsmall, or_shift (by omega)]
  refine ⟨?_⟩
  show Bytes.leBytes 4 (t₄.reg .lr) = _
  rw [ht₄, leBytes_replicate hlt, ← h2, ← hx, UInt8.ofNat_mod_size]

/-- From a word boundary to the last few bytes. -/
theorem set_words (hdst : dst + n ≤ 2 ^ 32) (hn : n < 2 ^ 32) (hj : j ≤ n)
    (h : Progress dst n sp v j s) (hmem : s.mem = fill m dst j v) :
    ∃ s' j', Within aeabi_memset_arm (2 * n + 32) ⟨15, s⟩ ⟨50, s'⟩ ∧ j' ≤ n ∧
      Progress dst n sp v j' s' ∧ s'.mem = fill m dst j' v := by
  let s₁ := Op.apply s (.cmp .r1 (.imm 3))
  have hcmp : Within aeabi_memset_arm 1 ⟨15, s⟩ ⟨16, s₁⟩ := .op rfl rfl
  have h₁ : Progress dst n sp v j s₁ := h.congr rfl rfl rfl rfl
  have hls : Cond.ls.holds s₁ = decide (n - j ≤ 3) := by
    rw [← h.r1]
    exact Cond.ls_cmp
  by_cases hshort : n - j ≤ 3
  · have hb : Within aeabi_memset_arm 1 ⟨16, s₁⟩ ⟨50, s₁⟩ :=
      .taken rfl (hls.trans (decide_eq_true hshort))
    exact ⟨s₁, j, (hcmp.trans hb).mono (by omega), hj, h₁, hmem⟩
  · have hb : Within aeabi_memset_arm 1 ⟨16, s₁⟩ ⟨17, s₁⟩ :=
      .passed rfl (hls.trans (decide_eq_false hshort))
    let t₁ := Op.apply s₁ (.and .lr .r2 (.imm 255))
    let t₂ := Op.apply t₁ (.orr .lr .lr (.lsl .lr 8))
    let t₃ := Op.apply t₂ (.cmp .r1 (.imm 15))
    let t₄ := Op.apply t₃ (.orr .lr .lr (.lsl .lr 16))
    have hbyte : Within aeabi_memset_arm 4 ⟨17, s₁⟩ ⟨21, t₄⟩ :=
      .ops (l := [.and .lr .r2 (.imm 255), .orr .lr .lr (.lsl .lr 8), .cmp .r1 (.imm 15),
        .orr .lr .lr (.lsl .lr 16)]) rfl
    have hlr : Replicated v t₄ := replicated h₁.r2
    have hreg : ∀ r, r ≠ .lr → t₄.reg r = s₁.reg r := fun r hr => by
      have hr' : ∀ d : Reg, d = .lr → r ∉ [d] := fun d hd => by simp [hd, hr]
      exact ((Op.apply_reg (hr' _ rfl) t₃).trans (Op.apply_reg (by simp [Op.targets]) t₂)).trans
        ((Op.apply_reg (hr' _ rfl) t₁).trans (Op.apply_reg (hr' _ rfl) s₁))
    have h₄ : Progress dst n sp v j t₄ := h₁.congr (hreg _ (by decide)) (hreg _ (by decide))
      (hreg _ (by decide)) (hreg _ (by decide))
    have hmem₄ : t₄.mem = fill m dst j v := by
      rw [← hmem]
      simp (disch := decide) only [t₄, t₃, t₂, t₁, s₁, Op.apply_mem]
    have hls₄ : Cond.ls.holds t₄ = decide (n - j ≤ 15) := by
      have hr1 : t₂.reg .r1 = n - j := by
        rw [← h₁.r1]
        simp (disch := decide) only [t₂, t₁, Op.apply_reg]
      rw [← hr1]
      exact (Cond.holds_ops (l := [.orr .lr .lr (.lsl .lr 16)]) (by decide) t₃ .ls).trans Cond.ls_cmp
    by_cases hmiddle : n - j ≤ 15
    · have hb' : Within aeabi_memset_arm 1 ⟨21, t₄⟩ ⟨39, t₄⟩ :=
        .taken rfl (hls₄.trans (decide_eq_true hmiddle))
      obtain ⟨s', j', hrun, hj', h', hmem'⟩ := one_words hdst hn (by omega) h₄ hlr hmem₄
      exact ⟨s', j', (hcmp.trans (hb.trans (hbyte.trans (hb'.trans hrun)))).mono (by omega), hj', h',
        hmem'⟩
    · have hb' : Within aeabi_memset_arm 1 ⟨21, t₄⟩ ⟨22, t₄⟩ :=
        .passed rfl (hls₄.trans (decide_eq_false hmiddle))
      obtain ⟨s₂, j₂, hrun, hle, hj₂, h₂, hlr₂, hmem₂, hls₂⟩ :=
        four_words hdst hn (by omega) h₄ hlr hmem₄
      have hfour := hcmp.trans (hb.trans (hbyte.trans (hb'.trans hrun)))
      by_cases hrest : n - j₂ ≤ 3
      · have hb'' : Within aeabi_memset_arm 1 ⟨38, s₂⟩ ⟨50, s₂⟩ :=
          .taken rfl (hls₂.trans (decide_eq_true hrest))
        exact ⟨s₂, j₂, (hfour.trans hb'').mono (by omega), hj₂, h₂, hmem₂⟩
      · have hb'' : Within aeabi_memset_arm 1 ⟨38, s₂⟩ ⟨39, s₂⟩ :=
          .passed rfl (hls₂.trans (decide_eq_false hrest))
        obtain ⟨s', j', hrun', hj', h', hmem'⟩ := one_words hdst hn (by omega) h₂ hlr₂ hmem₂
        exact ⟨s', j', (hfour.trans (hb''.trans hrun')).mono (by omega), hj', h', hmem'⟩

/-- The last bytes, which are one at a time again. -/
structure LastBytes (m : Memory) (dst n sp : Nat) (v : UInt8) (j i : Nat) (c : Cpu) : Prop where
  pc : c.pc = if i < n - j then 54 else 57
  r1 : c.state.reg .r1 = (dst + n) % 2 ^ 32
  r2 : UInt8.ofNat (c.state.reg .r2) = v
  r3 : c.state.reg .r3 = (dst + j + i) % 2 ^ 32
  sp : c.state.reg .sp = sp
  mem : c.state.mem = fill m dst (j + i) v

theorem LastBytes.turn {i : Nat} (hdst : dst + n ≤ 2 ^ 32) (hn : n < 2 ^ 32) (hi : i < n - j)
    (h : LastBytes m dst n sp v j i c) :
    ∃ c', Within aeabi_memset_arm 3 c c' ∧ LastBytes m dst n sp v j (i + 1) c' := by
  obtain ⟨pc, s⟩ := c
  obtain ⟨hpc, h1, h2, h3, hsp, hmem⟩ := h
  rw [if_pos hi] at hpc
  dsimp only at hpc h1 h2 h3 hsp hmem
  subst hpc
  let s₁ := Op.apply s (.strb .r2 .r3 (.post 1))
  let s' := Op.apply s₁ (.cmp .r3 (.reg .r1))
  have hrun : Within aeabi_memset_arm 2 ⟨54, s⟩ ⟨56, s'⟩ :=
    (Within.op (s := s) rfl rfl).trans (.op rfl rfl)
  have hreg : ∀ r, r ≠ .r3 → s'.reg r = s.reg r := fun r hr =>
    (Op.apply_reg (by simp [Op.targets]) s₁).trans (Op.apply_reg (by simpa [Op.targets] using hr) s)
  have h3' : s'.reg .r3 = (s.reg .r3 + 1) % 2 ^ 32 := by simp [s', s₁, Op.apply]
  have hmem' : s'.mem = Function.update s.mem (s.reg .r3) (.ofNat (s.reg .r2)) := by
    simp [s', s₁, Op.apply]
  have hat : s.reg .r3 = dst + (j + i) := by omega
  have hne : Cond.ne.holds s' = decide (i + 1 < n - j) := by
    have h3₁ : s₁.reg .r3 = (s.reg .r3 + 1) % 2 ^ 32 := h3'
    have h1₁ : s₁.reg .r1 = s.reg .r1 := Op.apply_reg (by decide) s
    have hcmp : Cond.ne.holds s' = decide (s₁.reg .r3 ≠ s₁.reg .r1) := Cond.ne_cmp
    exact hcmp.trans (decide_eq_decide.mpr (by omega))
  refine ⟨⟨if i + 1 < n - j then 54 else 57, s'⟩, hrun.trans (.branch rfl hne), rfl,
    (hreg .r1 (by decide)).trans h1, ?_, ?_, (hreg .sp (by decide)).trans hsp, ?_⟩
  · dsimp only
    rw [hreg .r2 (by decide)]
    exact h2
  · dsimp only
    omega
  · dsimp only
    rw [hmem', hat, h2, hmem, fill_byte]
    rfl

/-- The loop over the last bytes is entered. -/
theorem LastBytes.entered (hsome : n - j ≠ 0) (h : Progress dst n sp v j s)
    (hmem : s.mem = fill m dst j v) :
    ∃ c', Within aeabi_memset_arm 4 ⟨50, s⟩ c' ∧ LastBytes m dst n sp v j 0 c' := by
  let s₁ := Op.apply s (.cmp .r1 (.imm 0))
  let s₂ := Op.apply s₁ (.and .r2 .r2 (.imm 255))
  let s₃ := Op.apply s₂ (.add .r1 .r3 (.reg .r1))
  have h1 := h.r1
  have hne₁ : Cond.ne.holds s₁ = true := Cond.ne_cmp.trans (decide_eq_true (h1 ▸ hsome))
  have hne₂ : Cond.ne.holds s₂ = true :=
    (Cond.holds_ops (l := [.and .r2 .r2 (.imm 255)]) (by decide) s₁ .ne).trans hne₁
  have heq₃ : Cond.eq.holds s₃ = false :=
    (Cond.holds_ops (l := [.and .r2 .r2 (.imm 255), .add .r1 .r3 (.reg .r1)]) (by decide) s₁
      .eq).trans (Cond.eq_cmp.trans (decide_eq_false (h1 ▸ hsome)))
  have h3 : s₃.reg .r3 = s.reg .r3 := by
    simp (disch := decide) only [s₃, s₂, s₁, Op.apply_reg]
  have hsp : s₃.reg .sp = s.reg .sp := by
    simp (disch := decide) only [s₃, s₂, s₁, Op.apply_reg]
  have hmem₃ : s₃.mem = s.mem := by
    simp (disch := decide) only [s₃, s₂, s₁, Op.apply_mem]
  refine ⟨⟨54, s₃⟩, ?_, (if_pos (by omega)).symm, ?_, ?_, ?_, hsp.trans h.sp, hmem₃.trans hmem⟩
  · exact (Within.op (s := s) rfl rfl).trans ((Within.op (s := s₁) rfl hne₁).trans
      ((Within.op (s := s₂) rfl hne₂).trans (.passed rfl heq₃)))
  · have hadd : s₃.reg .r1 = (s₂.reg .r3 + s₂.reg .r1) % 2 ^ 32 := Op.add_self ..
    have hr3 : s₂.reg .r3 = s.reg .r3 := by simp (disch := decide) only [s₂, s₁, Op.apply_reg]
    have hr1 : s₂.reg .r1 = s.reg .r1 := by simp (disch := decide) only [s₂, s₁, Op.apply_reg]
    have h3 := h.r3
    dsimp only
    omega
  · have hand : s₂.reg .r2 = _ := Op.and_self s₁ .r2 .r2 (.imm (2 ^ 8 - 1))
    have hr2 : s₃.reg .r2 = s₂.reg .r2 := Op.apply_reg (by decide) s₂
    dsimp only
    rw [hr2, hand, State.value_imm, Nat.and_two_pow_sub_one_eq_mod, UInt8.ofNat_mod_size]
    exact h.r2
  · have h3' := h.r3
    dsimp only
    omega

theorem set_last (hdst : dst + n ≤ 2 ^ 32) (hn : n < 2 ^ 32) (hj : j ≤ n)
    (h : Progress dst n sp v j s) (hmem : s.mem = fill m dst j v) :
    ∃ s', Within aeabi_memset_arm (3 * n + 4) ⟨50, s⟩ ⟨57, s'⟩ ∧ s'.reg .sp = sp ∧
      s'.mem = fill m dst n v := by
  by_cases hnone : n - j = 0
  · let s₁ := Op.apply s (.cmp .r1 (.imm 0))
    have hcmp : Within aeabi_memset_arm 1 ⟨50, s⟩ ⟨51, s₁⟩ := .op rfl rfl
    have hzero : s.reg .r1 = 0 := h.r1.trans hnone
    have hskip : Cond.ne.holds s₁ = false :=
      Cond.ne_cmp.trans (decide_eq_false (not_not_intro hzero))
    have heq : Cond.eq.holds s₁ = true := Cond.eq_cmp.trans (decide_eq_true hzero)
    refine ⟨s₁, ?_, h.sp, ?_⟩
    · exact (hcmp.trans ((Within.skip rfl hskip).trans ((Within.skip rfl hskip).trans
        (.taken rfl heq)))).mono (by omega)
    · rw [show n = j by omega]
      exact hmem
  · obtain ⟨c, hentry, hstart⟩ := LastBytes.entered hnone h hmem
    obtain ⟨⟨pc, s'⟩, hloop, hend⟩ := Within.loop (I := LastBytes m dst n sp v j)
      (fun i hi c hc => hc.turn hdst hn hi) hstart
    obtain rfl : pc = 57 := hend.pc.trans (if_neg (Nat.lt_irrefl _))
    refine ⟨s', (hentry.trans hloop).mono (by omega), hend.sp, ?_⟩
    have hmem' := hend.mem
    rwa [show j + (n - j) = n by omega] at hmem'

/-! ### Up to a word boundary -/

/-- In front of a byte that is stored on the way to a word boundary; the count is already down. -/
structure Head (m : Memory) (dst n sp : Nat) (v : UInt8) (j : Nat) (s : State) : Prop where
  r1 : s.reg .r1 = n - (j + 1)
  r2 : UInt8.ofNat (s.reg .r2) = v
  r3 : s.reg .r3 = (dst + j) % 2 ^ 32
  r12 : UInt8.ofNat (s.reg .r12) = v
  sp : s.reg .sp = sp
  mem : s.mem = fill m dst j v

/-- A boundary, or the end. -/
theorem set_head (hdst : dst + n ≤ 2 ^ 32) (hn : n < 2 ^ 32) (hj : j < n)
    (h : Head m dst n sp v j s) :
    (∃ s' j', Within aeabi_memset_arm (6 * (n - j)) ⟨12, s⟩ ⟨15, s'⟩ ∧ j' ≤ n ∧
        Progress dst n sp v j' s' ∧ s'.mem = fill m dst j' v) ∨
      ∃ s', Within aeabi_memset_arm (6 * (n - j)) ⟨12, s⟩ ⟨57, s'⟩ ∧ s'.reg .sp = sp ∧
        s'.mem = fill m dst n v := by
  induction hleft : n - j generalizing j s with
  | zero => omega
  | succ left ih =>
      let s₁ := Op.apply s (.strb .r12 .r3 (.post 1))
      let s₂ := Op.apply s₁ (.tst .r3 (.imm 3))
      have hrun : Within aeabi_memset_arm 2 ⟨12, s⟩ ⟨14, s₂⟩ :=
        (Within.op (s := s) rfl rfl).trans (.op rfl rfl)
      have hreg : ∀ r, r ≠ .r3 → s₂.reg r = s.reg r := fun r hr =>
        (Op.apply_reg (by simp [Op.targets]) s₁).trans
          (Op.apply_reg (by simpa [Op.targets] using hr) s)
      have h3 : s₂.reg .r3 = (dst + (j + 1)) % 2 ^ 32 := by
        have h3₂ : s₂.reg .r3 = (s.reg .r3 + 1) % 2 ^ 32 := by simp [s₂, s₁, Op.apply]
        have h3 := h.r3
        omega
      have hmem : s₂.mem = fill m dst (j + 1) v := by
        have hmem₂ : s₂.mem = Function.update s.mem (s.reg .r3) (.ofNat (s.reg .r12)) := by
          simp [s₂, s₁, Op.apply]
        have hat : s.reg .r3 = dst + j := h.r3.trans (Nat.mod_eq_of_lt (by omega))
        rw [hmem₂, hat, h.r12, h.mem, fill_byte]
      have h1 : s₂.reg .r1 = n - (j + 1) := (hreg .r1 (by decide)).trans h.r1
      have h2 : UInt8.ofNat (s₂.reg .r2) = v := by
        rw [hreg .r2 (by decide)]
        exact h.r2
      have hsp : s₂.reg .sp = sp := (hreg .sp (by decide)).trans h.sp
      cases hne : Cond.ne.holds s₂ with
      | false =>
          have hb : Within aeabi_memset_arm 1 ⟨14, s₂⟩ ⟨15, s₂⟩ := .passed rfl hne
          exact .inl ⟨s₂, j + 1, (hrun.trans hb).mono (by omega), hj, ⟨h1, h2, h3, hsp⟩, hmem⟩
      | true =>
          have hb : Within aeabi_memset_arm 1 ⟨14, s₂⟩ ⟨9, s₂⟩ := .taken rfl hne
          let s₃ := Op.apply s₂ (.cmp .r1 (.imm 0))
          let s₄ := Op.apply s₃ (.sub .r1 .r1 (.imm 1))
          have hcount : Within aeabi_memset_arm 2 ⟨9, s₂⟩ ⟨11, s₄⟩ :=
            (Within.op (s := s₂) rfl rfl).trans (.op rfl rfl)
          have heq : Cond.eq.holds s₄ = decide (n - (j + 1) = 0) := by
            rw [← h1]
            exact (Cond.holds_ops (l := [.sub .r1 .r1 (.imm 1)]) (by decide) s₃ .eq).trans Cond.eq_cmp
          have hreg₄ : ∀ r, r ≠ .r1 → s₄.reg r = s₂.reg r := fun r hr =>
            Op.apply_reg (by simpa [Op.targets] using hr) s₃
          have hmem₄ : s₄.mem = s₂.mem := by
            simp (disch := decide) only [s₄, s₃, Op.apply_mem]
          by_cases hend : n - (j + 1) = 0
          · have hb' : Within aeabi_memset_arm 1 ⟨11, s₄⟩ ⟨57, s₄⟩ :=
              .taken rfl (heq.trans (decide_eq_true hend))
            refine .inr ⟨s₄, (hrun.trans (hb.trans (hcount.trans hb'))).mono (by omega),
              (hreg₄ .sp (by decide)).trans hsp, ?_⟩
            rw [hmem₄, hmem, show j + 1 = n by omega]
          · have hb' : Within aeabi_memset_arm 1 ⟨11, s₄⟩ ⟨12, s₄⟩ :=
              .passed rfl (heq.trans (decide_eq_false hend))
            have hturn := hrun.trans (hb.trans (hcount.trans hb'))
            have hhead : Head m dst n sp v (j + 1) s₄ := by
              refine ⟨?_, ?_, (hreg₄ .r3 (by decide)).trans h3, ?_, (hreg₄ .sp (by decide)).trans hsp,
                hmem₄.trans hmem⟩
              · have hsub : s₄.reg .r1 = _ := Op.sub_self s₃ .r1 .r1 (.imm 1)
                have hr1 : s₃.reg .r1 = s₂.reg .r1 := rfl
                rw [State.value_imm] at hsub
                omega
              · rw [hreg₄ .r2 (by decide)]
                exact h2
              · rw [hreg₄ .r12 (by decide), hreg .r12 (by decide)]
                exact h.r12
            rcases ih (by omega) hhead (by omega) with ⟨s', j', hrest, hj', h', hmem'⟩ | ⟨s', hrest, h'⟩
            · exact .inl ⟨s', j', (hturn.trans hrest).mono (by omega), hj', h', hmem'⟩
            · exact .inr ⟨s', (hturn.trans hrest).mono (by omega), h'⟩

/-! ### The whole routine -/

/-- From a word boundary to the end. -/
theorem set_rest (hdst : dst + n ≤ 2 ^ 32) (hn : n < 2 ^ 32) (hj : j ≤ n)
    (h : Progress dst n sp v j s) (hmem : s.mem = fill m dst j v) :
    ∃ s', Within aeabi_memset_arm (5 * n + 36) ⟨15, s⟩ ⟨57, s'⟩ ∧ s'.reg .sp = sp ∧
      s'.mem = fill m dst n v := by
  obtain ⟨s₁, j₁, hwords, hj₁, h₁, hmem₁⟩ := set_words hdst hn hj h hmem
  obtain ⟨s', hlast, hsp, hmem'⟩ := set_last hdst hn hj₁ h₁ hmem₁
  exact ⟨s', (hwords.trans hlast).mono (by omega), hsp, hmem'⟩

/-- From a block that begins at a word boundary to the end. -/
theorem set_aligned (hwords : s.Words) (hdst : s.reg .r0 + s.reg .r1 ≤ 2 ^ 32)
    (heq : Cond.eq.holds s = true) :
    ∃ s', Within aeabi_memset_arm (11 * s.reg .r1 + 44) ⟨2, s⟩ ⟨57, s'⟩ ∧ s'.reg .sp = s.reg .sp ∧
      s'.mem = fill s.mem (s.reg .r0) (s.reg .r1) (.ofNat (s.reg .r2)) := by
  let s₁ := Op.apply s (.mov .r3 (.reg .r0))
  have hbeq : Within aeabi_memset_arm 1 ⟨2, s⟩ ⟨59, s⟩ := .taken rfl heq
  have hb : Within aeabi_memset_arm 3 ⟨2, s⟩ ⟨15, s₁⟩ :=
    hbeq.trans ((Within.op (s := s) rfl rfl).trans (.taken rfl rfl))
  have hreg : ∀ r, r ≠ .r3 → s₁.reg r = s.reg r := fun r hr =>
    Op.apply_reg (by simpa [Op.targets] using hr) s
  have hmem : s₁.mem = s.mem := Op.apply_mem (by decide) s
  have hprogress : Progress (s.reg .r0) (s.reg .r1) (s.reg .sp) (.ofNat (s.reg .r2)) 0 s₁ := by
    refine ⟨hreg .r1 (by decide), ?_, ?_, hreg .sp (by decide)⟩
    · rw [hreg .r2 (by decide)]
    · have hmov : s₁.reg .r3 = s.reg .r0 := Op.mov_self s .r3 (.reg .r0)
      have h0 := hwords .r0
      omega
  obtain ⟨s', hrest, hsp, hmem'⟩ := set_rest hdst (hwords .r1) (Nat.zero_le _) hprogress
    (hmem.trans fill_zero.symm)
  exact ⟨s', (hb.trans hrest).mono (by omega), hsp, hmem'⟩

/-- From a block that begins elsewhere to the end. -/
theorem set_unaligned (hwords : s.Words) (hdst : s.reg .r0 + s.reg .r1 ≤ 2 ^ 32)
    (heq : Cond.eq.holds s = false) :
    ∃ s', Within aeabi_memset_arm (11 * s.reg .r1 + 44) ⟨2, s⟩ ⟨57, s'⟩ ∧ s'.reg .sp = s.reg .sp ∧
      s'.mem = fill s.mem (s.reg .r0) (s.reg .r1) (.ofNat (s.reg .r2)) := by
  have hn := hwords .r1
  have hb : Within aeabi_memset_arm 1 ⟨2, s⟩ ⟨3, s⟩ := .passed rfl heq
  let s₁ := Op.apply s (.cmp .r1 (.imm 0))
  let s₂ := Op.apply s₁ (.sub .r1 .r1 (.imm 1))
  have hcount : Within aeabi_memset_arm 2 ⟨3, s⟩ ⟨5, s₂⟩ :=
    (Within.op (s := s) rfl rfl).trans (.op rfl rfl)
  have heq₂ : Cond.eq.holds s₂ = decide (s.reg .r1 = 0) :=
    (Cond.holds_ops (l := [.sub .r1 .r1 (.imm 1)]) (by decide) s₁ .eq).trans Cond.eq_cmp
  have hreg₂ : ∀ r, r ≠ .r1 → s₂.reg r = s.reg r := fun r hr =>
    Op.apply_reg (by simpa [Op.targets] using hr) s₁
  have hmem₂ : s₂.mem = s.mem := by
    simp (disch := decide) only [s₂, s₁, Op.apply_mem]
  by_cases hnone : s.reg .r1 = 0
  · have hb' : Within aeabi_memset_arm 1 ⟨5, s₂⟩ ⟨57, s₂⟩ :=
      .taken rfl (heq₂.trans (decide_eq_true hnone))
    refine ⟨s₂, (hb.trans (hcount.trans hb')).mono (by omega), hreg₂ .sp (by decide), ?_⟩
    rw [hmem₂, hnone, fill_zero]
  · have hb' : Within aeabi_memset_arm 1 ⟨5, s₂⟩ ⟨6, s₂⟩ :=
      .passed rfl (heq₂.trans (decide_eq_false hnone))
    let s₃ := Op.apply s₂ (.and .r12 .r2 (.imm 255))
    let s₄ := Op.apply s₃ (.mov .r3 (.reg .r0))
    have hset : Within aeabi_memset_arm 3 ⟨6, s₂⟩ ⟨12, s₄⟩ :=
      (Within.op (s := s₂) rfl rfl).trans ((Within.op (s := s₃) rfl rfl).trans (.taken rfl rfl))
    have hstart := hb.trans (hcount.trans (hb'.trans hset))
    have hhead : Head s.mem (s.reg .r0) (s.reg .r1) (s.reg .sp) (.ofNat (s.reg .r2)) 0 s₄ := by
      refine ⟨?_, ?_, ?_, ?_, ?_, ?_⟩
      · have hsub : s₂.reg .r1 = _ := Op.sub_self s₁ .r1 .r1 (.imm 1)
        have hr1 : s₁.reg .r1 = s.reg .r1 := rfl
        have hr1' : s₄.reg .r1 = s₂.reg .r1 := by
          simp (disch := decide) only [s₄, s₃, Op.apply_reg]
        rw [State.value_imm] at hsub
        omega
      · have hr2 : s₄.reg .r2 = s₂.reg .r2 := by
          simp (disch := decide) only [s₄, s₃, Op.apply_reg]
        rw [hr2, hreg₂ .r2 (by decide)]
      · have hmov : s₄.reg .r3 = s₃.reg .r0 := Op.mov_self s₃ .r3 (.reg .r0)
        have hr0 : s₃.reg .r0 = s₂.reg .r0 := Op.apply_reg (by decide) s₂
        have h0 := hwords .r0
        rw [hmov, hr0, hreg₂ .r0 (by decide)]
        omega
      · have hand : s₃.reg .r12 = _ := Op.and_self s₂ .r12 .r2 (.imm (2 ^ 8 - 1))
        have hr12 : s₄.reg .r12 = s₃.reg .r12 := Op.apply_reg (by decide) s₃
        rw [hr12, hand, State.value_imm, Nat.and_two_pow_sub_one_eq_mod, hreg₂ .r2 (by decide),
          UInt8.ofNat_mod_size]
      · have hsp : s₄.reg .sp = s₂.reg .sp := by
          simp (disch := decide) only [s₄, s₃, Op.apply_reg]
        exact hsp.trans (hreg₂ .sp (by decide))
      · rw [fill_zero, ← hmem₂]
        simp (disch := decide) only [s₄, s₃, Op.apply_mem]
    rcases set_head hdst hn (by omega) hhead with ⟨s', j', hrun, hj', h', hmem'⟩ | ⟨s', hrun, hsp', hmem'⟩
    · obtain ⟨s'', hrest, hsp'', hmem''⟩ := set_rest hdst hn hj' h' hmem'
      exact ⟨s'', (hstart.trans (hrun.trans hrest)).mono (by omega), hsp'', hmem''⟩
    · exact ⟨s', (hstart.trans hrun).mono (by omega), hsp', hmem'⟩

/-- From the entry, with `r4` and `lr` on the stack, to the end. -/
theorem set_all (hwords : s.Words) (hdst : s.reg .r0 + s.reg .r1 ≤ 2 ^ 32) :
    ∃ s', Within aeabi_memset_arm (11 * s.reg .r1 + 46) ⟨0, s⟩ ⟨57, s'⟩ ∧
      s'.reg .sp = (s.reg .sp + (2 ^ 32 - 8)) % 2 ^ 32 ∧
      s'.mem = fill (Op.apply s (.push .r4 .lr)).mem (s.reg .r0) (s.reg .r1) (.ofNat (s.reg .r2)) := by
  let s₁ := Op.apply s (.tst .r0 (.imm 3))
  let s₂ := Op.apply s₁ (.push .r4 .lr)
  have hpush : Within aeabi_memset_arm 2 ⟨0, s⟩ ⟨2, s₂⟩ := (Within.op rfl rfl).trans (.op rfl rfl)
  have hreg : ∀ r, r ≠ .sp → s₂.reg r = s.reg r := fun r hr =>
    (Op.apply_reg (by simpa [Op.targets] using hr) s₁).trans (Op.apply_reg (by simp [Op.targets]) s)
  have h0 := hreg .r0 (by decide)
  have h1 := hreg .r1 (by decide)
  have hsp : s₂.reg .sp = (s.reg .sp + (2 ^ 32 - 8)) % 2 ^ 32 := by simp [s₂, s₁, Op.apply]
  have hwords₁ : s₁.Words := Op.apply_words (o := .tst .r0 (.imm 3)) trivial hwords
  have hwords₂ : s₂.Words := Op.apply_words (o := .push .r4 .lr) trivial hwords₁
  have hdst₂ : s₂.reg .r0 + s₂.reg .r1 ≤ 2 ^ 32 := by rwa [h0, h1]
  -- the block begins at a word boundary or elsewhere
  obtain ⟨s', hrun, hsp', hmem'⟩ : ∃ s',
      Within aeabi_memset_arm (11 * s₂.reg .r1 + 44) ⟨2, s₂⟩ ⟨57, s'⟩ ∧ s'.reg .sp = s₂.reg .sp ∧
      s'.mem = fill s₂.mem (s₂.reg .r0) (s₂.reg .r1) (.ofNat (s₂.reg .r2)) := by
    cases heq : Cond.eq.holds s₂ with
    | true => exact set_aligned hwords₂ hdst₂ heq
    | false => exact set_unaligned hwords₂ hdst₂ heq
  refine ⟨s', (hpush.trans hrun).mono (by omega), hsp'.trans hsp, ?_⟩
  rw [hmem', h0, h1, hreg .r2 (by decide)]
  rfl

/-- Two registers on the stack are got back if nothing was stored there. -/
theorem pop_push {d e : Reg} {a : Nat} (m' : Memory) (hwords : s.Words) (hfit : a + 8 ≤ 2 ^ 32)
    (hsp : s.reg .sp = a + 8) (hkept : ∀ x, a ≤ x → x < a + 8 →
      m' x = (Op.apply s (.push d e)).mem x) :
    Bytes.ofLe (read m' a 4) = s.reg d ∧ Bytes.ofLe (read m' (a + 4) 4) = s.reg e := by
  have hmem : (Op.apply s (.push d e)).mem = write (2 ^ 32) (write (2 ^ 32) s.mem a
      (Bytes.leBytes 4 (s.reg d))) (a + 4) (Bytes.leBytes 4 (s.reg e)) := by
    have hlow : (s.reg .sp + (2 ^ 32 - 8)) % 2 ^ 32 = a := by omega
    simp only [Op.apply, hlow, State.set_mem, State.storeWord_mem]
  have hread : ∀ o, o ≤ 4 → read m' (a + o) 4 = read (Op.apply s (.push d e)).mem (a + o) 4 :=
    fun o ho => Mem.read_congr fun i hi => hkept _ (by omega) (by omega)
  have hlen : ∀ x, (Bytes.leBytes 4 x).length = 4 := fun x => Bytes.leBytes_length ..
  have hback : ∀ (m : Memory) b x, b + 4 ≤ 2 ^ 32 → x < 2 ^ 32 →
      Bytes.ofLe (read (write (2 ^ 32) m b (Bytes.leBytes 4 x)) b 4) = x := by
    intro m b x hb hx
    have hread := read_write (N := 2 ^ 32) (a := b) (b := Bytes.leBytes 4 x) m (by rw [hlen]; omega)
    rw [hlen] at hread
    rw [hread, Bytes.ofLe_leBytes]
    exact Nat.mod_eq_of_lt hx
  constructor
  · have h := hread 0 (by omega)
    rw [Nat.add_zero] at h
    rw [h, hmem, read_write_of_apart _ (by rw [hlen]; omega) (.inl (Nat.le_refl _)),
      hback _ _ _ (by omega) (hwords d)]
  · rw [hread 4 (Nat.le_refl _), hmem, hback _ _ _ (by omega) (hwords e)]

/-- The two words below `sp` are all that a push changes. -/
theorem push_outside {d e : Reg} {x : Nat} (hroom : 8 ≤ s.reg .sp) (hlt : s.reg .sp < 2 ^ 32)
    (hx : s.reg .sp ≤ x ∨ x + 8 < s.reg .sp) : (Op.apply s (.push d e)).mem x = s.mem x := by
  have hlen : ∀ x, (Bytes.leBytes 4 x).length = 4 := fun x => Bytes.leBytes_length ..
  have hlow : (s.reg .sp + (2 ^ 32 - 8)) % 2 ^ 32 = s.reg .sp - 8 := by omega
  simp only [Op.apply, hlow, State.set_mem, State.storeWord_mem]
  rw [write_of_outside _ (by rw [hlen]; omega) (by rw [hlen]; omega),
    write_of_outside _ (by rw [hlen]; omega) (by rw [hlen]; omega)]

/-- The whole routine, for a block that ends in the address space and is not on the stack. -/
theorem memset_run (hwords : s.Words) (hdst : s.reg .r0 + s.reg .r1 ≤ 2 ^ 32)
    (hroom : 8 ≤ s.reg .sp)
    (hoff : ∀ x, s.reg .sp ≤ x + 8 → x < s.reg .sp → x < s.reg .r0 ∨ s.reg .r0 + s.reg .r1 ≤ x) :
    ∃ c', Within aeabi_memset_arm (12 * s.reg .r1 + 60) ⟨0, s⟩ c' ∧
      Returning aeabi_memset_arm c' (s.reg .lr) ∧ c'.state.reg .r4 = s.reg .r4 ∧
      c'.state.reg .sp = s.reg .sp ∧
      c'.state.mem = fill (Op.apply s (.push .r4 .lr)).mem (s.reg .r0) (s.reg .r1)
        (.ofNat (s.reg .r2)) := by
  obtain ⟨s₁, hrun, hsp, hmem⟩ := set_all hwords hdst
  have hlt := hwords .sp
  obtain ⟨a, ha⟩ : ∃ a, s.reg .sp = a + 8 := ⟨s.reg .sp - 8, by omega⟩
  have hsp₁ : s₁.reg .sp = a := by omega
  obtain ⟨h4, hlr⟩ := pop_push (d := .r4) (e := .lr) s₁.mem hwords (by omega) ha
    fun x hlo hhi => by
      rw [hmem]
      exact fill_outside (hoff x (by omega) (by omega))
  let s' := Op.apply s₁ (.pop .r4 .lr)
  have hpop : Within aeabi_memset_arm 1 ⟨57, s₁⟩ ⟨58, s'⟩ := .op rfl rfl
  have h4' : s'.reg .r4 = Bytes.ofLe (read s₁.mem (s₁.reg .sp) 4) := by
    simp [s', Op.apply, State.word]
  have hlr' : s'.reg .lr = Bytes.ofLe (read s₁.mem (s₁.reg .sp + 4) 4) := by
    simp [s', Op.apply, State.word]
  have hsp' : s'.reg .sp = (s₁.reg .sp + 8) % 2 ^ 32 := by simp [s', Op.apply]
  refine ⟨⟨58, s'⟩, (hrun.trans hpop).mono (by omega), ⟨.al, .lr, rfl, rfl, ?_⟩, ?_, ?_, ?_⟩
  · rw [hlr', hsp₁, hlr]
  · dsimp only
    rw [h4', hsp₁, h4]
  · dsimp only
    omega
  · exact (Op.apply_mem (by decide) s₁).trans hmem

end Set

end Bcm2835.Pup

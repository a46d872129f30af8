import Bcm2835.Integ.HashAsm

/-!
# The assembly loop is the C loop

The lanes of the assembly at the label 2 want one more product each. So the invariant
of the loop is about the lanes with that product: they are those of the C loop behind
the same blocks.
-/

namespace Bcm2835.Integ

open Mem Bytes Sweep ArmWord

variable (out : Outside)

/-! ## The parts of the listing -/

/-- The bytes below the stack pointer that the registers are put into. -/
def asmStack (s : State) : List Nat := span (2 ^ 32) (s.reg .sp - 40).toNat 40

/-- In front of the first block: the primes are moved, and the lanes, the pointer and
the end are left alone. -/
theorem asmEnter_spec {s : State} (h1 : s.reg .r4 = PRIME_1) (h2 : s.reg .r5 = PRIME_2) :
    Primed (asmEnter.foldl Op.apply s) ∧ lanesOf (asmEnter.foldl Op.apply s) = lanesOf s ∧
    (asmEnter.foldl Op.apply s).reg .r3 = s.reg .r3 ∧
    (asmEnter.foldl Op.apply s).reg .lr = s.reg .lr ∧
    ∀ x, x ∉ asmStack s → (asmEnter.foldl Op.apply s).mem x = s.mem x := by
  have hsize : (4 : ArmWord.Word) * .ofNat 32 asmSaved.length = 40 := by decide
  have hpush : (Op.push asmSaved).apply s =
      (s.stores asmSaved (s.reg .sp - 40)).set .sp (s.reg .sp - 40) := by
    rw [Op.apply, hsize]
  have hreg := s.stores_reg asmSaved (s.reg .sp - 40)
  have hmem : ∀ x, x ∉ asmStack s → (s.stores asmSaved (s.reg .sp - 40)).mem x = s.mem x :=
    fun x hx => s.stores_mem asmSaved (s.reg .sp - 40) hx
  rw [asmEnter, List.foldl_cons, hpush]
  generalize s.stores asmSaved (s.reg .sp - 40) = t at hreg hmem ⊢
  have hstays : ∀ r, t.reg r = s.reg r := fun r => congrFun hreg r
  refine ⟨⟨(hstays .r4).trans h1, (hstays .r5).trans h2⟩, ?_, hstays .r3, hstays .lr, hmem⟩
  show lanesOf t = lanesOf s
  simp only [lanesOf, hstays]

theorem stretch_enter : Stretch hash_asm 0 (asmEnter ++ asmBlock) := by
  rw [hash_asm, ← List.map_append, List.append_assoc, List.append_assoc]
  exact Stretch.of_append [] _ rfl

theorem stretch_turn : Stretch hash_asm 26 asmTurnOps := by
  rw [hash_asm, List.append_assoc (_ ++ _)]
  exact Stretch.of_append _ _ rfl

theorem stretch_leave : Stretch hash_asm 54 asmLeave := by
  have hend := @Stretch.of_append
    (asmEnter.map .op ++ asmBlock.map .op ++ asmTurnOps.map .op ++ [.bne 26]) [] asmLeave 54 rfl
  rwa [List.append_nil] at hend

/-! ## The loop -/

/-- One turn, with the branch at its end. -/
theorem turn_runs {s : State} (hp : Primed s) (ha : (s.reg .r3).toNat + 32 ≤ 2 ^ 32) :
    ∃ s', Runs out hash_asm ⟨26, s⟩ ⟨if s.reg .r3 + 32 = s.reg .lr then 54 else 26, s'⟩ ∧
      SameButLanes s s' ∧ s'.reg .r3 = s.reg .r3 + 32 ∧
      lanesOf s' = asmTurn s.mem (s.reg .r3).toNat (lanesOf s) := by
  obtain ⟨hsame, hdata, hz⟩ := asmTurnOps_same (s := s)
  have hops := Runs.ops out stretch_turn s
  have hbranch : step out hash_asm ⟨53, asmTurnOps.foldl Op.apply s⟩ =
      some ⟨if s.reg .r3 + 32 = s.reg .lr then 54 else 26, asmTurnOps.foldl Op.apply s⟩ := by
    have hcode : hash_asm[53]? = some (.bne 26) := rfl
    simp only [step, hcode, hz, decide_eq_true_eq, sub_eq_zero]
  exact ⟨_, hops.trans (Runs.one hbranch), hsame, hdata, asmTurnOps_lanes hp ha⟩

/-- From the label 2 with `n + 1` blocks to go: by induction on `n`. -/
theorem loop_runs (n : Nat) {s : State} (hp : Primed s)
    (hend : (s.reg .r3).toNat + 32 * (n + 1) = (s.reg .lr).toNat) :
    ∃ s', Runs out hash_asm ⟨26, s⟩ ⟨54, s'⟩ ∧ SameButLanes s s' ∧ s'.reg .r3 = s.reg .lr ∧
      lanesOf s' = (List.range (n + 1)).foldl
        (fun l k => asmTurn s.mem ((s.reg .r3).toNat + 32 * k) l) (lanesOf s) := by
  have hlr := (s.reg .lr).isLt
  have hadd : (s.reg .r3 + 32).toNat = (s.reg .r3).toNat + 32 := by
    rw [BitVec.toNat_add]
    exact Nat.mod_eq_of_lt (by show _ + 32 < _; omega)
  obtain ⟨t, hrun, hsame, hdata, hlanes⟩ := turn_runs out hp (by omega)
  induction n generalizing s t with
  | zero =>
      have hlast : s.reg .r3 + 32 = s.reg .lr := by
        apply BitVec.eq_of_toNat_eq
        omega
      rw [if_pos hlast] at hrun
      exact ⟨t, hrun, hsame, hdata.trans hlast, hlanes⟩
  | succ n ih =>
      have hmore : s.reg .r3 + 32 ≠ s.reg .lr := by
        intro heq
        have hnat := congrArg BitVec.toNat heq
        omega
      rw [if_neg hmore] at hrun
      have hnext : (t.reg .r3).toNat = (s.reg .r3).toNat + 32 := by rw [hdata, hadd]
      have hadd' : (t.reg .r3 + 32).toNat = (t.reg .r3).toNat + 32 := by
        rw [BitVec.toNat_add]
        exact Nat.mod_eq_of_lt (by show _ + 32 < _; omega)
      have hpt := hsame.primed hp
      obtain ⟨u, hrun₁, hsame₁, hdata₁, hlanes₁⟩ := turn_runs out hpt (by omega)
      have hend' : (t.reg .r3).toNat + 32 * (n + 1) = (t.reg .lr).toNat := by
        rw [hnext, hsame.lr]
        omega
      obtain ⟨s', hrun', hsame', hdata', hlanes'⟩ :=
        ih hpt hend' (t.reg .lr).isLt hadd' u hrun₁ hsame₁ hdata₁ hlanes₁
      refine ⟨s', hrun.trans hrun', ⟨fun h => hsame'.primed (hsame.primed h),
        hsame'.mem.trans hsame.mem, hsame'.lr.trans hsame.lr⟩, hdata'.trans hsame.lr, ?_⟩
      rw [hlanes', hlanes, hsame.mem, hnext, List.range_succ_eq_map (n := n + 1), List.foldl_cons,
        List.foldl_map]
      have hstep : ∀ k : Nat, (s.reg .r3).toNat + 32 * (k + 1) = (s.reg .r3).toNat + 32 + 32 * k :=
        fun k => by omega
      simp only [hstep, Nat.mul_zero, Nat.add_zero]

/-- The whole listing, by the memory it leaves. -/
theorem hash_asm_runs {a n : Nat} {s : State} (ha : (s.reg .r3).toNat = a)
    (hend : (s.reg .lr).toNat = a + 32 * (n + 2)) (h1 : s.reg .r4 = PRIME_1)
    (h2 : s.reg .r5 = PRIME_2) :
    ∃ s', Runs out hash_asm ⟨0, s⟩ ⟨hash_asm.length, s'⟩ ∧ s'.reg .r3 = s.reg .lr ∧
      lanesOf s' = (accumulateBlocks s'.mem a (a + 32 * (n + 2)) (lanesOf s)).2 ∧
      ∀ x, x ∉ asmStack s → s'.mem x = s.mem x := by
  have hlr := (s.reg .lr).isLt
  obtain ⟨hpe, hlanese, hdatae, hlre, hmeme⟩ := asmEnter_spec h1 h2
  -- the registers are saved, and the first block is taken in
  have henter := Runs.ops out stretch_enter s
  rw [List.foldl_append] at henter
  generalize asmEnter.foldl Op.apply s = e at hpe hlanese hdatae hlre hmeme henter
  have hfirst := asmBlock_lanes hpe (by rw [hdatae]; omega)
  obtain ⟨hsame, hdata⟩ := asmBlock_same (s := e)
  generalize asmBlock.foldl Op.apply e = b at hfirst hsame hdata henter
  have hnext : (b.reg .r3).toNat = a + 32 := by
    rw [hdata, hdatae, BitVec.toNat_add, ha]
    exact Nat.mod_eq_of_lt (by show a + 32 < _; omega)
  -- the turns of the loop
  obtain ⟨t, hloop, hsame', hdata', hturns⟩ := loop_runs out n (hsame.primed hpe)
    (by rw [hnext, hsame.lr, hlre]; omega)
  -- the last products
  obtain ⟨hlanes, hdatal⟩ := asmLeave_lanes (hsame'.primed (hsame.primed hpe))
  have hleave := Runs.ops out stretch_leave t
  have hmeml : (asmLeave.foldl Op.apply t).mem = e.mem := hsame'.mem.trans hsame.mem
  refine ⟨asmLeave.foldl Op.apply t, (henter.trans hloop).trans hleave, ?_, ?_, ?_⟩
  · rw [hdatal, hdata', hsame.lr, hlre]
  · rw [hlanes, hturns, hfirst, hmeml, hsame.mem, hnext, hdatae, ha, hlanese, accumulateBlocks,
      if_pos (by omega)]
    have hcount : turns 32 (a + 32) (a + 32 * (n + 2)) = n + 1 := by
      rw [turns]
      omega
    simp only [sweep, hcount]
  · intro x hx
    rw [hmeml]
    exact hmeme x hx

/-! ## Either path -/

/-- What `hash_memory` does behind the whole blocks. -/
def hash_rest (m : Memory) (p sz data : Nat) (l : Lanes) : Word :=
  let (data, H) := sweep (mixWord m) 4 data (stop_word p sz) (combine sz l)
  let (_, H) := sweep (mixByte m) 1 data (stop p sz) H
  let (data, H) := sweep (mixByte m) 1 p (start_word p sz) H
  let (_, H) := sweep (mixWord m) 4 data (start_block p sz) H
  avalanche H

/-- `hash_memory` as built with `HASH_HOSTED`: the C loop, whatever the size. -/
def hash_hosted (m : Memory) (seed_ptr p sz : Nat) : Word :=
  let (data, l) := sweep (accumulateBlock m) 32 (start_block p sz) (stop_block p sz)
    (seedLanes m seed_ptr)
  hash_rest m p sz data l

theorem hash_hosted_eq (m : Memory) (seed_ptr p sz : Nat) :
    hash_hosted m seed_ptr p sz = hash_memory m seed_ptr p sz := by
  obtain ⟨-, -, -, -, n, hn⟩ := parts_le p sz
  have hmem : hash_memory m seed_ptr p sz =
      hash_rest m p sz
        (accumulateBlocks m (start_block p sz) (stop_block p sz) (seedLanes m seed_ptr)).1
        (accumulateBlocks m (start_block p sz) (stop_block p sz) (seedLanes m seed_ptr)).2 := rfl
  rw [hmem, hn, accumulateBlocks_eq, ← hn]
  rfl

/-- It reads the region only. -/
theorem hash_rest_congr {m m' : Memory} {p sz : Nat}
    (h : ∀ y, min (start_block p sz) p ≤ y → y < stop p sz → m y = m' y) (l : Lanes) :
    hash_rest m p sz (stop_block p sz) l = hash_rest m' p sz (stop_block p sz) l := by
  obtain ⟨hblock, hword, hbyte, -, -⟩ := parts_le p sz
  obtain ⟨k, hk⟩ := stop_word_eq p sz
  have hwords : ∀ H, sweep (mixWord m) 4 (stop_block p sz) (stop_word p sz) H =
      sweep (mixWord m') 4 (stop_block p sz) (stop_word p sz) H :=
    mixWords_congr (fun k hk => by omega) fun y hy hy' => h y (by omega) (by omega)
  have hbytes : ∀ H, sweep (mixByte m) 1 (stop_word p sz) (stop p sz) H =
      sweep (mixByte m') 1 (stop_word p sz) (stop p sz) H :=
    mixBytes_congr fun y hy hy' => h y (by omega) hy'
  have hhead := head_congr (m := m) fun y hy hy' => h y (by omega) hy'
  have hrest : ∀ n : Memory, hash_rest n p sz (stop_block p sz) l =
      avalanche (sweep (mixWord n) 4 (headStart p sz) (start_block p sz)
        (sweep (mixByte n) 1 p (start_word p sz) (sweep (mixByte n) 1 (stop_word p sz) (stop p sz)
          (sweep (mixWord n) 4 (stop_block p sz) (stop_word p sz) (combine sz l)).2).2).2).2 := by
    intro n
    have hend : (sweep (mixWord n) 4 (stop_block p sz) (stop_word p sz) (combine sz l)).1 =
        stop_word p sz := by
      rw [hk]
      exact sweep_end (by decide) _ _
    rw [hash_rest]
    simp only [hend]
    rfl
  rw [hrest, hrest, hwords, hbytes, hhead]

/-- Where the listing is entered it comes to its end, with the lanes and the data pointer
that the C loop has for the memory it leaves, in which only the stack below the pointer
is different; and if neither the seed nor what is hashed is there, the hash is that of
the C loop on the memory as it was. -/
theorem hash_asm_refines {p sz : Nat} (hsize : 64 ≤ stop_block p sz - start_block p sz) {s : State}
    (hdata : s.reg .r3 = .ofNat 32 (start_block p sz)) (hprime1 : s.reg .r4 = PRIME_1)
    (hprime2 : s.reg .r5 = PRIME_2) (hstop : s.reg .lr = .ofNat 32 (stop_block p sz)) :
    ∃ s', Runs out hash_asm ⟨0, s⟩ ⟨hash_asm.length, s'⟩ ∧
      (∀ x, x ∉ asmStack s → s'.mem x = s.mem x) ∧
      ((s'.reg .r3).toNat, lanesOf s') =
        sweep (accumulateBlock s'.mem) 32 (start_block p sz) (stop_block p sz) (lanesOf s) ∧
      ((∀ x ∈ asmStack s, x < min (start_block p sz) p ∨ stop p sz ≤ x) →
        ((s'.reg .r3).toNat, lanesOf s') =
          sweep (accumulateBlock s.mem) 32 (start_block p sz) (stop_block p sz) (lanesOf s) ∧
        ∀ seed_ptr, lanesOf s = seedLanes s.mem seed_ptr →
          hash_rest s'.mem p sz (s'.reg .r3).toNat (lanesOf s') = hash_hosted s.mem seed_ptr p sz) := by
  obtain ⟨hle, hword, hbyte, -, n, hn⟩ := parts_le p sz
  have hlt : stop p sz < 2 ^ 32 := Nat.mod_lt _ (by decide)
  obtain ⟨k, rfl⟩ : ∃ k, n = k + 2 := ⟨n - 2, by omega⟩
  have hfirst : (s.reg .r3).toNat = start_block p sz := by
    rw [hdata, BitVec.toNat_ofNat]
    exact Nat.mod_eq_of_lt (by omega)
  have hlast : (s.reg .lr).toNat = stop_block p sz := by
    rw [hstop, BitVec.toNat_ofNat]
    exact Nat.mod_eq_of_lt (by omega)
  obtain ⟨s', hrun, hdata', hlanes, hmem⟩ :=
    hash_asm_runs out hfirst (hlast.trans hn) hprime1 hprime2
  have hloop : ((s'.reg .r3).toNat, lanesOf s') =
      sweep (accumulateBlock s'.mem) 32 (start_block p sz) (stop_block p sz) (lanesOf s) := by
    rw [hdata', hlast, hlanes, hn, accumulateBlocks_eq]
    exact Prod.ext (sweep_end (by decide) _ _).symm rfl
  refine ⟨s', hrun, hmem, hloop, fun hapart => ?_⟩
  -- what is hashed is not on the stack
  have hsame : ∀ y, min (start_block p sz) p ≤ y → y < stop p sz → s'.mem y = s.mem y := by
    intro y hy hy'
    apply hmem
    intro hstack
    have hout := hapart y hstack
    omega
  have hblocks : sweep (accumulateBlock s'.mem) 32 (start_block p sz) (stop_block p sz) (lanesOf s) =
      sweep (accumulateBlock s.mem) 32 (start_block p sz) (stop_block p sz) (lanesOf s) := by
    rw [hn]
    exact blocks_congr (fun y hy hy' => hsame y (by omega) (by omega)) _
  rw [hblocks] at hloop
  refine ⟨hloop, fun seed_ptr hseed => ?_⟩
  have hhosted : hash_hosted s.mem seed_ptr p sz =
      hash_rest s.mem p sz (s'.reg .r3).toNat (lanesOf s') := by
    rw [hash_hosted, ← hseed, ← hloop]
  rw [hhosted, hdata', hlast]
  exact hash_rest_congr hsame _

/-- 100 bytes at `0x8000`, three blocks, with the stack at `0x1000`. -/
def asmSample : State where
  reg
    | .r3 => 0x8000
    | .r4 => PRIME_1
    | .r5 => PRIME_2
    | .sp => 0x1000
    | .lr => 0x8060
    | _ => 7
  z := false
  tp := 0
  mem := fun a => .ofNat (3 * a)

theorem hash_asm_sample :
    ∃ s', Runs ⟨fun _ s => s, fun _ s => s⟩ hash_asm ⟨0, asmSample⟩ ⟨hash_asm.length, s'⟩ ∧
      (∀ x, x ∉ asmStack asmSample → s'.mem x = asmSample.mem x) ∧
      ((s'.reg .r3).toNat, lanesOf s') =
        sweep (accumulateBlock s'.mem) 32 (start_block 0x8000 100) (stop_block 0x8000 100)
          (lanesOf asmSample) ∧
      ((∀ x ∈ asmStack asmSample, x < min (start_block 0x8000 100) 0x8000 ∨ stop 0x8000 100 ≤ x) →
        ((s'.reg .r3).toNat, lanesOf s') =
          sweep (accumulateBlock asmSample.mem) 32 (start_block 0x8000 100) (stop_block 0x8000 100)
            (lanesOf asmSample) ∧
        ∀ seed_ptr, lanesOf asmSample = seedLanes asmSample.mem seed_ptr →
          hash_rest s'.mem 0x8000 100 (s'.reg .r3).toNat (lanesOf s') =
            hash_hosted asmSample.mem seed_ptr 0x8000 100) :=
  hash_asm_refines _ (by decide) rfl rfl rfl rfl

end Bcm2835.Integ

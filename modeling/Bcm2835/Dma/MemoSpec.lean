import Bcm2835.Dma.Arith
import Bcm2835.Lib.TSys
import Bcm2835.Dma.EmitSpec

/-!
# The memo of `MonomorphizeOn`

A site is an expansion of the macro in a source file. Its number is what
`__COUNTER__` is there, which starts again in every file. An expansion is an event:
the value it was made for, its result, and, if its expression was evaluated, the host
before and behind the `_mono_set` that keeps the result.
-/

namespace Bcm2835.Dma

open Mem Bytes

/-- An expansion of `MonomorphizeOn` in the source. -/
structure Site where
  unit : Nat
  counter : Nat
deriving DecidableEq

/-- What the expressions evaluate to, on which they leave the arena and the memory. The
memo itself is out of their reach. -/
abbrev Exprs : Type := Site → UInt32 → Arena → Memory → Option (UInt32 × Arena × Memory)

/-- The expression of a site for a value. -/
def Exprs.on (X : Exprs) (s : Site) (v : UInt32) (h : Host) : Option (Nat × Host) := do
  let (t, a, m) ← X s v h.arena h.mem
  pure (t.toNat, { h with arena := a, mem := m })

structure Event where
  site : Site
  value : UInt32
  result : Nat
  /-- The host before and behind `_mono_set`. -/
  set : Option (Host × Host)

/-- `MonomorphizeOn`, with what happens on the way. -/
def expand (X : Exprs) (s : Site) (v : UInt32) (h : Host) : Option (Event × Host) := do
  let h ← mono_get_or_init_ctx h s.counter 4 4
  let c ← h.mono_root.find? (·.instance_ = s.counter)
  match mono_get h c (leBytes 4 v.toNat) with
  | some t => pure (⟨s, v, ofLe t, none⟩, h)
  | none =>
      let (t, h₁) ← X.on s v h
      let h₂ ← mono_set h₁ s.counter (leBytes 4 v.toNat) (leBytes 4 t)
      pure (⟨s, v, t, some (h₁, h₂)⟩, h₂)

/-- What `_mono_get` finds in the context of `i`. -/
def Host.lookup (h : Host) (i : Nat) (k : UInt32) : Option (List UInt8) := do
  let c ← h.mono_root.find? (·.instance_ = i)
  mono_get h c (leBytes 4 k.toNat)

/-- `_mono_get` finds what was set, and everything else as before. -/
def SetLaw (before behind : Host) (i : Nat) (k : UInt32) (t : Nat) : Prop :=
  behind.lookup i k = some (leBytes 4 t) ∧
    ∀ j k', (j, k') ≠ (i, k) → behind.lookup j k' = before.lookup j k'

/-- The result of the first evaluation for a value, in a list of events, latest
first. -/
def firstOf : List Event → Site → UInt32 → Option Nat
  | [], _, _ => none
  | e :: past, s, v =>
      match firstOf past s v with
      | some t => some t
      | none => if e.site = s ∧ e.value = v ∧ e.set.isSome then some e.result else none

/-- The event is what a memo would have done behind `past`: the first time the
expression is evaluated, and its result set; later its result is found. -/
def Event.Memoized (past : List Event) (e : Event) : Prop :=
  match firstOf past e.site e.value, e.set with
  | none, some (before, behind) => SetLaw before behind e.site.counter e.value e.result
  | some t, none => e.result = t
  | _, _ => False

/-- All events are. -/
def Memoizes : List Event → Prop
  | [] => True
  | e :: past => e.Memoized past ∧ Memoizes past

/-- A program that expands. -/
structure MonoState where
  host : Host
  log : List Event

/-- Expansions, from a program on whose memo is empty. -/
def memoSystem (X : Exprs) : TSys MonoState (Site × UInt32) where
  init σ := σ.host.mono_root = [] ∧ σ.log = []
  step σ l σ' := ∃ e, expand X l.1 l.2 σ.host = some (e, σ'.host) ∧ σ'.log = e :: σ.log

/-- `expand` is the macro. -/
theorem expand_eq (X : Exprs) (s : Site) (v : UInt32) (h : Host) :
    (expand X s v h).map (fun p => (p.1.result, p.2)) =
      MonomorphizeOn s.counter v.toNat (X.on s v) h := by
  rw [expand, MonomorphizeOn]
  cases mono_get_or_init_ctx h s.counter 4 4 with
  | none => rfl
  | some h₀ =>
      rw [some_bind, some_bind]
      cases h₀.mono_root.find? (·.instance_ = s.counter) with
      | none => rfl
      | some c =>
          rw [some_bind, some_bind]
          cases mono_get h₀ c (leBytes 4 v.toNat) with
          | some t => rfl
          | none =>
              cases X.on s v h₀ with
              | none => rfl
              | some r =>
                  obtain ⟨t, h₁⟩ := r
                  show Option.map _ ((mono_set h₁ s.counter (leBytes 4 v.toNat) (leBytes 4 t)).bind _) =
                    (mono_set h₁ s.counter (leBytes 4 v.toNat) (leBytes 4 t)).bind _
                  cases mono_set h₁ s.counter (leBytes 4 v.toNat) (leBytes 4 t) with
                  | none => rfl
                  | some h₂ => rfl

/-! ## Null pointers -/

/-- Every entry has null pointers, and keys and values are words. -/
structure Host.Null (h : Host) : Prop where
  keysz : ∀ c ∈ h.mono_root, c.keysz = 4
  valsz : ∀ c ∈ h.mono_root, c.valsz = 4
  entry : ∀ c ∈ h.mono_root, ∀ e ∈ c.monos, e = ⟨0, 0⟩

/-- The word at the null pointer. -/
def Host.cell (h : Host) : List UInt8 := read h.mem BUS_DRAM_BASE 4

/-- The context of `i` has an entry. -/
def Host.Full (h : Host) (i : Nat) : Prop :=
  ∃ c, h.mono_root.find? (·.instance_ = i) = some c ∧ c.monos ≠ []

variable {X : Exprs} {s : Site} {v : UInt32} {h h₀ h₁ h₂ : Host} {i : Nat}

theorem leBytes_inj {a b : UInt32} (hab : leBytes 4 a.toNat = leBytes 4 b.toNat) : a = b := by
  have ha : a.toNat < 2 ^ 32 := a.toNat_lt
  have hb : b.toNat < 2 ^ 32 := b.toNat_lt
  have heq := congrArg ofLe hab
  rw [ofLe_leBytes, ofLe_leBytes] at heq
  apply UInt32.toNat_inj.mp
  omega

/-- The word at the null pointer is the key of some value. -/
theorem Host.exists_cell (h : Host) : ∃ k : UInt32, leBytes 4 k.toNat = h.cell := by
  have hlen : h.cell.length = 4 := read_length ..
  have hlt := ofLe_lt h.cell
  have hbytes := leBytes_ofLe h.cell
  rw [hlen] at hlt hbytes
  refine ⟨.ofNat (ofLe h.cell), ?_⟩
  have hlt' : ofLe h.cell < 2 ^ 32 := Nat.lt_of_lt_of_eq hlt (by decide)
  rw [UInt32.toNat_ofNat', Nat.mod_eq_of_lt hlt', hbytes]

/-- An entry of a context is the word at the null pointer, key and value. -/
theorem Host.Null.mono_get (hn : h.Null) {c : MonoCtx} (hc : c ∈ h.mono_root) {k : Nat} :
    mono_get h c (leBytes 4 k) = if c.monos ≠ [] ∧ h.cell = leBytes 4 k then some h.cell else none := by
  have htake : (leBytes 4 k).take 4 = leBytes 4 k := List.take_of_length_le (by rw [leBytes_length])
  have hentry : ∀ e ∈ c.monos, (if read h.mem (e.key + BUS_DRAM_BASE) c.keysz = (leBytes 4 k).take c.keysz then
      some (read h.mem (e.val + BUS_DRAM_BASE) c.valsz) else none) =
      if h.cell = leBytes 4 k then some h.cell else none := by
    intro e he
    rw [hn.entry c hc e he, hn.keysz c hc, hn.valsz c hc, htake, Nat.zero_add]
    rfl
  rw [Dma.mono_get]
  cases hm : c.monos with
  | nil => rfl
  | cons e es =>
      rcases Decidable.em (h.cell = leBytes 4 k) with heq | hne
      · rw [List.findSome?_cons, hentry e (hm ▸ List.mem_cons_self), if_pos heq,
          if_pos ⟨List.cons_ne_nil e es, heq⟩]
      · rw [if_neg fun hh => hne hh.2, List.findSome?_eq_none_iff]
        intro e' he'
        rw [hentry e' (hm ▸ he'), if_neg hne]

open Classical in
/-- What is found for a key. -/
theorem Host.Null.lookup (hn : h.Null) (j : Nat) (k : UInt32) :
    h.lookup j k = if h.Full j ∧ h.cell = leBytes 4 k.toNat then some h.cell else none := by
  rw [Host.lookup]
  cases hfind : h.mono_root.find? (·.instance_ = j) with
  | none =>
      rw [if_neg]
      · rfl
      · rintro ⟨⟨c, hc, _⟩, _⟩
        rw [hfind] at hc
        cases hc
  | some c =>
      rw [some_bind, hn.mono_get (List.mem_of_find?_eq_some hfind)]
      have hfull : h.Full j ↔ c.monos ≠ [] := by
        constructor
        · rintro ⟨c', hc', hne⟩
          rw [hfind] at hc'
          cases hc'
          exact hne
        · intro hne
          exact ⟨c, hfind, hne⟩
      exact if_congr (and_congr_left' hfull.symm) rfl rfl

/-! ## One expansion -/

/-- A context without entries changes nothing that can be found. -/
theorem mono_get_or_init_ctx_spec (hn : h.Null) (hinit : mono_get_or_init_ctx h i 4 4 = some h₀) :
    h₀.Null ∧ h₀.mem = h.mem ∧ h₀.arena = h.arena ∧ (∀ j, h₀.Full j ↔ h.Full j) ∧
      ∃ c, h₀.mono_root.find? (·.instance_ = i) = some c := by
  rw [mono_get_or_init_ctx] at hinit
  rcases Decidable.em (h.mono_root.any (·.instance_ = i) = true) with hany | hany
  · rw [if_pos hany] at hinit
    cases hinit
    have hsome : (h.mono_root.find? (·.instance_ = i)).isSome := by
      rw [List.find?_isSome]
      exact List.any_eq_true.mp hany
    exact ⟨hn, rfl, rfl, fun _ => Iff.rfl, Option.isSome_iff_exists.mp hsome⟩
  · rw [if_neg hany] at hinit
    rcases Decidable.em (h.curr_context < MAX_CONTEXT) with hroom | hroom
    · rw [guard_bind hroom] at hinit
      cases hinit
      have hnone : h.mono_root.find? (·.instance_ = i) = none := by
        rw [List.find?_eq_none]
        intro c hc hi
        exact hany (List.any_eq_true.mpr ⟨c, hc, hi⟩)
      refine ⟨⟨?_, ?_, ?_⟩, rfl, rfl, fun j => ?_, _, List.find?_cons_of_pos (by simp)⟩
      · intro c hc
        rcases List.mem_cons.mp hc with rfl | hc
        · rfl
        · exact hn.keysz c hc
      · intro c hc
        rcases List.mem_cons.mp hc with rfl | hc
        · rfl
        · exact hn.valsz c hc
      · intro c hc e he
        rcases List.mem_cons.mp hc with rfl | hc
        · cases he
        · exact hn.entry c hc e he
      · show (∃ c, List.find? _ (⟨i, 4, 4, []⟩ :: h.mono_root) = some c ∧ c.monos ≠ []) ↔ _
        rcases Decidable.em (i = j) with rfl | hij
        · rw [List.find?_cons_of_pos (by simp)]
          constructor
          · rintro ⟨c, hc, hne⟩
            cases hc
            exact absurd rfl hne
          · rintro ⟨c, hc, _⟩
            rw [hnone] at hc
            cases hc
        · rw [List.find?_cons_of_neg (by simpa using hij)]
          rfl
    · rw [guard, if_neg hroom] at hinit
      cases hinit

theorem find?_map_ctx {e : Mono} {cs : List MonoCtx} (j : Nat) :
    (cs.map fun c => if c.instance_ = i then { c with monos := e :: c.monos } else c).find?
      (·.instance_ = j) = (cs.find? (·.instance_ = j)).map
        fun c => if c.instance_ = i then { c with monos := e :: c.monos } else c := by
  rw [List.find?_map]
  congr 2
  funext c
  show decide ((if c.instance_ = i then { c with monos := e :: c.monos } else c).instance_ = j) = _
  split <;> rfl

/-- The word at the null pointer is the last value set. -/
theorem mono_set_spec (hn : h₁.Null) {k t : Nat}
    (hset : mono_set h₁ i (leBytes 4 k) (leBytes 4 t) = some h₂) :
    h₂.Null ∧ h₂.cell = leBytes 4 t ∧ ∀ j, h₂.Full j ↔ h₁.Full j ∨ j = i := by
  rw [mono_set] at hset
  rcases Decidable.em (h₁.curr_mono < MAX_MONO) with hroom | hroom
  · rw [guard_bind hroom] at hset
    cases hfind : h₁.mono_root.find? (·.instance_ = i) with
    | none =>
        rw [hfind] at hset
        cases hset
    | some c =>
        rw [hfind, some_bind] at hset
        have hmem := List.mem_of_find?_eq_some hfind
        have hinst : c.instance_ = i := by simpa using List.find?_some hfind
        have htake : ∀ x, (leBytes 4 x).take 4 = leBytes 4 x := fun x =>
          List.take_of_length_le (by rw [leBytes_length])
        cases hset
        refine ⟨⟨?_, ?_, ?_⟩, ?_, fun j => ?_⟩
        · intro c' hc'
          obtain ⟨c₀, hc₀, rfl⟩ := List.mem_map.mp hc'
          split
          · exact hn.keysz c₀ hc₀
          · exact hn.keysz c₀ hc₀
        · intro c' hc'
          obtain ⟨c₀, hc₀, rfl⟩ := List.mem_map.mp hc'
          split
          · exact hn.valsz c₀ hc₀
          · exact hn.valsz c₀ hc₀
        · intro c' hc' e he
          obtain ⟨c₀, hc₀, rfl⟩ := List.mem_map.mp hc'
          split at he
          · rcases List.mem_cons.mp he with rfl | he
            · rfl
            · exact hn.entry c₀ hc₀ e he
          · exact hn.entry c₀ hc₀ e he
        · show read (write (2 ^ 32) _ ((MONOS h₁.curr_mono).val + BUS_DRAM_BASE) _) BUS_DRAM_BASE 4 = _
          have hval : (MONOS h₁.curr_mono).val + BUS_DRAM_BASE = BUS_DRAM_BASE := Nat.zero_add _
          rw [hval, hn.valsz c hmem, htake]
          have hread := fun m => read_write (N := 2 ^ 32) (a := BUS_DRAM_BASE) (b := leBytes 4 t) m
            (by rw [leBytes_length]; decide)
          rw [leBytes_length] at hread
          exact hread _
        · rw [Host.Full, find?_map_ctx]
          constructor
          · rintro ⟨c', hc', hne⟩
            obtain ⟨c₀, hc₀, rfl⟩ := Option.map_eq_some_iff.mp hc'
            have hj : c₀.instance_ = j := by simpa using List.find?_some hc₀
            rcases Decidable.em (c₀.instance_ = i) with hi | hi
            · exact .inr (hj.symm.trans hi)
            · rw [if_neg hi] at hne
              exact .inl ⟨c₀, hc₀, hne⟩
          · rintro (⟨c₀, hc₀, hne⟩ | rfl)
            · refine ⟨_, congrArg (Option.map _) hc₀, ?_⟩
              dsimp only
              split
              · exact fun hnil => List.cons_ne_nil _ _ hnil
              · exact hne
            · refine ⟨_, congrArg (Option.map _) hfind, ?_⟩
              dsimp only
              rw [if_pos hinst]
              exact fun hnil => List.cons_ne_nil _ _ hnil
  · rw [guard, if_neg hroom] at hset
    cases hset

end Bcm2835.Dma

import Bcm2835.Dma.MemoSpec
import Bcm2835.Dma.Start

/-!
# `MonomorphizeOn` is not a memo

The entries of the memo have no storage: keys and values all go to the word at the
null pointer, where a value overwrites its own key. So a width is found again only if
it is the word there, and what is found for it is the width itself; and the number of
a site is found by the site of another file that has the same number.
-/

namespace Bcm2835.Dma

open Mem Bytes

/-- The look-up at a site finds something. -/
def Host.Hits (h : Host) (i : Nat) (v : UInt32) : Prop := h.Full i ∧ h.cell = leBytes 4 v.toNat

/-- The expansions the macro gets right. One that finds something is of a site that has
been expanded with the value before. One that finds nothing has not been, its
expression evaluates to the value itself, and either nothing has been memoized or the
word at the null pointer is the value, too. -/
def Harmless (X : Exprs) (σ : MonoState) (l : Site × UInt32) : Prop :=
  (σ.host.Hits l.1.counter l.2 ∧ firstOf σ.log l.1 l.2 ≠ none) ∨
  (¬σ.host.Hits l.1.counter l.2 ∧ firstOf σ.log l.1 l.2 = none ∧
    ∃ a m, X l.1 l.2 σ.host.arena σ.host.mem = some (l.2, a, m) ∧
      ((∀ j, ¬σ.host.Full j) ∨ read m BUS_DRAM_BASE 4 = leBytes 4 l.2.toNat))

variable {X : Exprs} {s : Site} {v : UInt32} {h h₁ h₂ : Host} {e : Event} {i : Nat}

/-! ## One expansion -/

/-- What `_mono_set` has to find and leave, with null pointers. -/
theorem setLaw_iff (hn : h₁.Null) {t : UInt32}
    (hset : mono_set h₁ i (leBytes 4 v.toNat) (leBytes 4 t.toNat) = some h₂) :
    SetLaw h₁ h₂ i v t.toNat ↔
      t = v ∧ ((∀ j, ¬h₁.Full j) ∨ h₁.cell = leBytes 4 v.toNat) := by
  obtain ⟨hn₂, hcell, hfull⟩ := mono_set_spec hn hset
  have hown : h₂.Full i := (hfull i).mpr (.inr rfl)
  constructor
  · rintro ⟨hget, hother⟩
    have htv : t = v := by
      rw [hn₂.lookup, hcell] at hget
      split at hget
      · next hh => exact leBytes_inj hh.2
      · cases hget
    subst htv
    refine ⟨rfl, ?_⟩
    by_contra hnot
    obtain ⟨hsome, hne⟩ := not_or.mp hnot
    obtain ⟨j, hj⟩ := not_forall_not.mp hsome
    -- what was found for the word that was there before is lost
    obtain ⟨k, hk⟩ := h₁.exists_cell
    have hkt : k ≠ t := by
      rintro rfl
      exact hne hk.symm
    have hsame := hother j k fun heq => hkt (Prod.ext_iff.mp heq).2
    rw [hn.lookup, if_pos ⟨hj, hk.symm⟩, hn₂.lookup, if_neg] at hsame
    · cases hsame
    · rintro ⟨_, heq⟩
      exact hkt (leBytes_inj (heq.symm.trans hcell).symm).symm
  · rintro ⟨rfl, hcase⟩
    constructor
    · rw [hn₂.lookup, if_pos ⟨hown, hcell⟩, hcell]
    · intro j k hjk
      rw [hn₂.lookup, hn.lookup, hcell]
      rcases Decidable.em (k = t) with rfl | hkt
      · have hji : j ≠ i := by
          rintro rfl
          exact hjk rfl
        rcases hcase with hnone | hword
        · rw [if_neg, if_neg]
          · exact fun hh => hnone j hh.1
          · rintro ⟨hj, _⟩
            exact ((hfull j).mp hj).elim (hnone j) hji
        · have hfulls : h₂.Full j ↔ h₁.Full j := (hfull j).trans (or_iff_left hji)
          rcases Classical.em (h₁.Full j) with hj | hj
          · rw [if_pos ⟨hfulls.mpr hj, rfl⟩, if_pos ⟨hj, hword⟩, hword]
          · rw [if_neg fun hh => hj (hfulls.mp hh.1), if_neg fun hh => hj hh.1]
      · rw [if_neg, if_neg]
        · rintro ⟨hj, heq⟩
          rcases hcase with hnone | hword
          · exact hnone j hj
          · exact hkt (leBytes_inj (heq.symm.trans hword))
        · rintro ⟨_, heq⟩
          exact hkt (leBytes_inj heq).symm

/-- An expansion that finds something has the value as its result; one that does not
evaluates the expression and sets what it evaluates to. -/
theorem expand_cases (hn : h.Null) (hexp : expand X s v h = some (e, h₂)) :
    h₂.Null ∧ (∀ j, h.Full j → h₂.Full j) ∧
      ((h.Hits s.counter v ∧ e = ⟨s, v, v.toNat, none⟩ ∧ ∀ j, h₂.Full j → h.Full j) ∨
      (¬h.Hits s.counter v ∧ ∃ t a m h₁, X s v h.arena h.mem = some (t, a, m) ∧ h₁.Null ∧ h₁.mem = m ∧
        (∀ j, h₁.Full j ↔ h.Full j) ∧ e = ⟨s, v, t.toNat, some (h₁, h₂)⟩ ∧ h₂.Full s.counter ∧
        mono_set h₁ s.counter (leBytes 4 v.toNat) (leBytes 4 t.toNat) = some h₂)) := by
  have hv : v.toNat % 256 ^ 4 = v.toNat := Nat.mod_eq_of_lt (Nat.lt_of_lt_of_eq v.toNat_lt (by decide))
  rw [expand] at hexp
  obtain ⟨h₀, hinit, hexp⟩ := Option.bind_eq_some_iff.mp hexp
  obtain ⟨hn₀, hmem, harena, hfull, c, hfind⟩ := mono_get_or_init_ctx_spec hn hinit
  rw [hfind, some_bind] at hexp
  have hcell : h₀.cell = h.cell := congrArg (fun m => read m BUS_DRAM_BASE 4) hmem
  have hlookup : mono_get h₀ c (leBytes 4 v.toNat) = h₀.lookup s.counter v := by
    rw [Host.lookup, hfind]
    rfl
  have hhit : (h₀.Full s.counter ∧ h₀.cell = leBytes 4 v.toNat) ↔ h.Hits s.counter v := by
    rw [hfull, hcell]
    rfl
  rw [hlookup, hn₀.lookup] at hexp
  rcases Classical.em (h.Hits s.counter v) with hyes | hno
  · have hword : h₀.cell = leBytes 4 v.toNat := hcell.trans hyes.2
    rw [if_pos (hhit.mpr hyes)] at hexp
    cases hexp
    refine ⟨hn₀, fun j => (hfull j).mpr, .inl ⟨hyes, ?_, fun j => (hfull j).mp⟩⟩
    rw [hword, ofLe_leBytes, hv]
  · rw [if_neg fun hh => hno (hhit.mp hh)] at hexp
    obtain ⟨⟨t, h₁⟩, hon, hexp⟩ := Option.bind_eq_some_iff.mp hexp
    obtain ⟨h₃, hset, hexp⟩ := Option.bind_eq_some_iff.mp hexp
    rw [Exprs.on, harena, hmem] at hon
    obtain ⟨⟨t', a, m⟩, hX, hon⟩ := Option.bind_eq_some_iff.mp hon
    cases hon
    cases hexp
    have hn₁ : Host.Null { h₀ with arena := a, mem := m } := ⟨hn₀.keysz, hn₀.valsz, hn₀.entry⟩
    have hfull₁ : ∀ j, Host.Full { h₀ with arena := a, mem := m } j ↔ h.Full j := hfull
    obtain ⟨hn₂, _, hfull₂⟩ := mono_set_spec hn₁ hset
    refine ⟨hn₂, fun j hj => (hfull₂ j).mpr (.inl ((hfull₁ j).mpr hj)), .inr ⟨hno, t', a, m, _, hX, hn₁, rfl,
      hfull₁, rfl, (hfull₂ _).mpr (.inr rfl), hset⟩⟩

theorem expand_site (hn : h.Null) (hexp : expand X s v h = some (e, h₂)) :
    e.site = s ∧ e.value = v := by
  rcases (expand_cases hn hexp).2.2 with ⟨_, rfl, _⟩ | ⟨_, _, _, _, _, _, _, _, _, rfl, _⟩
  · exact ⟨rfl, rfl⟩
  · exact ⟨rfl, rfl⟩

/-! ## Runs -/

/-- The events so far are those of a memo, and each expression that was evaluated gave
its value. -/
structure MemoInv (σ : MonoState) : Prop where
  null : σ.host.Null
  memoizes : Memoizes σ.log
  same : ∀ s v t, firstOf σ.log s v = some t → t = v.toNat

theorem firstOf_cons (past : List Event) :
    firstOf (e :: past) s v = match firstOf past s v with
      | some t => some t
      | none => if e.site = s ∧ e.value = v ∧ e.set.isSome then some e.result else none := rfl

/-- From a state of the invariant, the macro is right if and only if the expansion is
harmless, and then the invariant holds behind it. -/
theorem MemoInv.step {σ σ' : MonoState} (hinv : MemoInv σ) {l : Site × UInt32}
    (hstep : (memoSystem X).step σ l σ') :
    (Memoizes σ'.log ↔ Harmless X σ l) ∧ (Harmless X σ l → MemoInv σ') := by
  obtain ⟨s, v⟩ := l
  obtain ⟨e, hexp, hlog⟩ := hstep
  obtain ⟨hn₂, _, hcase⟩ := expand_cases hinv.null hexp
  have hcons : Memoizes σ'.log ↔ e.Memoized σ.log := by
    rw [hlog]
    exact and_iff_left hinv.memoizes
  rcases hcase with ⟨hhit, rfl, _⟩ | ⟨hmiss, t, a, m, h₁, hX, hn₁, hmem, hfull, rfl, _, hset⟩
  · have hiff : Event.Memoized σ.log ⟨s, v, v.toNat, none⟩ ↔ Harmless X σ (s, v) := by
      rw [Event.Memoized]
      dsimp only
      cases hfirst : firstOf σ.log s v with
      | none =>
          refine iff_of_false id ?_
          rintro (⟨_, hne⟩ | ⟨hno, _⟩)
          · exact hne hfirst
          · exact hno hhit
      | some t =>
          refine iff_of_true (hinv.same s v t hfirst).symm (.inl ⟨hhit, ?_⟩)
          rw [hfirst]
          exact Option.some_ne_none t
    refine ⟨hcons.trans hiff, fun hharm => ⟨hn₂, (hcons.trans hiff).mpr hharm, ?_⟩⟩
    intro s' v' t ht
    rw [hlog, firstOf_cons] at ht
    cases hpast : firstOf σ.log s' v' with
    | some t' =>
        rw [hpast] at ht
        cases ht
        exact hinv.same s' v' t hpast
    | none =>
        rw [hpast] at ht
        dsimp only at ht
        rw [if_neg fun hh => Bool.false_ne_true hh.2.2] at ht
        cases ht
  · have hcell : h₁.cell = read m BUS_DRAM_BASE 4 := congrArg (fun m => read m BUS_DRAM_BASE 4) hmem
    have hiff : Event.Memoized σ.log ⟨s, v, t.toNat, some (h₁, σ'.host)⟩ ↔ Harmless X σ (s, v) := by
      rw [Event.Memoized]
      dsimp only
      cases hfirst : firstOf σ.log s v with
      | some t' =>
          refine iff_of_false id ?_
          rintro (⟨hyes, _⟩ | ⟨_, hnone, _⟩)
          · exact hmiss hyes
          · rw [hfirst] at hnone
            cases hnone
      | none =>
          dsimp only
          rw [setLaw_iff hn₁ hset, hcell]
          simp only [hfull]
          constructor
          · rintro ⟨rfl, hword⟩
            exact .inr ⟨hmiss, hfirst, a, m, hX, hword⟩
          · rintro (⟨hyes, _⟩ | ⟨_, _, a', m', hX', hword⟩)
            · exact absurd hyes hmiss
            · rw [hX] at hX'
              cases hX'
              exact ⟨rfl, hword⟩
    refine ⟨hcons.trans hiff, fun hharm => ⟨hn₂, (hcons.trans hiff).mpr hharm, ?_⟩⟩
    -- the expression evaluated to the value
    have htv : t = v := by
      rcases hharm with ⟨hyes, _⟩ | ⟨_, _, a', m', hX', _⟩
      · exact absurd hyes hmiss
      · rw [hX] at hX'
        cases hX'
        rfl
    intro s' v' t' ht'
    rw [hlog, firstOf_cons] at ht'
    cases hpast : firstOf σ.log s' v' with
    | some u =>
        rw [hpast] at ht'
        cases ht'
        exact hinv.same s' v' _ hpast
    | none =>
        rw [hpast] at ht'
        dsimp only at ht'
        split at ht'
        · next hh =>
            cases ht'
            rw [htv, hh.2.1]
        · cases ht'

theorem memoInv_reachable {σ : MonoState} (hr : ((memoSystem X).restrict (Harmless X)).Reachable σ) :
    MemoInv σ := by
  induction hr with
  | init h =>
      obtain ⟨hroot, hlog⟩ := h
      refine ⟨⟨?_, ?_, ?_⟩, ?_, ?_⟩
      · intro c hc
        simp [hroot] at hc
      · intro c hc
        simp [hroot] at hc
      · intro c hc
        simp [hroot] at hc
      · rw [hlog]
        trivial
      · intro s v t ht
        rw [hlog] at ht
        cases ht
  | step _ hst ih => exact (ih.step hst.2).2 hst.1

/-- In a run of harmless expansions `MonomorphizeOn` is a memo in every state reached,
and the first expansion that is not harmless breaks it. -/
theorem monomorphize_runs (X : Exprs) :
    ∀ σ, ((memoSystem X).restrict (Harmless X)).Reachable σ → Memoizes σ.log ∧
      ∀ l σ', (memoSystem X).step σ l σ' → (Memoizes σ'.log ↔ Harmless X σ l) := by
  intro σ hr
  have hinv := memoInv_reachable hr
  exact ⟨hinv.memoizes, fun l σ' hstep => (hinv.step hstep).1⟩

/-- Sites that allocate a buffer of the value's size. -/
def allocExprs : Exprs := fun _ v a m =>
  (arena_alloc a v.toNat 4).map fun p => (.ofNat p.1, p.2, m)

/-- At the sites of the other files the expression is the value. -/
def mixedExprs : Exprs := fun s v a m => if s.unit = 0 then allocExprs s v a m else some (v, a, m)

/-! ### Computed runs -/

/-- The state behind an expansion. -/
def memoNext (X : Exprs) (σ : MonoState) (l : Site × UInt32) : Option MonoState :=
  (expand X l.1 l.2 σ.host).map fun p => ⟨p.2, p.1 :: σ.log⟩

theorem step_of_memoNext {σ σ' : MonoState} {l : Site × UInt32} (h : memoNext X σ l = some σ') :
    (memoSystem X).step σ l σ' := by
  obtain ⟨⟨e, h'⟩, hexp, rfl⟩ := Option.map_eq_some_iff.mp h
  exact ⟨e, hexp, rfl⟩

theorem full_iff (h : Host) (i : Nat) :
    h.Full i ↔ (h.mono_root.find? (·.instance_ = i)).any (fun c => !c.monos.isEmpty) = true := by
  rw [Option.any_eq_true]
  refine exists_congr fun c => and_congr_right fun _ => ?_
  cases c.monos <;> simp

instance (h : Host) (i : Nat) : Decidable (h.Full i) := decidable_of_iff _ (full_iff h i).symm

instance (h : Host) : Decidable (∀ j, ¬h.Full j) :=
  decidable_of_iff (∀ c ∈ h.mono_root, ¬h.Full c.instance_) <| by
    refine ⟨fun hall j hj => ?_, fun hall c _ => hall _⟩
    obtain ⟨c, hc, hne⟩ := hj
    have hinst : c.instance_ = j := by simpa using List.find?_some hc
    exact hall c (List.mem_of_find?_eq_some hc) (hinst ▸ ⟨c, hc, hne⟩)

instance (h : Host) (i : Nat) (v : UInt32) : Decidable (h.Hits i v) := instDecidableAnd

instance (o : Option (UInt32 × Arena × Memory)) (v : UInt32) (P : Memory → Prop) [DecidablePred P] :
    Decidable (∃ a m, o = some (v, a, m) ∧ P m) :=
  decidable_of_iff (o.any (fun p => p.1 = v ∧ P p.2.2) = true) <| by
    rw [Option.any_eq_true]
    constructor
    · rintro ⟨⟨w, a, m⟩, ho, hp⟩
      obtain ⟨rfl, hP⟩ := of_decide_eq_true hp
      exact ⟨a, m, ho, hP⟩
    · rintro ⟨a, m, ho, hP⟩
      exact ⟨_, ho, decide_eq_true ⟨rfl, hP⟩⟩

instance (X : Exprs) (σ : MonoState) (l : Site × UInt32) : Decidable (Harmless X σ l) :=
  inferInstanceAs (Decidable (_ ∨ _))

/-- The arena begins at 0x300. -/
def Host.low : Host := { Host.sample with arena := ⟨0x300, 0x1000, 0x300, 0⟩ }

/-- Two sites of two files are expanded with the value 0x300, over and over. -/
def repeated : List (Site × UInt32) :=
  [(⟨0, 0⟩, 0x300), (⟨0, 0⟩, 0x300), (⟨1, 1⟩, 0x300), (⟨1, 1⟩, 0x300), (⟨0, 0⟩, 0x300)]

/-- The buffer of 0x300 bytes that the first site allocates begins at 0x300, so that
each expression is evaluated once. What the first site has memoized is then found by a
site of a third file. -/
theorem monomorphize_runs_repeated : ∃ σ,
    TSys.exec (memoNext mixedExprs) ⟨.low, []⟩ repeated = some σ ∧
    σ.log.map (fun e => (e.result, e.set.isSome)) =
      [(0x300, false), (0x300, false), (0x300, true), (0x300, false), (0x300, true)] ∧
    Memoizes σ.log ∧
    ∃ σ', (memoSystem mixedExprs).step σ (⟨2, 0⟩, 0x300) σ' ∧ ¬Memoizes σ'.log := by
  have hall : TSys.All (memoNext mixedExprs) (Harmless mixedExprs) ⟨.low, []⟩ repeated := by
    decide +kernel
  have hrun : (TSys.exec (memoNext mixedExprs) ⟨.low, []⟩ repeated).map (fun σ =>
      (σ.log.map (fun e => (e.result, e.set.isSome)),
        (memoNext mixedExprs σ (⟨2, 0⟩, 0x300)).isSome,
        decide (Harmless mixedExprs σ (⟨2, 0⟩, 0x300)))) =
      some ([(0x300, false), (0x300, false), (0x300, true), (0x300, false), (0x300, true)],
        true, false) := by
    decide +kernel
  obtain ⟨σ, hexec, hstate⟩ := Option.map_eq_some_iff.mp hrun
  simp only [Prod.mk.injEq, decide_eq_false_iff_not] at hstate
  obtain ⟨hlog, hsome, hharm⟩ := hstate
  obtain ⟨σ', hnext⟩ := Option.isSome_iff_exists.mp hsome
  have hreach : ((memoSystem mixedExprs).restrict (Harmless mixedExprs)).Reachable σ :=
    (TSys.restrict_of_all step_of_memoNext hexec hall).reachable (.init ⟨rfl, rfl⟩)
  obtain ⟨hmemo, hiff⟩ := monomorphize_runs mixedExprs σ hreach
  have hstep := step_of_memoNext hnext
  exact ⟨σ, hexec, hlog, hmemo, σ', hstep, fun h => hharm ((hiff _ σ' hstep).mp h)⟩

/-- A second expansion with the width 4 allocates a second buffer. -/
theorem monomorphize_twice : ∃ e₁ e₂ h₁ h₂,
    expand allocExprs ⟨0, 0⟩ 4 Host.sample = some (e₁, h₁) ∧
    expand allocExprs ⟨0, 0⟩ 4 h₁ = some (e₂, h₂) ∧
    e₁.result = 0x300000 ∧ e₂.result = 0x300004 ∧ e₁.set.isSome ∧ e₂.set.isSome ∧
    ¬Memoizes [e₂, e₁] := by
  have hrun : ((expand allocExprs ⟨0, 0⟩ 4 Host.sample).bind fun p₁ =>
      (expand allocExprs ⟨0, 0⟩ 4 p₁.2).map fun p₂ =>
        [(p₁.1.result, p₁.1.set.isSome), (p₂.1.result, p₂.1.set.isSome)]) =
      some [(0x300000, true), (0x300004, true)] := by
    decide +kernel
  obtain ⟨⟨e₁, h₁⟩, hfirst, hrun⟩ := Option.bind_eq_some_iff.mp hrun
  obtain ⟨⟨e₂, h₂⟩, hsecond, hrun⟩ := Option.map_eq_some_iff.mp hrun
  simp only [List.cons.injEq, Prod.mk.injEq, and_true] at hrun
  obtain ⟨⟨hr₁, hs₁⟩, hr₂, hs₂⟩ := hrun
  refine ⟨e₁, e₂, h₁, h₂, hfirst, hsecond, hr₁, hr₂, hs₁, hs₂, ?_⟩
  rintro ⟨hmemo, _⟩
  have hn : Host.sample.Null := ⟨nofun, nofun, nofun⟩
  obtain ⟨hsite₁, hval₁⟩ := expand_site hn hfirst
  obtain ⟨hsite₂, hval₂⟩ := expand_site (expand_cases hn hfirst).1 hsecond
  have hseen : firstOf [e₁] e₂.site e₂.value = some e₁.result := by
    rw [hsite₂, hval₂]
    exact if_pos ⟨hsite₁, hval₁, hs₁⟩
  obtain ⟨p, hp⟩ := Option.isSome_iff_exists.mp hs₂
  rw [Event.Memoized, hseen, hp] at hmemo
  exact hmemo

end Bcm2835.Dma

import Mathlib.Logic.Relation
import Mathlib.Tactic.Basic

/-!
# Labelled transition systems

A system is a set of initial states and a labelled step relation. An inductive
predicate holds in every reachable state (`invariant_of`), a run can be cut down
to the steps that meet a side condition (`restrict`), and a concrete list of
labels exhibits a reachable state (`Steps.reachable`).

The labels may be messages and losses in a protocol, or calls that are made one
after the other. For a run of a partial next-state function (`exec`), `All` says
what holds at every step of it, and an invariant gives or moves such a condition
(`all_of_inv`, `all_iff_of_inv`).
-/

/-- A labelled transition system over states `σ` and labels `ι`. -/
structure TSys (σ : Type*) (ι : Type*) where
  init : σ → Prop
  step : σ → ι → σ → Prop

namespace TSys

variable {σ ι : Type*} {T : TSys σ ι}

/-- The states some finite run from an initial state ends in. -/
inductive Reachable (T : TSys σ ι) : σ → Prop
  | init {s} : T.init s → Reachable T s
  | step {s l s'} : Reachable T s → T.step s l s' → Reachable T s'

/-- The invariant rule. The step premise may use that the state before the
step is reachable, so invariants can be stacked. -/
theorem invariant_of {I : σ → Prop} (hinit : ∀ s, T.init s → I s)
    (hstep : ∀ s l s', T.Reachable s → I s → T.step s l s' → I s') :
    ∀ s, T.Reachable s → I s := by
  intro s hs
  induction hs with
  | init h => exact hinit _ h
  | step hr hst ih => exact hstep _ _ _ hr ih hst

/-- The system that takes only those steps of `T` that meet `C`, a condition
on the state before the step and on the label. -/
def restrict (T : TSys σ ι) (C : σ → ι → Prop) : TSys σ ι where
  init := T.init
  step s l s' := C s l ∧ T.step s l s'

/-- A restricted run is a run. -/
theorem Reachable.of_restrict {C : σ → ι → Prop} {s : σ}
    (h : (T.restrict C).Reachable s) : T.Reachable s := by
  induction h with
  | init h => exact .init h
  | step _ hst ih => exact .step ih hst.2

/-- `Steps T s ls s'`: the labels `ls`, taken in order, lead from `s` to `s'`. -/
inductive Steps (T : TSys σ ι) : σ → List ι → σ → Prop
  | nil {s} : Steps T s [] s
  | cons {s l s' ls s''} : T.step s l s' → Steps T s' ls s'' → Steps T s (l :: ls) s''

/-- A run from a reachable state ends in a reachable state. -/
theorem Steps.reachable {s s' : σ} {ls : List ι} (h : T.Steps s ls s')
    (hs : T.Reachable s) : T.Reachable s' := by
  induction h with
  | nil => exact hs
  | cons hst _ ih => exact ih (.step hs hst)

/-- A run whose labels all meet the condition is a restricted run. -/
theorem Steps.restrict {C : σ → ι → Prop} {s s' : σ} {ls : List ι} (h : T.Steps s ls s')
    (hC : ∀ l ∈ ls, ∀ t, C t l) : (T.restrict C).Steps s ls s' := by
  induction h with
  | nil => exact .nil
  | cons hst _ ih =>
      exact .cons ⟨hC _ List.mem_cons_self _, hst⟩
        (ih fun l hl => hC l (List.mem_cons_of_mem _ hl))

/-- The system of a partial next-state function. -/
def ofNext (start : σ → Prop) (next : σ → ι → Option σ) : TSys σ ι where
  init := start
  step s l s' := next s l = some s'

/-- Runs a list of labels through a partial next-state function. -/
def exec (next : σ → ι → Option σ) : σ → List ι → Option σ
  | s, [] => some s
  | s, l :: ls => (next s l).bind fun s' => exec next s' ls

/-- A successful `exec` of steps of a system is a run of it. -/
theorem steps_of_next {next : σ → ι → Option σ} (hnext : ∀ {s l s'}, next s l = some s' → T.step s l s')
    {ls : List ι} {s s' : σ} (h : exec next s ls = some s') : T.Steps s ls s' := by
  induction ls generalizing s with
  | nil =>
      cases h
      exact .nil
  | cons l ls ih =>
      obtain ⟨t, hst, hrest⟩ := Option.bind_eq_some_iff.mp h
      exact .cons (hnext hst) (ih hrest)

/-- A successful `exec` is a run. -/
theorem steps_of_exec {start : σ → Prop} {next : σ → ι → Option σ} {ls : List ι} {s s' : σ}
    (h : exec next s ls = some s') : (ofNext start next).Steps s ls s' := steps_of_next id h

/-! ## Every step of one run -/

/-- `P` holds at every step of the run that takes `ls`, in the state before the step. -/
def All (next : σ → ι → Option σ) (P : σ → ι → Prop) : σ → List ι → Prop
  | _, [] => True
  | s, l :: ls => P s l ∧ ∀ s' ∈ next s l, All next P s' ls

instance decAll {next : σ → ι → Option σ} {P : σ → ι → Prop} [∀ s l, Decidable (P s l)]
    (s : σ) (ls : List ι) : Decidable (All next P s ls) :=
  match ls with
  | [] => .isTrue trivial
  | l :: ls =>
      have (t : σ) : Decidable (All next P t ls) := decAll t ls
      inferInstanceAs (Decidable (_ ∧ ∀ s' ∈ next s l, _))

section All

variable {next : σ → ι → Option σ} {P Q : σ → ι → Prop}

theorem exec_cons {s s' : σ} {l : ι} {ls : List ι} (h : exec next s (l :: ls) = some s') :
    ∃ t, next s l = some t ∧ exec next t ls = some s' := Option.bind_eq_some_iff.mp h

/-- The rest of a run whose first step leads to `t`. -/
theorem all_cons_iff {s t : σ} {l : ι} {ls : List ι} (h : next s l = some t) :
    All next P s (l :: ls) ↔ P s l ∧ All next P t ls := by
  refine and_congr_right fun _ => ⟨fun hall => hall t h, fun hall s' hs' => ?_⟩
  rw [Option.mem_def, h] at hs'
  exact Option.some.inj hs' ▸ hall

/-- A run whose steps all meet the condition, each in its own state, is a restricted
run. -/
theorem restrict_of_all (hnext : ∀ {s l s'}, next s l = some s' → T.step s l s') {s s' : σ} {ls : List ι}
    (h : exec next s ls = some s') (hall : All next P s ls) : (T.restrict P).Steps s ls s' := by
  induction ls generalizing s with
  | nil =>
      cases h
      exact .nil
  | cons l ls ih =>
      obtain ⟨t, ht, hrest⟩ := exec_cons h
      exact .cons ⟨hall.1, hnext ht⟩ (ih hrest (hall.2 t ht))

section Invariants

/- The invariant may say something of the steps still to come. -/
variable {I : σ → List ι → Prop}

/-- What holds in every state with the invariant holds at every step. -/
theorem all_of_inv (hstep : ∀ s l ls s', I s (l :: ls) → next s l = some s' → I s' ls)
    (hP : ∀ s l ls, I s (l :: ls) → P s l) {s : σ} {ls : List ι} (hs : I s ls) : All next P s ls := by
  induction ls generalizing s with
  | nil => trivial
  | cons l ls ih => exact ⟨hP s l ls hs, fun s' hs' => ih (hstep s l ls s' hs hs')⟩

/-- Two conditions on a step that say the same in every state with the invariant. -/
theorem all_iff_of_inv (hstep : ∀ s l ls s', I s (l :: ls) → next s l = some s' → I s' ls)
    (hPQ : ∀ s l ls, I s (l :: ls) → (P s l ↔ Q s l)) {s : σ} {ls : List ι} (hs : I s ls) :
    All next P s ls ↔ All next Q s ls := by
  induction ls generalizing s with
  | nil => exact Iff.rfl
  | cons l ls ih =>
      exact and_congr (hPQ s l ls hs) (forall₂_congr fun s' hs' => ih (hstep s l ls s' hs hs'))

/-- The invariant at the end of a run. -/
theorem inv_of_exec (hstep : ∀ s l ls s', I s (l :: ls) → next s l = some s' → I s' ls) {s s' : σ}
    {ls : List ι} (hs : I s ls) (h : exec next s ls = some s') : I s' [] := by
  induction ls generalizing s with
  | nil => exact Option.some.inj h ▸ hs
  | cons l ls ih =>
      obtain ⟨t, ht, hrest⟩ := exec_cons h
      exact ih (hstep s l ls t hs ht) hrest

end Invariants

end All

end TSys

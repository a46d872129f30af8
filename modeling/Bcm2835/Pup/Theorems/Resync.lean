import Bcm2835.Pup.RoundTrip

/-!
# Resynchronisation

Behind `SOH` every loop of `fsm_recv` has cleared `TIMER_SYMBOL` when it took its last byte
(`Armed`), and polls the timer while no byte is there. A gap longer than the timer's period
therefore ends the frame under way, whatever the loop, and the next frame is received from
its `SOH` on.
-/

namespace Bcm2835.Pup

/-! ## The symbol timer -/

/-- Inside a frame the symbol timer runs, from a time that was read in one of the polls before. -/
structure Armed (period : UInt64) (before : List Poll) (s : RecvSt) : Prop where
  period_eq : (s.fsm.timers .symbol).period = period
  runs : s.pc ≠ .waitForSoh → (s.fsm.timers .symbol).active = true ∧
    ∃ p ∈ before, ∃ k < 3, (s.fsm.timers .symbol).last = p.time k

variable {period : UInt64} {before : List Poll} {s : RecvSt} {p : Poll}

theorem Fsm.restart_period (fsm : Fsm) (timer t : FsmTimer) (now : UInt64) :
    ((fsm.restart timer now).timers t).period = (fsm.timers t).period := by
  show (Function.update fsm.timers timer { fsm.timers timer with last := now } t).period = _
  by_cases h : t = timer
  · rw [h, Function.update_self]
  · rw [Function.update_of_ne h]

theorem fsm_timer_clear_symbol (fsm : Fsm) (now : UInt64) :
    (fsm_timer_clear fsm .symbol now).timers .symbol =
      { fsm.timers .symbol with last := now, active := true } := by
  show Function.update fsm.timers .symbol { fsm.timers .symbol with last := now, active := true } .symbol = _
  rw [Function.update_self]

/-- Back in the scan, with the timers' periods as they were. -/
theorem Armed.scanning (hperiod : (s.fsm.timers .symbol).period = period) (hpc : s.pc = .waitForSoh) :
    Armed period before s := ⟨hperiod, fun h => absurd hpc h⟩

/-- A loop that is entered clears the timer; the scan leaves it alone. -/
theorem recvGot_fsm (s : RecvSt) (now : UInt64) (c : UInt8) :
    ((recvGot s now c).st.pc = .waitForSoh ∧ (recvGot s now c).st.fsm = s.fsm) ∨
      (recvGot s now c).st.fsm = fsm_timer_clear s.fsm .symbol now := by
  unfold recvGot
  cases hpc : s.pc with
  | waitForSoh =>
      by_cases hc : c = ASC_SOH
      · exact .inr (by simp only [hc, if_true]; rfl)
      · exact .inl ⟨by simp only [hc, if_false]; exact hpc, by simp only [hc, if_false]⟩
  | hdr i =>
      simp only
      split
      · exact .inr rfl
      · split
        · exact .inr rfl
        · exact .inl ⟨rfl, rfl⟩
  | stx | etx =>
      simp only
      split
      · exact .inr rfl
      · exact .inl ⟨rfl, rfl⟩
  | body off size =>
      simp only
      split <;> exact .inr rfl
  | eot =>
      simp only
      split <;> exact .inl ⟨rfl, rfl⟩

/-- A byte is handed over with a time the poll has read. -/
theorem recvStep_took {c : UInt8} (hrx : p.rx = some c) (hfired : (recvStep s p).fired = none) :
    ∃ k < 3, (recvStep s p).st = (recvGot s (p.time k) c).st := by
  unfold recvStep pollTurn at hfired ⊢
  by_cases hpc : s.pc = .waitForSoh
  · rw [if_pos (decide_eq_true hpc)] at hfired ⊢
    by_cases h0 : s.fsm.ticks .reset (p.time 0) = true
    · rw [if_pos h0] at hfired
      cases hfired
    · rw [if_neg h0] at hfired ⊢
      by_cases h1 : s.fsm.ticks .resend (p.time 1) = true
      · rw [if_pos h1] at hfired
        cases hfired
      · rw [if_neg h1, hrx]
        exact ⟨2, by decide, rfl⟩
  · rw [if_neg (by simpa using hpc), hrx]
    exact ⟨0, by decide, rfl⟩

/-- A turn in which a timer fires ends in the scan. -/
theorem Armed.fired (h : Armed period before s) {timer : FsmTimer} {now : UInt64} :
    Armed period before (FiredTurn s.fsm (RecvSt.call · s.framebuf) timer now).st :=
  .scanning (by rw [← h.period_eq]; exact Fsm.restart_period ..) rfl

/-- **Step lemma.** -/
theorem Armed.step (h : Armed period before s) (p : Poll) :
    Armed period (before ++ [p]) (recvStep s p).st := by
  have hmono : ∀ {t : RecvSt}, Armed period before t → Armed period (before ++ [p]) t := by
    intro t ht
    refine ⟨ht.period_eq, fun hpc => ?_⟩
    obtain ⟨hactive, q, hq, hread⟩ := ht.runs hpc
    exact ⟨hactive, q, List.mem_append_left _ hq, hread⟩
  obtain ⟨timer, now, -, -, heq⟩ | ⟨-, heq⟩ | ⟨c, now, hrx, heq⟩ := recvStep_cases s p
  · rw [heq]
    exact hmono h.fired
  · rw [heq]
    exact hmono h
  · have hfired : (recvStep s p).fired = none := by
      rw [heq]
      unfold recvGot
      cases s.pc with
      | eot =>
          simp only
          split <;> rfl
      | _ => rfl
    obtain ⟨k, hk, hst⟩ := recvStep_took hrx hfired
    rw [hst]
    rcases recvGot_fsm s (p.time k) c with ⟨hpc, hfsm⟩ | hfsm
    · exact .scanning (by rw [hfsm, h.period_eq]) hpc
    · constructor
      · rw [hfsm, fsm_timer_clear_symbol]
        exact h.period_eq
      · intro _
        rw [hfsm, fsm_timer_clear_symbol]
        exact ⟨rfl, p, List.mem_append_right _ (List.mem_singleton_self p), k, hk, rfl⟩

/-- **Run lemma.** -/
theorem Armed.run : ∀ (ps : List Poll) {before : List Poll} {s : RecvSt}, Armed period before s →
    (runCall recvStep s ps).ret = none → Armed period (before ++ ps) (runCall recvStep s ps).st := by
  intro ps
  induction ps with
  | nil =>
      intro before s h _
      rw [List.append_nil]
      exact h
  | cons p ps ih =>
      intro before s h hret
      cases hr : (recvStep s p).ret with
      | some r =>
          rw [runCall_cons_some ps hr] at hret
          cases hret
      | none =>
          rw [runCall_cons_none ps hr] at hret ⊢
          have hnext := ih (h.step p) hret
          rwa [List.append_assoc] at hnext

/-! ## A gap -/

/-- A turn without a byte: only a timer can change anything. -/
theorem recvStep_idle (hrx : p.rx = none) :
    (∃ timer now, recvStep s p = FiredTurn s.fsm (RecvSt.call · s.framebuf) timer now) ∨
      recvStep s p = { st := s } := by
  obtain ⟨timer, now, -, -, heq⟩ | ⟨-, heq⟩ | ⟨c, now, hsome, -⟩ := recvStep_cases s p
  · exact .inl ⟨timer, now, heq⟩
  · exact .inr heq
  · rw [hrx] at hsome
    cases hsome

/-- Inside a frame a turn without a byte ends in the scan once the period is over. -/
theorem Armed.timeout (h : Armed period before s) (hrx : p.rx = none)
    (hlate : ∀ q ∈ before, ∀ k < 3, (q.time k).toNat + period.toNat ≤ (p.time 0).toNat) :
    (recvStep s p).st.pc = .waitForSoh := by
  unfold recvStep pollTurn
  by_cases hpc : s.pc = .waitForSoh
  · rw [if_pos (decide_eq_true hpc)]
    split
    · rfl
    · split
      · rfl
      · rw [hrx]
        exact hpc
  · obtain ⟨hactive, q, hq, k, hk, hlast⟩ := h.runs hpc
    have hsum := hlate q hq k hk
    have hlt := (p.time 0).toNat_lt
    have htick : s.fsm.ticks .symbol (p.time 0) = true := by
      unfold Fsm.ticks timer_triggered
      rw [hactive, hlast, h.period_eq, Bool.true_and, decide_eq_true_iff, UInt64.le_iff_toNat_le,
        UInt64.toNat_add, Nat.mod_eq_of_lt (Nat.lt_of_le_of_lt hsum hlt)]
      exact hsum
    rw [if_neg (by simpa using hpc), hrx]
    show (if s.fsm.ticks .symbol (p.time 0) = true then _ else _ : Turn RecvSt).st.pc = _
    rw [if_pos htick]
    rfl

/-- The turns of a gap in which neither `TIMER_RESET` nor `TIMER_RESEND` fires go on, and stay in the
scan once they are there. -/
theorem gap_cons {gap : List Poll} (hrx : p.rx = none)
    (hfired : ∀ t ∈ (runCall recvStep s (p :: gap)).fired, t = .symbol) :
    (recvStep s p).ret = none ∧ (∀ t ∈ (runCall recvStep (recvStep s p).st gap).fired, t = .symbol) ∧
      (s.pc = .waitForSoh → (recvStep s p).st.pc = .waitForSoh) ∧
      ∀ {period : UInt64} {before : List Poll}, Armed period before s →
        Armed period before (recvStep s p).st := by
  rcases recvStep_idle (s := s) hrx with ⟨timer, now, heq⟩ | heq
  · have htimer : timer = .symbol := by
      cases hr : (recvStep s p).ret with
      | none =>
          rw [heq] at hr
          cases timer with
          | symbol => rfl
          | reset | resend => cases hr
      | some r =>
          rw [runCall_cons_some gap hr, heq] at hfired
          exact hfired timer (by simp [FiredTurn])
    have hret : (recvStep s p).ret = none := by
      rw [heq, htimer]
      rfl
    rw [runCall_cons_none gap hret] at hfired
    refine ⟨hret, fun t ht => hfired t (List.mem_append_right _ ht), ?_, ?_⟩
    · intro _
      rw [heq]
      rfl
    · intro period before h
      rw [heq]
      exact h.fired
  · have hret : (recvStep s p).ret = none := by rw [heq]
    rw [runCall_cons_none gap hret] at hfired
    refine ⟨hret, fun t ht => hfired t (List.mem_append_right _ ht), ?_, ?_⟩
    · intro hpc
      rw [heq]
      exact hpc
    · intro period before h
      rw [heq]
      exact h

/-- A gap does not leave the scan. -/
theorem gap_scanning : ∀ {gap : List Poll} {s : RecvSt}, (∀ p ∈ gap, p.rx = none) →
    (∀ t ∈ (runCall recvStep s gap).fired, t = .symbol) → s.pc = .waitForSoh →
    (runCall recvStep s gap).ret = none ∧ (runCall recvStep s gap).st.pc = .waitForSoh := by
  intro gap
  induction gap with
  | nil => exact fun _ _ hpc => ⟨rfl, hpc⟩
  | cons p gap ih =>
      intro s hrx hfired hpc
      obtain ⟨hret, hrest, hstay, -⟩ := gap_cons (hrx p List.mem_cons_self) hfired
      rw [runCall_cons_none gap hret]
      exact ih (fun q hq => hrx q (List.mem_cons_of_mem _ hq)) hrest (hstay hpc)

/-- A gap longer than the period of the symbol timer ends in the scan. -/
theorem Armed.gap : ∀ {gap : List Poll} {s : RecvSt}, Armed period before s → (∀ p ∈ gap, p.rx = none) →
    (∀ t ∈ (runCall recvStep s gap).fired, t = .symbol) →
    (∃ q ∈ gap, ∀ p ∈ before, ∀ k < 3, (p.time k).toNat + period.toNat ≤ (q.time 0).toNat) →
    (runCall recvStep s gap).ret = none ∧ (runCall recvStep s gap).st.pc = .waitForSoh := by
  intro gap
  induction gap with
  | nil =>
      rintro s - - - ⟨q, hq, -⟩
      exact absurd hq List.not_mem_nil
  | cons p gap ih =>
      rintro s h hrx hfired ⟨q, hq, hlate⟩
      obtain ⟨hret, hrest, -, harmed⟩ := gap_cons (hrx p List.mem_cons_self) hfired
      have hrx' : ∀ p ∈ gap, p.rx = none := fun q hq => hrx q (List.mem_cons_of_mem _ hq)
      rw [runCall_cons_none gap hret]
      rcases List.mem_cons.mp hq with rfl | hq
      · exact gap_scanning hrx' hrest (h.timeout (hrx q List.mem_cons_self) hlate)
      · exact ih (harmed h) hrx' hrest ⟨q, hq, hlate⟩

/-! ## The next frame -/

theorem runCall_append {σ : Type} {step : σ → Poll → Turn σ} (qs : List Poll) :
    ∀ (ps : List Poll) {s : σ}, (runCall step s ps).ret = none →
      (runCall step s (ps ++ qs)).ret = (runCall step (runCall step s ps).st qs).ret ∧
        (runCall step s (ps ++ qs)).st = (runCall step (runCall step s ps).st qs).st := by
  intro ps
  induction ps with
  | nil => exact fun _ => ⟨rfl, rfl⟩
  | cons p ps ih =>
      intro s hret
      cases hr : (step s p).ret with
      | some r =>
          rw [runCall_cons_some ps hr] at hret
          cases hret
      | none =>
          rw [runCall_cons_none ps hr] at hret ⊢
          rw [List.cons_append, runCall_cons_none (ps ++ qs) hr]
          exact ih hret

/-- The first of successive calls is the call. -/
theorem runCall_of_recvCalls (later : List Poll) : ∀ (ps : List Poll) {s : RecvSt} {r : FsmStatus}
    {f : Frame} {l : List (FsmStatus × Frame)}, recvCalls s ps = (r, f) :: l →
      (runCall recvStep s (ps ++ later)).ret = some r ∧
        (runCall recvStep s (ps ++ later)).st.framebuf.frame = f := by
  intro ps
  induction ps with
  | nil => exact fun h => absurd h (List.cons_ne_nil _ _).symm
  | cons p ps ih =>
      intro s r f l h
      unfold recvCalls at h
      cases hr : (recvStep s p).ret with
      | some r' =>
          rw [List.cons_append, runCall_cons_some _ hr]
          simp only [hr, Option.toList_some, List.map_cons, List.map_nil, List.singleton_append,
            List.cons.injEq, Prod.mk.injEq] at h
          exact ⟨congrArg some h.1.1, h.1.2⟩
      | none =>
          rw [List.cons_append, runCall_cons_none _ hr]
          simp only [hr, Option.toList_none, List.map_nil, List.nil_append] at h
          exact ih h

/-- Whatever bytes a call has taken without returning, and wherever they left it: behind a gap that is
longer than the period of the symbol timer, it returns the frame whose bytes come next. -/
theorem fsm_recv_resyncs (fsm : Fsm) (framebuf : Mframe) {noise gap frame : List Poll} (later : List Poll)
    (f : Frame) (hnoise : (fsm_recv fsm framebuf noise).ret = none) (hgap : ∀ p ∈ gap, p.rx = none)
    (hlong : ∃ q ∈ gap, ∀ p ∈ noise, ∀ k < 3,
      (p.time k).toNat + (fsm.timers .symbol).period.toNat ≤ (q.time 0).toNat)
    (hfired : ∀ t ∈ (runCall recvStep (fsm_recv fsm framebuf noise).st gap).fired, t = .symbol)
    (hframe : frame.filterMap (·.rx) = fsm_send f)
    (hquiet : recvFired (fsm_recv fsm framebuf (noise ++ gap)).st frame = []) :
    (fsm_recv fsm framebuf (noise ++ gap ++ frame ++ later)).ret = some .ok ∧
      (fsm_recv fsm framebuf (noise ++ gap ++ frame ++ later)).st.framebuf.frame = f := by
  have hstart : Armed (fsm.timers .symbol).period [] (.call fsm framebuf) := .scanning rfl rfl
  have harmed : Armed (fsm.timers .symbol).period noise (fsm_recv fsm framebuf noise).st :=
    hstart.run noise hnoise
  obtain ⟨hgapRet, hscan⟩ := harmed.gap hgap hfired hlong
  obtain ⟨hret, hst⟩ := runCall_append gap noise hnoise
  have hbothRet : (fsm_recv fsm framebuf (noise ++ gap)).ret = none := hret.trans hgapRet
  have hbothScan : (fsm_recv fsm framebuf (noise ++ gap)).st.pc = .waitForSoh :=
    (congrArg RecvSt.pc hst).trans hscan
  -- while no timer fires the bytes of the frame are all that counts
  have hcalls := recvCalls_of_quiet ⟨rfl, rfl⟩ hquiet
  obtain ⟨s', -, hbytes⟩ := recvBytes_send hbothScan f []
  rw [List.append_nil] at hbytes
  rw [hframe, hbytes, List.map_cons] at hcalls
  obtain ⟨hok, hf⟩ := runCall_of_recvCalls later frame hcalls
  obtain ⟨hret', hst'⟩ := runCall_append (frame ++ later) (noise ++ gap) hbothRet
  rw [List.append_assoc]
  exact ⟨hret'.trans hok, (congrArg (·.framebuf.frame) hst').trans hf⟩

/-- The bytes of a frame, all at one time. -/
def pollsAt (now : UInt64) (bs : List UInt8) : List Poll := bs.map fun c => ⟨fun _ => now, some c⟩

/-- A symbol timer of ten microseconds. -/
def symbolFsm : Fsm := ⟨fun t => ⟨0, if t = .symbol then 10 else 0, false⟩, 0⟩

/-- A header that claims a long body, a gap, and a heartbeat. -/
theorem fsm_recv_resyncs_heartbeat :
    (fsm_recv symbolFsm ⟨fun _ => 0, fun _ => 0⟩
        (pollsAt 1 (ASC_SOH :: [0xff, 0xff, 0xff]) ++ [⟨fun _ => 11, none⟩] ++
          pollsAt 12 (fsm_send ⟨7, DEV_BEAT, [], by decide⟩) ++ [])).ret = some .ok ∧
      (fsm_recv symbolFsm ⟨fun _ => 0, fun _ => 0⟩
        (pollsAt 1 (ASC_SOH :: [0xff, 0xff, 0xff]) ++ [⟨fun _ => 11, none⟩] ++
          pollsAt 12 (fsm_send ⟨7, DEV_BEAT, [], by decide⟩) ++ [])).st.framebuf.frame =
        ⟨7, DEV_BEAT, [], by decide⟩ :=
  fsm_recv_resyncs symbolFsm ⟨fun _ => 0, fun _ => 0⟩ [] ⟨7, DEV_BEAT, [], by decide⟩ (by decide +kernel)
    (by decide) ⟨⟨fun _ => 11, none⟩, List.mem_singleton_self _, by
      intro p hp k _
      obtain ⟨c, -, rfl⟩ := List.mem_map.mp hp
      show (1 : UInt64).toNat + (10 : UInt64).toNat ≤ (11 : UInt64).toNat
      decide⟩
    (by decide +kernel) (by simp [pollsAt, List.filterMap_map]) (by decide +kernel)

end Bcm2835.Pup

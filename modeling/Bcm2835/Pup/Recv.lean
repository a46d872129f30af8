import Bcm2835.Pup.Wire

/-!
# The receivers (`fsm_recv`, `fsm_recv_ack`)

Both receivers are polling loops. Control is followed from one turn of a loop
to the next: a turn asks the platform for the time, for whether a byte is
there, and for the byte, and the answers it gets are a `Poll`. `recvStep` and
`ackStep` run one turn; `fsm_recv` and `fsm_recv_ack` run a call over the
polls it lives through.
-/

namespace Bcm2835.Pup

/-! ## Timers -/

inductive FsmTimer
  | reset
  | resend
  | symbol
deriving DecidableEq

/-- `timer_t`. -/
structure Timer where
  last : UInt64
  period : UInt64
  active : Bool
deriving DecidableEq

/-- `fsm_t`. -/
structure Fsm where
  timers : FsmTimer → Timer
  iden : UInt16

inductive FsmStatus
  | ok
  | reset
  | resend
deriving DecidableEq

def timer_triggered (t : Timer) (now : UInt64) : Bool :=
  t.active && decide (t.last + t.period ≤ now)

/-- Whether `fsm_timer_tick(timer, now)` returns 1. -/
def Fsm.ticks (fsm : Fsm) (timer : FsmTimer) (now : UInt64) : Bool :=
  timer_triggered (fsm.timers timer) now

/-- `fsm.timers[timer].last = now`, the effect of a tick that returns 1. -/
def Fsm.restart (fsm : Fsm) (timer : FsmTimer) (now : UInt64) : Fsm :=
  { fsm with timers := Function.update fsm.timers timer { fsm.timers timer with last := now } }

/-- `fsm_timer_clear(timer, now)`. -/
def fsm_timer_clear (fsm : Fsm) (timer : FsmTimer) (now : UInt64) : Fsm :=
  { fsm with
    timers := Function.update fsm.timers timer
      { fsm.timers timer with last := now, active := true } }

/-- `fsm.timers[timer].active = false`. -/
def Fsm.disarm (fsm : Fsm) (timer : FsmTimer) : Fsm :=
  { fsm with timers := Function.update fsm.timers timer { fsm.timers timer with active := false } }

@[simp] theorem Fsm.restart_iden (fsm : Fsm) (t : FsmTimer) (now : UInt64) :
    (fsm.restart t now).iden = fsm.iden := rfl

@[simp] theorem fsm_timer_clear_iden (fsm : Fsm) (t : FsmTimer) (now : UInt64) :
    (fsm_timer_clear fsm t now).iden = fsm.iden := rfl

@[simp] theorem Fsm.disarm_iden (fsm : Fsm) (t : FsmTimer) : (fsm.disarm t).iden = fsm.iden := rfl

/-! ## One turn of a loop -/

/-- What the platform answers between one turn and the next: the successive
results of `platform_time()`, and whether `platform_can_read()` and with which
byte `platform_read()` answers. -/
structure Poll where
  time : Nat → UInt64
  rx : Option UInt8

/-- One poll per byte, with the clock at zero. -/
def pollsOf (bs : List UInt8) : List Poll := bs.map fun c => ⟨fun _ => 0, some c⟩

/-- Cells of `mframe_t` a turn stores to. -/
inductive Cell
  | raw_hdr (i : Nat)
  | raw_body (i : Nat)
deriving DecidableEq

/-- The cell exists. -/
def Cell.InBounds : Cell → Prop
  | .raw_hdr i => i < 10
  | .raw_body i => i < 65538

instance : DecidablePred Cell.InBounds := fun c => by
  cases c <;> exact inferInstanceAs (Decidable (_ < _))

/-- What one turn does: the state it leaves, the status the call returns with
if it returns, the byte it takes from the UART, the timer whose tick it sees
and the buffer cell it writes. -/
structure Turn (σ : Type) where
  st : σ
  ret : Option FsmStatus := none
  took : Option UInt8 := none
  fired : Option FsmTimer := none
  stored : Option Cell := none

/-- The polling both receivers do. A loop that scans for the first symbol
(`wait_for_soh`, `wait_for_ack`) ticks `TIMER_RESET` and `TIMER_RESEND` and
returns if one fires; a loop inside a frame ticks `TIMER_SYMBOL` while no byte
is there, and goes back to the scan if it fires. A byte is handed to `got`, with
the time its `fsm_timer_clear` will read. `scan fsm` is the scanning state. -/
def pollTurn {σ : Type} (scanning : Bool) (s : σ) (fsm : Fsm) (scan : Fsm → σ)
    (got : UInt64 → UInt8 → Turn σ) (p : Poll) : Turn σ :=
  if scanning then
    if fsm.ticks .reset (p.time 0) then
      { st := scan (fsm.restart .reset (p.time 0)), ret := some .reset, fired := some .reset }
    else if fsm.ticks .resend (p.time 1) then
      { st := scan (fsm.restart .resend (p.time 1)), ret := some .resend, fired := some .resend }
    else
      match p.rx with
      | none => { st := s }
      | some c => { got (p.time 2) c with took := some c }
  else
    match p.rx with
    | none =>
        if fsm.ticks .symbol (p.time 0) then
          { st := scan (fsm.restart .symbol (p.time 0)), fired := some .symbol }
        else { st := s }
    | some c => { got (p.time 0) c with took := some c }

/-! ### `fsm_recv` -/

/-- The loops of `fsm_recv`. `body off size` has `off` bytes of the body and
its FCS, out of `size = body_size`. -/
inductive RecvPc
  | waitForSoh
  | hdr (i : Nat)
  | stx
  | body (off size : Nat)
  | etx
  | eot
deriving DecidableEq

/-- The state of a call of `fsm_recv(&framebuf)`. -/
structure RecvSt where
  pc : RecvPc
  fsm : Fsm
  framebuf : Mframe

/-- The first state of a call. -/
def RecvSt.call (fsm : Fsm) (framebuf : Mframe) : RecvSt := ⟨.waitForSoh, fsm, framebuf⟩

/-- `goto wait_for_soh`. -/
def RecvSt.restart (s : RecvSt) : RecvSt := { s with pc := .waitForSoh }

/-- Enters a loop that waits for one symbol, clearing `TIMER_SYMBOL`. -/
def RecvSt.await (s : RecvSt) (pc : RecvPc) (now : UInt64) : RecvSt :=
  { s with pc := pc, fsm := fsm_timer_clear s.fsm .symbol now }

/-- `frame->raw_hdr[i] = c`. -/
def RecvSt.putHdr (s : RecvSt) (i : Nat) (c : UInt8) : RecvSt :=
  { s with framebuf.raw_hdr := Function.update s.framebuf.raw_hdr i c }

/-- `frame->raw_body[i] = c`. -/
def RecvSt.putBody (s : RecvSt) (i : Nat) (c : UInt8) : RecvSt :=
  { s with framebuf.raw_body := Function.update s.framebuf.raw_body i c }

/-- What a loop of `fsm_recv` does with a byte. -/
def recvGot (s : RecvSt) (now : UInt64) (c : UInt8) : Turn RecvSt :=
  match s.pc with
  | .waitForSoh =>
      -- any other byte is passed through to the console
      { st := if c = ASC_SOH then s.await (.hdr 0) now else s }
  | .hdr i =>
      let s := s.putHdr i c
      { st :=
          if i + 1 < 10 then s.await (.hdr (i + 1)) now
          else if fcs16 FCS_INIT (Buf.taken s.framebuf.raw_hdr 10) = FCS_OK then s.await .stx now
          else s.restart
        stored := some (.raw_hdr i) }
  | .stx =>
      { st := if c = ASC_STX then s.await (.body 0 (2 + s.framebuf.plen.toNat)) now else s.restart }
  | .body off size =>
      let s := s.putBody off c
      { st := if off + 1 < size then s.await (.body (off + 1) size) now else s.await .etx now
        stored := some (.raw_body off) }
  | .etx => { st := if c = ASC_ETX then s.await .eot now else s.restart }
  | .eot =>
      if c = ASC_EOT ∧
          fcs16 FCS_INIT (Buf.taken s.framebuf.raw_body (2 + s.framebuf.plen.toNat)) = FCS_OK then
        { st := s.restart, ret := some .ok }
      else { st := s.restart }

/-- One turn of a loop of `fsm_recv`. -/
def recvStep (s : RecvSt) (p : Poll) : Turn RecvSt :=
  pollTurn (s.pc = .waitForSoh) s s.fsm (RecvSt.call · s.framebuf) (recvGot s) p

/-! ### `fsm_recv_ack` -/

/-- The loops of `fsm_recv_ack`. -/
inductive AckPc
  | waitForAck
  | frame (i : Nat)
  | eot
deriving DecidableEq

/-- The state of a call of `fsm_recv_ack`; `raw_frame` is the local buffer. -/
structure AckSt where
  pc : AckPc
  fsm : Fsm
  raw_frame : Nat → UInt8

/-- The first state of a call. The buffer starts out with whatever the stack holds. -/
def AckSt.call (fsm : Fsm) (raw_frame : Nat → UInt8) : AckSt := ⟨.waitForAck, fsm, raw_frame⟩

/-- `goto wait_for_ack`. -/
def AckSt.restart (s : AckSt) : AckSt := { s with pc := .waitForAck }

/-- Enters a loop that waits for one symbol, clearing `TIMER_SYMBOL`. -/
def AckSt.await (s : AckSt) (pc : AckPc) (now : UInt64) : AckSt :=
  { s with pc := pc, fsm := fsm_timer_clear s.fsm .symbol now }

/-- `ack.iden`. -/
def AckSt.iden (s : AckSt) : UInt16 := get16 (s.raw_frame 0) (s.raw_frame 1)

/-- The two tests behind the last symbol of `fsm_recv_ack(iden)`. -/
def AckSt.Accepts (s : AckSt) (iden : UInt16) : Prop :=
  fcs16 FCS_INIT (Buf.taken s.raw_frame 4) = FCS_OK ∧ s.iden = iden

instance (s : AckSt) (iden : UInt16) : Decidable (s.Accepts iden) :=
  inferInstanceAs (Decidable (_ ∧ _))

/-- What a loop of `fsm_recv_ack(iden)` does with a byte. -/
def ackGot (iden : UInt16) (s : AckSt) (now : UInt64) (c : UInt8) : Turn AckSt :=
  match s.pc with
  | .waitForAck => { st := if c = ASC_ACK then s.await (.frame 0) now else s }
  | .frame i =>
      let s := { s with raw_frame := Function.update s.raw_frame i c }
      { st := if i + 1 < 4 then s.await (.frame (i + 1)) now else s.await .eot now }
  | .eot =>
      if c = ASC_EOT ∧ s.Accepts iden then { st := s.restart, ret := some .ok }
      else { st := s.restart }

/-- One turn of a loop of `fsm_recv_ack(iden)`. -/
def ackStep (iden : UInt16) (s : AckSt) (p : Poll) : Turn AckSt :=
  pollTurn (s.pc = .waitForAck) s s.fsm (AckSt.call · s.raw_frame) (ackGot iden s) p

/-! ### What a turn can do -/

section Turns

variable {σ : Type} {scanning : Bool} {s : σ} {fsm : Fsm} {scan : Fsm → σ}
  {got : UInt64 → UInt8 → Turn σ} {p : Poll}

/-- The effect of a timer that fires: the next state scans, and the call
returns exactly when the timer is not `TIMER_SYMBOL`. -/
def FiredTurn (fsm : Fsm) (scan : Fsm → σ) (timer : FsmTimer) (now : UInt64) : Turn σ where
  st := scan (fsm.restart timer now)
  ret := match timer with
    | .reset => some .reset
    | .resend => some .resend
    | .symbol => none
  fired := some timer

/-- A turn sees a timer fire, or finds nothing to do, or hands a byte over. -/
theorem pollTurn_cases :
    (∃ timer now, fsm.ticks timer now = true ∧ (scanning = true ↔ timer ≠ .symbol) ∧
      pollTurn scanning s fsm scan got p = FiredTurn fsm scan timer now) ∨
    (p.rx = none ∧ pollTurn scanning s fsm scan got p = { st := s }) ∨
    (∃ c now, p.rx = some c ∧
      pollTurn scanning s fsm scan got p = { got now c with took := some c }) := by
  unfold pollTurn
  cases scanning with
  | true =>
      by_cases h0 : fsm.ticks .reset (p.time 0) = true
      · exact .inl ⟨.reset, p.time 0, h0, by simp, by simp [h0, FiredTurn]⟩
      by_cases h1 : fsm.ticks .resend (p.time 1) = true
      · exact .inl ⟨.resend, p.time 1, h1, by simp, by simp [h0, h1, FiredTurn]⟩
      cases hrx : p.rx with
      | none => exact .inr (.inl ⟨rfl, by simp [h0, h1]⟩)
      | some c => exact .inr (.inr ⟨c, p.time 2, rfl, by simp [h0, h1]⟩)
  | false =>
      cases hrx : p.rx with
      | none =>
          by_cases h0 : fsm.ticks .symbol (p.time 0) = true
          · exact .inl ⟨.symbol, p.time 0, h0, by simp, by simp [h0, FiredTurn]⟩
          · exact .inr (.inl ⟨rfl, by simp [h0]⟩)
      | some c => exact .inr (.inr ⟨c, p.time 0, rfl, by simp⟩)

end Turns

theorem recvStep_cases (s : RecvSt) (p : Poll) :
    (∃ timer now, s.fsm.ticks timer now = true ∧ (s.pc = .waitForSoh ↔ timer ≠ .symbol) ∧
      recvStep s p = FiredTurn s.fsm (RecvSt.call · s.framebuf) timer now) ∨
    (p.rx = none ∧ recvStep s p = { st := s }) ∨
    (∃ c now, p.rx = some c ∧ recvStep s p = { recvGot s now c with took := some c }) := by
  simpa only [recvStep, decide_eq_true_eq] using
    @pollTurn_cases _ (decide (s.pc = .waitForSoh))

theorem ackStep_cases (iden : UInt16) (s : AckSt) (p : Poll) :
    (∃ timer now, s.fsm.ticks timer now = true ∧ (s.pc = .waitForAck ↔ timer ≠ .symbol) ∧
      ackStep iden s p = FiredTurn s.fsm (AckSt.call · s.raw_frame) timer now) ∨
    (p.rx = none ∧ ackStep iden s p = { st := s }) ∨
    (∃ c now, p.rx = some c ∧ ackStep iden s p = { ackGot iden s now c with took := some c }) := by
  simpa only [ackStep, decide_eq_true_eq] using
    @pollTurn_cases _ (decide (s.pc = .waitForAck))

/-! ## Whole calls -/

/-- A call that has run over some polls: its state, its result if it has
returned, the bytes it took, the timers it saw fire, the cells it wrote and
the polls that are left for later. -/
structure Call (σ : Type) where
  st : σ
  ret : Option FsmStatus
  consumed : List UInt8
  fired : List FsmTimer
  stored : List Cell
  rest : List Poll

/-- Runs turns until one returns or the polls run out. -/
def runCall {σ : Type} (step : σ → Poll → Turn σ) (s : σ) : List Poll → Call σ
  | [] => ⟨s, none, [], [], [], []⟩
  | p :: ps =>
      let t := step s p
      match t.ret with
      | some r => ⟨t.st, some r, t.took.toList, t.fired.toList, t.stored.toList, ps⟩
      | none =>
          let c := runCall step t.st ps
          { c with
            consumed := t.took.toList ++ c.consumed
            fired := t.fired.toList ++ c.fired
            stored := t.stored.toList ++ c.stored }

/-- `fsm_recv(&framebuf)` over the polls it gets. -/
def fsm_recv (fsm : Fsm) (framebuf : Mframe) (ps : List Poll) : Call RecvSt :=
  runCall recvStep (.call fsm framebuf) ps

/-- `fsm_recv_ack(iden)` over the polls it gets. -/
def fsm_recv_ack (iden : UInt16) (fsm : Fsm) (raw_frame : Nat → UInt8) (ps : List Poll) :
    Call AckSt :=
  runCall (ackStep iden) (.call fsm raw_frame) ps

/-- Successive calls of `fsm_recv` on one buffer, with what each returns and the
frame it leaves. The state a call returns in is the one the next call starts in. -/
def recvCalls (s : RecvSt) : List Poll → List (FsmStatus × Frame)
  | [] => []
  | p :: ps =>
      let t := recvStep s p
      (t.ret.toList.map fun r => (r, t.st.framebuf.frame)) ++ recvCalls t.st ps

/-- The timers that fire during these calls. -/
def recvFired (s : RecvSt) : List Poll → List FsmTimer
  | [] => []
  | p :: ps => (recvStep s p).fired.toList ++ recvFired (recvStep s p).st ps

theorem runCall_cons_none {σ : Type} {step : σ → Poll → Turn σ} {s : σ} {p : Poll}
    (ps : List Poll) (h : (step s p).ret = none) :
    runCall step s (p :: ps) =
      { runCall step (step s p).st ps with
        consumed := (step s p).took.toList ++ (runCall step (step s p).st ps).consumed
        fired := (step s p).fired.toList ++ (runCall step (step s p).st ps).fired
        stored := (step s p).stored.toList ++ (runCall step (step s p).st ps).stored } := by
  simp only [runCall, h]

theorem runCall_cons_some {σ : Type} {step : σ → Poll → Turn σ} {s : σ} {p : Poll}
    (ps : List Poll) {r : FsmStatus} (h : (step s p).ret = some r) :
    runCall step s (p :: ps) =
      ⟨(step s p).st, some r, (step s p).took.toList, (step s p).fired.toList,
        (step s p).stored.toList, ps⟩ := by
  simp only [runCall, h]

end Bcm2835.Pup

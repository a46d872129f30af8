import Bcm2835.Lib.TSys
import Bcm2835.Pup.Parties

/-!
# The two parties on a lossy line

One device and successive runs of the host exchange whole frames and
acknowledgements over two channels that keep their order and lose what they
like. Any timer that is switched on may fire at any moment. A run of the host
may be killed at any moment: the next one opens the port, which drops what the
host had not read, and the frames that are still on their way to the device
stay there.

Messages carry ghosts that no step reads: a message to the device the run that
sent it, a message from the device the session in which it was sent.
-/

namespace Bcm2835.Pup

/-! ## Waiting -/

variable {P : Type}

/-- The frame buffer after a message that makes the receiver return. It skips
any other message. -/
def Wait.takes (framebuf : Frame) : Wait → Msg → Option Frame
  | .recv, .frame f => some f
  | .recv_ack iden, .ack iden' => if iden' = iden then some framebuf else none
  | _, _ => none

/-- What a receiver returns when it sees the timer fire in its scanning loop. -/
def FsmTimer.status : FsmTimer → Option FsmStatus
  | .reset => some .reset
  | .resend => some .resend
  | .symbol => none

/-! ## The system -/

/-- A session of the device: the run of the host whose `POLL` frame opened it,
the meta the board accepted then, and what `platform_load_image` has returned. -/
structure Session where
  opener : Nat
  meta_ : Option Meta
  verdict : Option Bool
deriving DecidableEq

/-- The state of both parties and both channels, oldest message first. The
ghosts: the device's session, the number of the host's run, whether no `POLL`
frame was on its way when that run opened the port, and the session of the
message the host has taken last. -/
structure Line (P : Type) where
  dev : Device P
  session : Session
  host : Host
  run : Nat
  clean : Bool
  heard : Session
  h2d : List (Nat × Msg)
  d2h : List (Session × Msg)

/-- A step. The arguments are what the frame buffer holds if nothing is
received, and the answers of `platform_time`. -/
inductive Move
  | devTakes (framebuf : Frame) (time : Nat → UInt64)
  | devFires (timer : FsmTimer) (framebuf : Frame) (time : Nat → UInt64)
  | hostTakes (framebuf : Frame) (time : Nat → UInt64)
  | hostFires (timer : FsmTimer) (framebuf : Frame) (time : Nat → UInt64)
  | loseToDevice (i : Nat)
  | loseToHost (i : Nat)
  | opens (config : Config) (m : Meta) (file : List UInt8) (retries : UInt8) (time : Nat → UInt64)

/-- The session of a device that was in session `σ` and is now `d'`, having
received a frame of run `origin` if any. -/
def Session.next (σ : Session) (d d' : Device P) (origin : Nat) : Session where
  opener := if d.pc = .init ∧ d'.pc ≠ .init then origin else σ.opener
  meta_ := sessionMeta d'.log
  verdict := sessionVerdict d'.log

/-- `fsm_download` goes on. -/
def Line.devGoes (T : Platform P) (s : Line P) (fsm : Fsm) (origin : Nat) (r : FsmStatus)
    (f : Frame) (time : Nat → UInt64) : Line P :=
  let next := fsm_download T { s.dev with fsm := fsm } r f time
  let session := s.session.next s.dev next.1 origin
  { s with dev := next.1, session := session, d2h := s.d2h ++ next.2.map (session, ·) }

/-- `fsm_upload` goes on. -/
def Line.hostGoes (s : Line P) (fsm : Fsm) (heard : Session) (r : FsmStatus) (f : Frame)
    (time : Nat → UInt64) : Line P :=
  let next := fsm_upload { s.host with fsm := fsm } r f time
  { s with host := next.1, heard := heard, h2d := s.h2d ++ next.2.map (s.run, ·) }

/-- The message is a `POLL` frame. -/
def Msg.IsPoll : Msg → Prop
  | .frame f => f.type = HOST_POLL
  | .ack _ => False

instance : DecidablePred Msg.IsPoll
  | .frame f => inferInstanceAs (Decidable (f.type = HOST_POLL))
  | .ack _ => inferInstanceAs (Decidable False)

/-- The next run opens the port. -/
def Line.opens (s : Line P) (config : Config) (m : Meta) (file : List UInt8) (retries : UInt8)
    (time : Nat → UInt64) : Line P :=
  let start := Host.start config m file retries time
  { s with
    host := start.1, run := s.run + 1, clean := decide (∀ e ∈ s.h2d, ¬e.2.IsPoll)
    h2d := s.h2d ++ start.2.map (s.run + 1, ·), d2h := [] }

/-- The state after a move, if it is possible. -/
def lineNext (T : Platform P) (s : Line P) : Move → Option (Line P)
  | .devTakes framebuf time =>
      match s.h2d with
      | [] => none
      | (origin, msg) :: h2d =>
          let s : Line P := { s with h2d := h2d }
          match s.dev.wait.takes framebuf msg with
          | none => some s
          | some f => some (s.devGoes T s.dev.fsm origin .ok f time)
  | .devFires timer framebuf time =>
      match timer.status with
      | none => none
      | some r =>
          if (s.dev.fsm.timers timer).active = true then
            some (s.devGoes T (s.dev.fsm.restart timer (time 0)) s.session.opener r framebuf time)
          else none
  | .hostTakes framebuf time =>
      match s.d2h with
      | [] => none
      | (heard, msg) :: d2h =>
          let s : Line P := { s with d2h := d2h }
          match s.host.wait.takes framebuf msg with
          | none => some s
          | some f => some (s.hostGoes s.host.fsm heard .ok f time)
  | .hostFires timer framebuf time =>
      match timer.status with
      | none => none
      | some r =>
          if (s.host.fsm.timers timer).active = true then
            some (s.hostGoes (s.host.fsm.restart timer (time 0)) s.heard r framebuf time)
          else none
  | .loseToDevice i => some { s with h2d := s.h2d.eraseIdx i }
  | .loseToHost i => some { s with d2h := s.d2h.eraseIdx i }
  | .opens config m file retries time => some (s.opens config m file retries time)

/-- The line before anything happens: a device that was just switched on, and a
host that was never started. -/
def Line.start (config : Config) (plat : P) : Line P where
  dev := .start config plat
  session := ⟨0, none, none⟩
  host := ⟨.exited, Fsm.zero, .ofBytes [], [], 0, 0⟩
  run := 0
  clean := true
  heard := ⟨0, none, none⟩
  h2d := []
  d2h := []

/-- The system: any device, any sequence of runs. -/
def line (T : Platform P) : TSys (Line P) Move :=
  .ofNext (fun s => ∃ config plat, s = .start config plat) (lineNext T)

end Bcm2835.Pup

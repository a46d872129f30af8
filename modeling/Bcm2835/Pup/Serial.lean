import Bcm2835.Lib.TSys
import Bcm2835.Pup.Parties

/-!
# The two parties on a serial line

One call of `fsm_download` and one of `fsm_upload`, each running turn after
turn of its receive loops, joined by two queues of bytes that are delivered
unaltered and in order. A byte may be on its way for as long as it likes, and
the clocks say what they like. The device also prints: its console is the same
UART.
-/

namespace Bcm2835.Pup

/-- What `printf` puts on the line: text, which has no byte below 7. -/
abbrev Text := {bs : List UInt8 // ∀ b ∈ bs, 7 ≤ b}

/-- What the device puts on the line. -/
inductive Item
  | msg (msg : Msg)
  | text (text : Text)

def Item.bytes : Item → List UInt8
  | .msg m => m.bytes
  | .text t => t.1

/-- The messages of a turn, with what is printed before each and after the last. -/
def withText (text : Nat → Text) : List Msg → List Item
  | [] => [.text (text 0)]
  | msg :: msgs => .text (text 0) :: .msg msg :: withText (fun k => text (k + 1)) msgs

/-- Both parties, the bytes on their way, everything sent so far, and how many
bytes of the host the device had taken when it last came into its `BOOT` loop. -/
structure Serial (P : Type) where
  dev : DevMachine P
  host : Machine Host
  h2d : List UInt8
  d2h : List UInt8
  hostSent : List Msg
  devSent : List Item
  booted : Nat

/-- A turn of one of the parties: whether the next byte has arrived, the answers
of `platform_time`, and what the device prints. -/
inductive Tick
  | dev (arrived : Bool) (time : Nat → UInt64) (text : Nat → Text)
  | host (arrived : Bool) (time : Nat → UInt64)

/-- The queue after a turn. -/
def afterTurn (queue : List UInt8) (took : Option UInt8) : List UInt8 :=
  if took.isSome then queue.tail else queue

/-- The poll of a turn that finds `queue` in front of it. -/
def pollOf (arrived : Bool) (time : Nat → UInt64) (queue : List UInt8) : Poll where
  time := time
  rx := if arrived then queue.head? else none

variable {P : Type}

/-- The device comes into its `BOOT` loop from another one. -/
def EntersBoot (dev dev' : DevMachine P) : Prop := dev.ctl.pc ≠ .boot ∧ dev'.ctl.pc = .boot

instance (dev dev' : DevMachine P) : Decidable (EntersBoot dev dev') :=
  inferInstanceAs (Decidable (_ ∧ _))

/-- The line after a turn. -/
def serialNext (T : Platform P) (s : Serial P) : Tick → Serial P
  | .dev arrived time text =>
      let t := devTurn T s.dev (pollOf arrived time s.h2d)
      let items := withText text t.out
      let h2d := afterTurn s.h2d t.took
      { s with
        dev := t.st, h2d := h2d
        d2h := s.d2h ++ items.flatMap Item.bytes, devSent := s.devSent ++ items
        booted := if EntersBoot s.dev t.st then
            (s.hostSent.flatMap Msg.bytes).length - h2d.length else s.booted }
  | .host arrived time =>
      let t := hostTurn s.host (pollOf arrived time s.d2h)
      { s with
        host := t.st, d2h := afterTurn s.d2h t.took
        h2d := s.h2d ++ t.out.flatMap Msg.bytes, hostSent := s.hostSent ++ t.out }

/-- Both parties have been started. The host has sent its meta if it has a try. -/
structure Serial.Starts (s : Serial P) : Prop where
  dev : ∃ config plat framebuf raw_frame, s.dev = .start config plat framebuf raw_frame
  host : ∃ config m file retries time framebuf raw_frame,
    s.host = .start (Host.start config m file retries time).1 framebuf raw_frame ∧
      s.hostSent = (Host.start config m file retries time).2
  h2d : s.h2d = s.hostSent.flatMap Msg.bytes
  d2h : s.d2h = []
  devSent : s.devSent = []
  booted : s.booted = 0

/-- The system. -/
def serial (T : Platform P) : TSys (Serial P) Tick :=
  .ofNext Serial.Starts fun s tick => some (serialNext T s tick)

end Bcm2835.Pup

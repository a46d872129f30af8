import Bcm2835.Pup.Proto

/-!
# The uploader (`fsm_upload`, `platform_marshal`)

The host side, as a state machine over the results of its blocking calls. It
waits in `fsm_recv_ack(0)` while it polls and in `fsm_recv` afterwards.
-/

namespace Bcm2835.Pup

open Bytes

inductive UploadStatus
  | ok
  | timeout
  | failed
deriving DecidableEq

/-- The calls of `fsm_upload` that wait for the device, and where it can end:
with a status, or in the `exit(1)` of `platform_marshal`. -/
inductive UploadPc
  | poll
  | frames
  | beats
  | returned (status : UploadStatus)
  | exited
deriving DecidableEq

/-- The host: `fsm`, the arguments and locals of `fsm_upload`, and the file
behind `opts.inp_fd`. -/
structure Host where
  pc : UploadPc
  fsm : Fsm
  meta_ : Meta
  file : List UInt8
  retries : UInt16
  last_chunk_no : UInt32

/-- `platform_marshal`: `pread` of up to `0xffff` bytes at `chunk_no * 0xffff`.
Reading nothing exits the host. -/
def platform_marshal (file : List UInt8) (chunk_no : UInt32) : Option Chunk :=
  let data := (file.drop (chunk_no.toNat * 0xffff)).take 0xffff
  if data = [] then none else some ⟨data, List.length_take_le _ _⟩

/-- Sends the meta. -/
def Host.sendPoll (h : Host) (now : UInt64) : Host × List Msg :=
  ({ h with pc := .poll, fsm := fsm_timer_clear h.fsm .resend now },
    [.frame (pollFrame h.fsm.iden h.meta_)])

/-- The label `reset`: one retry less, and poll again. -/
def Host.reset (h : Host) (now now' : UInt64) : Host × List Msg :=
  let left := { h with retries := h.retries - 1 }
  if h.retries = 0 then ({ left with pc := .returned .timeout }, [])
  else
    Host.sendPoll
      { left with fsm := fsm_timer_clear { h.fsm.disarm .resend with iden := 0 } .reset now } now'

/-- `fsm_upload(config, meta, data, retries_, hooks)` up to its first wait. -/
def Host.start (config : Config) (m : Meta) (file : List UInt8) (retries_ : UInt8)
    (time : Nat → UInt64) : Host × List Msg :=
  Host.reset
    { pc := .poll, fsm := Fsm.zero.configure config, meta_ := m, file := file
      retries := retries_.toUInt16 + 1, last_chunk_no := 0 } (time 3) (time 4)

/-- The label `received_boot`. -/
def Host.receivedBoot (h : Host) (f : Frame) : Host × List Msg :=
  ({ h with pc := .returned (if f.payload.getD 0 0 ≠ 0 then .ok else .failed) }, [.ack f.iden])

/-- A chunk request: serves the chunk under the identifier of the request. -/
def Host.serve (h : Host) (f : Frame) (time : Nat → UInt64) : Host × List Msg :=
  let num := get32 f.payload 0
  match platform_marshal h.file num with
  | none => ({ h with pc := .exited }, [])
  | some data =>
      let fsm := if h.last_chunk_no ≠ num then fsm_timer_clear h.fsm .reset (time 3) else h.fsm
      ({ h with fsm := fsm, last_chunk_no := num },
        [.frame (chnkFrame f.iden data)])

/-- `fsm_recv_ack(0)` returns while the host polls. -/
def Host.onPoll (h : Host) (r : FsmStatus) (time : Nat → UInt64) : Host × List Msg :=
  match r with
  | .reset => h.reset (time 3) (time 4)
  | .resend => h.sendPoll (time 3)
  | .ok =>
      ({ h with
          pc := .frames, last_chunk_no := 0
          fsm := (fsm_timer_clear h.fsm .reset (time 3)).disarm .resend }, [])

/-- `fsm_recv` returns in the loop that serves chunks. -/
def Host.onFrames (h : Host) (r : FsmStatus) (f : Frame) (time : Nat → UInt64) :
    Host × List Msg :=
  if r = .reset then h.reset (time 3) (time 4)
  else if f.type = DEV_BEAT ∧ f.plen = 0 then
    ({ h with pc := .beats, fsm := fsm_timer_clear h.fsm .reset (time 3) }, [])
  else if f.type = DEV_BOOT ∧ f.plen = 1 then h.receivedBoot f
  else if f.type = DEV_RQCH ∧ f.plen = 4 then h.serve f time
  else (h, [])

/-- `fsm_recv` returns in the loop that waits for the verdict. -/
def Host.onBeats (h : Host) (r : FsmStatus) (f : Frame) (time : Nat → UInt64) :
    Host × List Msg :=
  if r = .reset then h.reset (time 3) (time 4)
  else if f.type = DEV_BOOT ∧ f.plen = 1 then h.receivedBoot f
  else if f.type = DEV_BEAT ∧ f.plen = 0 then
    ({ h with fsm := fsm_timer_clear h.fsm .reset (time 3) }, [])
  else (h, [])

/-- `fsm_upload` from the return of one blocking call, with status `r` and
frame buffer `f`, to the next. -/
def fsm_upload (h : Host) (r : FsmStatus) (f : Frame) (time : Nat → UInt64) : Host × List Msg :=
  match h.pc with
  | .poll => h.onPoll r time
  | .frames => h.onFrames r f time
  | .beats => h.onBeats r f time
  | .returned _ => (h, [])
  | .exited => (h, [])

end Bcm2835.Pup

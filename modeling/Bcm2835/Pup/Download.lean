import Bcm2835.Pup.Proto

/-!
# The downloader (`fsm_download`)

The device side as a state machine over the results of its blocking calls:
`pc` names the call control waits in, and `fsm_download` says what happens
from the return of that call to the next one. What the board does with a meta,
with chunks and with the finished image is a parameter (`Platform`).
-/

namespace Bcm2835.Pup

open Bytes

/-- What `fsm.c` asks of the board. `feed` and `load_image` may not come back
at all (`none`): the loop around the decompressor has no bound, and the ELF
loader has assertions and a map that it can overrun. `load_image` also says how
many heartbeats it sent. -/
structure Platform (P : Type) where
  platform_init_meta : Meta → P → Bool × P
  platform_feed : UInt32 → List UInt8 → P → Option Bool × P
  platform_load_image : P → Option Bool × Nat × P

/-- The calls of `fsm_download` that wait for the host, and where it can end:
in `trampoline` after it returned to `main`, or inside a board call that never
returns. -/
inductive DownloadPc
  | init
  | chunk
  | boot
  | trampoline
  | hung
deriving DecidableEq

/-- The board calls the device has made, oldest first. -/
inductive Event
  | init_meta (m : Meta) (ok : Bool)
  | feed (chunk_no : UInt32) (data : List UInt8)
  | load_image (ok : Option Bool)
deriving DecidableEq

/-- The device: `fsm`, the locals of `fsm_download`, the board, and the log of
board calls. -/
structure Device (P : Type) where
  pc : DownloadPc
  fsm : Fsm
  plat : P
  meta_ : Meta
  chunk_count : UInt32
  chunk_num : UInt32
  is_ok : Bool
  log : List Event

variable {P : Type}

/-- The label `reset`. -/
def Device.reset (d : Device P) : Device P :=
  { d with pc := .init, fsm := { (d.fsm.disarm .reset).disarm .resend with iden := 0 } }

/-- The state in which `fsm_download(config)` first waits. -/
def Device.start (config : Config) (plat : P) : Device P :=
  Device.reset
    { pc := .init, fsm := Fsm.zero.configure config, plat := plat, meta_ := .ofBytes []
      chunk_count := 0, chunk_num := 0, is_ok := false, log := [] }

/-- Sends the request for the current chunk. -/
def Device.sendRqch (d : Device P) (now : UInt64) : Device P × List Msg :=
  ({ d with pc := .chunk, fsm := fsm_timer_clear d.fsm .resend now },
    [.frame (rqchFrame d.fsm.iden d.chunk_num)])

/-- Sends the verdict. -/
def Device.sendBoot (d : Device P) (now : UInt64) : Device P × List Msg :=
  ({ d with pc := .boot, fsm := fsm_timer_clear d.fsm .resend now },
    [.frame (bootFrame d.fsm.iden d.is_ok)])

/-- After the last chunk: loads the image and starts sending the verdict. -/
def Device.loadImage (T : Platform P) (d : Device P) (now now' : UInt64) : Device P × List Msg :=
  let r := T.platform_load_image d.plat
  let beats := List.replicate r.2.1 (Msg.frame (beatFrame d.fsm.iden))
  let d : Device P := { d with plat := r.2.2, log := d.log ++ [.load_image r.1] }
  match r.1 with
  | none => ({ d with pc := .hung }, beats)
  | some is_ok =>
      let next := Device.sendBoot
        { d with is_ok := is_ok, fsm := fsm_timer_clear d.fsm .reset now } now'
      (next.1, beats ++ next.2)

/-- The head of the loop over the chunks. -/
def Device.nextChunk (T : Platform P) (d : Device P) (now now' : UInt64) : Device P × List Msg :=
  if d.chunk_num < d.chunk_count then d.sendRqch now else d.loadImage T now now'

/-- `(meta.wire_size + 0xfffe) / 0xffff`. -/
def chunkCount (m : Meta) : UInt32 := (m.wire_size + 0xfffe) / 0xffff

/-- The frame that opens a session. -/
def OpensSession (f : Frame) : Prop := f.type = HOST_POLL ∧ f.iden = 0 ∧ f.plen = 32

instance (f : Frame) : Decidable (OpensSession f) := inferInstanceAs (Decidable (_ ∧ _))

/-- A frame arrives while the device waits for `POLL`. -/
def Device.onInit (T : Platform P) (d : Device P) (f : Frame) (time : Nat → UInt64) :
    Device P × List Msg :=
  if OpensSession f then
    let m := Meta.ofBytes f.payload
    let r := T.platform_init_meta m d.plat
    let d : Device P := { d with meta_ := m, plat := r.2, log := d.log ++ [.init_meta m r.1] }
    if r.1 then
      let next := Device.nextChunk T
        { d with
          fsm := fsm_timer_clear d.fsm .reset (time 3)
          chunk_count := chunkCount m, chunk_num := 0 } (time 4) (time 5)
      (next.1, .ack 0 :: next.2)
    else (d.reset, [])
  else (d, [])

/-- `fsm_recv` returns while the device waits for a chunk. -/
def Device.onChunk (T : Platform P) (d : Device P) (r : FsmStatus) (f : Frame)
    (time : Nat → UInt64) : Device P × List Msg :=
  match r with
  | .reset => (d.reset, [])
  | .resend => d.sendRqch (time 3)
  | .ok =>
      if f.type = HOST_CHNK ∧ f.iden = d.fsm.iden then
        let r := T.platform_feed d.chunk_num f.payload d.plat
        let d : Device P := { d with plat := r.2, log := d.log ++ [.feed d.chunk_num f.payload] }
        match r.1 with
        | none => ({ d with pc := .hung }, [])
        | some false => (d.reset, [])
        | some true =>
            let fsm := fsm_timer_clear d.fsm .reset (time 3)
            Device.nextChunk T
              { d with fsm := { fsm with iden := fsm.iden + 1 }, chunk_num := d.chunk_num + 1 }
              (time 4) (time 5)
      else d.sendRqch (time 3)

/-- `fsm_recv_ack` returns while the device waits for its verdict to be
acknowledged. -/
def Device.onBoot (d : Device P) (r : FsmStatus) (time : Nat → UInt64) : Device P × List Msg :=
  match r with
  | .reset => (d.reset, [])
  | .resend => d.sendBoot (time 3)
  | .ok => ({ d with pc := .trampoline }, [])

/-- `fsm_download` from the return of one blocking call, with status `r` and
frame buffer `f`, to the next. -/
def fsm_download (T : Platform P) (d : Device P) (r : FsmStatus) (f : Frame)
    (time : Nat → UInt64) : Device P × List Msg :=
  match d.pc with
  | .init => if r = .ok then d.onInit T f time else (d, [])
  | .chunk => d.onChunk T r f time
  | .boot => d.onBoot r time
  | .trampoline => (d, [])
  | .hung => (d, [])

end Bcm2835.Pup

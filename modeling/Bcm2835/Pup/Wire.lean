import Bcm2835.Lib.Buf
import Bcm2835.Pup.Fcs

/-!
# The wire format (`common.h`, `fsm_send`, `fsm_send_ack`)

A frame is `SOH`, a ten-byte header that ends in its own FCS, `STX`, the
payload and its FCS, `ETX`, `EOT`; an acknowledgement is `ACK`, an identifier
with its FCS, `EOT`. The senders compute each FCS while they emit; the
equations `fsm_send_eq` and `fsm_send_ack_eq` give the emitted bytes in one
piece.
-/

namespace Bcm2835.Pup

def ASC_SOH : UInt8 := 0x01
def ASC_STX : UInt8 := 0x02
def ASC_ETX : UInt8 := 0x03
def ASC_EOT : UInt8 := 0x04
def ASC_ACK : UInt8 := 0x06

/-- The four characters of `char type[4]`. -/
abbrev FrameType := Vector UInt8 4

def HOST_POLL : FrameType := #v[0x50, 0x4f, 0x4c, 0x4c]
def HOST_CHNK : FrameType := #v[0x43, 0x48, 0x4e, 0x4b]
def DEV_RQCH : FrameType := #v[0x52, 0x51, 0x43, 0x48]
def DEV_BEAT : FrameType := #v[0x42, 0x45, 0x41, 0x54]
def DEV_BOOT : FrameType := #v[0x42, 0x4f, 0x4f, 0x54]

/-- What a frame carries. The length field is 16 bits wide. -/
structure Frame where
  iden : UInt16
  type : FrameType
  payload : List UInt8
  plen_lt : payload.length < 65536
deriving DecidableEq

/-- `plen`. -/
def Frame.plen (f : Frame) : UInt16 := .ofNat f.payload.length

theorem Frame.plen_toNat (f : Frame) : f.plen.toNat = f.payload.length := by
  simp [Frame.plen, Nat.mod_eq_of_lt f.plen_lt]

/-- What the two parties put on the wire: frames and acknowledgements. -/
inductive Msg
  | frame (f : Frame)
  | ack (iden : UInt16)
deriving DecidableEq

/-! ## The senders

Each helper returns the bytes it puts and the register it leaves. -/

/-- `fsm_put_fcs`. -/
def fsm_put_fcs (x : UInt8) (fcs : UInt16) : List UInt8 × UInt16 := ([x], fcs16 fcs [x])

/-- `fsm_write_fcs`. -/
def fsm_write_fcs (p : List UInt8) (fcs : UInt16) : List UInt8 × UInt16 := (p, fcs16 fcs p)

/-- `fsm_put16`. -/
def fsm_put16 (x : UInt16) : List UInt8 := le16 x

/-- `fsm_put16_fcs`. -/
def fsm_put16_fcs (x : UInt16) (fcs : UInt16) : List UInt8 × UInt16 :=
  let lo := fsm_put_fcs x.toUInt8 fcs
  let hi := fsm_put_fcs (x >>> 8).toUInt8 lo.2
  (lo.1 ++ hi.1, hi.2)

/-- The loop of `fsm_send` over `type[i]`. -/
def fsm_put_type : List UInt8 → UInt16 → List UInt8 × UInt16
  | [], fcs => ([], fcs)
  | c :: cs, fcs =>
      let here := fsm_put_fcs c fcs
      let rest := fsm_put_type cs here.2
      (here.1 ++ rest.1, rest.2)

/-- `fsm_send(type, payload, payload_len)` under the identifier `fsm.iden`. -/
def fsm_send (f : Frame) : List UInt8 :=
  let iden := fsm_put16_fcs f.iden FCS_INIT
  let plen := fsm_put16_fcs f.plen iden.2
  let type := fsm_put_type f.type.toList plen.2
  let body := fsm_write_fcs f.payload FCS_INIT
  [ASC_SOH] ++ iden.1 ++ plen.1 ++ type.1 ++ fsm_put16 (type.2 ^^^ 0xffff) ++
    [ASC_STX] ++ body.1 ++ fsm_put16 (body.2 ^^^ 0xffff) ++ [ASC_ETX] ++ [ASC_EOT]

/-- `fsm_send_ack(iden)`. -/
def fsm_send_ack (iden : UInt16) : List UInt8 :=
  let out := fsm_put16_fcs iden FCS_INIT
  [ASC_ACK] ++ out.1 ++ fsm_put16 (out.2 ^^^ 0xffff) ++ [ASC_EOT]

/-- The bytes of a message. -/
def Msg.bytes : Msg → List UInt8
  | .frame f => fsm_send f
  | .ack iden => fsm_send_ack iden

/-! ## The emitted bytes -/

/-- A buffer followed by the FCS the sender appends to it. -/
def withFcs (m : List UInt8) : List UInt8 := m ++ le16 (fcs16 FCS_INIT m ^^^ 0xffff)

@[simp] theorem withFcs_length (m : List UInt8) : (withFcs m).length = m.length + 2 := by
  simp [withFcs]

theorem fcs16_withFcs (m : List UInt8) : fcs16 FCS_INIT (withFcs m) = FCS_OK :=
  fcs16_residue m

/-- The header without its FCS. -/
def Frame.hdr (f : Frame) : List UInt8 := le16 f.iden ++ le16 f.plen ++ f.type.toList

@[simp] theorem Frame.hdr_length (f : Frame) : f.hdr.length = 8 := by
  simp [Frame.hdr]

theorem fsm_put16_fcs_eq (x fcs : UInt16) : fsm_put16_fcs x fcs = (le16 x, fcs16 fcs (le16 x)) :=
  rfl

theorem fsm_put_type_eq (cs : List UInt8) (fcs : UInt16) :
    fsm_put_type cs fcs = (cs, fcs16 fcs cs) := by
  induction cs generalizing fcs with
  | nil => rfl
  | cons c cs ih => simp [fsm_put_type, fsm_put_fcs, ih]

theorem fsm_send_eq (f : Frame) :
    fsm_send f = ASC_SOH :: withFcs f.hdr ++ ASC_STX :: withFcs f.payload ++ [ASC_ETX, ASC_EOT] := by
  simp [fsm_send, fsm_put16_fcs_eq, fsm_put_type_eq, fsm_write_fcs, fsm_put16, withFcs, Frame.hdr,
    fcs16_append]

theorem fsm_send_length (f : Frame) : (fsm_send f).length = 16 + f.payload.length := by
  simp [fsm_send_eq]
  omega

theorem fsm_send_ack_eq (iden : UInt16) :
    fsm_send_ack iden = ASC_ACK :: withFcs (le16 iden) ++ [ASC_EOT] := by
  simp [fsm_send_ack, fsm_put16_fcs_eq, fsm_put16, withFcs]

theorem fsm_send_ack_length (iden : UInt16) : (fsm_send_ack iden).length = 6 := rfl

/-! ## The receive buffer -/

/-- `mframe_t`: the raw views of the header and of the body. -/
structure Mframe where
  raw_hdr : Nat → UInt8
  raw_body : Nat → UInt8

namespace Mframe

def iden (m : Mframe) : UInt16 := get16 (m.raw_hdr 0) (m.raw_hdr 1)
def plen (m : Mframe) : UInt16 := get16 (m.raw_hdr 2) (m.raw_hdr 3)
def type (m : Mframe) : FrameType := #v[m.raw_hdr 4, m.raw_hdr 5, m.raw_hdr 6, m.raw_hdr 7]

/-- `body[0..plen)`. -/
def body (m : Mframe) : List UInt8 := Buf.taken m.raw_body m.plen.toNat

/-- The fields of the overlay, as the callers of `fsm_recv` read them. -/
def frame (m : Mframe) : Frame where
  iden := m.iden
  type := m.type
  payload := m.body
  plen_lt := by simpa [body] using m.plen.toNat_lt

@[simp] theorem frame_plen (m : Mframe) : m.frame.plen = m.plen := by
  apply UInt16.toNat_inj.mp
  rw [Frame.plen_toNat]
  simp [frame, body]

/-- The header bytes spell out the header fields. -/
theorem taken_raw_hdr (m : Mframe) : Buf.taken m.raw_hdr 8 = m.frame.hdr := by
  simp only [Frame.hdr, frame_plen]
  simp [frame, iden, plen, type, le16_get16, Buf.taken, List.range_succ]

end Mframe

end Bcm2835.Pup

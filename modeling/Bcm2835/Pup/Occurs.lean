import Bcm2835.Lib.Infix
import Bcm2835.Pup.Serial

/-!
# Where the bytes of a message can occur

What the device puts on its line contains the bytes of a `BOOT` frame only
where it has sent one: its payloads are too short and its identifiers and
lengths in the wrong place to look like one, even across messages.
-/

namespace Bcm2835.Pup

open Bytes

/-- What the device sends: the acknowledgement of `POLL`, requests for chunks
that exist in 32 bits of `wire_size`, heartbeats and verdicts. -/
inductive Msg.FromDevice : Msg → Prop
  | ack : FromDevice (.ack 0)
  | rqch {iden : UInt16} {num : UInt32} : num < 0x1000000 → FromDevice (.frame (rqchFrame iden num))
  | beat {iden : UInt16} : FromDevice (.frame (beatFrame iden))
  | boot {iden : UInt16} {is_ok : Bool} : FromDevice (.frame (bootFrame iden is_ok))

/-- Text, or a message of the device. -/
def Item.FromDevice : Item → Prop
  | .msg m => m.FromDevice
  | .text _ => True

/-- The bytes of a frame, one by one but for the payload. -/
theorem fsm_send_spelled (f : Frame) :
    ∃ h0 h1 b0 b1, fsm_send f =
      [ASC_SOH, f.iden.toUInt8, (f.iden >>> 8).toUInt8, f.plen.toUInt8, (f.plen >>> 8).toUInt8] ++
        f.type.toList ++ [h0, h1, ASC_STX] ++ f.payload ++ [b0, b1, ASC_ETX, ASC_EOT] := by
  rw [fsm_send_eq, withFcs, withFcs]
  generalize fcs16 FCS_INIT f.hdr ^^^ 0xffff = h
  generalize fcs16 FCS_INIT f.payload ^^^ 0xffff = b
  exact ⟨h.toUInt8, (h >>> 8).toUInt8, b.toUInt8, (b >>> 8).toUInt8, by simp [Frame.hdr, le16]⟩

theorem le32_small {num : UInt32} (h : num < 0x1000000) : ∃ n0 n1 n2, le32 num = [n0, n1, n2, 0] := by
  have hlt : num.toNat < 0x1000000 := UInt32.lt_iff_toNat_lt.mp h
  have h3 : num.toNat / 256 / 256 / 256 = 0 := by omega
  exact ⟨_, _, _, by simp only [le32, leBytes, h3]; rfl⟩

/-- The first nine bytes of a `BOOT` frame. -/
def bootKey (iden : UInt16) : List UInt8 :=
  [ASC_SOH, iden.toUInt8, (iden >>> 8).toUInt8, 1, 0, 0x42, 0x4f, 0x4f, 0x54]

theorem bootKey_isPrefix_send {f : Frame} (htype : f.type = DEV_BOOT) (hplen : f.plen = 1) :
    bootKey f.iden <+: fsm_send f := by
  obtain ⟨h0, h1, b0, b1, heq⟩ := fsm_send_spelled f
  rw [heq, htype, hplen]
  exact ⟨[h0, h1, ASC_STX] ++ f.payload ++ [b0, b1, ASC_ETX, ASC_EOT], rfl⟩

/-- A frame of the device at the head of the line does not have the length `0x4f`. -/
def HeadOk (bs : List UInt8) : Prop :=
  ∀ i0 i1 bs', bs ≠ ASC_SOH :: i0 :: i1 :: 0x4f :: bs'

theorem headOk_of_device {items : List Item} (h : ∀ x ∈ items, x.FromDevice) :
    HeadOk (items.flatMap Item.bytes) := by
  induction items with
  | nil => intro _ _ _; simp
  | cons x items ih =>
      have hx := h x List.mem_cons_self
      have ih := ih fun y hy => h y (List.mem_cons_of_mem _ hy)
      intro i0 i1 bs' heq
      rw [List.flatMap_cons] at heq
      cases x with
      | text t =>
          obtain ⟨bs, hbs⟩ := t
          cases bs with
          | nil => exact ih i0 i1 bs' heq
          | cons b bs =>
              have hb := hbs b List.mem_cons_self
              have : b = ASC_SOH := by
                simp only [Item.bytes, List.cons_append, List.cons.injEq] at heq
                exact heq.1
              rw [this] at hb
              exact absurd hb (by decide)
      | msg m =>
          cases hx with
          | ack => simp [Item.bytes, Msg.bytes, fsm_send_ack_eq, ASC_ACK, ASC_SOH] at heq
          | @rqch iden num =>
              obtain ⟨h0, h1, b0, b1, hsend⟩ := fsm_send_spelled (rqchFrame iden num)
              simp only [Item.bytes, Msg.bytes, hsend] at heq
              simp [Frame.plen, rqchFrame] at heq
          | @beat iden =>
              obtain ⟨h0, h1, b0, b1, hsend⟩ := fsm_send_spelled (beatFrame iden)
              simp only [Item.bytes, Msg.bytes, hsend] at heq
              simp [Frame.plen, beatFrame] at heq
          | @boot iden is_ok =>
              obtain ⟨h0, h1, b0, b1, hsend⟩ := fsm_send_spelled (bootFrame iden is_ok)
              simp only [Item.bytes, Msg.bytes, hsend] at heq
              simp [Frame.plen, bootFrame, bootPayload] at heq

/-- The bytes of the three kinds of frames the device sends. -/
theorem rqchFrame_spelled (iden : UInt16) {num : UInt32} (h : num < 0x1000000) :
    ∃ h0 h1 n0 n1 n2 b0 b1, fsm_send (rqchFrame iden num) =
      [ASC_SOH, iden.toUInt8, (iden >>> 8).toUInt8, 4, 0, 0x52, 0x51, 0x43, 0x48, h0, h1, ASC_STX,
        n0, n1, n2, 0, b0, b1, ASC_ETX, ASC_EOT] := by
  obtain ⟨h0, h1, b0, b1, hsend⟩ := fsm_send_spelled (rqchFrame iden num)
  obtain ⟨n0, n1, n2, hle⟩ := le32_small h
  have hplen : (rqchFrame iden num).plen = 4 := by simp [Frame.plen, rqchFrame]
  rw [hplen] at hsend
  refine ⟨h0, h1, n0, n1, n2, b0, b1, hsend.trans ?_⟩
  simp only [rqchFrame, hle]
  rfl

theorem beatFrame_spelled (iden : UInt16) :
    ∃ h0 h1 b0 b1, fsm_send (beatFrame iden) =
      [ASC_SOH, iden.toUInt8, (iden >>> 8).toUInt8, 0, 0, 0x42, 0x45, 0x41, 0x54, h0, h1, ASC_STX,
        b0, b1, ASC_ETX, ASC_EOT] := by
  obtain ⟨h0, h1, b0, b1, hsend⟩ := fsm_send_spelled (beatFrame iden)
  have hplen : (beatFrame iden).plen = 0 := by simp [Frame.plen, beatFrame]
  rw [hplen] at hsend
  exact ⟨h0, h1, b0, b1, hsend.trans rfl⟩

theorem bootFrame_spelled (iden : UInt16) (is_ok : Bool) :
    ∃ h0 h1 b0 b1, fsm_send (bootFrame iden is_ok) =
      [ASC_SOH, iden.toUInt8, (iden >>> 8).toUInt8, 1, 0, 0x42, 0x4f, 0x4f, 0x54, h0, h1, ASC_STX,
        if is_ok then 1 else 0, b0, b1, ASC_ETX, ASC_EOT] := by
  obtain ⟨h0, h1, b0, b1, hsend⟩ := fsm_send_spelled (bootFrame iden is_ok)
  have hplen : (bootFrame iden is_ok).plen = 1 := by simp [Frame.plen, bootFrame, bootPayload]
  rw [hplen] at hsend
  exact ⟨h0, h1, b0, b1, hsend.trans rfl⟩

/-- An occurrence of the key that begins in a message of the device is the head
of a `BOOT` frame with this identifier. -/
theorem bootKey_begins {m : Msg} (hm : m.FromDevice) {iden : UInt16} {rest : List UInt8}
    (hrest : HeadOk rest) {o : Nat} (ho : o < m.bytes.length)
    (h : bootKey iden <+: m.bytes.drop o ++ rest) : ∃ is_ok, m = .frame (bootFrame iden is_ok) := by
  obtain ⟨post, h⟩ := h
  -- the key can only straddle the end of a frame if its third byte is `EOT`; then
  -- the next frame would have the length `0x4f`
  have hnext : ∀ {post : List UInt8}, 1 :: 0 :: 0x42 :: 0x4f :: post ≠ rest :=
    fun {post} heq => hrest 0 0x42 post heq.symm
  cases hm with
  | ack =>
      have hbytes : (Msg.ack 0).bytes = [6, 0, 0, 0x47, 0x0f, 4] := by decide +kernel
      rw [hbytes] at h ho
      simp only [List.length_cons, List.length_nil] at ho
      interval_cases o <;> simp [bootKey, ASC_SOH] at h
  | @rqch i num hnum =>
      obtain ⟨h0, h1, n0, n1, n2, b0, b1, hbytes⟩ := rqchFrame_spelled i hnum
      simp only [Msg.bytes, hbytes] at h ho
      simp only [List.length_cons, List.length_nil] at ho
      interval_cases o <;> simp [bootKey, ASC_SOH, ASC_STX, ASC_ETX, ASC_EOT, hnext] at h
  | @beat i =>
      obtain ⟨h0, h1, b0, b1, hbytes⟩ := beatFrame_spelled i
      simp only [Msg.bytes, hbytes] at h ho
      simp only [List.length_cons, List.length_nil] at ho
      interval_cases o <;> simp [bootKey, ASC_SOH, ASC_STX, ASC_ETX, ASC_EOT, hnext] at h
  | @boot i is_ok =>
      obtain ⟨h0, h1, b0, b1, hbytes⟩ := bootFrame_spelled i is_ok
      simp only [Msg.bytes, hbytes] at h ho
      simp only [List.length_cons, List.length_nil] at ho
      refine ⟨is_ok, ?_⟩
      interval_cases o <;> simp [bootKey, ASC_SOH, ASC_STX, ASC_ETX, ASC_EOT, hnext] at h
      rw [eq_of_low_high h.1 h.2.1]

/-- **Where a `BOOT` frame comes from.** If the line of the device contains the
bytes of one, the device has sent one with this identifier. -/
theorem boot_occurs {items : List Item} (hitems : ∀ x ∈ items, x.FromDevice) {f : Frame}
    (htype : f.type = DEV_BOOT) (hplen : f.plen = 1)
    (h : fsm_send f <:+: items.flatMap Item.bytes) :
    ∃ is_ok, Item.msg (.frame (bootFrame f.iden is_ok)) ∈ items := by
  have hkey : bootKey f.iden <:+: items.flatMap Item.bytes :=
    (bootKey_isPrefix_send htype hplen).isInfix.trans h
  obtain ⟨l, x, r, rfl, o, ho, hbegins⟩ := Infix.begins Item.bytes (by simp [bootKey]) hkey
  have hx := hitems x (by simp)
  have hrest : HeadOk (r.flatMap Item.bytes) := headOk_of_device fun y hy => hitems y (by simp [hy])
  cases x with
  | text t =>
      obtain ⟨bs, hbs⟩ := t
      have ho : o < bs.length := ho
      obtain ⟨post, hpost⟩ := hbegins
      have hhead := congrArg List.head? hpost
      simp only [Item.bytes, List.drop_eq_getElem_cons ho, bootKey] at hhead
      have hb := hbs bs[o] (List.getElem_mem ho)
      rw [← Option.some.inj hhead] at hb
      exact absurd hb (by decide)
  | msg m =>
      obtain ⟨is_ok, rfl⟩ := bootKey_begins hx hrest ho hbegins
      exact ⟨is_ok, by simp⟩

/-! ## Acknowledgements -/

/-- The six bytes of `fsm_send_ack(iden)` begin inside a frame, behind the first `n` bytes of the
line. -/
def Forges (n : Nat) (iden : UInt16) (msgs : List Msg) : Prop :=
  ∃ l f r, msgs = l ++ .frame f :: r ∧
    ∃ o < (fsm_send f).length, n ≤ (l.flatMap Msg.bytes).length + o ∧
      fsm_send_ack iden <+: (fsm_send f).drop o ++ r.flatMap Msg.bytes

theorem fsm_send_ack_injective {iden iden' : UInt16} (h : fsm_send_ack iden = fsm_send_ack iden') :
    iden = iden' := by
  rw [fsm_send_ack_eq, fsm_send_ack_eq, withFcs, withFcs] at h
  simp only [le16, List.cons_append, List.nil_append, List.cons.injEq] at h
  exact eq_of_low_high h.2.1 h.2.2.1

/-- **Where an acknowledgement comes from.** If the line of a host whose last
message is its only acknowledgement contains the bytes of one behind its first
`n` bytes, and they do not begin inside a frame, the host has sent it. -/
theorem ack_occurs {msgs : List Msg} {n : Nat} {iden : UInt16}
    (h : fsm_send_ack iden <:+: (msgs.flatMap Msg.bytes).drop n) (hforge : ¬Forges n iden msgs)
    (hlast : ∀ l i r, msgs = l ++ .ack i :: r → r = []) : .ack iden ∈ msgs := by
  obtain ⟨l, x, r, heq, o, ho, hno, hbegins⟩ :=
    Infix.begins_from Msg.bytes (by simp [fsm_send_ack_eq]) h
  cases x with
  | frame f => exact absurd ⟨l, f, r, heq, o, ho, hno, hbegins⟩ hforge
  | ack i =>
      obtain rfl := hlast l i r heq
      simp only [Msg.bytes, List.flatMap_nil, List.append_nil] at hbegins ho
      have hlen := hbegins.length_le
      simp only [List.length_drop, fsm_send_ack_length] at hlen ho
      have ho : o = 0 := by omega
      rw [ho, List.drop_zero] at hbegins
      have hsame : fsm_send_ack iden = fsm_send_ack i :=
        hbegins.eq_of_length ((fsm_send_ack_length iden).trans (fsm_send_ack_length i).symm)
      rw [heq, fsm_send_ack_injective hsame]
      simp

end Bcm2835.Pup

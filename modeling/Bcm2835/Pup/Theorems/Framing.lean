import Bcm2835.Pup.RecvSpec
import Bcm2835.Pup.RoundTrip

/-!
# Framing on a byte stream

What the senders emit the receivers deliver, frame by frame and whatever the
line carries between frames; and what a receiver accepts is exactly what the
sender would have emitted.
-/

namespace Bcm2835.Pup

/-- **Round trip.** While no timer fires, successive calls of `fsm_recv` on the
concatenation of any frames, with any bytes but `SOH` before, between and after
them, return `FSM_OK` once per frame, in order, with that frame in the buffer.
The checksum test accepts every message with its checksum appended. -/
theorem fsm_recv_delivers_sent (fsm : Fsm) (framebuf : Mframe) (gap : List UInt8)
    (msgs : List (Frame × List UInt8)) (ps : List Poll) (hgap : ASC_SOH ∉ gap)
    (hgaps : ∀ m ∈ msgs, ASC_SOH ∉ m.2)
    (hrx : ps.filterMap (·.rx) = gap ++ msgs.flatMap fun m => fsm_send m.1 ++ m.2)
    (hquiet : recvFired (.call fsm framebuf) ps = []) :
    recvCalls (.call fsm framebuf) ps = msgs.map (fun m => (FsmStatus.ok, m.1)) ∧
      ∀ m : List UInt8, fcs16 FCS_INIT (m ++ le16 (fcs16 FCS_INIT m ^^^ 0xffff)) = FCS_OK := by
  refine ⟨?_, fcs16_residue⟩
  rw [recvCalls_of_quiet ⟨rfl, rfl⟩ hquiet, hrx, recvBytes_gap rfl _ hgap,
    recvBytes_stream msgs rfl hgaps]
  simp

/-- All timers off and a clock that stands still. -/
def idleFsm : Fsm := ⟨fun _ => ⟨0, 0, false⟩, 0⟩

/-- The buffer before anything has been received. -/
def zeroFrame : Mframe := ⟨fun _ => 0, fun _ => 0⟩

/-- A heartbeat followed by a chunk request, with noise around them. -/
theorem fsm_recv_delivers_two_frames :
    recvCalls (.call idleFsm zeroFrame)
        (pollsOf ([0x00] ++ [(⟨7, DEV_BEAT, [], by decide⟩, [0x0a, 0x0d]),
          (⟨8, DEV_RQCH, [0x01, 0x00, 0x00, 0x00], by decide⟩, [])].flatMap
            fun m : Frame × List UInt8 => fsm_send m.1 ++ m.2)) =
      [(.ok, ⟨7, DEV_BEAT, [], by decide⟩),
        (.ok, ⟨8, DEV_RQCH, [0x01, 0x00, 0x00, 0x00], by decide⟩)] :=
  (fsm_recv_delivers_sent idleFsm zeroFrame [0x00]
    [(⟨7, DEV_BEAT, [], by decide⟩, [0x0a, 0x0d]),
      (⟨8, DEV_RQCH, [0x01, 0x00, 0x00, 0x00], by decide⟩, [])] _ (by decide) (by decide)
    (by simp [pollsOf, List.filterMap_map]) (by decide +kernel)).1

/-- **Only sent frames are accepted.** Whatever bytes arrive and whichever
timers fire, when `fsm_recv` returns `FSM_OK` the last `16 + plen` bytes it
took are what `fsm_send` emits for the frame in the buffer, and every cell it
wrote is inside its array; when `fsm_recv_ack(iden)` returns `FSM_OK` the last
six bytes it took are those of `fsm_send_ack(iden)`. The checksum the test
accepts is unique. -/
theorem fsm_recv_accepts_only_sent (fsm : Fsm) (framebuf : Mframe) (ps : List Poll) :
    ((fsm_recv fsm framebuf ps).ret = some .ok →
      (fsm_recv fsm framebuf ps).consumed.rtake
          (16 + (fsm_recv fsm framebuf ps).st.framebuf.plen.toNat) =
        fsm_send (fsm_recv fsm framebuf ps).st.framebuf.frame) ∧
    (∀ cell ∈ (fsm_recv fsm framebuf ps).stored, cell.InBounds) ∧
    (∀ iden raw_frame, (fsm_recv_ack iden fsm raw_frame ps).ret = some .ok →
      (fsm_recv_ack iden fsm raw_frame ps).consumed.rtake 6 = fsm_send_ack iden) ∧
    (∀ m a b, fcs16 FCS_INIT (m ++ [a, b]) = FCS_OK ↔ m ++ [a, b] = withFcs m) := by
  have hsuffix : ∀ {l c : List UInt8}, l <:+ c → c.rtake l.length = l := by
    rintro l c ⟨pre, rfl⟩
    simp [List.rtake]
  refine ⟨fun hret => ?_, ?_, fun iden raw_frame hret => ?_, fun m a b => ⟨fun h => ?_, fun h => ?_⟩⟩
  · have h := runCall_ret (I := RecvInv)
      (Q := fun c s => fsm_send s.framebuf.frame <:+ c) recvInv_step recvStep_ok ps []
      (.call fsm framebuf) (.of_waitForSoh rfl) hret
    have h := hsuffix h
    rw [fsm_send_length, ← Frame.plen_toNat, Mframe.frame_plen] at h
    exact h
  · exact runCall_stored (I := RecvInv) recvInv_step recvStep_stored ps [] _ (.of_waitForSoh rfl)
  · have h := runCall_ret (I := AckInv) (Q := fun c _ => fsm_send_ack iden <:+ c)
      (ackInv_step iden) (ackStep_ok iden) ps [] (.call fsm raw_frame) (.of_waitForAck rfl) hret
    exact hsuffix h
  · rw [fcs16_residue_unique h, withFcs]
  · rw [h, fcs16_withFcs]

/-- A frame is one byte shorter than `17 + plen`: with one byte of noise ahead
of a heartbeat, the last seventeen bytes taken are not what `fsm_send` emits. -/
theorem fsm_recv_not_seventeen :
    ¬ ∀ fsm framebuf ps, (fsm_recv fsm framebuf ps).ret = some .ok →
      (fsm_recv fsm framebuf ps).consumed.rtake
          (17 + (fsm_recv fsm framebuf ps).st.framebuf.plen.toNat) =
        fsm_send (fsm_recv fsm framebuf ps).st.framebuf.frame := by
  intro h
  have h := h idleFsm zeroFrame (pollsOf (0x00 :: fsm_send ⟨7, DEV_BEAT, [], by decide⟩))
    (by decide +kernel)
  revert h
  decide +kernel

end Bcm2835.Pup

import Bcm2835.Lib.Crc
import Bcm2835.Pup.RecvSpec

/-!
# Bursts on the line

`fcs16` is the reflected CRC register for the polynomial `0x8408`, fed with the bits of
the message, of each byte the low one first (`fcs16_toBitVec`). A message with its FCS that
an error changes within 16 bits in a row, and nowhere else, is refused.
-/

namespace Bcm2835.Pup

open Crc

/-! ## The table as a register -/

/-- x^16 + x^12 + x^5 + 1, reflected. -/
def FCS_POLY : BitVec 16 := 0x8408#16

/-- The bits of a byte, in the order they are counted. -/
def byteBits (c : UInt8) : List Bool := (List.range 8).map fun i => c.toBitVec.getLsbD i

def bits (m : List UInt8) : List Bool := m.flatMap byteBits

@[simp] theorem byteBits_length (c : UInt8) : (byteBits c).length = 8 := by simp [byteBits]

theorem fcstab_eq_feed : ∀ i < 256, (fcstab.getD i 0).toBitVec =
    feed FCS_POLY (BitVec.ofNat 16 i) (List.replicate 8 false) := by
  decide +kernel

theorem low_byte_getLsbD (i : Nat) : (0xff#16).getLsbD i = decide (i < 8) := by
  rw [BitVec.getLsbD_ofNat, show (0xff : Nat) = 2 ^ 8 - 1 by rfl, Nat.testBit_two_pow_sub_one]
  by_cases hi : i < 8
  · simp [hi, show i < 16 by omega]
  · simp [hi]

/-- The bits of a byte are those of the word it is widened to. -/
theorem toUInt16_getLsbD (c : UInt8) (i : Nat) :
    c.toUInt16.toBitVec.getLsbD i = (byteBits c).getD i false := by
  rw [UInt8.toBitVec_toUInt16, BitVec.getLsbD_setWidth]
  by_cases hi : i < 8
  · simp [byteBits, hi, show i < 16 by omega]
  · simp [byteBits, BitVec.getLsbD_of_ge _ i (Nat.le_of_not_lt hi), hi]

theorem fcsStep_toBitVec (s : UInt16) (c : UInt8) :
    (fcsStep s c).toBitVec = feed FCS_POLY s.toBitVec (byteBits c) := by
  generalize hx : s.toBitVec ^^^ c.toUInt16.toBitVec = x
  have hi : ((s ^^^ c.toUInt16) &&& 0xff).toBitVec = x &&& 0xff#16 := by
    rw [UInt16.toBitVec_and, UInt16.toBitVec_xor, hx]
    rfl
  have hrow := fcstab_eq_feed ((s ^^^ c.toUInt16) &&& 0xff).toNat (by
    rw [fcsStep_index]
    exact UInt8.toNat_lt _)
  have hindex : BitVec.ofNat 16 ((s ^^^ c.toUInt16) &&& 0xff).toNat = x &&& 0xff#16 := by
    show BitVec.ofNat 16 ((s ^^^ c.toUInt16) &&& 0xff).toBitVec.toNat = _
    rw [BitVec.ofNat_toNat, BitVec.setWidth_eq, hi]
  rw [hindex] at hrow
  -- the byte is loaded, and the register taken apart into its low byte and the rest
  have hload : feed FCS_POLY s.toBitVec (byteBits c) = feed FCS_POLY x (List.replicate 8 false) := by
    rw [feed_load (by decide) (by simp) (toUInt16_getLsbD c), hx, byteBits_length]
  have hsplit : feed FCS_POLY (x ^^^ (x &&& 0xff#16) ^^^ (x &&& 0xff#16)) (List.replicate 8 false) =
      feed FCS_POLY (x ^^^ (x &&& 0xff#16)) (List.replicate 8 false) ^^^
        feed FCS_POLY (x &&& 0xff#16) (List.replicate 8 false) :=
    feed_xor (p := List.replicate 8 false) (q := List.replicate 8 false) rfl
  have hrest : feed FCS_POLY (x ^^^ (x &&& 0xff#16)) (List.replicate 8 false) = s.toBitVec >>> 8 := by
    rw [feed_shift]
    · apply BitVec.eq_of_getLsbD_eq
      intro k _
      rw [BitVec.getLsbD_ushiftRight, BitVec.getLsbD_ushiftRight, BitVec.getLsbD_xor,
        BitVec.getLsbD_and, low_byte_getLsbD, ← hx, BitVec.getLsbD_xor, toUInt16_getLsbD,
        List.getD_eq_default _ _ (by simp)]
      simp
    · intro k hk
      rw [BitVec.getLsbD_xor, BitVec.getLsbD_and, low_byte_getLsbD]
      simp [hk]
  rw [hload, ← BitVec.xor_zero (x := x), ← BitVec.xor_self (x := x &&& 0xff#16), ← BitVec.xor_assoc,
    hsplit, hrest, ← hrow, fcsStep, UInt16.toBitVec_xor]
  rfl

theorem fcs16_toBitVec (s : UInt16) (m : List UInt8) :
    (fcs16 s m).toBitVec = feed FCS_POLY s.toBitVec (bits m) := by
  induction m generalizing s with
  | nil => rfl
  | cons c m ih =>
      rw [fcs16_cons, ih, fcsStep_toBitVec, ← feed_append]
      rfl

/-! ## Errors -/

/-- The bytes on the line, `e` of them flipped where its bits are set. -/
def corrupt (w e : List UInt8) : List UInt8 := List.zipWith (· ^^^ ·) w e

theorem byteBits_xor (a b : UInt8) :
    byteBits (a ^^^ b) = List.zipWith (· ^^ ·) (byteBits a) (byteBits b) := by
  apply List.ext_getElem
  · simp
  · intro i _ _
    simp [byteBits]

theorem bits_corrupt {w e : List UInt8} (h : w.length = e.length) :
    bits (corrupt w e) = List.zipWith (· ^^ ·) (bits w) (bits e) := by
  induction w generalizing e with
  | nil =>
      rw [List.eq_nil_of_length_eq_zero h.symm]
      rfl
  | cons a w ih =>
      cases e with
      | nil => cases h
      | cons b e =>
          show byteBits (a ^^^ b) ++ bits (corrupt w e) = _
          rw [ih (Nat.succ.inj h), byteBits_xor]
          exact (List.zipWith_append (by simp)).symm

theorem bits_length (m : List UInt8) : (bits m).length = 8 * m.length := by
  induction m with
  | nil => rfl
  | cons c m ih =>
      show (byteBits c ++ bits m).length = _
      rw [List.length_append, ih, byteBits_length, List.length_cons]
      omega

/-- The error adds the same to every register. -/
theorem fcs16_corrupt {w e : List UInt8} (h : w.length = e.length) (s : UInt16) :
    (fcs16 s (corrupt w e)).toBitVec = (fcs16 s w).toBitVec ^^^ feed FCS_POLY 0#16 (bits e) := by
  rw [fcs16_toBitVec, fcs16_toBitVec, bits_corrupt h, ← feed_xor (by rw [bits_length, bits_length, h]),
    BitVec.xor_zero]

theorem fcs16_burst_ne {m e : List UInt8} (hlen : e.length = m.length + 2) (he : Burst 16 (bits e)) :
    fcs16 FCS_INIT (corrupt (withFcs m) e) ≠ FCS_OK := by
  intro hok
  have hsum := fcs16_corrupt (show (withFcs m).length = e.length by rw [withFcs_length, hlen]) FCS_INIT
  rw [hok, fcs16_withFcs] at hsum
  have hzero := congrArg (FCS_OK.toBitVec ^^^ ·) hsum
  simp only [← BitVec.xor_assoc, BitVec.xor_self, BitVec.zero_xor] at hzero
  exact burst_ne_zero (P := FCS_POLY) (by decide) he hzero.symm

/-- No header, body or acknowledgement that a burst of at most 16 bits has hit gets past the
test behind its last byte. -/
theorem fcs16_refuses_burst {m e : List UInt8} (hlen : e.length = m.length + 2)
    (he : Burst 16 (bits e)) :
    fcs16 FCS_INIT (corrupt (withFcs m) e) ≠ FCS_OK ∧
    (∀ (s : RecvSt) now c, s.pc = .hdr 9 →
      Buf.taken (s.putHdr 9 c).framebuf.raw_hdr 10 = corrupt (withFcs m) e →
      (recvGot s now c).st = (s.putHdr 9 c).restart) ∧
    (∀ (s : RecvSt) now c, s.pc = .eot →
      Buf.taken s.framebuf.raw_body (2 + s.framebuf.plen.toNat) = corrupt (withFcs m) e →
      (recvGot s now c).ret = none) ∧
    ∀ (s : AckSt) iden, Buf.taken s.raw_frame 4 = corrupt (withFcs m) e → ¬s.Accepts iden := by
  have hne := fcs16_burst_ne hlen he
  refine ⟨hne, fun s now c hpc hbuf => ?_, fun s now c hpc hbuf => ?_, fun s iden hbuf hacc => ?_⟩
  · unfold recvGot
    rw [hpc]
    dsimp only
    rw [if_neg (by decide), hbuf, if_neg hne]
  · unfold recvGot
    rw [hpc]
    show (ite _ _ _ : Turn RecvSt).ret = none
    rw [hbuf, if_neg fun h => hne h.2]
  · have hok := hacc.1
    rw [hbuf] at hok
    exact hne hok

/-- Sixteen bits across three bytes, the first and the last of them in the checksum. -/
theorem fcs16_refuses_burst_sample :
    fcs16 FCS_INIT (corrupt (withFcs [0x31]) [0xf0, 0xff, 0x0f]) ≠ FCS_OK :=
  (fcs16_refuses_burst (m := [0x31]) (e := [0xf0, 0xff, 0x0f]) rfl
    ⟨by decide, 4, by decide⟩).1

end Bcm2835.Pup

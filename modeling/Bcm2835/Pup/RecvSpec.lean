import Mathlib.Data.List.DropRight
import Bcm2835.Pup.Recv

/-!
# What a receiver has taken

The invariants of the two receivers. At every point of a call the bytes of the
frame received so far (`RecvSt.sofar`, `AckSt.sofar`) are the last bytes the
call took from the UART, with nothing skipped or taken twice; `recvInv_step`
and `ackInv_step` are the step lemmas, and `runCall_ret` carries an invariant
through a whole call.
-/

namespace Bcm2835.Pup

/-! ## Rules for whole calls -/

section Calls

variable {σ : Type} {step : σ → Poll → Turn σ} {I : List UInt8 → σ → Prop}

/-- What every returning turn establishes from the invariant holds when a call
returns. -/
theorem runCall_ret {Q : List UInt8 → σ → Prop} {r : FsmStatus}
    (hstep : ∀ c s p, I c s → I (c ++ (step s p).took.toList) (step s p).st)
    (hret : ∀ c s p, I c s → (step s p).ret = some r → Q (c ++ (step s p).took.toList) (step s p).st) :
    ∀ (ps : List Poll) (c : List UInt8) (s : σ), I c s → (runCall step s ps).ret = some r →
      Q (c ++ (runCall step s ps).consumed) (runCall step s ps).st := by
  intro ps
  induction ps with
  | nil => intro c s _ h; simp [runCall] at h
  | cons p ps ih =>
      intro c s h hr'
      cases hr : (step s p).ret with
      | some r' =>
          rw [runCall_cons_some ps hr] at hr' ⊢
          exact hret c s p h (hr.trans hr')
      | none =>
          rw [runCall_cons_none ps hr] at hr' ⊢
          rw [← List.append_assoc]
          exact ih _ _ (hstep c s p h) hr'

/-- Every cell a call writes is one some turn wrote under the invariant. -/
theorem runCall_stored {C : Cell → Prop}
    (hstep : ∀ c s p, I c s → I (c ++ (step s p).took.toList) (step s p).st)
    (hstore : ∀ c s p, I c s → ∀ cell ∈ (step s p).stored, C cell) :
    ∀ (ps : List Poll) (c : List UInt8) (s : σ), I c s →
      ∀ cell ∈ (runCall step s ps).stored, C cell := by
  intro ps
  induction ps with
  | nil => intro c s _; simp [runCall]
  | cons p ps ih =>
      intro c s h cell hcell
      cases hr : (step s p).ret with
      | some r =>
          rw [runCall_cons_some ps hr] at hcell
          exact hstore c s p h cell (Option.mem_toList.mp hcell)
      | none =>
          rw [runCall_cons_none ps hr] at hcell
          rcases List.mem_append.mp hcell with hc | hc
          · exact hstore c s p h cell (Option.mem_toList.mp hc)
          · exact ih _ _ (hstep c s p h) cell hc

end Calls

/-- One more byte at the end of a suffix. -/
theorem suffix_snoc {l c : List UInt8} (h : l <:+ c) (x : UInt8) : l ++ [x] <:+ c ++ [x] := by
  obtain ⟨pre, rfl⟩ := h
  exact ⟨pre, by simp⟩

/-! ## `fsm_recv` -/

/-- The bytes of the frame under way, from its `SOH` on. -/
def RecvSt.sofar (s : RecvSt) : List UInt8 :=
  let hdr := ASC_SOH :: Buf.taken s.framebuf.raw_hdr 10
  match s.pc with
  | .waitForSoh => []
  | .hdr i => ASC_SOH :: Buf.taken s.framebuf.raw_hdr i
  | .stx => hdr
  | .body off _ => hdr ++ ASC_STX :: Buf.taken s.framebuf.raw_body off
  | .etx => hdr ++ ASC_STX :: Buf.taken s.framebuf.raw_body (2 + s.framebuf.plen.toNat)
  | .eot => hdr ++ ASC_STX :: Buf.taken s.framebuf.raw_body (2 + s.framebuf.plen.toNat) ++ [ASC_ETX]

/-- The header in the buffer has passed its check. -/
def RecvSt.HdrOk (s : RecvSt) : Prop :=
  fcs16 FCS_INIT (Buf.taken s.framebuf.raw_hdr 10) = FCS_OK

/-- The loop counters are in range, and the header has been checked from `STX` on. -/
def RecvSt.Wf (s : RecvSt) : Prop :=
  match s.pc with
  | .waitForSoh => True
  | .hdr i => i < 10
  | .stx => s.HdrOk
  | .body off size => s.HdrOk ∧ off < size ∧ size = 2 + s.framebuf.plen.toNat
  | .etx => s.HdrOk
  | .eot => s.HdrOk

/-- The invariant of `fsm_recv` after it has taken the bytes `c`. -/
structure RecvInv (c : List UInt8) (s : RecvSt) : Prop where
  wf : s.Wf
  sofar : s.sofar <:+ c

theorem RecvInv.of_waitForSoh {c : List UInt8} {s : RecvSt} (h : s.pc = .waitForSoh) :
    RecvInv c s := by
  refine ⟨?_, ?_⟩
  · simp [RecvSt.Wf, h]
  · simp [RecvSt.sofar, h]

@[simp] theorem RecvSt.restart_pc (s : RecvSt) : s.restart.pc = .waitForSoh := rfl
@[simp] theorem RecvSt.await_pc (s : RecvSt) (pc : RecvPc) (now : UInt64) :
    (s.await pc now).pc = pc := rfl
@[simp] theorem RecvSt.await_framebuf (s : RecvSt) (pc : RecvPc) (now : UInt64) :
    (s.await pc now).framebuf = s.framebuf := rfl
@[simp] theorem RecvSt.restart_framebuf (s : RecvSt) : s.restart.framebuf = s.framebuf := rfl

/-- The header bytes, once checked, are those of the frame with its FCS. -/
theorem Mframe.taken_hdr_of_ok {m : Mframe}
    (h : fcs16 FCS_INIT (Buf.taken m.raw_hdr 10) = FCS_OK) :
    Buf.taken m.raw_hdr 10 = withFcs m.frame.hdr := by
  have hsplit : Buf.taken m.raw_hdr 10 = m.frame.hdr ++ [m.raw_hdr 8, m.raw_hdr 9] := by
    rw [Buf.taken_succ, Buf.taken_succ, m.taken_raw_hdr]
    simp
  rw [hsplit] at h ⊢
  rw [fcs16_residue_unique h, withFcs]

/-- Likewise for the body. -/
theorem Mframe.taken_body_of_ok {m : Mframe}
    (h : fcs16 FCS_INIT (Buf.taken m.raw_body (2 + m.plen.toNat)) = FCS_OK) :
    Buf.taken m.raw_body (2 + m.plen.toNat) = withFcs m.frame.payload := by
  have hsplit : Buf.taken m.raw_body (2 + m.plen.toNat) =
      m.frame.payload ++ [m.raw_body m.plen.toNat, m.raw_body (m.plen.toNat + 1)] := by
    rw [Nat.add_comm, Buf.taken_succ, Buf.taken_succ]
    simp [Mframe.frame, Mframe.body]
  rw [hsplit] at h ⊢
  rw [fcs16_residue_unique h, withFcs]

/-- Handing a byte over keeps the invariant. -/
theorem recvInv_got {c : List UInt8} {s : RecvSt} (h : RecvInv c s) (now : UInt64) (x : UInt8) :
    RecvInv (c ++ [x]) (recvGot s now x).st := by
  obtain ⟨hwf, hso⟩ := h
  unfold recvGot
  cases hpc : s.pc with
  | waitForSoh =>
      by_cases hx : x = ASC_SOH
      · subst hx
        exact ⟨by simp [RecvSt.Wf], by simp [RecvSt.sofar]⟩
      · simp only [hx, if_false]
        exact .of_waitForSoh hpc
  | hdr i =>
      simp only [RecvSt.Wf, hpc] at hwf
      simp only [RecvSt.sofar, hpc] at hso
      have hnext : ASC_SOH :: Buf.taken (s.putHdr i x).framebuf.raw_hdr (i + 1) <:+ c ++ [x] := by
        rw [RecvSt.putHdr, Buf.taken_update]
        exact suffix_snoc hso x
      simp only
      split
      · rename_i hlt
        exact ⟨hlt, by simpa [RecvSt.sofar] using hnext⟩
      · have hi : i = 9 := by omega
        subst hi
        split
        · rename_i hok
          exact ⟨hok, by simpa [RecvSt.sofar] using hnext⟩
        · exact .of_waitForSoh rfl
  | stx =>
      simp only [RecvSt.Wf, hpc] at hwf
      simp only [RecvSt.sofar, hpc] at hso
      by_cases hx : x = ASC_STX
      · subst hx
        refine ⟨⟨hwf, by omega, rfl⟩, ?_⟩
        simpa [RecvSt.sofar] using suffix_snoc hso ASC_STX
      · simp only [hx, if_false]
        exact .of_waitForSoh rfl
  | body off size =>
      simp only [RecvSt.Wf, hpc] at hwf
      simp only [RecvSt.sofar, hpc] at hso
      obtain ⟨hok, hlt, hsize⟩ := hwf
      have hnext : ASC_SOH :: Buf.taken (s.putBody off x).framebuf.raw_hdr 10 ++
          ASC_STX :: Buf.taken (s.putBody off x).framebuf.raw_body (off + 1) <:+ c ++ [x] := by
        simp only [RecvSt.putBody, Buf.taken_update]
        simpa using suffix_snoc hso x
      simp only
      split
      · rename_i hlt'
        exact ⟨⟨hok, hlt', hsize⟩, by simpa [RecvSt.sofar] using hnext⟩
      · have hoff : off + 1 = 2 + s.framebuf.plen.toNat := by omega
        rw [hoff] at hnext
        exact ⟨hok, by simpa [RecvSt.sofar, RecvSt.putBody, Mframe.plen] using hnext⟩
  | etx =>
      simp only [RecvSt.Wf, hpc] at hwf
      simp only [RecvSt.sofar, hpc] at hso
      by_cases hx : x = ASC_ETX
      · subst hx
        refine ⟨hwf, ?_⟩
        simpa [RecvSt.sofar] using suffix_snoc hso ASC_ETX
      · simp only [hx, if_false]
        exact .of_waitForSoh rfl
  | eot =>
      simp only
      split <;> exact .of_waitForSoh rfl

/-- **Step lemma of `fsm_recv`.** -/
theorem recvInv_step (c : List UInt8) (s : RecvSt) (p : Poll) (h : RecvInv c s) :
    RecvInv (c ++ (recvStep s p).took.toList) (recvStep s p).st := by
  obtain ⟨timer, now, -, -, heq⟩ | ⟨-, heq⟩ | ⟨x, now, -, heq⟩ := recvStep_cases s p
  · rw [heq]
    exact .of_waitForSoh rfl
  · rw [heq]
    simpa using h
  · rw [heq]
    exact recvInv_got h now x

/-- Only the last symbol of a frame makes a call return `FSM_OK`. -/
theorem recvGot_ret {s : RecvSt} {now : UInt64} {x : UInt8} {r : FsmStatus}
    (h : (recvGot s now x).ret = some r) :
    r = .ok ∧ s.pc = .eot ∧ x = ASC_EOT ∧ (recvGot s now x).st = s.restart ∧
      fcs16 FCS_INIT (Buf.taken s.framebuf.raw_body (2 + s.framebuf.plen.toNat)) = FCS_OK := by
  unfold recvGot at h ⊢
  cases hpc : s.pc with
  | eot =>
      rw [hpc] at h
      simp only at h ⊢
      split at h
      · rename_i hx
        simp only [Option.some.injEq] at h
        exact ⟨h.symm, trivial, hx.1, by simp [hx], hx.2⟩
      · simp at h
  | waitForSoh | hdr | stx | body | etx => simp [hpc] at h

/-- When a turn of `fsm_recv` returns `FSM_OK`, the last bytes taken are those
`fsm_send` emits for the frame in the buffer. -/
theorem recvStep_ok (c : List UInt8) (s : RecvSt) (p : Poll) (h : RecvInv c s)
    (hret : (recvStep s p).ret = some .ok) :
    fsm_send (recvStep s p).st.framebuf.frame <:+ c ++ (recvStep s p).took.toList := by
  obtain ⟨timer, now, -, -, heq⟩ | ⟨-, heq⟩ | ⟨x, now, -, heq⟩ := recvStep_cases s p
  · rw [heq] at hret
    cases timer <;> simp [FiredTurn] at hret
  · rw [heq] at hret
    simp at hret
  · rw [heq] at hret ⊢
    obtain ⟨-, hpc, rfl, hst, hbody⟩ := recvGot_ret hret
    obtain ⟨hwf, hso⟩ := h
    simp only [RecvSt.Wf, hpc] at hwf
    simp only [RecvSt.sofar, hpc] at hso
    rw [Mframe.taken_hdr_of_ok hwf, Mframe.taken_body_of_ok hbody] at hso
    simp only [hst, RecvSt.restart_framebuf, Option.toList_some, fsm_send_eq]
    simpa using suffix_snoc hso ASC_EOT

/-- Every cell a turn writes is inside its array. -/
theorem recvStep_stored (c : List UInt8) (s : RecvSt) (p : Poll) (h : RecvInv c s) :
    ∀ cell ∈ (recvStep s p).stored, cell.InBounds := by
  obtain ⟨timer, now, -, -, heq⟩ | ⟨-, heq⟩ | ⟨x, now, -, heq⟩ := recvStep_cases s p
  · simp [heq, FiredTurn]
  · simp [heq]
  · rw [heq]
    have hwf := h.wf
    unfold recvGot
    cases hpc : s.pc with
    | hdr i =>
        simp only [RecvSt.Wf, hpc] at hwf
        simpa [Cell.InBounds] using hwf
    | body off size =>
        simp only [RecvSt.Wf, hpc] at hwf
        have hplen := s.framebuf.plen.toNat_lt
        simp [Cell.InBounds]
        omega
    | eot =>
        simp only
        split <;> simp
    | waitForSoh | stx | etx => simp

/-! ## `fsm_recv_ack` -/

/-- The bytes of the acknowledgement under way, from its `ACK` on. -/
def AckSt.sofar (s : AckSt) : List UInt8 :=
  match s.pc with
  | .waitForAck => []
  | .frame i => ASC_ACK :: Buf.taken s.raw_frame i
  | .eot => ASC_ACK :: Buf.taken s.raw_frame 4

/-- The invariant of `fsm_recv_ack` after it has taken the bytes `c`. -/
structure AckInv (c : List UInt8) (s : AckSt) : Prop where
  wf : ∀ i, s.pc = .frame i → i < 4
  sofar : s.sofar <:+ c

theorem AckInv.of_waitForAck {c : List UInt8} {s : AckSt} (h : s.pc = .waitForAck) :
    AckInv c s := by
  refine ⟨?_, ?_⟩
  · simp [h]
  · simp [AckSt.sofar, h]

theorem ackInv_got {c : List UInt8} {iden : UInt16} {s : AckSt} (h : AckInv c s) (now : UInt64)
    (x : UInt8) : AckInv (c ++ [x]) (ackGot iden s now x).st := by
  obtain ⟨hwf, hso⟩ := h
  unfold ackGot
  cases hpc : s.pc with
  | waitForAck =>
      by_cases hx : x = ASC_ACK
      · subst hx
        exact ⟨by simp [AckSt.await], by simp [AckSt.sofar, AckSt.await]⟩
      · simp only [hx, if_false]
        exact .of_waitForAck hpc
  | frame i =>
      have hi := hwf i hpc
      simp only [AckSt.sofar, hpc] at hso
      have hnext : ASC_ACK :: Buf.taken (Function.update s.raw_frame i x) (i + 1) <:+ c ++ [x] := by
        rw [Buf.taken_update]
        exact suffix_snoc hso x
      simp only
      split
      · rename_i hlt
        exact ⟨by simp [AckSt.await]; omega, by simpa [AckSt.sofar, AckSt.await] using hnext⟩
      · have hi3 : i = 3 := by omega
        subst hi3
        exact ⟨by simp [AckSt.await], by simpa [AckSt.sofar, AckSt.await] using hnext⟩
  | eot =>
      simp only
      split <;> exact .of_waitForAck rfl

/-- **Step lemma of `fsm_recv_ack`.** -/
theorem ackInv_step (iden : UInt16) (c : List UInt8) (s : AckSt) (p : Poll) (h : AckInv c s) :
    AckInv (c ++ (ackStep iden s p).took.toList) (ackStep iden s p).st := by
  obtain ⟨timer, now, -, -, heq⟩ | ⟨-, heq⟩ | ⟨x, now, -, heq⟩ := ackStep_cases iden s p
  · rw [heq]
    exact .of_waitForAck rfl
  · rw [heq]
    simpa using h
  · rw [heq]
    exact ackInv_got h now x

theorem ackGot_ret {iden : UInt16} {s : AckSt} {now : UInt64} {x : UInt8} {r : FsmStatus}
    (h : (ackGot iden s now x).ret = some r) :
    r = .ok ∧ s.pc = .eot ∧ x = ASC_EOT ∧ s.Accepts iden := by
  unfold ackGot at h
  cases hpc : s.pc with
  | eot =>
      rw [hpc] at h
      simp only at h
      split at h
      · rename_i hx
        simp only [Option.some.injEq] at h
        exact ⟨h.symm, rfl, hx⟩
      · simp at h
  | waitForAck | frame => simp [hpc] at h

/-- The buffer of an accepted acknowledgement is the identifier with its FCS. -/
theorem AckSt.Accepts.taken_eq {s : AckSt} {iden : UInt16} (h : s.Accepts iden) :
    Buf.taken s.raw_frame 4 = withFcs (le16 iden) := by
  obtain ⟨hfcs, hiden⟩ := h
  have hsplit : Buf.taken s.raw_frame 4 = le16 iden ++ [s.raw_frame 2, s.raw_frame 3] := by
    rw [← hiden, AckSt.iden, le16_get16]
    simp [Buf.taken, List.range_succ]
  rw [hsplit] at hfcs ⊢
  rw [fcs16_residue_unique hfcs, withFcs]

/-- When a turn of `fsm_recv_ack(iden)` returns `FSM_OK`, the last bytes taken
are those of `fsm_send_ack(iden)`. -/
theorem ackStep_ok (iden : UInt16) (c : List UInt8) (s : AckSt) (p : Poll) (h : AckInv c s)
    (hret : (ackStep iden s p).ret = some .ok) :
    fsm_send_ack iden <:+ c ++ (ackStep iden s p).took.toList := by
  obtain ⟨timer, now, -, -, heq⟩ | ⟨-, heq⟩ | ⟨x, now, -, heq⟩ := ackStep_cases iden s p
  · rw [heq] at hret
    cases timer <;> simp [FiredTurn] at hret
  · rw [heq] at hret
    simp at hret
  · rw [heq] at hret ⊢
    obtain ⟨-, hpc, rfl, hacc⟩ := ackGot_ret hret
    have hso := h.sofar
    simp only [AckSt.sofar, hpc, hacc.taken_eq] at hso
    rw [fsm_send_ack_eq]
    exact suffix_snoc hso ASC_EOT

end Bcm2835.Pup

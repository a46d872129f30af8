import Bcm2835.Pup.RecvSpec

/-!
# Programs over the receivers, byte for byte

A program that waits in `fsm_recv` and `fsm_recv_ack` runs one turn of the loop
it is in after another; when the loop returns, it goes on to its next wait. A
run is a list of polls: every stream of bytes with every schedule of timers is
one. `Party` is what such a program has to say for itself.
-/

namespace Bcm2835.Pup

/-- The receive loop a program waits in. -/
inductive Wait
  | recv
  | recv_ack (iden : UInt16)
  | nothing
deriving DecidableEq

/-- A program: the loop it waits in, its `fsm`, and what it does from the return
of the call, with a status and what is in `framebuf`, to the next call. -/
structure Party (κ : Type) where
  wait : κ → Wait
  fsm : κ → Fsm
  setFsm : κ → Fsm → κ
  goOn : κ → FsmStatus → Frame → (Nat → UInt64) → κ × List Msg
  wait_setFsm : ∀ k fsm', fsm'.iden = (fsm k).iden → wait (setFsm k fsm') = wait k

/-- A program with its receive loops: where each is when it runs, the static
`framebuf`, and what is on the stack where `fsm_recv_ack` has its buffer. -/
structure Machine (κ : Type) where
  ctl : κ
  recv : RecvPc
  framebuf : Mframe
  ack : AckPc
  raw_frame : Nat → UInt8

/-- A turn: the state it leaves, what it sends, and the byte it takes from the
UART. -/
structure MachineTurn (κ : Type) where
  st : Machine κ
  out : List Msg
  took : Option UInt8

namespace Machine

variable {κ : Type} (A : Party κ) (s : Machine κ) (p : Poll)

/-- A program in its first wait. -/
def start (ctl : κ) (framebuf : Mframe) (raw_frame : Nat → UInt8) : Machine κ where
  ctl := ctl
  recv := .waitForSoh
  framebuf := framebuf
  ack := .waitForAck
  raw_frame := raw_frame

def recvSt : RecvSt := ⟨s.recv, A.fsm s.ctl, s.framebuf⟩
def ackSt : AckSt := ⟨s.ack, A.fsm s.ctl, s.raw_frame⟩

/-- What follows a turn of the loop: nothing, or the next part of the program if
the call has returned. -/
def after (ret : Option FsmStatus) (took : Option UInt8) : MachineTurn κ :=
  match ret with
  | none => ⟨s, [], took⟩
  | some r =>
      let next := A.goOn s.ctl r s.framebuf.frame p.time
      ⟨{ s with ctl := next.1 }, next.2, took⟩

/-- A turn inside `fsm_recv(&framebuf)`. -/
def recvTurn : MachineTurn κ :=
  let t := recvStep (s.recvSt A) p
  let s : Machine κ :=
    { s with ctl := A.setFsm s.ctl t.st.fsm, recv := t.st.pc, framebuf := t.st.framebuf }
  s.after A p t.ret t.took

/-- A turn inside `fsm_recv_ack(iden)`. -/
def ackTurn (iden : UInt16) : MachineTurn κ :=
  let t := ackStep iden (s.ackSt A) p
  let s : Machine κ :=
    { s with ctl := A.setFsm s.ctl t.st.fsm, ack := t.st.pc, raw_frame := t.st.raw_frame }
  s.after A p t.ret t.took

/-- One turn. -/
def turn : MachineTurn κ :=
  match A.wait s.ctl with
  | .recv => s.recvTurn A p
  | .recv_ack iden => s.ackTurn A p iden
  | .nothing => ⟨s, [], none⟩

end Machine

/-- What follows a turn does not touch the loops. -/
@[simp] theorem Machine.after_ack {κ : Type} (A : Party κ) (s : Machine κ) (p : Poll)
    (ret : Option FsmStatus) (took : Option UInt8) : (s.after A p ret took).st.ack = s.ack := by
  cases ret <;> rfl

/-! ## What a turn can do -/

/-- The identifier, and the timers but `TIMER_SYMBOL` that are switched on. -/
structure Fsm.Same (fsm fsm' : Fsm) : Prop where
  iden : fsm'.iden = fsm.iden
  active : ∀ t, t ≠ .symbol → (fsm'.timers t).active = (fsm.timers t).active

@[simp] theorem Fsm.Same.refl (fsm : Fsm) : fsm.Same fsm := ⟨rfl, fun _ _ => rfl⟩

theorem Fsm.restart_active (fsm : Fsm) (t t' : FsmTimer) (now : UInt64) :
    ((fsm.restart t now).timers t').active = (fsm.timers t').active := by
  by_cases h : t' = t
  · subst h
    simp [Fsm.restart]
  · simp [Fsm.restart, Function.update_of_ne h]

theorem Fsm.Same.restart (fsm : Fsm) (t : FsmTimer) (now : UInt64) :
    fsm.Same (fsm.restart t now) := ⟨rfl, fun t' _ => fsm.restart_active t t' now⟩

@[simp] theorem Fsm.Same.symbol (fsm : Fsm) (now : UInt64) :
    fsm.Same (fsm_timer_clear fsm .symbol now) :=
  ⟨rfl, fun t ht => by simp [fsm_timer_clear, Function.update_of_ne ht]⟩

theorem recvStep_same (s : RecvSt) (p : Poll) : s.fsm.Same (recvStep s p).st.fsm := by
  have hgot : ∀ now c, s.fsm.Same (recvGot s now c).st.fsm := by
    intro now c
    unfold recvGot
    split <;> (try simp only) <;> split_ifs <;>
      simp [RecvSt.await, RecvSt.restart, RecvSt.putHdr, RecvSt.putBody]
  obtain ⟨timer, now, -, -, heq⟩ | ⟨-, heq⟩ | ⟨c, now, -, heq⟩ := recvStep_cases s p
  · rw [heq]
    exact .restart s.fsm timer now
  · rw [heq]
    exact .refl s.fsm
  · rw [heq]
    exact hgot now c

theorem ackStep_same (iden : UInt16) (s : AckSt) (p : Poll) :
    s.fsm.Same (ackStep iden s p).st.fsm := by
  have hgot : ∀ now c, s.fsm.Same (ackGot iden s now c).st.fsm := by
    intro now c
    unfold ackGot
    split <;> (try simp only) <;> split_ifs <;> simp [AckSt.await, AckSt.restart]
  obtain ⟨timer, now, -, -, heq⟩ | ⟨-, heq⟩ | ⟨c, now, -, heq⟩ := ackStep_cases iden s p
  · rw [heq]
    exact .restart s.fsm timer now
  · rw [heq]
    exact .refl s.fsm
  · rw [heq]
    exact hgot now c

namespace Machine

variable {κ : Type} {A : Party κ} {s : Machine κ} {p : Poll}

/-- The call the program waits in returns `r` on this turn. -/
inductive Returns (A : Party κ) (s : Machine κ) (p : Poll) (r : FsmStatus) : Prop
  | recv : A.wait s.ctl = .recv → (recvStep (s.recvSt A) p).ret = some r → Returns A s p r
  | recv_ack {iden : UInt16} : A.wait s.ctl = .recv_ack iden →
      (ackStep iden (s.ackSt A) p).ret = some r → Returns A s p r

theorem Returns.waits {r : FsmStatus} (h : s.Returns A p r) : A.wait s.ctl ≠ .nothing := by
  intro hw
  cases h with
  | recv h => cases hw.symm.trans h
  | recv_ack h => cases hw.symm.trans h

/-- Either the wait goes on, and only loops and timers move; or it is over, and
the program goes on. -/
theorem turn_cases (A : Party κ) (s : Machine κ) (p : Poll) :
    ((∀ r, ¬s.Returns A p r) ∧ (s.turn A p).out = [] ∧
        ((s.turn A p).st.ctl = s.ctl ∨ ∃ fsm, (A.fsm s.ctl).Same fsm ∧
          (s.turn A p).st.ctl = A.setFsm s.ctl fsm)) ∨
      ∃ r fsm, s.Returns A p r ∧ (A.fsm s.ctl).Same fsm ∧
        ((s.turn A p).st.ctl, (s.turn A p).out) =
          A.goOn (A.setFsm s.ctl fsm) r (s.turn A p).st.framebuf.frame p.time := by
  cases hw : A.wait s.ctl with
  | nothing =>
      have hturn : s.turn A p = ⟨s, [], none⟩ := by simp only [turn, hw]
      rw [hturn]
      exact .inl ⟨fun r hr => hr.waits hw, rfl, .inl rfl⟩
  | recv =>
      have hturn : s.turn A p = s.recvTurn A p := by simp only [turn, hw]
      have hsame := recvStep_same (s.recvSt A) p
      rw [hturn]
      cases hret : (recvStep (s.recvSt A) p).ret with
      | none =>
          simp only [recvTurn, after, hret]
          refine .inl ⟨fun r hr => ?_, trivial, .inr ⟨_, hsame, rfl⟩⟩
          cases hr with
          | recv _ h => cases hret.symm.trans h
          | recv_ack h => cases hw.symm.trans h
      | some r =>
          simp only [recvTurn, after, hret]
          exact .inr ⟨r, _, .recv hw hret, hsame, rfl⟩
  | recv_ack iden =>
      have hturn : s.turn A p = s.ackTurn A p iden := by simp only [turn, hw]
      have hsame := ackStep_same iden (s.ackSt A) p
      rw [hturn]
      cases hret : (ackStep iden (s.ackSt A) p).ret with
      | none =>
          simp only [ackTurn, after, hret]
          refine .inl ⟨fun r hr => ?_, trivial, .inr ⟨_, hsame, rfl⟩⟩
          cases hr with
          | recv h => cases hw.symm.trans h
          | recv_ack h h' =>
              cases hw.symm.trans h
              cases hret.symm.trans h'
      | some r =>
          simp only [ackTurn, after, hret]
          exact .inr ⟨r, _, .recv_ack hw hret, hsame, rfl⟩

end Machine

/-! ## What a machine has taken -/

/-- A call that returns leaves its loop scanning. -/
theorem recvStep_ret_scans {s : RecvSt} {p : Poll} {r : FsmStatus}
    (h : (recvStep s p).ret = some r) : (recvStep s p).st.pc = .waitForSoh := by
  obtain ⟨timer, now, -, -, heq⟩ | ⟨-, heq⟩ | ⟨c, now, -, heq⟩ := recvStep_cases s p
  · rw [heq]
    rfl
  · rw [heq] at h
    cases h
  · rw [heq] at h ⊢
    obtain ⟨-, -, -, hst, -⟩ := recvGot_ret h
    exact congrArg RecvSt.pc hst

theorem ackStep_ret_scans {iden : UInt16} {s : AckSt} {p : Poll} {r : FsmStatus}
    (h : (ackStep iden s p).ret = some r) : (ackStep iden s p).st.pc = .waitForAck := by
  obtain ⟨timer, now, -, -, heq⟩ | ⟨-, heq⟩ | ⟨c, now, -, heq⟩ := ackStep_cases iden s p
  · rw [heq]
    rfl
  · rw [heq] at h
    cases h
  · rw [heq] at h ⊢
    obtain ⟨-, hpc, hc, hacc⟩ := ackGot_ret h
    simp [ackGot, hpc, hc, hacc, AckSt.restart]

/-- A call returns `FSM_RESEND` only if `TIMER_RESEND` is switched on. -/
theorem recvStep_resend {s : RecvSt} {p : Poll} (h : (recvStep s p).ret = some .resend) :
    (s.fsm.timers .resend).active = true := by
  obtain ⟨timer, now, htick, -, heq⟩ | ⟨-, heq⟩ | ⟨c, now, -, heq⟩ := recvStep_cases s p
  · rw [heq] at h
    cases timer <;> simp [FiredTurn] at h
    simp only [Fsm.ticks, timer_triggered, Bool.and_eq_true] at htick
    exact htick.1
  · rw [heq] at h
    cases h
  · rw [heq] at h
    obtain ⟨hr, -⟩ := recvGot_ret h
    cases hr

theorem RecvInv.withFsm {c : List UInt8} {pc : RecvPc} {fsm fsm' : Fsm} {framebuf : Mframe}
    (h : RecvInv c ⟨pc, fsm, framebuf⟩) : RecvInv c ⟨pc, fsm', framebuf⟩ := ⟨h.wf, h.sofar⟩

theorem AckInv.withFsm {c : List UInt8} {pc : AckPc} {fsm fsm' : Fsm} {raw_frame : Nat → UInt8}
    (h : AckInv c ⟨pc, fsm, raw_frame⟩) : AckInv c ⟨pc, fsm', raw_frame⟩ := ⟨h.wf, h.sofar⟩

namespace Machine

variable {κ : Type} {A : Party κ} {c : List UInt8} {s : Machine κ} {p : Poll}

/-- The loops are where the bytes `c` taken so far have brought them, and a loop
the program is not in scans. -/
structure Synced (A : Party κ) (c : List UInt8) (s : Machine κ) : Prop where
  recv : RecvInv c (s.recvSt A)
  ack : AckInv c (s.ackSt A)
  recv_idle : A.wait s.ctl ≠ .recv → s.recv = .waitForSoh
  ack_idle : (∀ iden, A.wait s.ctl ≠ .recv_ack iden) → s.ack = .waitForAck

theorem Synced.of_scanning (h : s.recv = .waitForSoh) (h' : s.ack = .waitForAck) :
    s.Synced A c where
  recv := .of_waitForSoh h
  ack := .of_waitForAck h'
  recv_idle _ := h
  ack_idle _ := h'

/-- A turn keeps the loops where the bytes bring them. -/
theorem Synced.turn (h : s.Synced A c) : (s.turn A p).st.Synced A (c ++ (s.turn A p).took.toList) := by
  cases hw : A.wait s.ctl with
  | nothing =>
      have hturn : s.turn A p = ⟨s, [], none⟩ := by simp only [Machine.turn, hw]
      rw [hturn]
      simpa using h
  | recv =>
      have hturn : s.turn A p = s.recvTurn A p := by simp only [Machine.turn, hw]
      have hack : s.ack = .waitForAck := h.ack_idle (by simp [hw])
      have hrecv := recvInv_step c (s.recvSt A) p h.recv
      have hsame := recvStep_same (s.recvSt A) p
      rw [hturn]
      cases hret : (recvStep (s.recvSt A) p).ret with
      | none =>
          simp only [recvTurn, after, hret]
          have hw' : A.wait (A.setFsm s.ctl (recvStep (s.recvSt A) p).st.fsm) = .recv :=
            (A.wait_setFsm _ _ hsame.iden).trans hw
          exact ⟨hrecv.withFsm, .of_waitForAck hack, fun hne => absurd hw' hne, fun _ => hack⟩
      | some r =>
          simp only [recvTurn, after, hret]
          exact .of_scanning (recvStep_ret_scans hret) hack
  | recv_ack iden =>
      have hturn : s.turn A p = s.ackTurn A p iden := by simp only [Machine.turn, hw]
      have hrecv : s.recv = .waitForSoh := h.recv_idle (by simp [hw])
      have hack := ackInv_step iden c (s.ackSt A) p h.ack
      have hsame := ackStep_same iden (s.ackSt A) p
      rw [hturn]
      cases hret : (ackStep iden (s.ackSt A) p).ret with
      | none =>
          simp only [ackTurn, after, hret]
          have hw' : A.wait (A.setFsm s.ctl (ackStep iden (s.ackSt A) p).st.fsm) = .recv_ack iden :=
            (A.wait_setFsm _ _ hsame.iden).trans hw
          exact ⟨.of_waitForSoh hrecv, hack.withFsm, fun _ => hrecv,
            fun hne => absurd hw' (hne iden)⟩
      | some r =>
          simp only [ackTurn, after, hret]
          exact .of_scanning hrecv (ackStep_ret_scans hret)

/-- When `fsm_recv` returns `FSM_OK`, the last bytes taken are those of the frame
in the buffer. -/
theorem Synced.returns_frame (h : s.Synced A c) (hw : A.wait s.ctl = .recv)
    (hret : s.Returns A p .ok) :
    fsm_send (s.turn A p).st.framebuf.frame <:+ c ++ (s.turn A p).took.toList := by
  have hturn : s.turn A p = s.recvTurn A p := by simp only [Machine.turn, hw]
  rw [hturn]
  cases hret with
  | recv _ hok =>
      simp only [recvTurn, after, hok]
      exact recvStep_ok c _ p h.recv hok
  | recv_ack hw' => cases hw.symm.trans hw'

/-- When `fsm_recv_ack(iden)` returns `FSM_OK`, the last bytes taken are those
of `fsm_send_ack(iden)`. -/
theorem Synced.returns_ack (h : s.Synced A c) {iden : UInt16} (hw : A.wait s.ctl = .recv_ack iden)
    (hret : s.Returns A p .ok) :
    fsm_send_ack iden <:+ c ++ (s.turn A p).took.toList := by
  have hturn : s.turn A p = s.ackTurn A p iden := by simp only [Machine.turn, hw]
  rw [hturn]
  cases hret with
  | recv hw' => cases hw.symm.trans hw'
  | recv_ack hw' hok =>
      cases hw.symm.trans hw'
      simp only [ackTurn, after, hok]
      exact ackStep_ok iden c _ p h.ack hok

/-- A program that waits for a frame hears of `TIMER_RESEND` only if it has
switched it on. -/
theorem Returns.resend (hw : A.wait s.ctl = .recv) (hret : s.Returns A p .resend) :
    ((A.fsm s.ctl).timers .resend).active = true := by
  cases hret with
  | recv _ h => exact recvStep_resend h
  | recv_ack hw' => cases hw.symm.trans hw'

end Machine

end Bcm2835.Pup

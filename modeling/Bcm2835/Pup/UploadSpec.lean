import Bcm2835.Pup.Upload

/-!
# What a step of the uploader can do

`fsm_upload` moves `Host.core`, the part of the host that decides what it
sends, along the relation `UploadStep`.
-/

namespace Bcm2835.Pup

open Bytes

/-- Where the host waits, its `fsm.iden`, and whether `TIMER_RESEND` is running. -/
structure HostCore where
  pc : UploadPc
  iden : UInt16
  resend : Bool
deriving DecidableEq

def Host.core (h : Host) : HostCore := ⟨h.pc, h.fsm.iden, (h.fsm.timers .resend).active⟩

/-- The host serves chunks or waits for the verdict. -/
def UploadPc.Receives (pc : UploadPc) : Prop := pc = .frames ∨ pc = .beats

/-- A step from one blocking call, returning `r` with `f` in the frame buffer,
to the next, of a host that uploads `file` under `m`. -/
inductive UploadStep (m : Meta) (file : List UInt8) (c : HostCore) (r : FsmStatus) (f : Frame) :
    HostCore → List Msg → Prop
  | idle : c.pc = .exited ∨ (∃ status, c.pc = .returned status) → UploadStep m file c r f c []
  | giveUp : c.pc = .poll ∨ c.pc.Receives → r = .reset →
      UploadStep m file c r f { c with pc := .returned .timeout } []
  | poll : c.pc = .poll ∨ c.pc.Receives → r = .reset →
      UploadStep m file c r f ⟨.poll, 0, true⟩ [.frame (pollFrame 0 m)]
  | repoll : c.pc = .poll → r = .resend →
      UploadStep m file c r f ⟨.poll, c.iden, true⟩ [.frame (pollFrame c.iden m)]
  | polled : c.pc = .poll → r = .ok → UploadStep m file c r f ⟨.frames, c.iden, false⟩ []
  | beat : c.pc = .frames → r ≠ .reset → UploadStep m file c r f { c with pc := .beats } []
  | boot : c.pc.Receives → r ≠ .reset → f.type = DEV_BOOT ∧ f.plen = 1 →
      UploadStep m file c r f
        { c with pc := .returned (if f.payload.getD 0 0 ≠ 0 then .ok else .failed) } [.ack f.iden]
  | serve {data : Chunk} : platform_marshal file (get32 f.payload 0) = some data →
      c.pc = .frames → r ≠ .reset → f.type = DEV_RQCH ∧ f.plen = 4 →
      UploadStep m file c r f c [.frame (chnkFrame f.iden data)]
  | exit : c.pc = .frames → r ≠ .reset → UploadStep m file c r f { c with pc := .exited } []
  | ignore : c.pc.Receives → r ≠ .reset → UploadStep m file c r f c []

@[simp] theorem fsm_timer_clear_ne {fsm : Fsm} {t t' : FsmTimer} {now : UInt64} (h : t' ≠ t) :
    (fsm_timer_clear fsm t now).timers t' = fsm.timers t' := by
  simp [fsm_timer_clear, Function.update_of_ne h]

@[simp] theorem fsm_timer_clear_active (fsm : Fsm) (t : FsmTimer) (now : UInt64) :
    ((fsm_timer_clear fsm t now).timers t).active = true := by
  simp [fsm_timer_clear]

@[simp] theorem Fsm.disarm_active (fsm : Fsm) (t : FsmTimer) :
    ((fsm.disarm t).timers t).active = false := by
  simp [Fsm.disarm]

section Steps

variable (h : Host) (f : Frame) (time : Nat → UInt64)

theorem sendPoll_core (now : UInt64) : (h.sendPoll now).1.core = ⟨.poll, h.fsm.iden, true⟩ := by
  simp [Host.sendPoll, Host.core]

theorem hostReset_spec (now now' : UInt64) (hpc : h.pc = .poll ∨ h.pc.Receives) :
    UploadStep h.meta_ h.file h.core .reset f (h.reset now now').1.core (h.reset now now').2 := by
  unfold Host.reset
  split
  · exact .giveUp hpc rfl
  · simp only [sendPoll_core]
    exact .poll hpc rfl

theorem onPoll_spec (r : FsmStatus) (hpc : h.pc = .poll) :
    UploadStep h.meta_ h.file h.core r f (h.onPoll r time).1.core (h.onPoll r time).2 := by
  unfold Host.onPoll
  cases r with
  | reset => exact hostReset_spec h f _ _ (.inl hpc)
  | resend =>
      simp only [sendPoll_core]
      exact .repoll hpc rfl
  | ok =>
      simp only [Host.core, Fsm.disarm_iden, fsm_timer_clear_iden, Fsm.disarm_active]
      exact .polled hpc rfl

theorem serve_none (hm : platform_marshal h.file (get32 f.payload 0) = none) :
    h.serve f time = ({ h with pc := .exited }, []) := by
  rw [Host.serve, hm]

theorem serve_some {data : Chunk}
    (hm : platform_marshal h.file (get32 f.payload 0) = some data) :
    ∃ h', h'.core = h.core ∧ h'.meta_ = h.meta_ ∧ h'.file = h.file ∧
      h.serve f time = (h', [.frame (chnkFrame f.iden data)]) := by
  let fsm := if h.last_chunk_no ≠ get32 f.payload 0
    then fsm_timer_clear h.fsm .reset (time 3) else h.fsm
  rw [Host.serve, hm]
  refine ⟨{ h with fsm := fsm, last_chunk_no := get32 f.payload 0 }, ?_, rfl, rfl, rfl⟩
  simp only [Host.core, fsm]
  split <;> simp

theorem serve_spec (r : FsmStatus) (hpc : h.pc = .frames) (hr : r ≠ .reset)
    (hf : f.type = DEV_RQCH ∧ f.plen = 4) :
    UploadStep h.meta_ h.file h.core r f (h.serve f time).1.core (h.serve f time).2 := by
  cases hm : platform_marshal h.file (get32 f.payload 0) with
  | none =>
      rw [serve_none h f time hm]
      exact .exit hpc hr
  | some data =>
      obtain ⟨h', hcore, -, -, heq⟩ := serve_some h f time hm
      rw [heq, hcore]
      exact .serve hm hpc hr hf

theorem onFrames_spec (r : FsmStatus) (hpc : h.pc = .frames) :
    UploadStep h.meta_ h.file h.core r f (h.onFrames r f time).1.core (h.onFrames r f time).2 := by
  unfold Host.onFrames
  split
  · rename_i hr
    subst hr
    exact hostReset_spec h f _ _ (.inr (.inl hpc))
  rename_i hr
  split
  · simp only [Host.core, fsm_timer_clear_iden, fsm_timer_clear_ne (by decide : FsmTimer.resend ≠ .reset)]
    exact .beat hpc hr
  split
  · rename_i hf
    exact .boot (.inl hpc) hr hf
  split
  · rename_i hf
    exact serve_spec h f time r hpc hr hf
  · exact .ignore (.inl hpc) hr

theorem onBeats_spec (r : FsmStatus) (hpc : h.pc = .beats) :
    UploadStep h.meta_ h.file h.core r f (h.onBeats r f time).1.core (h.onBeats r f time).2 := by
  unfold Host.onBeats
  split
  · rename_i hr
    subst hr
    exact hostReset_spec h f _ _ (.inr (.inr hpc))
  rename_i hr
  split
  · rename_i hf
    exact .boot (.inr hpc) hr hf
  split
  · simp only [Host.core, fsm_timer_clear_iden, fsm_timer_clear_ne (by decide : FsmTimer.resend ≠ .reset)]
    exact .ignore (.inr hpc) hr
  · exact .ignore (.inr hpc) hr

/-- Every step of `fsm_upload` is one of `UploadStep`. -/
theorem fsm_upload_spec (r : FsmStatus) :
    UploadStep h.meta_ h.file h.core r f (fsm_upload h r f time).1.core
      (fsm_upload h r f time).2 := by
  unfold fsm_upload
  cases hpc : h.pc with
  | poll => exact onPoll_spec h f time r hpc
  | frames => exact onFrames_spec h f time r hpc
  | beats => exact onBeats_spec h f time r hpc
  | returned status => exact .idle (.inr ⟨status, hpc⟩)
  | exited => exact .idle (.inl hpc)

/-- The arguments of `fsm_upload` stay. -/
theorem fsm_upload_args (r : FsmStatus) :
    (fsm_upload h r f time).1.meta_ = h.meta_ ∧ (fsm_upload h r f time).1.file = h.file := by
  have hreset : (h.reset (time 3) (time 4)).1.meta_ = h.meta_ ∧
      (h.reset (time 3) (time 4)).1.file = h.file := by
    unfold Host.reset
    split <;> exact ⟨rfl, rfl⟩
  unfold fsm_upload
  split
  · unfold Host.onPoll
    split
    · exact hreset
    · exact ⟨rfl, rfl⟩
    · exact ⟨rfl, rfl⟩
  · unfold Host.onFrames
    split_ifs
    · exact hreset
    · exact ⟨rfl, rfl⟩
    · exact ⟨rfl, rfl⟩
    · cases hm : platform_marshal h.file (get32 f.payload 0) with
      | none =>
          rw [serve_none h f time hm]
          exact ⟨rfl, rfl⟩
      | some data =>
          obtain ⟨h', -, hmeta, hfile, heq⟩ := serve_some h f time hm
          rw [heq]
          exact ⟨hmeta, hfile⟩
    · exact ⟨rfl, rfl⟩
  · unfold Host.onBeats
    split_ifs
    · exact hreset
    · exact ⟨rfl, rfl⟩
    · exact ⟨rfl, rfl⟩
    · exact ⟨rfl, rfl⟩
  · exact ⟨rfl, rfl⟩
  · exact ⟨rfl, rfl⟩

end Steps

/-- What a fresh call of `fsm_upload` does first: it sends its meta, or gives up
at once when it has no try. -/
theorem hostStart_spec (config : Config) (m : Meta) (file : List UInt8) (retries_ : UInt8)
    (time : Nat → UInt64) :
    let s := Host.start config m file retries_ time
    s.1.meta_ = m ∧ s.1.file = file ∧
      (s.1.core.pc = .returned .timeout ∧ s.2 = [] ∨
        s.1.core = ⟨.poll, 0, true⟩ ∧ s.2 = [.frame (pollFrame 0 m)]) := by
  intro s
  simp only [s, Host.start]
  unfold Host.reset
  split
  · exact ⟨rfl, rfl, .inl ⟨rfl, rfl⟩⟩
  · refine ⟨rfl, rfl, .inr ⟨?_, rfl⟩⟩
    rw [sendPoll_core]
    rfl

/-! ## `TIMER_RESEND` of the host

It runs only while the host polls, so that what ends a wait of a host that
serves chunks is a frame or `TIMER_RESET`. -/

theorem uploadStep_quiet {m : Meta} {file : List UInt8} {c c' : HostCore} {r : FsmStatus}
    {f : Frame} {out : List Msg} (h : UploadStep m file c r f c' out)
    (hc : c.pc.Receives → c.resend = false) : c'.pc.Receives → c'.resend = false := by
  cases h with
  | idle | serve | ignore => exact hc
  | giveUp | boot | exit | poll | repoll => simp [UploadPc.Receives]
  | polled => exact fun _ => rfl
  | beat hpc => exact fun _ => hc (.inl hpc)

/-- What a timer makes the host do: poll again, or give up. -/
theorem uploadStep_fire {m : Meta} {file : List UInt8} {c c' : HostCore} {r : FsmStatus}
    {f : Frame} {out : List Msg} (h : UploadStep m file c r f c' out)
    (hc : c.pc.Receives → c.resend = false) (hr : r = .reset ∨ r = .resend ∧ c.resend = true) :
    (c' = c ∨ c'.pc = .poll ∨ c'.pc = .returned .timeout) ∧
      (out = [] ∨ ∃ iden, out = [.frame (pollFrame iden m)]) := by
  have hserves : c.pc.Receives → r = .reset := by
    intro hpc
    obtain hr | ⟨-, hactive⟩ := hr
    · exact hr
    · simp [hc hpc] at hactive
  cases h with
  | idle => exact ⟨.inl rfl, .inl rfl⟩
  | giveUp => exact ⟨.inr (.inr rfl), .inl rfl⟩
  | poll | repoll => exact ⟨.inr (.inl rfl), .inr ⟨_, rfl⟩⟩
  | polled _ hok => simp [hok] at hr
  | beat hpc hreset | serve _ hpc hreset | exit hpc hreset => exact absurd (hserves (.inl hpc)) hreset
  | boot hpc hreset | ignore hpc hreset => exact absurd (hserves hpc) hreset

end Bcm2835.Pup

import Bcm2835.Pup.DownloadSpec
import Bcm2835.Pup.Machine
import Bcm2835.Pup.UploadSpec

/-!
# The device and the host, byte for byte

`fsm_download` and `fsm_upload` as programs over the receivers.
-/

namespace Bcm2835.Pup

variable {P : Type}

/-! ## The device -/

def Device.wait (d : Device P) : Wait :=
  match d.pc with
  | .init | .chunk => .recv
  | .boot => .recv_ack d.fsm.iden
  | .trampoline | .hung => .nothing

def Device.setFsm (d : Device P) (fsm : Fsm) : Device P := { d with fsm := fsm }

/-- The program of the device. -/
def downloader (T : Platform P) : Party (Device P) where
  wait := Device.wait
  fsm := Device.fsm
  setFsm := Device.setFsm
  goOn := fsm_download T
  wait_setFsm d fsm hiden := by
    simp only [Device.wait, Device.setFsm, hiden]

abbrev DevMachine (P : Type) := Machine (Device P)

/-- The device when `main` calls `fsm_download(&config)`. -/
def DevMachine.start (config : Config) (plat : P) (framebuf : Mframe) (raw_frame : Nat → UInt8) :
    DevMachine P :=
  Machine.start (.start config plat) framebuf raw_frame

/-- One turn of the device. -/
abbrev devTurn (T : Platform P) (s : DevMachine P) (p : Poll) : MachineTurn (Device P) :=
  s.turn (downloader T) p

theorem Device.setFsm_core {d : Device P} {fsm : Fsm} (h : d.fsm.Same fsm) :
    (d.setFsm fsm).core = d.core := by
  simp [Device.core, Device.setFsm, h.iden]

/-- Either the wait goes on, and only loops and timers move; or it is over, and
the downloader makes a step. -/
theorem devTurn_cases (T : Platform P) (s : DevMachine P) (p : Poll) :
    ((∀ r, ¬s.Returns (downloader T) p r) ∧ (devTurn T s p).st.ctl.core = s.ctl.core ∧
        (devTurn T s p).out = []) ∨
      ∃ r, s.Returns (downloader T) p r ∧
        DownloadStep T.Accepts s.ctl.core r (devTurn T s p).st.framebuf.frame
          (devTurn T s p).st.ctl.core (devTurn T s p).out := by
  obtain ⟨hret, hout, hctl⟩ | ⟨r, fsm, hret, hsame, heq⟩ := s.turn_cases (downloader T) p
  · refine .inl ⟨hret, ?_, hout⟩
    obtain hctl | ⟨fsm, hsame, hctl⟩ := hctl
    · rw [hctl]
    · rw [hctl]
      exact Device.setFsm_core hsame
  · refine .inr ⟨r, hret, ?_⟩
    have hstep := fsm_download_spec T (s.ctl.setFsm fsm) (devTurn T s p).st.framebuf.frame p.time r
    have heq : ((devTurn T s p).st.ctl, (devTurn T s p).out) =
        fsm_download T (s.ctl.setFsm fsm) r (devTurn T s p).st.framebuf.frame p.time := heq
    rw [← heq, Device.setFsm_core hsame] at hstep
    exact hstep

/-! ## The host -/

def Host.wait (h : Host) : Wait :=
  match h.pc with
  | .poll => .recv_ack 0
  | .frames | .beats => .recv
  | .returned _ | .exited => .nothing

def Host.setFsm (h : Host) (fsm : Fsm) : Host := { h with fsm := fsm }

/-- The program of the host. -/
def uploader : Party Host where
  wait := Host.wait
  fsm := Host.fsm
  setFsm := Host.setFsm
  goOn := fsm_upload
  wait_setFsm _ _ _ := rfl

theorem Host.setFsm_core {h : Host} {fsm : Fsm} (hsame : h.fsm.Same fsm) :
    (h.setFsm fsm).core = h.core := by
  simp [Host.core, Host.setFsm, hsame.iden, hsame.active .resend (by decide)]

theorem Host.wait_of_receives {h : Host} (hpc : h.pc.Receives) : h.wait = .recv := by
  unfold Host.wait
  obtain hpc | hpc := hpc <;> rw [hpc]

/-- One turn of the host. -/
abbrev hostTurn (s : Machine Host) (p : Poll) : MachineTurn Host := s.turn uploader p

/-- Either the wait goes on, and only loops and timers move; or it is over, and
the uploader makes a step. -/
theorem hostTurn_cases (s : Machine Host) (p : Poll) :
    ((∀ r, ¬s.Returns uploader p r) ∧ (hostTurn s p).st.ctl.core = s.ctl.core ∧
        (hostTurn s p).out = []) ∨
      ∃ r, s.Returns uploader p r ∧
        UploadStep s.ctl.meta_ s.ctl.file s.ctl.core r (hostTurn s p).st.framebuf.frame
          (hostTurn s p).st.ctl.core (hostTurn s p).out := by
  obtain ⟨hret, hout, hctl⟩ | ⟨r, fsm, hret, hsame, heq⟩ := s.turn_cases uploader p
  · refine .inl ⟨hret, ?_, hout⟩
    obtain hctl | ⟨fsm, hsame, hctl⟩ := hctl
    · rw [hctl]
    · rw [hctl]
      exact Host.setFsm_core hsame
  · refine .inr ⟨r, hret, ?_⟩
    have hstep := fsm_upload_spec (s.ctl.setFsm fsm) (hostTurn s p).st.framebuf.frame p.time r
    have heq : ((hostTurn s p).st.ctl, (hostTurn s p).out) =
        fsm_upload (s.ctl.setFsm fsm) r (hostTurn s p).st.framebuf.frame p.time := heq
    rw [← heq, Host.setFsm_core hsame] at hstep
    exact hstep

end Bcm2835.Pup

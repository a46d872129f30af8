import Bcm2835.Pup.Line

/-!
# What a step of the line can do

`LineStep` says it in terms of `DownloadStep` and `UploadStep`; the invariants
of the protocol are proved by cases on it.
-/

namespace Bcm2835.Pup

variable {P : Type}

/-- A step of the line from `s` to `s'`. -/
inductive LineStep (T : Platform P) (s : Line P) (mv : Move) (s' : Line P) : Prop
  /-- The device goes on, after a frame from the channel, an acknowledgement or a timer. -/
  | dev {r : FsmStatus} {f : Frame} {origin : Nat} {h2d : List (Nat × Msg)} {out : List Msg}
      (hstep : DownloadStep T.Accepts s.dev.core r f s'.dev.core out)
      (hframe : s.dev.pc = .init ∨ s.dev.pc = .chunk → r = .ok → (origin, .frame f) ∈ s.h2d)
      (hsub : h2d.Sublist s.h2d)
      (heq : s' =
        { s with
          dev := s'.dev, session := s.session.next s.dev s'.dev origin, h2d := h2d
          d2h := s.d2h ++ out.map (s.session.next s.dev s'.dev origin, ·) })
  /-- The host goes on after a message from the channel. -/
  | hear {f : Frame} {σ : Session} {msg : Msg} {d2h : List (Session × Msg)} {out : List Msg}
      (hstep : UploadStep s.host.meta_ s.host.file s.host.core .ok f s'.host.core out)
      (hargs : s'.host.meta_ = s.host.meta_ ∧ s'.host.file = s.host.file)
      (hhead : s.d2h = (σ, msg) :: d2h)
      (hmsg : s.host.pc = .poll ∧ msg = .ack 0 ∨ s.host.pc.Receives ∧ msg = .frame f)
      (heq : s' =
        { s with
          host := s'.host, heard := σ, h2d := s.h2d ++ out.map (s.run, ·), d2h := d2h })
  /-- The host goes on after a timer. -/
  | fire {r : FsmStatus} {f : Frame} {out : List Msg}
      (hstep : UploadStep s.host.meta_ s.host.file s.host.core r f s'.host.core out)
      (hargs : s'.host.meta_ = s.host.meta_ ∧ s'.host.file = s.host.file)
      (hr : r = .reset ∨ r = .resend ∧ s.host.core.resend = true)
      (heq : s' = { s with host := s'.host, h2d := s.h2d ++ out.map (s.run, ·) })
  /-- A message is lost, or skipped by a receiver. -/
  | lose {h2d : List (Nat × Msg)} {d2h : List (Session × Msg)} (hh2d : h2d.Sublist s.h2d)
      (hd2h : d2h.Sublist s.d2h) (heq : s' = { s with h2d := h2d, d2h := d2h })
  /-- The next run opens the port. -/
  | opens {config : Config} {m : Meta} {file : List UInt8} {retries : UInt8} {time : Nat → UInt64}
      {out : List Msg} (hmv : mv = .opens config m file retries time)
      (hargs : s'.host.meta_ = m ∧ s'.host.file = file)
      (hstart : s'.host.core.pc = .returned .timeout ∧ out = [] ∨
        s'.host.core = ⟨.poll, 0, true⟩ ∧ out = [.frame (pollFrame 0 m)])
      (heq : s' =
        { s with
          host := s'.host, run := s.run + 1, clean := decide (∀ e ∈ s.h2d, ¬e.2.IsPoll)
          h2d := s.h2d ++ out.map (s.run + 1, ·), d2h := [] })

section Goes

variable (T : Platform P) (s : Line P) (fsm : Fsm) (r : FsmStatus) (f : Frame) (time : Nat → UInt64)

theorem devGoes_spec (origin : Nat) (hiden : fsm.iden = s.dev.fsm.iden) :
    ∃ out, DownloadStep T.Accepts s.dev.core r f (s.devGoes T fsm origin r f time).dev.core out ∧
      s.devGoes T fsm origin r f time =
        { s with
          dev := (s.devGoes T fsm origin r f time).dev
          session := s.session.next s.dev (s.devGoes T fsm origin r f time).dev origin
          d2h := s.d2h ++
            out.map (s.session.next s.dev (s.devGoes T fsm origin r f time).dev origin, ·) } := by
  have hstep := fsm_download_spec T { s.dev with fsm := fsm } f time r
  have hcore : Device.core { s.dev with fsm := fsm } = s.dev.core := by simp [Device.core, hiden]
  unfold Line.devGoes
  cases hnext : fsm_download T { s.dev with fsm := fsm } r f time with
  | mk d' out =>
      rw [hnext, hcore] at hstep
      exact ⟨out, hstep, rfl⟩

theorem hostGoes_spec (heard : Session) (hiden : fsm.iden = s.host.fsm.iden)
    (hresend : (fsm.timers .resend).active = (s.host.fsm.timers .resend).active) :
    ∃ out, UploadStep s.host.meta_ s.host.file s.host.core r f
        (s.hostGoes fsm heard r f time).host.core out ∧
      ((s.hostGoes fsm heard r f time).host.meta_ = s.host.meta_ ∧
        (s.hostGoes fsm heard r f time).host.file = s.host.file) ∧
      s.hostGoes fsm heard r f time =
        { s with
          host := (s.hostGoes fsm heard r f time).host, heard := heard
          h2d := s.h2d ++ out.map (s.run, ·) } := by
  have hstep := fsm_upload_spec { s.host with fsm := fsm } f time r
  have hargs := fsm_upload_args { s.host with fsm := fsm } f time r
  have hcore : Host.core { s.host with fsm := fsm } = s.host.core := by
    simp [Host.core, hiden, hresend]
  unfold Line.hostGoes
  cases hnext : fsm_upload { s.host with fsm := fsm } r f time with
  | mk h' out =>
      rw [hnext] at hargs
      rw [hnext, hcore] at hstep
      exact ⟨out, hstep, hargs, rfl⟩

end Goes

/-- Which message ends which wait of the host. -/
theorem Host.wait_takes {h : Host} {framebuf f : Frame} {msg : Msg}
    (htakes : h.wait.takes framebuf msg = some f) :
    h.pc = .poll ∧ msg = .ack 0 ∨ h.pc.Receives ∧ msg = .frame f := by
  unfold Host.wait at htakes
  cases hpc : h.pc with
  | poll =>
      rw [hpc] at htakes
      cases msg with
      | frame g => cases htakes
      | ack iden =>
          simp only [Wait.takes] at htakes
          split at htakes
          · rename_i hiden
            exact .inl ⟨rfl, by rw [hiden]⟩
          · cases htakes
  | frames | beats =>
      rw [hpc] at htakes
      cases msg with
      | frame g =>
          cases htakes
          exact .inr ⟨by simp [UploadPc.Receives], rfl⟩
      | ack iden => cases htakes
  | returned | exited =>
      rw [hpc] at htakes
      cases msg <;> cases htakes

/-- Which message is the frame a device waits for. -/
theorem Device.wait_takes {d : Device P} {framebuf f : Frame} {msg : Msg}
    (hpc : d.pc = .init ∨ d.pc = .chunk) (htakes : d.wait.takes framebuf msg = some f) :
    msg = .frame f := by
  have hwait : d.wait = .recv := by
    unfold Device.wait
    obtain hpc | hpc := hpc <;> rw [hpc]
  rw [hwait] at htakes
  cases msg with
  | frame g =>
      cases htakes
      rfl
  | ack iden => cases htakes

/-- A step of the line from `s` to `s'`, move by move: who takes which message,
and who sees which timer fire. -/
inductive MoveStep (T : Platform P) (s s' : Line P) : Move → Prop
  | devTakes {framebuf f : Frame} {time : Nat → UInt64} {origin : Nat} {msg : Msg}
      {h2d : List (Nat × Msg)} {out : List Msg} (hhead : s.h2d = (origin, msg) :: h2d)
      (hmsg : s.dev.pc = .init ∨ s.dev.pc = .chunk → msg = .frame f)
      (hstep : DownloadStep T.Accepts s.dev.core .ok f s'.dev.core out)
      (heq : s' =
        { s with
          dev := s'.dev, session := s.session.next s.dev s'.dev origin, h2d := h2d
          d2h := s.d2h ++ out.map (s.session.next s.dev s'.dev origin, ·) }) :
      MoveStep T s s' (.devTakes framebuf time)
  | devSkips {framebuf : Frame} {time : Nat → UInt64} {e : Nat × Msg} {h2d : List (Nat × Msg)}
      (hhead : s.h2d = e :: h2d) (heq : s' = { s with h2d := h2d }) :
      MoveStep T s s' (.devTakes framebuf time)
  | devFires {timer : FsmTimer} {f : Frame} {time : Nat → UInt64} {r : FsmStatus} {out : List Msg}
      (hr : timer.status = some r)
      (hstep : DownloadStep T.Accepts s.dev.core r f s'.dev.core out)
      (heq : s' =
        { s with
          dev := s'.dev, session := s.session.next s.dev s'.dev s.session.opener
          d2h := s.d2h ++ out.map (s.session.next s.dev s'.dev s.session.opener, ·) }) :
      MoveStep T s s' (.devFires timer f time)
  | hostTakes {framebuf f : Frame} {time : Nat → UInt64} {σ : Session} {msg : Msg}
      {d2h : List (Session × Msg)} {out : List Msg} (hhead : s.d2h = (σ, msg) :: d2h)
      (hmsg : s.host.pc = .poll ∧ msg = .ack 0 ∨ s.host.pc.Receives ∧ msg = .frame f)
      (hstep : UploadStep s.host.meta_ s.host.file s.host.core .ok f s'.host.core out)
      (hargs : s'.host.meta_ = s.host.meta_ ∧ s'.host.file = s.host.file)
      (heq : s' =
        { s with host := s'.host, heard := σ, h2d := s.h2d ++ out.map (s.run, ·), d2h := d2h }) :
      MoveStep T s s' (.hostTakes framebuf time)
  | hostSkips {framebuf : Frame} {time : Nat → UInt64} {e : Session × Msg}
      {d2h : List (Session × Msg)} (hhead : s.d2h = e :: d2h) (heq : s' = { s with d2h := d2h }) :
      MoveStep T s s' (.hostTakes framebuf time)
  | hostFires {timer : FsmTimer} {f : Frame} {time : Nat → UInt64} {r : FsmStatus} {out : List Msg}
      (hr : timer.status = some r) (hactive : (s.host.fsm.timers timer).active = true)
      (hstep : UploadStep s.host.meta_ s.host.file s.host.core r f s'.host.core out)
      (hargs : s'.host.meta_ = s.host.meta_ ∧ s'.host.file = s.host.file)
      (heq : s' = { s with host := s'.host, h2d := s.h2d ++ out.map (s.run, ·) }) :
      MoveStep T s s' (.hostFires timer f time)
  | loseToDevice {i : Nat} (heq : s' = { s with h2d := s.h2d.eraseIdx i }) :
      MoveStep T s s' (.loseToDevice i)
  | loseToHost {i : Nat} (heq : s' = { s with d2h := s.d2h.eraseIdx i }) :
      MoveStep T s s' (.loseToHost i)
  | opens {config : Config} {m : Meta} {file : List UInt8} {retries : UInt8} {time : Nat → UInt64}
      (heq : s' = s.opens config m file retries time) :
      MoveStep T s s' (.opens config m file retries time)

/-- Every possible move is one of `MoveStep`. -/
theorem move_step {T : Platform P} {s s' : Line P} {mv : Move} (h : lineNext T s mv = some s') :
    MoveStep T s s' mv := by
  cases mv with
  | devTakes framebuf time =>
      simp only [lineNext] at h
      split at h
      · cases h
      rename_i origin msg h2d hh2d
      split at h
      · cases h
        exact .devSkips hh2d rfl
      · rename_i f htakes
        obtain ⟨out, hstep, heq⟩ :=
          devGoes_spec T { s with h2d := h2d } s.dev.fsm .ok f time origin rfl
        cases h
        exact .devTakes hh2d (fun hpc => Device.wait_takes hpc htakes) hstep heq
  | devFires timer framebuf time =>
      simp only [lineNext] at h
      split at h
      · cases h
      rename_i r hr
      split at h
      · obtain ⟨out, hstep, heq⟩ :=
          devGoes_spec T s (s.dev.fsm.restart timer (time 0)) r framebuf time s.session.opener rfl
        cases h
        exact .devFires hr hstep heq
      · cases h
  | hostTakes framebuf time =>
      simp only [lineNext] at h
      split at h
      · cases h
      rename_i σ msg d2h hd2h
      split at h
      · cases h
        exact .hostSkips hd2h rfl
      · rename_i f htakes
        obtain ⟨out, hstep, hargs, heq⟩ :=
          hostGoes_spec { s with d2h := d2h } s.host.fsm .ok f time σ rfl rfl
        cases h
        exact .hostTakes hd2h (Host.wait_takes htakes) hstep hargs heq
  | hostFires timer framebuf time =>
      simp only [lineNext] at h
      split at h
      · cases h
      rename_i r hr
      split at h
      · rename_i hactive
        obtain ⟨out, hstep, hargs, heq⟩ :=
          hostGoes_spec s (s.host.fsm.restart timer (time 0)) r framebuf time s.heard rfl
            (Fsm.restart_active _ _ _ _)
        cases h
        exact .hostFires hr hactive hstep hargs heq
      · cases h
  | loseToDevice i =>
      cases h
      exact .loseToDevice rfl
  | loseToHost i =>
      cases h
      exact .loseToHost rfl
  | opens config m file retries time =>
      cases h
      exact .opens rfl

/-- Every step of the line is one of `LineStep`. -/
theorem line_step {T : Platform P} {s s' : Line P} {mv : Move} (h : (line T).step s mv s') :
    LineStep T s mv s' := by
  cases move_step h with
  | devTakes hhead hmsg hstep heq =>
      refine .dev hstep (fun hpc _ => ?_) (hhead ▸ List.sublist_cons_self _ _) heq
      rw [hhead, hmsg hpc]
      exact List.mem_cons_self
  | devSkips hhead heq =>
      exact .lose (hhead ▸ List.sublist_cons_self _ _) (List.Sublist.refl _) heq
  | @devFires timer _ _ r _ hr hstep heq =>
      refine .dev hstep (fun _ hok => ?_) (List.Sublist.refl _) heq
      cases timer <;> simp [FsmTimer.status, hok] at hr
  | hostTakes hhead hmsg hstep hargs heq => exact .hear hstep hargs hhead hmsg heq
  | hostSkips hhead heq =>
      exact .lose (List.Sublist.refl _) (hhead ▸ List.sublist_cons_self _ _) heq
  | @hostFires timer _ _ r _ hr hactive hstep hargs heq =>
      refine .fire hstep hargs ?_ heq
      cases timer with
      | reset => exact .inl (Option.some.inj hr).symm
      | resend => exact .inr ⟨(Option.some.inj hr).symm, hactive⟩
      | symbol => cases hr
  | loseToDevice heq => exact .lose (List.eraseIdx_sublist _ _) (List.Sublist.refl _) heq
  | loseToHost heq => exact .lose (List.Sublist.refl _) (List.eraseIdx_sublist _ _) heq
  | @opens config m file retries time heq =>
      obtain ⟨hmeta, hfile, hstart⟩ := hostStart_spec config m file retries time
      subst heq
      exact .opens rfl ⟨hmeta, hfile⟩ hstart rfl

/-! ## `TIMER_RESEND` of the host -/

theorem line_quiet {T : Platform P} : ∀ s, (line T).Reachable s →
    s.host.core.pc.Receives → s.host.core.resend = false := by
  refine TSys.invariant_of ?_ ?_
  · rintro s ⟨config, plat, rfl⟩ hpc
    simp [Line.start, Host.core, UploadPc.Receives] at hpc
  · intro s mv s' _ hs hstep
    cases line_step hstep with
    | dev _ _ _ heq | lose _ _ heq =>
        rw [heq]
        exact hs
    | hear hup => exact uploadStep_quiet hup hs
    | fire hup => exact uploadStep_quiet hup hs
    | opens _ _ hstart =>
        intro hpc
        obtain ⟨hpc', -⟩ | ⟨hcore, -⟩ := hstart
        · simp [hpc', UploadPc.Receives] at hpc
        · simp [hcore, UploadPc.Receives] at hpc

end Bcm2835.Pup

import Bcm2835.Pup.Board
import Bcm2835.Pup.LineSpec

/-!
# Whose session the verdict belongs to

A run of the host that returns `UPLOAD_OK` has heard the verdict of some
session of the device. It is a session the run has opened itself, under its own
meta, if no `POLL` frame of an earlier run was on its way when it opened the
port. Otherwise it need not be: the acknowledgement of a `POLL` frame does not
say which meta it is for (`upload_ok_after_stale_poll`).
-/

namespace Bcm2835.Pup

variable {P : Type}

/-! ## The invariant -/

/-- The session was opened by this run, under this meta. -/
def Session.OpenedBy (σ : Session) (run : Nat) (m : Meta) : Prop :=
  σ.opener = run ∧ σ.meta_ = some m

/-- A `BOOT` frame says the verdict of its session. -/
def TellsVerdict (e : Session × Msg) : Prop :=
  ∀ f, e.2 = .frame f → f.type = DEV_BOOT →
    ∃ is_ok, f.payload = bootPayload is_ok ∧ e.1.verdict = some is_ok

/-- What holds in any case. -/
structure Line.Honest (s : Line P) : Prop where
  meta_eq : s.session.meta_ = sessionMeta s.dev.core.log
  kept : s.dev.core.pc = .boot → sessionVerdict s.dev.core.log = some s.dev.core.is_ok
  runs : ∀ e ∈ s.h2d, e.1 ≤ s.run
  polls : ∀ e ∈ s.h2d, e.1 = s.run → ∀ f, e.2 = .frame f → f.type = HOST_POLL →
    Meta.ofBytes f.payload = s.host.meta_
  verdicts : ∀ e ∈ s.d2h, TellsVerdict e
  heard : s.host.pc = .returned .ok → s.heard.verdict = some true

/-- What holds in a run that found no `POLL` frame on its way. From the first
message of its own session on, the device sends nothing else. -/
structure Line.Current (s : Line P) : Prop where
  polls : ∀ e ∈ s.h2d, e.2.IsPoll → e.1 = s.run
  acks : ∀ e ∈ s.d2h, ∀ iden, e.2 = .ack iden → e.1.OpenedBy s.run s.host.meta_
  ordered : s.d2h.Pairwise fun e e' =>
    e.1.OpenedBy s.run s.host.meta_ → e'.1.OpenedBy s.run s.host.meta_
  session : ∀ e ∈ s.d2h, e.1.OpenedBy s.run s.host.meta_ → s.session.OpenedBy s.run s.host.meta_
  served : s.host.pc.Receives → s.session.OpenedBy s.run s.host.meta_ ∧
    ∀ e ∈ s.d2h, e.1.OpenedBy s.run s.host.meta_
  heard : s.host.pc = .returned .ok → s.heard.OpenedBy s.run s.host.meta_

/-! ## Steps of the device -/

section Device

variable {T : Platform P} {s s' : Line P} {r : FsmStatus} {f : Frame} {origin : Nat}
  {h2d : List (Nat × Msg)} {out : List Msg}

theorem Line.Honest.dev (hs : s.Honest) {d' : Device P}
    (hstep : DownloadStep T.Accepts s.dev.core r f d'.core out) (hsub : h2d.Sublist s.h2d) :
    Line.Honest { s with
      dev := d', session := s.session.next s.dev d' origin, h2d := h2d
      d2h := s.d2h ++ out.map (s.session.next s.dev d' origin, ·) } where
  meta_eq := rfl
  kept := downloadStep_verdictKept hstep hs.kept
  runs e he := hs.runs e (hsub.subset he)
  polls e he := hs.polls e (hsub.subset he)
  verdicts e he := by
    obtain he | he := List.mem_append.mp he
    · exact hs.verdicts e he
    · obtain ⟨msg, hmsg, rfl⟩ := List.mem_map.mp he
      rintro g rfl htype
      exact downloadStep_boots hstep hs.kept g hmsg htype
  heard := hs.heard

theorem Line.Current.dev (hs : s.Current) (hh : s.Honest) {d' : Device P}
    (hstep : DownloadStep T.Accepts s.dev.core r f d'.core out)
    (hframe : s.dev.pc = .init ∨ s.dev.pc = .chunk → r = .ok → (origin, .frame f) ∈ s.h2d)
    (hsub : h2d.Sublist s.h2d) :
    Line.Current { s with
      dev := d', session := s.session.next s.dev d' origin, h2d := h2d
      d2h := s.d2h ++ out.map (s.session.next s.dev d' origin, ·) } := by
  obtain ⟨hnew, hacks⟩ :
      (s.session.OpenedBy s.run s.host.meta_ →
        (s.session.next s.dev d' origin).OpenedBy s.run s.host.meta_) ∧
      ((∃ iden, Msg.ack iden ∈ out) →
        (s.session.next s.dev d' origin).OpenedBy s.run s.host.meta_) := by
    obtain ⟨hpc, hr, hopen, hmeta⟩ | ⟨hpc, hmeta, hout⟩ := downloadStep_session hstep
    · have hmem := hframe (.inl hpc.1) hr
      have hrun : origin = s.run := hs.polls _ hmem hopen.1
      have hopened : (s.session.next s.dev d' origin).OpenedBy s.run s.host.meta_ := by
        refine ⟨(if_pos hpc).trans hrun, hmeta.trans ?_⟩
        rw [hh.polls _ hmem hrun f rfl hopen.1]
      exact ⟨fun _ => hopened, fun _ => hopened⟩
    · refine ⟨fun h => ⟨(if_neg hpc).trans h.1, ?_⟩, fun ⟨iden, hiden⟩ => absurd hiden (hout iden)⟩
      exact hmeta.trans (hh.meta_eq.symm.trans h.2)
  refine ⟨fun e he => hs.polls e (hsub.subset he), fun e he => ?_, ?_, fun e he ho => ?_,
    fun hpc => ⟨hnew (hs.served hpc).1, fun e he => ?_⟩, hs.heard⟩
  · obtain he | he := List.mem_append.mp he
    · exact hs.acks e he
    · obtain ⟨msg, hmsg, rfl⟩ := List.mem_map.mp he
      rintro iden rfl
      exact hacks ⟨iden, hmsg⟩
  · refine List.pairwise_append.mpr ⟨hs.ordered, ?_, fun e he e' he' ho => ?_⟩
    · exact List.pairwise_map.mpr (List.pairwise_of_forall fun _ _ h => h)
    · obtain ⟨msg, -, rfl⟩ := List.mem_map.mp he'
      exact hnew (hs.session e he ho)
  · obtain he | he := List.mem_append.mp he
    · exact hnew (hs.session e he ho)
    · obtain ⟨msg, -, rfl⟩ := List.mem_map.mp he
      exact ho
  · obtain he | he := List.mem_append.mp he
    · exact (hs.served hpc).2 e he
    · obtain ⟨msg, -, rfl⟩ := List.mem_map.mp he
      exact hnew (hs.served hpc).1

end Device

/-! ## Steps of the host -/

/-- A `POLL` frame the host sends carries its meta. -/
theorem uploadStep_polls {m : Meta} {file : List UInt8} {c c' : HostCore} {r : FsmStatus}
    {f : Frame} {out : List Msg} (h : UploadStep m file c r f c' out) :
    ∀ g, Msg.frame g ∈ out → g.type = HOST_POLL → Meta.ofBytes g.payload = m := by
  intro g hg htype
  cases h with
  | idle | giveUp | polled | beat | exit | ignore => cases hg
  | boot => simp at hg
  | poll | repoll =>
      simp only [List.mem_singleton, Msg.frame.injEq] at hg
      subst hg
      simp [pollFrame]
  | serve =>
      simp only [List.mem_singleton, Msg.frame.injEq] at hg
      subst hg
      simp [chnkFrame, HOST_CHNK, HOST_POLL] at htype

section Host

variable {s : Line P} {r : FsmStatus} {f : Frame} {out : List Msg} {h' : Host}

/-- The channel to the device after the host has sent something. -/
theorem Line.Honest.sends (hs : s.Honest)
    (hstep : UploadStep s.host.meta_ s.host.file s.host.core r f h'.core out) :
    (∀ e ∈ s.h2d ++ out.map (s.run, ·), e.1 ≤ s.run) ∧
      ∀ e ∈ s.h2d ++ out.map (s.run, ·), e.1 = s.run → ∀ g, e.2 = .frame g → g.type = HOST_POLL →
        Meta.ofBytes g.payload = s.host.meta_ := by
  constructor
  · intro e he
    obtain he | he := List.mem_append.mp he
    · exact hs.runs e he
    · obtain ⟨msg, -, rfl⟩ := List.mem_map.mp he
      exact Nat.le_refl _
  · intro e he
    obtain he | he := List.mem_append.mp he
    · exact hs.polls e he
    · obtain ⟨msg, hmsg, rfl⟩ := List.mem_map.mp he
      rintro - g rfl
      exact uploadStep_polls hstep g hmsg

theorem Line.Current.sends (hs : s.Current) (out : List Msg) :
    ∀ e ∈ s.h2d ++ out.map (s.run, ·), e.2.IsPoll → e.1 = s.run := by
  intro e he
  obtain he | he := List.mem_append.mp he
  · exact hs.polls e he
  · obtain ⟨msg, -, rfl⟩ := List.mem_map.mp he
    exact fun _ => rfl

/-- A host that returns `UPLOAD_OK` after a message was serving chunks or waiting
for the verdict, and has received a `BOOT` frame that says so. -/
theorem uploadStep_ok {m : Meta} {file : List UInt8} {c c' : HostCore} {f : Frame} {out : List Msg}
    (h : UploadStep m file c .ok f c' out) (hc : c.pc = .poll ∨ c.pc.Receives)
    (hc' : c'.pc = .returned .ok) :
    c.pc.Receives ∧ f.type = DEV_BOOT ∧ f.payload.getD 0 0 ≠ 0 := by
  have hstay : c.pc ≠ .returned .ok := by
    rintro h
    simp [h, UploadPc.Receives] at hc
  cases h with
  | idle | serve | ignore => exact absurd hc' hstay
  | giveUp _ hr | poll _ hr | repoll _ hr => cases hr
  | polled | beat | exit => cases hc'
  | boot hpc _ htype =>
      refine ⟨hpc, htype.1, fun h0 => ?_⟩
      simp only [h0] at hc'
      cases hc'

/-- The host serves chunks only after an acknowledged `POLL` frame. -/
theorem uploadStep_receives {m : Meta} {file : List UInt8} {c c' : HostCore} {r : FsmStatus}
    {f : Frame} {out : List Msg} (h : UploadStep m file c r f c' out) (hc' : c'.pc.Receives) :
    c.pc.Receives ∨ c.pc = .poll ∧ r = .ok := by
  cases h with
  | idle | serve | ignore => exact .inl hc'
  | giveUp | poll | repoll | boot | exit => simp [UploadPc.Receives] at hc'
  | polled hpc hr => exact .inr ⟨hpc, hr⟩
  | beat hpc => exact .inl (.inl hpc)

variable {σ : Session} {msg : Msg} {d2h : List (Session × Msg)}

theorem Line.Honest.hear (hs : s.Honest)
    (hstep : UploadStep s.host.meta_ s.host.file s.host.core .ok f h'.core out)
    (hargs : h'.meta_ = s.host.meta_ ∧ h'.file = s.host.file) (hhead : s.d2h = (σ, msg) :: d2h)
    (hmsg : s.host.pc = .poll ∧ msg = .ack 0 ∨ s.host.pc.Receives ∧ msg = .frame f) :
    Line.Honest { s with
      host := h', heard := σ, h2d := s.h2d ++ out.map (s.run, ·), d2h := d2h } where
  meta_eq := hs.meta_eq
  kept := hs.kept
  runs := (hs.sends hstep).1
  polls := by simpa only [hargs.1] using (hs.sends hstep).2
  verdicts e he := hs.verdicts e (hhead ▸ List.mem_cons_of_mem _ he)
  heard hok := by
    obtain ⟨hpc, htype, hyes⟩ := uploadStep_ok hstep (hmsg.imp And.left And.left) hok
    obtain ⟨hpoll, -⟩ | ⟨-, rfl⟩ := hmsg
    · simp [Host.core, hpoll, UploadPc.Receives] at hpc
    obtain ⟨is_ok, hpayload, hverdict⟩ := hs.verdicts _ (hhead ▸ List.mem_cons_self) f rfl htype
    cases is_ok with
    | true => exact hverdict
    | false => simp [hpayload, bootPayload] at hyes

theorem Line.Current.hear (hs : s.Current)
    (hstep : UploadStep s.host.meta_ s.host.file s.host.core .ok f h'.core out)
    (hargs : h'.meta_ = s.host.meta_ ∧ h'.file = s.host.file) (hhead : s.d2h = (σ, msg) :: d2h)
    (hmsg : s.host.pc = .poll ∧ msg = .ack 0 ∨ s.host.pc.Receives ∧ msg = .frame f) :
    Line.Current { s with
      host := h', heard := σ, h2d := s.h2d ++ out.map (s.run, ·), d2h := d2h } := by
  have hmem : (σ, msg) ∈ s.d2h := hhead ▸ List.mem_cons_self
  have hrest : ∀ e ∈ d2h, e ∈ s.d2h := fun e he => hhead ▸ List.mem_cons_of_mem _ he
  have hordered := hs.ordered
  rw [hhead, List.pairwise_cons] at hordered
  have hm : h'.meta_ = s.host.meta_ := hargs.1
  constructor
  · exact hs.sends out
  · simpa only [hm] using fun e he => hs.acks e (hrest e he)
  · simpa only [hm] using hordered.2
  · simpa only [hm] using fun e he => hs.session e (hrest e he)
  · intro hpc
    simp only [hm]
    obtain hpc | ⟨hpoll, -⟩ := uploadStep_receives hstep hpc
    · exact ⟨(hs.served hpc).1, fun e he => (hs.served hpc).2 e (hrest e he)⟩
    · obtain ⟨-, rfl⟩ | ⟨hpc, -⟩ := hmsg
      · have hopened := hs.acks _ hmem 0 rfl
        exact ⟨hs.session _ hmem hopened, fun e he => hordered.1 e he hopened⟩
      · simp [show s.host.pc = .poll from hpoll, UploadPc.Receives] at hpc
  · intro hok
    simp only [hm]
    obtain ⟨hpc, -⟩ := uploadStep_ok hstep (hmsg.imp And.left And.left) hok
    exact (hs.served hpc).2 _ hmem

theorem Line.Honest.fire (hs : s.Honest) (hquiet : s.host.core.pc.Receives → s.host.core.resend = false)
    (hstep : UploadStep s.host.meta_ s.host.file s.host.core r f h'.core out)
    (hargs : h'.meta_ = s.host.meta_ ∧ h'.file = s.host.file)
    (hr : r = .reset ∨ r = .resend ∧ s.host.core.resend = true) :
    Line.Honest { s with host := h', h2d := s.h2d ++ out.map (s.run, ·) } where
  meta_eq := hs.meta_eq
  kept := hs.kept
  runs := (hs.sends hstep).1
  polls := by simpa only [hargs.1] using (hs.sends hstep).2
  verdicts := hs.verdicts
  heard hok := by
    obtain ⟨hstay | hpoll | hgone, -⟩ := uploadStep_fire hstep hquiet hr
    · exact hs.heard ((congrArg HostCore.pc hstay).symm.trans hok)
    · cases hpoll.symm.trans hok
    · cases hgone.symm.trans hok

theorem Line.Current.fire (hs : s.Current)
    (hquiet : s.host.core.pc.Receives → s.host.core.resend = false)
    (hstep : UploadStep s.host.meta_ s.host.file s.host.core r f h'.core out)
    (hargs : h'.meta_ = s.host.meta_ ∧ h'.file = s.host.file)
    (hr : r = .reset ∨ r = .resend ∧ s.host.core.resend = true) :
    Line.Current { s with host := h', h2d := s.h2d ++ out.map (s.run, ·) } := by
  have hm : h'.meta_ = s.host.meta_ := hargs.1
  obtain ⟨hpc', -⟩ := uploadStep_fire hstep hquiet hr
  constructor
  · exact hs.sends out
  · simpa only [hm] using hs.acks
  · simpa only [hm] using hs.ordered
  · simpa only [hm] using hs.session
  · intro hpc
    simp only [hm]
    obtain hstay | hpoll | hgone := hpc'
    · have hpc' : h'.pc = s.host.pc := congrArg HostCore.pc hstay
      exact hs.served (hpc' ▸ hpc)
    · simp [show h'.pc = .poll from hpoll, UploadPc.Receives] at hpc
    · simp [show h'.pc = .returned .timeout from hgone, UploadPc.Receives] at hpc
  · intro hok
    simp only [hm]
    obtain hstay | hpoll | hgone := hpc'
    · exact hs.heard ((congrArg HostCore.pc hstay).symm.trans hok)
    · cases hpoll.symm.trans hok
    · cases hgone.symm.trans hok

variable {m : Meta} {file : List UInt8}

/-- A new run: only its own `POLL` frames carry its number. -/
theorem Line.Honest.opens (hs : s.Honest) (hargs : h'.meta_ = m ∧ h'.file = file)
    (hstart : h'.core.pc = .returned .timeout ∧ out = [] ∨
      h'.core = ⟨.poll, 0, true⟩ ∧ out = [.frame (pollFrame 0 m)]) :
    Line.Honest { s with
      host := h', run := s.run + 1, clean := decide (∀ e ∈ s.h2d, ¬e.2.IsPoll)
      h2d := s.h2d ++ out.map (s.run + 1, ·), d2h := [] } where
  meta_eq := hs.meta_eq
  kept := hs.kept
  runs e he := by
    obtain he | he := List.mem_append.mp he
    · exact (hs.runs e he).trans (Nat.le_succ _)
    · obtain ⟨msg, -, rfl⟩ := List.mem_map.mp he
      exact Nat.le_refl _
  polls e he hrun g hg _ := by
    obtain he | he := List.mem_append.mp he
    · have := hs.runs e he
      simp only at hrun
      omega
    · obtain ⟨msg, hmsg, rfl⟩ := List.mem_map.mp he
      obtain ⟨-, rfl⟩ | ⟨-, rfl⟩ := hstart
      · cases hmsg
      · have hg : msg = .frame g := hg
        rw [List.mem_singleton.mp hmsg, Msg.frame.injEq] at hg
        simp [← hg, pollFrame, hargs.1]
  verdicts := nofun
  heard hok := by
    have hok : h'.core.pc = .returned .ok := hok
    obtain ⟨hpc, -⟩ | ⟨hcore, -⟩ := hstart
    · simp [hpc] at hok
    · simp [hcore] at hok

theorem Line.Current.opens (hclean : ∀ e ∈ s.h2d, ¬e.2.IsPoll)
    (hstart : h'.core.pc = .returned .timeout ∧ out = [] ∨
      h'.core = ⟨.poll, 0, true⟩ ∧ out = [.frame (pollFrame 0 m)]) :
    Line.Current { s with
      host := h', run := s.run + 1, clean := decide (∀ e ∈ s.h2d, ¬e.2.IsPoll)
      h2d := s.h2d ++ out.map (s.run + 1, ·), d2h := [] } := by
  have hpc : h'.core.pc = .returned .timeout ∨ h'.core.pc = .poll := by
    obtain ⟨hpc, -⟩ | ⟨hcore, -⟩ := hstart
    · exact .inl hpc
    · exact .inr (congrArg HostCore.pc hcore)
  refine ⟨fun e he hpoll => ?_, nofun, .nil, nofun, fun hserves => ?_, fun hok => ?_⟩
  · obtain he | he := List.mem_append.mp he
    · exact absurd hpoll (hclean e he)
    · obtain ⟨msg, -, rfl⟩ := List.mem_map.mp he
      rfl
  · have hserves : h'.core.pc.Receives := hserves
    obtain hpc | hpc := hpc <;> simp [hpc, UploadPc.Receives] at hserves
  · have hok : h'.core.pc = .returned .ok := hok
    obtain hpc | hpc := hpc <;> simp [hpc] at hok

end Host

/-! ## Every run -/

theorem line_honest {T : Platform P} :
    ∀ s, (line T).Reachable s → s.Honest ∧ (s.clean = true → s.Current) := by
  refine TSys.invariant_of ?_ ?_
  · rintro s ⟨config, plat, rfl⟩
    exact ⟨⟨rfl, nofun, nofun, nofun, nofun, nofun⟩,
      fun _ => ⟨nofun, nofun, .nil, nofun, by simp [Line.start, UploadPc.Receives], nofun⟩⟩
  · intro s mv s' hreach hinv hstep
    obtain ⟨hs, hc⟩ := hinv
    have hquiet := line_quiet s hreach
    cases line_step hstep with
    | dev hdown hframe hsub heq =>
        rw [heq]
        exact ⟨hs.dev hdown hsub, fun hclean => (hc hclean).dev hs hdown hframe hsub⟩
    | hear hup hargs hhead hmsg heq =>
        rw [heq]
        exact ⟨hs.hear hup hargs hhead hmsg, fun hclean => (hc hclean).hear hup hargs hhead hmsg⟩
    | fire hup hargs hr heq =>
        rw [heq]
        exact ⟨hs.fire hquiet hup hargs hr, fun hclean => (hc hclean).fire hquiet hup hargs hr⟩
    | lose hh2d hd2h heq =>
        rw [heq]
        refine ⟨⟨hs.meta_eq, hs.kept, fun e he => hs.runs e (hh2d.subset he),
          fun e he => hs.polls e (hh2d.subset he), fun e he => hs.verdicts e (hd2h.subset he),
          hs.heard⟩, fun hclean => ?_⟩
        have hc := hc hclean
        exact ⟨fun e he => hc.polls e (hh2d.subset he), fun e he => hc.acks e (hd2h.subset he),
          hc.ordered.sublist hd2h, fun e he => hc.session e (hd2h.subset he),
          fun hpc => ⟨(hc.served hpc).1, fun e he => (hc.served hpc).2 e (hd2h.subset he)⟩,
          hc.heard⟩
    | opens _ hargs hstart heq =>
        rw [heq]
        exact ⟨hs.opens hargs hstart, fun hclean => Line.Current.opens (of_decide_eq_true hclean) hstart⟩

/-- For every sequence of runs against one device, over a line that may lose
anything, with timers that may fire and hosts that may be killed at any moment:
a run that returns `UPLOAD_OK` has heard of a session in which
`platform_load_image` has returned true; and if no `POLL` frame of an earlier
run was still on its way when the run opened the port, the run has opened that
session itself, under its own meta. -/
theorem upload_ok_opened {T : Platform P} {s : Line P} (hs : (line T).Reachable s)
    (hok : s.host.pc = .returned .ok) :
    s.heard.verdict = some true ∧
      (s.clean = true → s.heard.opener = s.run ∧ s.heard.meta_ = some s.host.meta_) := by
  obtain ⟨hhonest, hcurrent⟩ := line_honest s hs
  exact ⟨hhonest.heard hok, fun hclean => (hcurrent hclean).heard hok⟩

/-- The meta of a three byte image for one of two addresses. -/
def metaAt (load_addr : UInt64) : Meta :=
  ⟨IMAGE_FLAT_BINARY, COMPRESS_NONE, 3, 3, crc32 CRC_INIT [1, 2, 3], 0, load_addr⟩

/-- A run that is killed when the device has answered its `POLL` frame, and the upload
of the same file to another address after the device has given up. -/
def killedUpload : List Move :=
  let f := beatFrame 0
  let time := fun _ => 0
  [.opens config (metaAt 0x10000) [1, 2, 3] 0 time, .devTakes f time,
    .opens config (metaAt 0x20000) [1, 2, 3] 0 time, .devFires .reset f time, .devTakes f time,
    .hostTakes f time, .hostTakes f time, .devTakes f time, .hostTakes f time, .hostTakes f time]

/-- No `POLL` frame is on its way when the second run opens the port. -/
theorem upload_ok_opened_after_kill :
    ∃ s : Line Board, s.host.pc = .returned .ok ∧ s.run = 2 ∧ s.heard.opener = 2 ∧
      s.heard.meta_ = some (metaAt 0x20000) ∧ s.heard.verdict = some true := by
  have hrun : (TSys.exec (lineNext (board .tiny true)) (.start config (.zero (fun _ => 0) []))
      killedUpload).map (fun s => (s.host.pc, s.clean, s.run, s.host.meta_)) =
        some (.returned .ok, true, 2, metaAt 0x20000) := by
    decide +kernel
  obtain ⟨s, hexec, heq⟩ := Option.map_eq_some_iff.mp hrun
  simp only [Prod.mk.injEq] at heq
  obtain ⟨hok, hclean, htwo, hmeta⟩ := heq
  obtain ⟨hverdict, hopened⟩ := upload_ok_opened
    ((TSys.steps_of_exec hexec).reachable (.init ⟨config, .zero (fun _ => 0) [], rfl⟩)) hok
  exact ⟨s, hok, htwo, (hopened hclean).1.trans htwo, hmeta ▸ (hopened hclean).2, hverdict⟩

/-- A run that is killed as soon as it has sent its `POLL` frame, and the
upload of the same file to another address. The device acknowledges the first
`POLL` frame and takes the second one for a chunk that it has not asked for. -/
def staleUpload : List Move :=
  let f := beatFrame 0
  let time := fun _ => 0
  [.opens config (metaAt 0x10000) [1, 2, 3] 0 time, .opens config (metaAt 0x20000) [1, 2, 3] 0 time,
    .devTakes f time, .hostTakes f time, .hostTakes f time, .devTakes f time, .devTakes f time,
    .hostTakes f time, .hostTakes f time, .hostTakes f time]

/-- The second run returns `UPLOAD_OK` for an image that is where the first one
wanted it. -/
theorem upload_ok_after_stale_poll :
    ∃ s : Line Board, (line (board .tiny true)).Reachable s ∧ s.host.pc = .returned .ok ∧
      s.run = 2 ∧ s.host.meta_ = metaAt 0x20000 ∧
      s.heard = ⟨1, some (metaAt 0x10000), some true⟩ := by
  have hrun : (TSys.exec (lineNext (board .tiny true)) (.start config (.zero (fun _ => 0) []))
      staleUpload).map (fun s => (s.host.pc, s.run, s.host.meta_, s.heard)) =
        some (.returned .ok, 2, metaAt 0x20000, ⟨1, some (metaAt 0x10000), some true⟩) := by
    decide +kernel
  obtain ⟨s, hexec, heq⟩ := Option.map_eq_some_iff.mp hrun
  simp only [Prod.mk.injEq] at heq
  exact ⟨s, (TSys.steps_of_exec hexec).reachable (.init ⟨config, .zero (fun _ => 0) [], rfl⟩), heq⟩

end Bcm2835.Pup

import Bcm2835.Pup.Board
import Bcm2835.Pup.Occurs

/-!
# What the device takes for the acknowledgement of its verdict

`fsm_recv_ack` looks for six bytes in whatever arrives, and payloads are not
escaped. If the six bytes do not begin in what the device has still to read of
the host's frames when it comes into its `BOOT` loop, the host has sent them,
after a `BOOT` frame of the device with the same identifier
(`leaves_after_ack`). Otherwise a chunk that comes twice may be taken for them,
and an acknowledgement may also be for a session that is over
(`leaves_without_ack`).
-/

namespace Bcm2835.Pup

variable {P : Type}

/-! ## Queues -/

/-- A turn takes no byte but the one it finds. -/
theorem Machine.turn_took {κ : Type} (A : Party κ) (s : Machine κ) (p : Poll) :
    (s.turn A p).took = none ∨ ∃ c, p.rx = some c ∧ (s.turn A p).took = some c := by
  have hrecv : (recvStep (s.recvSt A) p).took = none ∨
      ∃ c, p.rx = some c ∧ (recvStep (s.recvSt A) p).took = some c := by
    obtain ⟨timer, now, -, -, heq⟩ | ⟨-, heq⟩ | ⟨c, now, hrx, heq⟩ := recvStep_cases (s.recvSt A) p
    · exact .inl (by rw [heq]; rfl)
    · exact .inl (by rw [heq])
    · exact .inr ⟨c, hrx, by rw [heq]⟩
  have hack : ∀ iden, (ackStep iden (s.ackSt A) p).took = none ∨
      ∃ c, p.rx = some c ∧ (ackStep iden (s.ackSt A) p).took = some c := by
    intro iden
    obtain ⟨timer, now, -, -, heq⟩ | ⟨-, heq⟩ | ⟨c, now, hrx, heq⟩ :=
      ackStep_cases iden (s.ackSt A) p
    · exact .inl (by rw [heq]; rfl)
    · exact .inl (by rw [heq])
    · exact .inr ⟨c, hrx, by rw [heq]⟩
  have hafter : ∀ (s' : Machine κ) ret took, (s'.after A p ret took).took = took := by
    intro s' ret took
    cases ret <;> rfl
  unfold Machine.turn
  split
  · rwa [Machine.recvTurn, hafter]
  · rw [Machine.ackTurn, hafter]
    exact hack _
  · exact .inl rfl

/-- What has been put on a queue is what the reader has taken and what is there. -/
def Machine.Reads {κ : Type} (A : Party κ) (s : Machine κ) (sent queue : List UInt8) : Prop :=
  ∃ c, sent = c ++ queue ∧ s.Synced A c

theorem Machine.Reads.put {κ : Type} {A : Party κ} {s : Machine κ} {sent queue : List UInt8}
    (h : s.Reads A sent queue) (bs : List UInt8) : s.Reads A (sent ++ bs) (queue ++ bs) := by
  obtain ⟨c, rfl, hs⟩ := h
  exact ⟨c, by simp, hs⟩

/-- A turn of the reader, and what it has taken if its call returns. -/
theorem Machine.Reads.turn {κ : Type} {A : Party κ} {s : Machine κ} {sent queue : List UInt8}
    (h : s.Reads A sent queue) (arrived : Bool) (time : Nat → UInt64) :
    let t := s.turn A (pollOf arrived time queue)
    t.st.Reads A sent (afterTurn queue t.took) ∧
      (s.Returns A (pollOf arrived time queue) .ok →
        (A.wait s.ctl = .recv → fsm_send t.st.framebuf.frame <:+: sent) ∧
          ∀ iden, A.wait s.ctl = .recv_ack iden → fsm_send_ack iden <:+: sent) := by
  obtain ⟨c, rfl, hs⟩ := h
  intro t
  have hsplit : c ++ queue = (c ++ t.took.toList) ++ afterTurn queue t.took := by
    obtain hnone | ⟨b, hrx, hsome⟩ := s.turn_took A (pollOf arrived time queue)
    · have hnone : t.took = none := hnone
      simp [hnone, afterTurn]
    · have hsome : t.took = some b := hsome
      cases queue with
      | nil => simp [pollOf] at hrx
      | cons b' queue =>
          have hb : b' = b := by
            cases arrived <;> simp [pollOf] at hrx
            exact hrx
          simp [hsome, afterTurn, hb]
  have hprefix : ∀ {bs : List UInt8}, bs <:+ c ++ t.took.toList → bs <:+: c ++ queue := by
    intro bs hbs
    rw [hsplit]
    exact hbs.isInfix.trans (List.prefix_append _ _).isInfix
  exact ⟨⟨_, hsplit, hs.turn⟩, fun hret =>
    ⟨fun hw => hprefix (hs.returns_frame hw hret),
      fun iden hw => hprefix (hs.returns_ack hw hret)⟩⟩

/-! ## What the device sends -/

/-- The device asks only for chunks that exist. -/
structure DevCore.Counts (c : DevCore) : Prop where
  count_le : c.chunk_count.toNat ≤ 65537
  lt : c.pc = .chunk → c.chunk_num < c.chunk_count

theorem DevCore.Counts.small {c : DevCore} (h : c.Counts) (hlt : c.chunk_num < c.chunk_count) :
    c.chunk_num < 0x1000000 := by
  have hle := h.count_le
  have hlt := UInt32.lt_iff_toNat_lt.mp hlt
  exact UInt32.lt_iff_toNat_lt.mpr (by simp only [UInt32.reduceToNat]; omega)

theorem chunkCount_le (m : Meta) : (chunkCount m).toNat ≤ 65537 := by
  have hlt := (m.wire_size + 0xfffe).toNat_lt
  rw [chunkCount, UInt32.toNat_div]
  simp only [UInt32.reduceToNat]
  omega

theorem nextChunk_fromDevice {c c' : DevCore} {out : List Msg} (h : NextChunk c c' out)
    (hc : c.chunk_count.toNat ≤ 65537) : c'.Counts ∧ ∀ msg ∈ out, msg.FromDevice := by
  cases h with
  | request hlt =>
      have hcounts : DevCore.Counts { c with pc := .chunk } := ⟨hc, fun _ => hlt⟩
      exact ⟨hcounts, by simpa using Msg.FromDevice.rqch (hcounts.small hlt)⟩
  | verdict is_ok beats =>
      refine ⟨⟨hc, by simp⟩, fun msg hmsg => ?_⟩
      simp only [List.mem_append, List.mem_replicate, List.mem_singleton] at hmsg
      obtain ⟨-, rfl⟩ | rfl := hmsg
      · exact .beat
      · exact .boot
  | stuck =>
      refine ⟨⟨hc, by simp⟩, fun msg hmsg => ?_⟩
      rw [List.eq_of_mem_replicate hmsg]
      exact .beat

theorem downloadStep_fromDevice {accepts : Meta → Prop} {c c' : DevCore} {r : FsmStatus}
    {f : Frame} {out : List Msg} (h : DownloadStep accepts c r f c' out) (hc : c.Counts) :
    c'.Counts ∧ ∀ msg ∈ out, msg.FromDevice := by
  cases h with
  | idle => exact ⟨hc, by simp⟩
  | reject | timeout | refuse => exact ⟨⟨hc.count_le, by simp [DevCore.reset]⟩, by simp⟩
  | lost | acked => exact ⟨⟨hc.count_le, by simp⟩, by simp⟩
  | again hpc => exact ⟨hc, by simpa using Msg.FromDevice.rqch (hc.small (hc.lt hpc))⟩
  | repeatBoot => exact ⟨hc, by simpa using Msg.FromDevice.boot⟩
  | accept _ _ _ _ hnext =>
      obtain ⟨hc', hout⟩ := nextChunk_fromDevice hnext (chunkCount_le _)
      exact ⟨hc', by simpa using ⟨Msg.FromDevice.ack, hout⟩⟩
  | feed _ _ _ _ hnext => exact nextChunk_fromDevice hnext hc.count_le

/-- Printing adds nothing but text. -/
theorem withText_fromDevice {out : List Msg} (h : ∀ msg ∈ out, msg.FromDevice) :
    ∀ (text : Nat → Text), ∀ x ∈ withText text out, x.FromDevice := by
  induction out with
  | nil =>
      intro text x hx
      rw [List.mem_singleton.mp hx]
      trivial
  | cons msg out ih =>
      intro text x hx
      simp only [withText, List.mem_cons] at hx
      obtain rfl | rfl | hx := hx
      · trivial
      · exact h _ List.mem_cons_self
      · exact ih (fun m hm => h m (List.mem_cons_of_mem _ hm)) _ x hx

/-! ## What the host acknowledges -/

/-- The host acknowledges only the `BOOT` frame it has received, and returns. -/
theorem uploadStep_acks {m : Meta} {file : List UInt8} {c c' : HostCore} {r : FsmStatus}
    {f : Frame} {out : List Msg} (h : UploadStep m file c r f c' out) {iden : UInt16}
    (hack : .ack iden ∈ out) :
    out = [.ack iden] ∧ (∃ status, c'.pc = .returned status) ∧ c.pc.Receives ∧ r ≠ .reset ∧
      f.type = DEV_BOOT ∧ f.plen = 1 ∧ f.iden = iden := by
  cases h with
  | idle | giveUp | polled | beat | exit | ignore => cases hack
  | poll | repoll | serve => simp at hack
  | boot hpc hr htype =>
      have hiden : iden = f.iden := by simpa using hack
      subst hiden
      exact ⟨rfl, ⟨_, rfl⟩, hpc, hr, htype.1, htype.2, rfl⟩

/-! ## The invariant -/

/-- What the host has sent behind the bytes that the device had taken when it last came into its
`BOOT` loop. -/
def Serial.sinceBoot (s : Serial P) : List UInt8 := (s.hostSent.flatMap Msg.bytes).drop s.booted

structure Serial.Sound (T : Platform P) (s : Serial P) : Prop where
  up : s.dev.Reads (downloader T) (s.hostSent.flatMap Msg.bytes) s.h2d
  booted_le : s.booted ≤ (s.hostSent.flatMap Msg.bytes).length
  since : s.dev.ctl.pc = .boot → s.dev.Reads (downloader T) s.sinceBoot s.h2d
  down : s.host.Reads uploader (s.devSent.flatMap Item.bytes) s.d2h
  counts : s.dev.ctl.core.Counts
  sane : ∀ x ∈ s.devSent, x.FromDevice
  quiet : s.host.ctl.core.pc.Receives → s.host.ctl.core.resend = false
  last : ∀ l iden r, s.hostSent = l ++ .ack iden :: r →
    r = [] ∧ ∃ status, s.host.ctl.core.pc = .returned status
  answers : ∀ iden, .ack iden ∈ s.hostSent →
    ∃ is_ok, Item.msg (.frame (bootFrame iden is_ok)) ∈ s.devSent
  left : s.dev.ctl.pc = .trampoline → fsm_send_ack s.dev.ctl.fsm.iden <:+: s.sinceBoot

section Ticks

variable {T : Platform P} {s : Serial P}

/-- A turn that brings the device into its `BOOT` loop leaves both receive loops scanning. -/
theorem Machine.Synced.enters {c : List UInt8} {dev : DevMachine P} (hs : dev.Synced (downloader T) c)
    {p : Poll} (h : EntersBoot dev (devTurn T dev p).st) :
    (devTurn T dev p).st.Synced (downloader T) [] := by
  have hturn := hs.turn (p := p)
  obtain ⟨hpc, hpc'⟩ := h
  refine .of_scanning (hturn.recv_idle ?_) ?_
  · show Device.wait _ ≠ .recv
    unfold Device.wait
    rw [hpc']
    exact nofun
  · -- the loop of the acknowledgement has not been run
    have hwait : ∀ iden, (downloader T).wait dev.ctl ≠ .recv_ack iden := by
      intro iden
      simp only [downloader, Device.wait]
      cases hc : dev.ctl.pc <;> simp
      exact absurd hc hpc
    have hidle : dev.ack = .waitForAck := hs.ack_idle hwait
    unfold devTurn Machine.turn
    split
    · rw [Machine.recvTurn]
      exact (Machine.after_ack _ _ _ _ _).trans hidle
    · rename_i iden hw
      exact absurd hw (hwait iden)
    · exact hidle

theorem Serial.Sound.sinceBoot_put (hs : s.Sound T) (bs : List UInt8) :
    (s.hostSent.flatMap Msg.bytes ++ bs).drop s.booted = s.sinceBoot ++ bs :=
  List.drop_append_of_le_length hs.booted_le

/-- What the device has still to read in its `BOOT` loop, after a turn of it. -/
theorem Serial.Sound.devBoot (hs : s.Sound T) (arrived : Bool) (time : Nat → UInt64)
    (text : Nat → Text) :
    let s' := serialNext T s (.dev arrived time text)
    s'.booted ≤ (s.hostSent.flatMap Msg.bytes).length ∧
      (s'.dev.ctl.pc = .boot → s'.dev.Reads (downloader T) s'.sinceBoot s'.h2d) ∧
      (s'.dev.ctl.pc = .trampoline → fsm_send_ack s'.dev.ctl.fsm.iden <:+: s'.sinceBoot) := by
  intro s'
  obtain ⟨⟨c, hsplit, hsynced⟩, -⟩ := hs.up.turn arrived time
  by_cases henter : EntersBoot s.dev (devTurn T s.dev (pollOf arrived time s.h2d)).st
  · have hbooted : s'.booted = c.length := by
      show (if EntersBoot _ _ then _ else _ : Nat) = _
      rw [if_pos henter, hsplit, List.length_append]
      exact Nat.add_sub_cancel ..
    have hsince : s'.sinceBoot = s'.h2d := by
      show (s.hostSent.flatMap Msg.bytes).drop s'.booted = _
      rw [hbooted, hsplit, List.drop_left]
      rfl
    obtain ⟨_, -, hs₀⟩ := hs.up
    refine ⟨by rw [hbooted, hsplit, List.length_append]; exact Nat.le_add_right .., fun _ => ?_,
      fun hpc => ?_⟩
    · exact ⟨[], hsince, hs₀.enters henter⟩
    · exact absurd (henter.2.symm.trans hpc) (by decide)
  · have hbooted : s'.booted = s.booted := if_neg henter
    have hsince : s'.sinceBoot = s.sinceBoot := by
      show (s.hostSent.flatMap Msg.bytes).drop s'.booted = _
      rw [hbooted]
      rfl
    refine ⟨hbooted ▸ hs.booted_le, fun hpc => ?_, fun hpc => ?_⟩
    · have hboot : s.dev.ctl.pc = .boot := by
        by_contra hne
        exact henter ⟨hne, hpc⟩
      rw [hsince]
      exact ((hs.since hboot).turn arrived time).1
    · rw [hsince]
      obtain ⟨-, hcore, -⟩ | ⟨r, hret, hstep⟩ := devTurn_cases T s.dev (pollOf arrived time s.h2d)
      · have hpc' : s'.dev.ctl.pc = s.dev.ctl.pc := congrArg DevCore.pc hcore
        have hiden : s'.dev.ctl.fsm.iden = s.dev.ctl.fsm.iden := congrArg DevCore.iden hcore
        rw [hiden]
        exact hs.left (hpc' ▸ hpc)
      · obtain ⟨hcore, hfrom⟩ := downloadStep_leaves hstep hpc
        have hiden : s'.dev.ctl.fsm.iden = s.dev.ctl.fsm.iden := congrArg DevCore.iden hcore
        rw [hiden]
        obtain hthere | ⟨hboot, rfl⟩ := hfrom
        · exact hs.left hthere
        · have hboot : s.dev.ctl.pc = .boot := hboot
          exact (((hs.since hboot).turn arrived time).2 hret).2 _
            (by simp only [downloader, Device.wait, hboot])

theorem Serial.Sound.dev (hs : s.Sound T) (arrived : Bool) (time : Nat → UInt64)
    (text : Nat → Text) : (serialNext T s (.dev arrived time text)).Sound T := by
  obtain ⟨hup, -⟩ := hs.up.turn arrived time
  have hdown := hs.down.put
  obtain ⟨hle, hsince, hleft⟩ := hs.devBoot arrived time text
  obtain ⟨hcounts, hout⟩ :
      (devTurn T s.dev (pollOf arrived time s.h2d)).st.ctl.core.Counts ∧
        ∀ msg ∈ (devTurn T s.dev (pollOf arrived time s.h2d)).out, msg.FromDevice := by
    obtain ⟨-, hcore, hout⟩ | ⟨r, hret, hstep⟩ :=
      devTurn_cases T s.dev (pollOf arrived time s.h2d)
    · rw [hcore, hout]
      exact ⟨hs.counts, by simp⟩
    · exact downloadStep_fromDevice hstep hs.counts
  have hitems := withText_fromDevice hout text
  refine ⟨hup, hle, hsince, ?_, hcounts, fun x hx => ?_, hs.quiet, hs.last, fun iden hack => ?_, hleft⟩
  · simp only [serialNext, List.flatMap_append]
    exact hdown _
  · obtain hx | hx := List.mem_append.mp hx
    · exact hs.sane x hx
    · exact hitems x hx
  · obtain ⟨is_ok, hmem⟩ := hs.answers iden hack
    exact ⟨is_ok, List.mem_append_left _ hmem⟩

variable {p : Poll} {r : FsmStatus} {f : Frame} {c' : HostCore} {out : List Msg}

/-- A host that still waits has acknowledged nothing. -/
theorem Serial.Sound.not_acked (hs : s.Sound T) (hret : s.host.Returns uploader p r)
    (iden : UInt16) : .ack iden ∉ s.hostSent := by
  intro hmem
  obtain ⟨l, l', heq⟩ := List.append_of_mem hmem
  obtain ⟨-, status, hpc⟩ := hs.last l iden l' heq
  have hpc : s.host.ctl.pc = .returned status := hpc
  exact hret.waits (by simp only [uploader, Host.wait, hpc])

theorem Serial.Sound.lastAfter (hs : s.Sound T) (hret : s.host.Returns uploader p r)
    (hstep : UploadStep s.host.ctl.meta_ s.host.ctl.file s.host.ctl.core r f c' out) :
    ∀ l iden l', s.hostSent ++ out = l ++ .ack iden :: l' →
      l' = [] ∧ ∃ status, c'.pc = .returned status := by
  intro l iden l' heq
  have hmem : .ack iden ∈ out := by
    have h : .ack iden ∈ s.hostSent ++ out := by rw [heq]; simp
    exact (List.mem_append.mp h).resolve_left (hs.not_acked hret iden)
  obtain ⟨rfl, hreturned, -⟩ := uploadStep_acks hstep hmem
  refine ⟨?_, hreturned⟩
  obtain hnil | ⟨l'', x, hl'⟩ := List.eq_nil_or_concat' l'
  · exact hnil
  · rw [hl', ← List.cons_append, ← List.append_assoc] at heq
    obtain ⟨hsent, -⟩ := List.append_inj' heq rfl
    exact absurd (by rw [hsent]; simp) (hs.not_acked hret iden)

theorem Serial.Sound.answersAfter (hs : s.Sound T) (hret : s.host.Returns uploader p r)
    (hstep : UploadStep s.host.ctl.meta_ s.host.ctl.file s.host.ctl.core r f c' out)
    (htaken : s.host.Returns uploader p .ok →
      (uploader.wait s.host.ctl = .recv → fsm_send f <:+: s.devSent.flatMap Item.bytes) ∧
        ∀ iden, uploader.wait s.host.ctl = .recv_ack iden →
          fsm_send_ack iden <:+: s.devSent.flatMap Item.bytes) :
    ∀ iden, .ack iden ∈ s.hostSent ++ out →
      ∃ is_ok, Item.msg (.frame (bootFrame iden is_ok)) ∈ s.devSent := by
  intro iden hmem
  obtain hmem | hmem := List.mem_append.mp hmem
  · exact hs.answers iden hmem
  obtain ⟨-, -, hpc, hne, htype, hplen, rfl⟩ := uploadStep_acks hstep hmem
  have hw : uploader.wait s.host.ctl = .recv := Host.wait_of_receives hpc
  have hok : r = .ok := by
    cases r with
    | ok => rfl
    | reset => exact absurd rfl hne
    | resend =>
        -- the host has switched `TIMER_RESEND` off
        have hon : s.host.ctl.core.resend = true := hret.resend hw
        rw [hs.quiet hpc] at hon
        cases hon
  rw [hok] at hret
  exact boot_occurs hs.sane htype hplen ((htaken hret).1 hw)

theorem Serial.Sound.host (hs : s.Sound T) (arrived : Bool) (time : Nat → UInt64) :
    (serialNext T s (.host arrived time)).Sound T := by
  obtain ⟨hdown, htaken⟩ := hs.down.turn arrived time
  have hup := hs.up.put
  have hputs : ∀ out : List Msg, (s.hostSent ++ out).flatMap Msg.bytes =
      s.hostSent.flatMap Msg.bytes ++ out.flatMap Msg.bytes := fun out => List.flatMap_append
  obtain ⟨hquiet, hlast, hanswers⟩ :
      ((hostTurn s.host (pollOf arrived time s.d2h)).st.ctl.core.pc.Receives →
          (hostTurn s.host (pollOf arrived time s.d2h)).st.ctl.core.resend = false) ∧
        (∀ l iden r, s.hostSent ++ (hostTurn s.host (pollOf arrived time s.d2h)).out =
            l ++ .ack iden :: r → r = [] ∧ ∃ status,
              (hostTurn s.host (pollOf arrived time s.d2h)).st.ctl.core.pc = .returned status) ∧
        ∀ iden, .ack iden ∈ s.hostSent ++ (hostTurn s.host (pollOf arrived time s.d2h)).out →
          ∃ is_ok, Item.msg (.frame (bootFrame iden is_ok)) ∈ s.devSent := by
    obtain ⟨-, hcore, hout⟩ | ⟨r, hret, hstep⟩ := hostTurn_cases s.host (pollOf arrived time s.d2h)
    · rw [hcore, hout, List.append_nil]
      exact ⟨hs.quiet, hs.last, hs.answers⟩
    · exact ⟨uploadStep_quiet hstep hs.quiet, hs.lastAfter hret hstep, hs.answersAfter hret hstep htaken⟩
  refine ⟨?_, ?_, fun hpc => ?_, hdown, hs.counts, hs.sane, hquiet, hlast, hanswers, fun hpc => ?_⟩
  · simp only [serialNext, hputs]
    exact hup _
  · simp only [serialNext, hputs, List.length_append]
    exact Nat.le_trans hs.booted_le (Nat.le_add_right _ _)
  · simp only [Serial.sinceBoot, serialNext, hputs, hs.sinceBoot_put]
    exact (hs.since hpc).put _
  · simp only [Serial.sinceBoot, serialNext, hputs, hs.sinceBoot_put]
    exact (hs.left hpc).trans (List.prefix_append _ _).isInfix

end Ticks

theorem serial_sound {T : Platform P} : ∀ s, (serial T).Reachable s → s.Sound T := by
  refine TSys.invariant_of ?_ ?_
  · intro s hs
    obtain ⟨config, plat, framebuf, raw_frame, hdev⟩ := hs.dev
    obtain ⟨config', m, file, retries, time, framebuf', raw_frame', hhost, hsent⟩ := hs.host
    obtain ⟨-, -, hstart⟩ := hostStart_spec config' m file retries time
    have hcore : s.host.ctl.core = (Host.start config' m file retries time).1.core := by rw [hhost]; rfl
    have hnoack : ∀ iden, .ack iden ∉ s.hostSent := by
      intro iden hmem
      rw [hsent] at hmem
      obtain ⟨-, hout⟩ | ⟨-, hout⟩ := hstart <;> simp [hout] at hmem
    refine ⟨⟨[], hs.h2d.symm, ?_⟩, by rw [hs.booted]; exact Nat.zero_le _, fun hpc => ?_,
      ⟨[], by rw [hs.devSent, hs.d2h]; rfl, ?_⟩, ?_, by simp [hs.devSent], fun hpc => ?_, fun l iden r heq => ?_, fun iden hmem => absurd hmem (hnoack iden), fun hpc => ?_⟩
    · rw [hdev]
      exact .of_scanning rfl rfl
    · rw [hdev] at hpc
      cases hpc
    · rw [hhost]
      exact .of_scanning rfl rfl
    · rw [hdev]
      exact ⟨Nat.zero_le _, nofun⟩
    · rw [hcore] at hpc
      obtain ⟨hpc', -⟩ | ⟨hcore', -⟩ := hstart
      · simp [hpc', UploadPc.Receives] at hpc
      · simp [hcore', UploadPc.Receives] at hpc
    · exact absurd (by rw [heq]; simp) (hnoack iden)
    · rw [hdev] at hpc
      cases hpc
  · rintro s tick s' - hs hstep
    obtain rfl := Option.some.inj hstep
    cases tick with
    | dev arrived time text => exact hs.dev arrived time text
    | host arrived time => exact hs.host arrived time

/-- For every file, meta, board, text on the console and schedule of timers,
over channels that deliver every byte unaltered and in order: if the six bytes
of the acknowledgement do not begin inside what the device had still to read of
the host's frames when it came into its `BOOT` loop, it has left this loop only
after the host has executed `fsm_send_ack` for a `BOOT` frame with this
identifier that the device has sent. -/
theorem leaves_after_ack {T : Platform P} {s : Serial P} (hs : (serial T).Reachable s)
    (hpc : s.dev.ctl.pc = .trampoline) (hforge : ¬Forges s.booted s.dev.ctl.fsm.iden s.hostSent) :
    .ack s.dev.ctl.fsm.iden ∈ s.hostSent ∧
      ∃ is_ok, Item.msg (.frame (bootFrame s.dev.ctl.fsm.iden is_ok)) ∈ s.devSent := by
  have hsound := serial_sound s hs
  have hack : .ack s.dev.ctl.fsm.iden ∈ s.hostSent :=
    ack_occurs (hsound.left hpc) hforge fun l iden r heq => (hsound.last l iden r heq).1
  exact ⟨hack, hsound.answers _ hack⟩

/-! ## Three runs -/

/-- A line on which both parties have been started, with clocks at zero. -/
def startedAt (m : Meta) (file : List UInt8) : Serial Board :=
  let start := Host.start config m file 0 fun _ => 0
  { dev := .start config (.zero (fun _ => 0) []) ⟨fun _ => 0, fun _ => 0⟩ fun _ => 0
    host := .start start.1 ⟨fun _ => 0, fun _ => 0⟩ fun _ => 0
    h2d := start.2.flatMap Msg.bytes
    d2h := []
    hostSent := start.2
    devSent := []
    booted := 0 }

/-- After some turns. -/
def ranOver (m : Meta) (file : List UInt8) (ticks : List Tick) : Serial Board :=
  ticks.foldl (serialNext (board .tiny true)) (startedAt m file)

theorem ranOver_reachable (m : Meta) (file : List UInt8) (ticks : List Tick) :
    (serial (board .tiny true)).Reachable (ranOver m file ticks) := by
  unfold ranOver
  induction ticks using List.reverseRecOn with
  | nil =>
      exact .init ⟨⟨config, .zero (fun _ => 0) [], _, _, rfl⟩,
        ⟨config, m, file, 0, fun _ => 0, _, _, rfl, rfl⟩, rfl, rfl, rfl, rfl⟩
  | append_singleton ticks tick ih =>
      rw [List.foldl_append]
      exact .step (l := tick) ih rfl

/-- `n` turns of the device, each with a byte in front of it, at one time. -/
def devTurns (n : Nat) (now : UInt64) : List Tick :=
  List.replicate n (.dev true (fun _ => now) fun _ => ⟨[], nofun⟩)

/-- `n` turns of the host, likewise. -/
def hostTurns (n : Nat) (now : UInt64) : List Tick := List.replicate n (.host true fun _ => now)

/-- A file that spells `fsm_send_ack(1)`. -/
def forgedFile : List UInt8 := fsm_send_ack 1

/-- Its meta. -/
def forgedMeta : Meta :=
  ⟨IMAGE_FLAT_BINARY, COMPRESS_NONE, 6, 6, crc32 CRC_INIT forgedFile, 0, 0x10000⟩

/-- Its upload, byte for byte, with no timer firing. -/
def quietTicks : List Tick :=
  devTurns 48 0 ++ hostTurns 26 0 ++ devTurns 22 0 ++ hostTurns 33 0 ++ devTurns 6 0

theorem leaves_after_ack_quiet :
    let s := ranOver forgedMeta forgedFile quietTicks
    .ack s.dev.ctl.fsm.iden ∈ s.hostSent ∧
      ∃ is_ok, Item.msg (.frame (bootFrame s.dev.ctl.fsm.iden is_ok)) ∈ s.devSent := by
  intro s
  have hend : s.dev.ctl.pc = .trampoline ∧ s.booted = 70 ∧
      s.hostSent =
        [.frame (pollFrame 0 forgedMeta), .frame (chnkFrame 0 ⟨forgedFile, by decide⟩), .ack 1] := by
    decide +kernel
  obtain ⟨hpc, hbooted, hsent⟩ := hend
  refine leaves_after_ack (ranOver_reachable forgedMeta forgedFile _) hpc ?_
  rw [hbooted, hsent]
  -- both frames have been read
  have hpoll : (fsm_send (pollFrame 0 forgedMeta)).length = 48 := by decide +kernel
  have hchnk : (fsm_send (chnkFrame 0 ⟨forgedFile, by decide⟩)).length = 22 := by decide +kernel
  rintro ⟨l, f, r, heq, o, ho, hlate, -⟩
  match l, heq with
  | [], heq =>
      simp only [List.nil_append, List.cons.injEq, Msg.frame.injEq] at heq
      obtain ⟨rfl, -⟩ := heq
      simp only [List.flatMap_nil, List.length_nil] at hlate
      omega
  | [_], heq =>
      simp only [List.cons_append, List.nil_append, List.cons.injEq, Msg.frame.injEq] at heq
      obtain ⟨rfl, rfl, -⟩ := heq
      simp only [List.flatMap_cons, List.flatMap_nil, List.append_nil, Msg.bytes] at hlate
      omega
  | [_, _], heq => simp at heq
  | _ :: _ :: _ :: _, heq => simp at heq

/-- Its upload, with a request for the only chunk that is sent twice. -/
def forgedTicks : List Tick :=
  devTurns 48 0 ++ devTurns 1 300000 ++ hostTurns 46 0 ++ devTurns 43 300000

/-- The meta of an empty image. -/
def emptyMeta : Meta := ⟨IMAGE_FLAT_BINARY, COMPRESS_NONE, 0, 0, CRC_INIT, 0, 0x10000⟩

/-- Its upload, with two `POLL` frames, and the device's
`TIMER_RESET` firing between them. -/
def staleTicks : List Tick :=
  .host false (fun _ => 300000) :: devTurns 48 300000 ++ devTurns 1 2000000 ++
    devTurns 48 2000000 ++ hostTurns 23 300000 ++ devTurns 6 2000000

/-- The message of an item. -/
def Item.msg? : Item → Option Msg
  | .msg m => some m
  | .text _ => none

/-- The device leaves its `BOOT` loop before the host has acknowledged anything:
`TIMER_RESEND` has fired while the only chunk was on its way, and the chunk comes
a second time. It also leaves when the acknowledgement is for a session that
`TIMER_RESET` has ended: a second `POLL` frame has opened another one, of which
the host has not read a byte. -/
theorem leaves_without_ack :
    (∃ s, (serial (board .tiny true)).Reachable s ∧ s.dev.ctl.pc = .trampoline ∧
        ∀ iden, .ack iden ∉ s.hostSent) ∧
      ∃ s, (serial (board .tiny true)).Reachable s ∧ s.dev.ctl.pc = .trampoline ∧
        s.devSent.filterMap Item.msg? =
          [.ack 0, .frame (bootFrame 0 true)] ++ [.ack 0, .frame (bootFrame 0 true)] ∧
        s.d2h = [Msg.ack 0, .frame (bootFrame 0 true)].flatMap Msg.bytes := by
  have hforged : (ranOver forgedMeta forgedFile forgedTicks).dev.ctl.pc = .trampoline ∧
      (ranOver forgedMeta forgedFile forgedTicks).hostSent =
        [.frame (pollFrame 0 forgedMeta), .frame (chnkFrame 0 ⟨forgedFile, by decide⟩),
          .frame (chnkFrame 0 ⟨forgedFile, by decide⟩)] := by
    decide +kernel
  refine ⟨⟨_, ranOver_reachable forgedMeta forgedFile forgedTicks, hforged.1, ?_⟩,
    ⟨_, ranOver_reachable emptyMeta [] staleTicks, by decide +kernel⟩⟩
  rw [hforged.2]
  simp

end Bcm2835.Pup

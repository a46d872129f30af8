import Bcm2835.Pup.Download

/-!
# What a step of the downloader can do

`fsm_download` moves the part of the device that is not timers or memory
(`Device.core`) along the relation `DownloadStep`, which has one constructor
for every way from one blocking call to the next. Invariants of the protocol
are proved by cases on it.
-/

namespace Bcm2835.Pup

/-- The device without its timers and its board. -/
structure DevCore where
  pc : DownloadPc
  iden : UInt16
  meta_ : Meta
  chunk_count : UInt32
  chunk_num : UInt32
  is_ok : Bool
  log : List Event
deriving DecidableEq

/-! ## The log

The device's current session is what follows the last meta the board accepted. -/

/-- The meta that opened the session. -/
def sessionMeta (log : List Event) : Option Meta :=
  log.foldl (fun m e =>
    match e with
    | .init_meta m' true => some m'
    | _ => m) none

/-- The calls of `platform_feed` in the session. -/
def sessionFeeds (log : List Event) : List (UInt32 × List UInt8) :=
  log.foldl (fun fs e =>
    match e with
    | .init_meta _ true => []
    | .feed chunk_no data => fs ++ [(chunk_no, data)]
    | _ => fs) []

/-- The verdict of the last `platform_load_image` in the session. -/
def sessionVerdict (log : List Event) : Option Bool :=
  log.foldl (fun v e =>
    match e with
    | .init_meta _ true => none
    | .load_image ok => ok
    | _ => v) none

section Log

variable (log : List Event)

@[simp] theorem sessionMeta_init_meta (m : Meta) (ok : Bool) :
    sessionMeta (log ++ [.init_meta m ok]) = if ok then some m else sessionMeta log := by
  cases ok <;> simp [sessionMeta]

@[simp] theorem sessionMeta_feed (n : UInt32) (data : List UInt8) :
    sessionMeta (log ++ [.feed n data]) = sessionMeta log := by
  simp [sessionMeta]

@[simp] theorem sessionMeta_load_image (ok : Option Bool) :
    sessionMeta (log ++ [.load_image ok]) = sessionMeta log := by
  simp [sessionMeta]

@[simp] theorem sessionFeeds_init_meta (m : Meta) (ok : Bool) :
    sessionFeeds (log ++ [.init_meta m ok]) = if ok then [] else sessionFeeds log := by
  cases ok <;> simp [sessionFeeds]

@[simp] theorem sessionFeeds_feed (n : UInt32) (data : List UInt8) :
    sessionFeeds (log ++ [.feed n data]) = sessionFeeds log ++ [(n, data)] := by
  simp [sessionFeeds]

@[simp] theorem sessionVerdict_load_image (ok : Option Bool) :
    sessionVerdict (log ++ [.load_image ok]) = ok := by
  simp [sessionVerdict]

end Log

/-! ## Steps -/

variable {P : Type}

def Device.core (d : Device P) : DevCore where
  pc := d.pc
  iden := d.fsm.iden
  meta_ := d.meta_
  chunk_count := d.chunk_count
  chunk_num := d.chunk_num
  is_ok := d.is_ok
  log := d.log

/-- `goto reset`. -/
def DevCore.reset (c : DevCore) : DevCore := { c with pc := .init, iden := 0 }

/-- A board call is made. -/
def DevCore.logged (c : DevCore) (e : Event) : DevCore := { c with log := c.log ++ [e] }

@[simp] theorem Device.reset_core (d : Device P) : d.reset.core = d.core.reset := rfl

/-- The head of the loop over the chunks: a request, or the verdict after some
heartbeats. -/
inductive NextChunk : DevCore → DevCore → List Msg → Prop
  | request {c} : c.chunk_num < c.chunk_count →
      NextChunk c { c with pc := .chunk } [.frame (rqchFrame c.iden c.chunk_num)]
  | verdict {c} (is_ok : Bool) (beats : Nat) : ¬c.chunk_num < c.chunk_count →
      NextChunk c { c.logged (.load_image (some is_ok)) with pc := .boot, is_ok := is_ok }
        (List.replicate beats (.frame (beatFrame c.iden)) ++ [.frame (bootFrame c.iden is_ok)])
  | stuck {c} (beats : Nat) : ¬c.chunk_num < c.chunk_count →
      NextChunk c { c.logged (.load_image none) with pc := .hung }
        (List.replicate beats (.frame (beatFrame c.iden)))

/-- A step from one blocking call, returning `r` with `f` in the frame buffer,
to the next. `accepts` are the metas the board takes. -/
inductive DownloadStep (accepts : Meta → Prop) (c : DevCore) (r : FsmStatus) (f : Frame) :
    DevCore → List Msg → Prop
  | idle : c.pc = .trampoline ∨ c.pc = .hung ∨ (c.pc = .init ∧ ¬(r = .ok ∧ OpensSession f)) →
      DownloadStep accepts c r f c []
  | reject : c.pc = .init → r = .ok → OpensSession f →
      DownloadStep accepts c r f
        ({ c with meta_ := .ofBytes f.payload }.logged (.init_meta (.ofBytes f.payload) false)).reset []
  | accept {c' out} : c.pc = .init → r = .ok → OpensSession f → accepts (.ofBytes f.payload) →
      NextChunk
        ({ c with
            meta_ := .ofBytes f.payload, chunk_count := chunkCount (.ofBytes f.payload)
            chunk_num := 0 }.logged (.init_meta (.ofBytes f.payload) true)) c' out →
      DownloadStep accepts c r f c' (.ack 0 :: out)
  | timeout : c.pc = .chunk ∨ c.pc = .boot → r = .reset → DownloadStep accepts c r f c.reset []
  | again : c.pc = .chunk → r = .resend ∨ (r = .ok ∧ ¬(f.type = HOST_CHNK ∧ f.iden = c.iden)) →
      DownloadStep accepts c r f c [.frame (rqchFrame c.iden c.chunk_num)]
  | refuse : c.pc = .chunk → r = .ok → f.type = HOST_CHNK → f.iden = c.iden →
      DownloadStep accepts c r f (c.logged (.feed c.chunk_num f.payload)).reset []
  | lost : c.pc = .chunk → r = .ok → f.type = HOST_CHNK → f.iden = c.iden →
      DownloadStep accepts c r f { c.logged (.feed c.chunk_num f.payload) with pc := .hung } []
  | feed {c' out} : c.pc = .chunk → r = .ok → f.type = HOST_CHNK → f.iden = c.iden →
      NextChunk
        { c.logged (.feed c.chunk_num f.payload) with
          iden := c.iden + 1, chunk_num := c.chunk_num + 1 } c' out →
      DownloadStep accepts c r f c' out
  | repeatBoot : c.pc = .boot → r = .resend →
      DownloadStep accepts c r f c [.frame (bootFrame c.iden c.is_ok)]
  | acked : c.pc = .boot → r = .ok → DownloadStep accepts c r f { c with pc := .trampoline } []

/-- The metas a board accepts in some state. -/
def Platform.Accepts (T : Platform P) (m : Meta) : Prop := ∃ p, (T.platform_init_meta m p).1 = true

theorem nextChunk_spec (T : Platform P) {d : Device P} {c : DevCore} (now now' : UInt64)
    (hc : d.core = c) : NextChunk c (d.nextChunk T now now').1.core (d.nextChunk T now now').2 := by
  subst hc
  unfold Device.nextChunk
  split
  · rename_i h
    exact .request h
  · rename_i h
    unfold Device.loadImage
    cases hv : (T.platform_load_image d.plat).1 with
    | none =>
        simp only [hv]
        exact .stuck (c := d.core) (T.platform_load_image d.plat).2.1 h
    | some v =>
        simp only [hv]
        exact .verdict (c := d.core) v (T.platform_load_image d.plat).2.1 h

section Steps

variable (T : Platform P) (d : Device P) (f : Frame) (time : Nat → UInt64)

/-- The device with a new meta, which the board has been shown. -/
def Device.shown (m : Meta) : Device P :=
  { d with
    meta_ := m, plat := (T.platform_init_meta m d.plat).2
    log := d.log ++ [.init_meta m (T.platform_init_meta m d.plat).1] }

/-- The device when it starts on the chunks of that meta. -/
def Device.opened (m : Meta) (now : UInt64) : Device P :=
  { d.shown T m with
    fsm := fsm_timer_clear d.fsm .reset now, chunk_count := chunkCount m, chunk_num := 0 }

theorem onInit_open (hf : OpensSession f) :
    d.onInit T f time =
      if (T.platform_init_meta (.ofBytes f.payload) d.plat).1 = true then
        let next := (d.opened T (.ofBytes f.payload) (time 3)).nextChunk T (time 4) (time 5)
        (next.1, .ack 0 :: next.2)
      else ((d.shown T (.ofBytes f.payload)).reset, []) := by
  unfold Device.onInit
  exact if_pos hf

theorem onInit_spec (hpc : d.pc = .init) :
    DownloadStep T.Accepts d.core .ok f (d.onInit T f time).1.core (d.onInit T f time).2 := by
  by_cases hf : OpensSession f
  · rw [onInit_open T d f time hf]
    by_cases hm : (T.platform_init_meta (.ofBytes f.payload) d.plat).1 = true
    · rw [if_pos hm]
      have hlog : (d.shown T (.ofBytes f.payload)).log =
          d.log ++ [.init_meta (.ofBytes f.payload) true] := by
        rw [Device.shown, hm]
      have hcore : (d.opened T (.ofBytes f.payload) (time 3)).core =
          { d.core with
            meta_ := .ofBytes f.payload, chunk_count := chunkCount (.ofBytes f.payload)
            chunk_num := 0 }.logged (.init_meta (.ofBytes f.payload) true) := by
        simp only [Device.core, Device.opened, hlog, fsm_timer_clear_iden]
        rfl
      have hnext := nextChunk_spec T (time 4) (time 5) hcore
      cases hX : (d.opened T (.ofBytes f.payload) (time 3)).nextChunk T (time 4) (time 5) with
      | mk d' out =>
          rw [hX] at hnext
          exact .accept hpc rfl hf ⟨d.plat, hm⟩ hnext
    · rw [if_neg hm]
      have hlog : (d.shown T (.ofBytes f.payload)).log =
          d.log ++ [.init_meta (.ofBytes f.payload) false] := by
        simp only [Device.shown, Bool.not_eq_true] at hm ⊢
        rw [hm]
      have hcore : (d.shown T (.ofBytes f.payload)).core =
          { d.core with meta_ := .ofBytes f.payload }.logged
            (.init_meta (.ofBytes f.payload) false) := by
        simp only [Device.core, hlog]
        rfl
      simp only [Device.reset_core, hcore]
      exact .reject hpc rfl hf
  · have hstay : d.onInit T f time = (d, []) := if_neg hf
    rw [hstay]
    exact .idle (.inr (.inr ⟨hpc, fun h => hf h.2⟩))

theorem sendRqch_core (now : UInt64) (hpc : d.pc = .chunk) : (d.sendRqch now).1.core = d.core := by
  change DevCore.mk .chunk _ _ _ _ _ _ = d.core
  rw [← hpc]
  rfl

theorem sendBoot_core (now : UInt64) (hpc : d.pc = .boot) : (d.sendBoot now).1.core = d.core := by
  change DevCore.mk .boot _ _ _ _ _ _ = d.core
  rw [← hpc]
  rfl

theorem onChunk_spec (r : FsmStatus) (hpc : d.pc = .chunk) :
    DownloadStep T.Accepts d.core r f (d.onChunk T r f time).1.core (d.onChunk T r f time).2 := by
  unfold Device.onChunk
  cases r with
  | reset => exact .timeout (.inl hpc) rfl
  | resend =>
      simp only [sendRqch_core d _ hpc]
      exact .again hpc (.inl rfl)
  | ok =>
      simp only
      split
      · rename_i hf
        cases hfeed : (T.platform_feed d.chunk_num f.payload d.plat).1 with
        | none => exact .lost hpc rfl hf.1 hf.2
        | some b =>
            cases b with
            | false => exact .refuse hpc rfl hf.1 hf.2
            | true =>
                simp only
                exact .feed hpc rfl hf.1 hf.2 (nextChunk_spec T (time 4) (time 5) rfl)
      · rename_i hf
        simp only [sendRqch_core d _ hpc]
        exact .again hpc (.inr ⟨rfl, hf⟩)

theorem onBoot_spec (r : FsmStatus) (hpc : d.pc = .boot) :
    DownloadStep T.Accepts d.core r f (d.onBoot r time).1.core (d.onBoot r time).2 := by
  unfold Device.onBoot
  cases r with
  | reset => exact .timeout (.inr hpc) rfl
  | resend =>
      simp only [sendBoot_core d _ hpc]
      exact .repeatBoot hpc rfl
  | ok => exact .acked hpc rfl

/-- Every step of `fsm_download` is one of `DownloadStep`. -/
theorem fsm_download_spec (r : FsmStatus) :
    DownloadStep T.Accepts d.core r f (fsm_download T d r f time).1.core
      (fsm_download T d r f time).2 := by
  unfold fsm_download
  cases hpc : d.pc with
  | trampoline => exact .idle (.inl hpc)
  | hung => exact .idle (.inr (.inl hpc))
  | init =>
      simp only
      by_cases hr : r = .ok
      · subst hr
        rw [if_pos rfl]
        exact onInit_spec T d f time hpc
      · rw [if_neg hr]
        exact .idle (.inr (.inr ⟨hpc, fun h => hr h.1⟩))
  | chunk => exact onChunk_spec T d f time r hpc
  | boot => exact onBoot_spec T d f time r hpc

end Steps

/-! ## Verdicts and sessions -/

/-- What the device says while it waits for an acknowledgement is the verdict. -/
theorem downloadStep_verdictKept {accepts : Meta → Prop} {c c' : DevCore} {r : FsmStatus}
    {f : Frame} {out : List Msg} (h : DownloadStep accepts c r f c' out)
    (hc : c.pc = .boot → sessionVerdict c.log = some c.is_ok) :
    c'.pc = .boot → sessionVerdict c'.log = some c'.is_ok := by
  have hnext : ∀ {d d' : DevCore} {out : List Msg}, NextChunk d d' out →
      d'.pc = .boot → sessionVerdict d'.log = some d'.is_ok := by
    intro d d' out hnext
    cases hnext <;> simp [DevCore.logged]
  cases h with
  | idle | again | repeatBoot => exact hc
  | reject | timeout | refuse => simp [DevCore.reset]
  | lost | acked => simp
  | accept _ _ _ _ h | feed _ _ _ _ h => exact hnext h

/-- The device gets to the trampoline only from there, or by an acknowledgement. -/
theorem downloadStep_leaves {accepts : Meta → Prop} {c c' : DevCore} {r : FsmStatus} {f : Frame}
    {out : List Msg} (h : DownloadStep accepts c r f c' out) (hpc' : c'.pc = .trampoline) :
    c' = { c with pc := .trampoline } ∧ (c.pc = .trampoline ∨ c.pc = .boot ∧ r = .ok) := by
  have hnext : ∀ {d d' : DevCore} {out : List Msg}, NextChunk d d' out → d'.pc ≠ .trampoline := by
    intro d d' out hnext
    cases hnext <;> simp
  cases h with
  | idle => exact ⟨by rw [← hpc'], .inl hpc'⟩
  | acked hpc hr => exact ⟨rfl, .inr ⟨hpc, hr⟩⟩
  | reject | timeout | refuse => simp [DevCore.reset] at hpc'
  | lost => simp at hpc'
  | again hpc | repeatBoot hpc => simp [hpc] at hpc'
  | accept _ _ _ _ h | feed _ _ _ _ h => exact absurd hpc' (hnext h)

/-- A `BOOT` frame says what `platform_load_image` has said. -/
theorem downloadStep_boots {accepts : Meta → Prop} {c c' : DevCore} {r : FsmStatus} {f : Frame}
    {out : List Msg} (h : DownloadStep accepts c r f c' out)
    (hc : c.pc = .boot → sessionVerdict c.log = some c.is_ok) :
    ∀ g, Msg.frame g ∈ out → g.type = DEV_BOOT →
      ∃ is_ok, g.payload = bootPayload is_ok ∧ sessionVerdict c'.log = some is_ok := by
  have hnext : ∀ {d d' : DevCore} {out : List Msg}, NextChunk d d' out →
      ∀ g, Msg.frame g ∈ out → g.type = DEV_BOOT →
        ∃ is_ok, g.payload = bootPayload is_ok ∧ sessionVerdict d'.log = some is_ok := by
    intro d d' out hnext g hg htype
    cases hnext with
    | request =>
        simp only [List.mem_singleton, Msg.frame.injEq] at hg
        subst hg
        simp [rqchFrame, DEV_RQCH, DEV_BOOT] at htype
    | verdict is_ok =>
        simp only [List.mem_append, List.mem_replicate, List.mem_singleton, Msg.frame.injEq] at hg
        obtain ⟨-, rfl⟩ | rfl := hg
        · simp [beatFrame, DEV_BEAT, DEV_BOOT] at htype
        · exact ⟨is_ok, rfl, by simp [DevCore.logged]⟩
    | stuck =>
        simp only [List.mem_replicate, Msg.frame.injEq] at hg
        obtain ⟨-, rfl⟩ := hg
        simp [beatFrame, DEV_BEAT, DEV_BOOT] at htype
  intro g hg htype
  cases h with
  | idle | reject | timeout | refuse | lost | acked => cases hg
  | again =>
      simp only [List.mem_singleton, Msg.frame.injEq] at hg
      subst hg
      simp [rqchFrame, DEV_RQCH, DEV_BOOT] at htype
  | repeatBoot hpc =>
      simp only [List.mem_singleton, Msg.frame.injEq] at hg
      subst hg
      exact ⟨_, rfl, hc hpc⟩
  | accept _ _ _ _ h =>
      simp only [List.mem_cons, reduceCtorEq, false_or] at hg
      exact hnext h g hg htype
  | feed _ _ _ _ h => exact hnext h g hg htype

/-- Either a frame opens a session, and the board has accepted its meta; or the
session stays, and nothing is acknowledged. -/
theorem downloadStep_session {accepts : Meta → Prop} {c c' : DevCore} {r : FsmStatus} {f : Frame}
    {out : List Msg} (h : DownloadStep accepts c r f c' out) :
    ((c.pc = .init ∧ c'.pc ≠ .init) ∧ r = .ok ∧ OpensSession f ∧
        sessionMeta c'.log = some (.ofBytes f.payload)) ∨
      (¬(c.pc = .init ∧ c'.pc ≠ .init) ∧ sessionMeta c'.log = sessionMeta c.log ∧
        ∀ iden, Msg.ack iden ∉ out) := by
  have hnext : ∀ {d d' : DevCore} {out : List Msg}, NextChunk d d' out →
      d'.pc ≠ .init ∧ sessionMeta d'.log = sessionMeta d.log ∧ ∀ iden, Msg.ack iden ∉ out := by
    intro d d' out hnext
    cases hnext <;> simp [DevCore.logged]
  cases h with
  | idle => exact .inr ⟨fun h => h.2 h.1, rfl, by simp⟩
  | reject => exact .inr ⟨by simp [DevCore.reset], by simp [DevCore.reset, DevCore.logged], by simp⟩
  | timeout => exact .inr ⟨by simp [DevCore.reset], rfl, by simp⟩
  | refuse => exact .inr ⟨by simp [DevCore.reset], by simp [DevCore.reset, DevCore.logged], by simp⟩
  | lost hpc => exact .inr ⟨by simp [hpc], by simp [DevCore.logged], by simp⟩
  | again hpc | repeatBoot hpc => exact .inr ⟨by simp [hpc], rfl, by simp⟩
  | acked hpc => exact .inr ⟨by simp [hpc], rfl, by simp⟩
  | accept hpc hr hopen _ h =>
      obtain ⟨hpc', hmeta, -⟩ := hnext h
      exact .inl ⟨⟨hpc, hpc'⟩, hr, hopen, by simpa [DevCore.logged] using hmeta⟩
  | feed hpc _ _ _ h =>
      obtain ⟨-, hmeta, hout⟩ := hnext h
      exact .inr ⟨by simp [hpc], by simpa [DevCore.logged] using hmeta, hout⟩

end Bcm2835.Pup

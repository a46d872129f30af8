import Bcm2835.Pup.BoardSpec
import Bcm2835.Pup.LineSpec

/-!
# What the board has been fed when the image is loaded

Replies carry the identifier of the request and not the number of the chunk.
As the device counts both up together, and no accepted image has 65536 chunks,
a `CHNK` frame with identifier `i` holds chunk `i`, no matter how long ago it
was sent.
-/

namespace Bcm2835.Pup

open Bytes

/-! ## Files in chunks -/

/-- Chunk `n` of a file. -/
def slice (file : List UInt8) (n : Nat) : List UInt8 := (file.drop (n * 0xffff)).take 0xffff

/-- The number of chunks of a file. -/
def chunks (file : List UInt8) : Nat := (file.length + 0xfffe) / 0xffff

/-- The first `c` chunks under their numbers. -/
def slices (file : List UInt8) (c : Nat) : List (UInt32 × List UInt8) :=
  (List.range c).map fun n => (.ofNat n, slice file n)

theorem slices_succ (file : List UInt8) (c : Nat) :
    slices file (c + 1) = slices file c ++ [(.ofNat c, slice file c)] := by
  simp [slices, List.range_succ]

theorem slices_flatten (file : List UInt8) (c : Nat) :
    ((slices file c).map Prod.snd).flatten = file.take (c * 0xffff) := by
  induction c with
  | zero => rfl
  | succ c ih =>
      rw [slices_succ, List.map_append, List.flatten_append, ih, Nat.succ_mul, List.take_add]
      simp [slice]

/-- All chunks make up the file. -/
theorem slices_chunks (file : List UInt8) :
    ((slices file (chunks file)).map Prod.snd).flatten = file := by
  rw [slices_flatten, List.take_of_length_le]
  unfold chunks
  omega

theorem platform_marshal_slice {file : List UInt8} {n : UInt32} {data : Chunk}
    (h : platform_marshal file n = some data) : data.1 = slice file n.toNat := by
  simp only [platform_marshal] at h
  split at h
  · cases h
  · cases h
    rfl

/-- The meta describes the file as a flat uncompressed image. -/
structure Announces (m : Meta) (file : List UInt8) : Prop where
  image_format : m.image_format = IMAGE_FLAT_BINARY
  compression_type : m.compression_type = COMPRESS_NONE
  wire_size : m.wire_size.toNat = file.length
  mem_size : m.mem_size.toNat = file.length

/-- The device counts the chunks of such an image right, and in 16 bits. -/
theorem Announces.chunkCount {L : Linked} {xz : Bool} {m : Meta} {file : List UInt8}
    (h : Announces m file) (hacc : (board L xz).Accepts m) :
    (Pup.chunkCount m).toNat = chunks file ∧ chunks file < 65536 := by
  obtain ⟨b, hb⟩ := hacc
  have hD : DRAM_LIMIT = 0x20000000 := rfl
  obtain ⟨hend, hlt⟩ := (platform_init_meta_placed (Prod.ext hb rfl)).img_end_flat h.image_format
  have hw := h.wire_size
  have hm := h.mem_size
  have hlen : file.length < 2 ^ 29 := by omega
  have hsum : (m.wire_size + 0xfffe).toNat = file.length + 0xfffe := by
    rw [UInt32.toNat_add, hw]
    exact Nat.mod_eq_of_lt (by simp; omega)
  have hcount : (Pup.chunkCount m).toNat = chunks file := by
    rw [Pup.chunkCount, UInt32.toNat_div, hsum]
    rfl
  exact ⟨hcount, by unfold chunks; omega⟩

/-! ## The device -/

/-- The board had been fed the whole file whenever the image was loaded. -/
def LoadsWhole (file : List UInt8) (log : List Event) : Prop :=
  ∀ pre v, pre ++ [.load_image v] <+: log → sessionFeeds pre = slices file (chunks file)

theorem LoadsWhole.snoc {file : List UInt8} {log : List Event} (h : LoadsWhole file log) {e : Event}
    (he : ∀ v, e = .load_image v → sessionFeeds log = slices file (chunks file)) :
    LoadsWhole file (log ++ [e]) := by
  intro pre v hpre
  rw [List.prefix_concat_iff] at hpre
  obtain heq | hpre := hpre
  · obtain ⟨hpre, he'⟩ := List.append_inj' heq rfl
    rw [hpre]
    exact he v (by simpa using he'.symm)
  · exact h pre v hpre

/-- A session that asks for the chunks of the file, and has been fed those
before `chunk_num`. -/
structure DevCore.Serving (file : List UInt8) (c : DevCore) : Prop where
  count : c.chunk_count.toNat = chunks file
  small : chunks file < 65536
  num_le : c.chunk_num.toNat ≤ chunks file
  iden : c.iden.toNat = c.chunk_num.toNat
  feeds : sessionFeeds c.log = slices file c.chunk_num.toNat

/-- The device's part of the invariant. -/
structure DevCore.Delivers (file : List UInt8) (c : DevCore) : Prop where
  idle : c.pc = .init → c.iden = 0
  serving : c.pc = .chunk → c.Serving file ∧ c.chunk_num < c.chunk_count
  whole : LoadsWhole file c.log

/-- A request asks for the chunk its identifier names. -/
def Msg.Asks : Msg → Prop
  | .frame f => f.type = DEV_RQCH → (get32 f.payload 0).toNat = f.iden.toNat
  | .ack _ => True

/-- A chunk is the one its identifier names, and a meta is `m`. -/
def Msg.Serves (m : Meta) (file : List UInt8) : Msg → Prop
  | .frame f =>
      (f.type = HOST_CHNK → f.payload = slice file f.iden.toNat) ∧
        (f.type = HOST_POLL → Meta.ofBytes f.payload = m)
  | .ack _ => True

@[simp] theorem pollFrame_serves (iden : UInt16) (m : Meta) (file : List UInt8) :
    (Msg.frame (pollFrame iden m)).Serves m file := by
  simp [Msg.Serves, pollFrame, HOST_POLL, HOST_CHNK]

theorem rqchFrame_asks {iden : UInt16} {num : UInt32} (h : iden.toNat = num.toNat) :
    (Msg.frame (rqchFrame iden num)).Asks := by
  intro _
  have hget : get32 (le32 num) 0 = num := by simpa using get32_append (a := []) (c := []) num rfl
  simp [rqchFrame, hget, h]

@[simp] theorem beatFrame_asks (iden : UInt16) : (Msg.frame (beatFrame iden)).Asks := by
  simp [Msg.Asks, beatFrame, DEV_BEAT, DEV_RQCH]

@[simp] theorem bootFrame_asks (iden : UInt16) (is_ok : Bool) :
    (Msg.frame (bootFrame iden is_ok)).Asks := by
  simp [Msg.Asks, bootFrame, DEV_BOOT, DEV_RQCH]

theorem nextChunk_delivers {file : List UInt8} {c c' : DevCore} {out : List Msg}
    (h : NextChunk c c' out) (hc : c.Serving file) (hwhole : LoadsWhole file c.log) :
    c'.Delivers file ∧ ∀ msg ∈ out, msg.Asks := by
  have hdone : ¬c.chunk_num < c.chunk_count → sessionFeeds c.log = slices file (chunks file) := by
    intro hge
    have hle : c.chunk_count.toNat ≤ c.chunk_num.toNat := by
      simpa [UInt32.lt_iff_toNat_lt] using hge
    have hnum : c.chunk_num.toNat = chunks file := by
      have := hc.num_le
      have := hc.count
      omega
    rw [hc.feeds, hnum]
  cases h with
  | request hlt =>
      refine ⟨⟨by simp, fun _ => ⟨⟨hc.count, hc.small, hc.num_le, hc.iden, hc.feeds⟩, hlt⟩, hwhole⟩, ?_⟩
      simpa using rqchFrame_asks hc.iden
  | verdict is_ok beats hge =>
      refine ⟨⟨by simp, by simp, hwhole.snoc fun _ _ => hdone hge⟩, ?_⟩
      intro msg hmsg
      simp only [List.mem_append, List.mem_replicate, List.mem_singleton] at hmsg
      obtain ⟨-, rfl⟩ | rfl := hmsg <;> simp
  | stuck beats hge =>
      refine ⟨⟨by simp, by simp, hwhole.snoc fun _ _ => hdone hge⟩, ?_⟩
      intro msg hmsg
      rw [List.eq_of_mem_replicate hmsg]
      simp

/-- A device that hears only chunks of the file and its meta delivers the file. -/
theorem downloadStep_delivers {L : Linked} {xz : Bool} {m : Meta} {file : List UInt8}
    {c c' : DevCore} {r : FsmStatus} {f : Frame} {out : List Msg}
    (h : DownloadStep (board L xz).Accepts c r f c' out) (hm : Announces m file)
    (hf : c.pc = .init ∨ c.pc = .chunk → r = .ok → (Msg.frame f).Serves m file)
    (hc : c.Delivers file) : c'.Delivers file ∧ ∀ msg ∈ out, msg.Asks := by
  have hreset : ∀ d : DevCore, LoadsWhole file d.log → d.reset.Delivers file := fun d hd =>
    ⟨fun _ => rfl, by simp [DevCore.reset], hd⟩
  cases h with
  | idle => exact ⟨hc, by simp⟩
  | reject => exact ⟨hreset _ (hc.whole.snoc (by simp)), by simp⟩
  | timeout => exact ⟨hreset _ hc.whole, by simp⟩
  | refuse => exact ⟨hreset _ (hc.whole.snoc (by simp)), by simp⟩
  | lost => exact ⟨⟨by simp, by simp, hc.whole.snoc (by simp)⟩, by simp⟩
  | acked => exact ⟨⟨by simp, by simp, hc.whole⟩, by simp⟩
  | again hpc => exact ⟨hc, by simpa using rqchFrame_asks (hc.serving hpc).1.iden⟩
  | repeatBoot => exact ⟨hc, by simp⟩
  | accept hpc hr hopen hacc hnext =>
      have hmeta : Meta.ofBytes f.payload = m := (hf (.inl hpc) hr).2 hopen.1
      rw [hmeta] at hacc hnext
      obtain ⟨hcount, hsmall⟩ := hm.chunkCount hacc
      obtain ⟨hc', hout⟩ := nextChunk_delivers hnext (show DevCore.Serving file _ from
        ⟨hcount, hsmall, by simp [DevCore.logged], by simp [DevCore.logged, hc.idle hpc],
          by simp [DevCore.logged, slices]⟩)
        (hc.whole.snoc (by simp))
      exact ⟨hc', by simpa [Msg.Asks] using hout⟩
  | feed hpc hr htype hiden hnext =>
      obtain ⟨hs, hlt⟩ := hc.serving hpc
      have hnum := hs.iden
      have hcount := hs.count
      have hsmall := hs.small
      have hlt : c.chunk_num.toNat < c.chunk_count.toNat := UInt32.lt_iff_toNat_lt.mp hlt
      have hpayload : f.payload = slice file c.chunk_num.toNat := by
        rw [(hf (.inr hpc) hr).1 htype, hiden, hnum]
      have hnum' : (c.chunk_num + 1).toNat = c.chunk_num.toNat + 1 := by
        rw [UInt32.toNat_add]
        exact Nat.mod_eq_of_lt (by simp; omega)
      have hiden' : (c.iden + 1).toNat = c.chunk_num.toNat + 1 := by
        rw [UInt16.toNat_add, hnum]
        exact Nat.mod_eq_of_lt (by simp; omega)
      refine nextChunk_delivers hnext (show DevCore.Serving file _ from
        ⟨hcount, hsmall, ?_, hiden'.trans hnum'.symm, ?_⟩) (hc.whole.snoc (by simp))
      · simp only [hnum']
        omega
      · simp [DevCore.logged, hs.feeds, hpayload, hnum', slices_succ]

/-! ## Both parties -/

/-- A host that does not wait sends nothing. -/
theorem uploadStep_silent {m : Meta} {file : List UInt8} {c c' : HostCore} {r : FsmStatus}
    {f : Frame} {out : List Msg} (h : UploadStep m file c r f c' out)
    (hc : ¬(c.pc = .poll ∨ c.pc.Receives)) : out = [] := by
  cases h with
  | idle | giveUp | polled | beat | exit | ignore => rfl
  | poll hpc => exact absurd hpc hc
  | repoll hpc => exact absurd (.inl hpc) hc
  | boot hpc => exact absurd (.inr hpc) hc
  | serve _ hpc => exact absurd (.inr (.inl hpc)) hc

/-- The invariant: the device's part, and that everything on the line can be trusted. -/
structure Line.Delivers {P : Type} (m : Meta) (file : List UInt8) (s : Line P) : Prop where
  dev : s.dev.core.Delivers file
  h2d : ∀ e ∈ s.h2d, e.2.Serves m file
  d2h : ∀ e ∈ s.d2h, e.2.Asks
  host : s.host.pc = .poll ∨ s.host.pc.Receives → s.host.meta_ = m ∧ s.host.file = file

/-- What the host sends after a request that can be trusted can be trusted. -/
theorem uploadStep_serves {m : Meta} {file : List UInt8} {c c' : HostCore} {r : FsmStatus}
    {f : Frame} {out : List Msg} (h : UploadStep m file c r f c' out)
    (hf : c.pc.Receives → r ≠ .reset → (Msg.frame f).Asks) : ∀ msg ∈ out, msg.Serves m file := by
  cases h with
  | idle | giveUp | polled | beat | exit | ignore => simp
  | poll | repoll => simp
  | boot => simp [Msg.Serves]
  | serve hdata hpc hr htype =>
      have hnum := hf (.inl hpc) hr htype.1
      simp [Msg.Serves, chnkFrame, HOST_CHNK, HOST_POLL, platform_marshal_slice hdata, hnum]

/-- A step of the host leaves it in a wait only if it was in one. -/
theorem uploadStep_waits {m : Meta} {file : List UInt8} {c c' : HostCore} {r : FsmStatus}
    {f : Frame} {out : List Msg} (h : UploadStep m file c r f c' out)
    (hc' : c'.pc = .poll ∨ c'.pc.Receives) : c.pc = .poll ∨ c.pc.Receives := by
  cases h with
  | idle => exact hc'
  | giveUp hpc | poll hpc => exact hpc
  | repoll hpc | polled hpc => exact .inl hpc
  | beat hpc | serve _ hpc | exit hpc => exact .inr (.inl hpc)
  | boot hpc | ignore hpc => exact .inr hpc

/-- Every run of the host uploads `file` under `m`. -/
def Move.Uploads (m : Meta) (file : List UInt8) : Move → Prop
  | .opens _ m' file' _ _ => m' = m ∧ file' = file
  | _ => True

/-- The line when only `file` is uploaded, and only under `m`. -/
def uploads {P : Type} (T : Platform P) (m : Meta) (file : List UInt8) : TSys (Line P) Move :=
  (line T).restrict fun _ mv => mv.Uploads m file

section Steps

variable {P : Type} {m : Meta} {file : List UInt8} {s : Line P} {r : FsmStatus} {f : Frame}
  {out : List Msg}

/-- What the host adds to the channel can be trusted like what is there. -/
theorem Line.Delivers.sends (hs : s.Delivers m file) {c' : HostCore}
    (hup : UploadStep s.host.meta_ s.host.file s.host.core r f c' out)
    (hf : s.host.pc.Receives → r ≠ .reset → (Msg.frame f).Asks) :
    ∀ e ∈ s.h2d ++ out.map (s.run, ·), e.2.Serves m file := by
  intro e he
  obtain he | he := List.mem_append.mp he
  · exact hs.h2d e he
  obtain ⟨msg, hmsg, rfl⟩ := List.mem_map.mp he
  by_cases hpc : s.host.pc = .poll ∨ s.host.pc.Receives
  · obtain ⟨hmeta, hfile⟩ := hs.host hpc
    rw [hmeta, hfile] at hup
    exact uploadStep_serves hup hf msg hmsg
  · rw [uploadStep_silent hup hpc] at hmsg
    cases hmsg

/-- The host goes on with the same upload. -/
theorem Line.Delivers.goesOn (hs : s.Delivers m file) {h' : Host}
    (hup : UploadStep s.host.meta_ s.host.file s.host.core r f h'.core out)
    (hargs : h'.meta_ = s.host.meta_ ∧ h'.file = s.host.file) :
    h'.pc = .poll ∨ h'.pc.Receives → h'.meta_ = m ∧ h'.file = file := by
  intro hpc
  rw [hargs.1, hargs.2]
  exact hs.host (uploadStep_waits hup hpc)

end Steps

theorem line_delivers {L : Linked} {xz : Bool} {m : Meta} {file : List UInt8}
    (hm : Announces m file) :
    ∀ s, (uploads (board L xz) m file).Reachable s → s.Delivers m file := by
  refine TSys.invariant_of ?_ ?_
  · rintro s ⟨config, plat, rfl⟩
    refine ⟨⟨fun _ => rfl, ?_, fun pre v hpre => ?_⟩, by simp [Line.start],
      by simp [Line.start], by simp [Line.start, UploadPc.Receives]⟩
    · intro hpc
      cases hpc
    · exact absurd (List.eq_nil_of_prefix_nil hpre) (by simp)
  · intro s mv s' hreach hs hmove
    obtain ⟨hmv, hstep⟩ := hmove
    cases line_step hstep with
    | dev hdown hframe hsub heq =>
        obtain ⟨hdev, hout⟩ := downloadStep_delivers hdown hm
          (fun hpc hr => hs.h2d _ (hframe hpc hr)) hs.dev
        rw [heq]
        refine ⟨hdev, fun e he => hs.h2d e (hsub.subset he), fun e he => ?_, hs.host⟩
        obtain he | he := List.mem_append.mp he
        · exact hs.d2h e he
        · obtain ⟨msg, hmsg, rfl⟩ := List.mem_map.mp he
          exact hout msg hmsg
    | hear hup hargs hhead hmsg heq =>
        have hheard := hs.d2h
        rw [hhead] at hheard
        have hhost := hs.goesOn hup hargs
        rw [heq]
        refine ⟨hs.dev, hs.sends hup fun hpc _ => ?_,
          fun e he => hheard e (List.mem_cons_of_mem _ he), hhost⟩
        obtain ⟨hpoll, -⟩ | ⟨-, rfl⟩ := hmsg
        · simp [hpoll, UploadPc.Receives] at hpc
        · exact hheard _ List.mem_cons_self
    | fire hup hargs hr heq =>
        have hquiet := line_quiet s hreach.of_restrict
        have hhost := hs.goesOn hup hargs
        rw [heq]
        refine ⟨hs.dev, hs.sends hup fun hpc hne => ?_, hs.d2h, hhost⟩
        obtain rfl | ⟨-, hactive⟩ := hr
        · exact absurd rfl hne
        · simp [hquiet hpc] at hactive
    | lose hh2d hd2h heq =>
        rw [heq]
        exact ⟨hs.dev, fun e he => hs.h2d e (hh2d.subset he), fun e he => hs.d2h e (hd2h.subset he),
          hs.host⟩
    | opens hmv' hargs hstart heq =>
        rw [hmv'] at hmv
        obtain ⟨rfl, rfl⟩ := hmv
        rw [heq]
        refine ⟨hs.dev, fun e he => ?_, fun e he => absurd he List.not_mem_nil, fun _ => hargs⟩
        obtain he | he := List.mem_append.mp he
        · exact hs.h2d e he
        · obtain ⟨msg, hmsg, rfl⟩ := List.mem_map.mp he
          obtain ⟨-, rfl⟩ | ⟨-, rfl⟩ := hstart
          · cases hmsg
          · rw [List.mem_singleton.mp hmsg]
            simp

/-- Over a line that may lose anything, with timers that may fire at any
moment, however often the host is killed and starts over: whenever the device
loads an image that is announced as a flat binary, the board has been fed, since
the `POLL` frame that opened the session, chunk after chunk of the file, each
once and in order, and together they are the file. -/
theorem load_image_after_whole_file {L : Linked} {xz : Bool} {m : Meta} {file : List UInt8}
    (hm : Announces m file) {s : Line Board} (hs : (uploads (board L xz) m file).Reachable s)
    {pre : List Event} {v : Option Bool} (hpre : pre ++ [.load_image v] <+: s.dev.log) :
    sessionFeeds pre = (List.range (chunks file)).map (fun n => (.ofNat n, slice file n)) ∧
      ((sessionFeeds pre).map Prod.snd).flatten = file := by
  have hfeeds : sessionFeeds pre = slices file (chunks file) :=
    (line_delivers hm s hs).dev.whole pre v hpre
  exact ⟨hfeeds, by rw [hfeeds, slices_chunks]⟩

/-! ## Files of any length get there -/

section Rounds

variable (L : Linked) (xz : Bool) {m : Meta} {file : List UInt8} {s : Line Board} {n : Nat}

/-- There are bytes of the file in chunk `n`. -/
theorem platform_marshal_of_lt (hn : n < chunks file) (hsmall : chunks file < 65536) :
    ∃ data, platform_marshal file (.ofNat n) = some data := by
  have hnum : (UInt32.ofNat n).toNat = n := by
    rw [UInt32.toNat_ofNat']
    exact Nat.mod_eq_of_lt (by omega)
  have hne : (file.drop ((UInt32.ofNat n).toNat * 0xffff)).take 0xffff ≠ [] := by
    rw [hnum, ← List.length_pos_iff, List.length_take, List.length_drop]
    unfold chunks at hn
    omega
  exact ⟨_, if_neg hne⟩

/-- The request for chunk `n` is on its way, and nothing else is. -/
structure Line.Requests (m : Meta) (n : Nat) (s : Line Board) : Prop where
  host : s.host.pc = .frames
  dev : s.dev.pc = .chunk
  num : s.dev.chunk_num = .ofNat n
  count : s.dev.chunk_count = chunkCount m
  flat : s.dev.plat.META.compression_type = COMPRESS_NONE
  request : ∃ σ, s.d2h = [(σ, .frame (rqchFrame s.dev.fsm.iden (.ofNat n)))]
  quiet : s.h2d = []

/-- The host answers the request. -/
theorem Line.Requests.served (h : s.Requests m n) {data : Chunk}
    (hdata : platform_marshal s.host.file (.ofNat n) = some data) (f : Frame)
    (time : Nat → UInt64) :
    ∃ s', lineNext (board L xz) s (.hostTakes f time) = some s' ∧ s'.dev = s.dev ∧
      s'.host.pc = .frames ∧ s'.d2h = [] ∧
      s'.h2d = [(s.run, .frame (chnkFrame s.dev.fsm.iden data))] := by
  obtain ⟨σ, hd2h⟩ := h.request
  have hget : get32 (le32 (.ofNat n)) 0 = .ofNat n := by
    simpa using get32_append (a := []) (c := []) (.ofNat n) rfl
  have htake : s.host.wait.takes f (.frame (rqchFrame s.dev.fsm.iden (.ofNat n))) =
      some (rqchFrame s.dev.fsm.iden (.ofNat n)) := by
    rw [Host.wait_of_receives (.inl h.host)]
    rfl
  have hserve : ∃ h', fsm_upload s.host .ok (rqchFrame s.dev.fsm.iden (.ofNat n)) time =
      (h', [.frame (chnkFrame s.dev.fsm.iden data)]) ∧ h'.pc = .frames := by
    simp [fsm_upload, h.host, Host.onFrames, rqchFrame, Host.serve, hget, hdata, DEV_RQCH, DEV_BEAT,
      DEV_BOOT, Frame.plen]
  obtain ⟨h', heq, hpc⟩ := hserve
  have hnext : lineNext (board L xz) s (.hostTakes f time) =
      some { s with
        host := h', heard := σ, d2h := []
        h2d := [(s.run, .frame (chnkFrame s.dev.fsm.iden data))] } := by
    simp [lineNext, hd2h, htake, Line.hostGoes, heq, h.quiet]
  exact ⟨_, hnext, rfl, hpc, rfl, rfl⟩

/-- The device goes on when it is fed the chunk it waits for. -/
theorem fsm_download_fed {d : Device Board} (hpc : d.pc = .chunk)
    (hflat : d.plat.META.compression_type = COMPRESS_NONE) (data : Chunk) (time : Nat → UInt64) :
    ∃ d' : Device Board,
      fsm_download (board L xz) d .ok (chnkFrame d.fsm.iden data) time =
        d'.nextChunk (board L xz) (time 4) (time 5) ∧
      d'.chunk_num = d.chunk_num + 1 ∧ d'.chunk_count = d.chunk_count ∧
      d'.plat.META.compression_type = COMPRESS_NONE := by
  have hfeed : platform_feed data d.plat = (some true, feed_impl d.plat data) := by
    simp [platform_feed, hflat, COMPRESS_NONE, COMPRESS_XZ]
  have hsame : (feed_impl d.plat data).META.compression_type = COMPRESS_NONE := by
    rw [(feed_impl_sameImage d.plat data).1, hflat]
  let fsm := fsm_timer_clear d.fsm .reset (time 3)
  let d' : Device Board :=
    { d with
      plat := feed_impl d.plat data, log := d.log ++ [.feed d.chunk_num data]
      fsm := { fsm with iden := fsm.iden + 1 }, chunk_num := d.chunk_num + 1 }
  refine ⟨d', ?_, rfl, rfl, hsame⟩
  simp [fsm_download, hpc, Device.onChunk, chnkFrame, board, hfeed, d', fsm]

/-- A device that has just asked for chunk `n`. -/
theorem Line.asks {d : Device Board} (now : UInt64) (hnum : d.chunk_num = .ofNat n)
    (hcount : d.chunk_count = chunkCount m) (hflat : d.plat.META.compression_type = COMPRESS_NONE)
    {t : Line Board} (hdev : t.dev = (d.sendRqch now).1)
    (hd2h : ∃ σ, t.d2h = (d.sendRqch now).2.map (σ, ·)) (hpc : t.host.pc = .frames)
    (hh2d : t.h2d = []) : t.Requests m n := by
  obtain ⟨σ, hd2h⟩ := hd2h
  refine ⟨hpc, ?_, ?_, ?_, ?_, ⟨σ, ?_⟩, hh2d⟩
  · rw [hdev]; rfl
  · rw [hdev]; exact hnum
  · rw [hdev]; exact hcount
  · rw [hdev]; exact hflat
  · rw [hd2h, hdev]
    simp [Device.sendRqch, hnum]

/-- After the last chunk it loads the image. -/
theorem nextChunk_loads {d : Device Board} (hge : ¬d.chunk_num < d.chunk_count)
    (now now' : UInt64) :
    ∃ pre v, (d.nextChunk (board L xz) now now').1.log = pre ++ [.load_image v] := by
  rw [Device.nextChunk, if_neg hge]
  refine ⟨d.log, ((board L xz).platform_load_image d.plat).1, ?_⟩
  unfold Device.loadImage
  dsimp only
  split <;> rfl

/-- The device takes the answer. It asks for the next chunk, or loads the image. -/
theorem Line.Requests.fed (h : s.Requests m n) {t : Line Board} (hdev : t.dev = s.dev)
    (hhost : t.host.pc = .frames) (hd2h : t.d2h = []) {data : Chunk} {origin : Nat}
    (hh2d : t.h2d = [(origin, .frame (chnkFrame s.dev.fsm.iden data))]) (f : Frame)
    (time : Nat → UInt64) :
    ∃ t', lineNext (board L xz) t (.devTakes f time) = some t' ∧
      (UInt32.ofNat (n + 1) < chunkCount m ∧ t'.Requests m (n + 1) ∨
        ∃ pre v, t'.dev.log = pre ++ [.load_image v]) := by
  have htake : t.dev.wait.takes f (.frame (chnkFrame s.dev.fsm.iden data)) =
      some (chnkFrame s.dev.fsm.iden data) := by
    rw [hdev]
    simp [Device.wait, h.dev, Wait.takes]
  obtain ⟨d', hgo, hnum, hcount, hflat⟩ :=
    fsm_download_fed L xz (d := s.dev) h.dev h.flat data time
  have hnum : d'.chunk_num = .ofNat (n + 1) := by
    rw [hnum, h.num, UInt32.ofNat_add]
    rfl
  have hnext : lineNext (board L xz) t (.devTakes f time) =
      some ({ t with h2d := [] }.devGoes (board L xz) t.dev.fsm origin .ok
        (chnkFrame s.dev.fsm.iden data) time) := by
    simp [lineNext, hh2d, htake]
  have hgo : fsm_download (board L xz) t.dev .ok (chnkFrame s.dev.fsm.iden data) time =
      d'.nextChunk (board L xz) (time 4) (time 5) := by
    rw [hdev]
    exact hgo
  refine ⟨_, hnext, ?_⟩
  by_cases hlt : d'.chunk_num < d'.chunk_count
  · rw [Device.nextChunk, if_pos hlt] at hgo
    rw [hnum, hcount, h.count] at hlt
    refine .inl ⟨hlt, Line.asks (time 4) hnum (hcount.trans h.count) hflat (congrArg Prod.fst hgo)
      ⟨t.session.next t.dev (d'.sendRqch (time 4)).1 origin, ?_⟩ hhost rfl⟩
    simp only [Line.devGoes, hd2h, hgo, List.nil_append]
  · obtain ⟨pre, v, hlog⟩ := nextChunk_loads L xz hlt (time 4) (time 5)
    rw [← hgo] at hlog
    exact .inr ⟨pre, v, hlog⟩

/-- From the first request on, a line that loses nothing gets the whole file through. -/
theorem Line.Requests.loads (hm : Announces m file) (hacc : (board L xz).Accepts m)
    (hs : (uploads (board L xz) m file).Reachable s) (h : s.Requests m n) (hn : n < chunks file) :
    ∃ s' pre v, (uploads (board L xz) m file).Reachable s' ∧
      s'.dev.log = pre ++ [.load_image v] := by
  obtain ⟨hcount, hsmall⟩ := hm.chunkCount hacc
  induction hk : chunks file - n generalizing n s with
  | zero => omega
  | succ k ih =>
      have hfile := ((line_delivers hm s hs).host (.inr (.inl h.host))).2
      obtain ⟨data, hdata⟩ := platform_marshal_of_lt hn hsmall
      rw [← hfile] at hdata
      obtain ⟨t, hserved, hdev, hhost, hd2h, hh2d⟩ :=
        h.served L xz hdata (beatFrame 0) fun _ => 0
      obtain ⟨s', hfed, hnext⟩ :=
        h.fed L xz hdev hhost hd2h hh2d (beatFrame 0) fun _ => 0
      have hs' : (uploads (board L xz) m file).Reachable s' :=
        .step (.step hs ⟨by trivial, hserved⟩) ⟨by trivial, hfed⟩
      obtain ⟨hlt, hreq⟩ | ⟨pre, v, hlog⟩ := hnext
      · rw [UInt32.lt_iff_toNat_lt, UInt32.toNat_ofNat', hcount] at hlt
        exact ih hs' hreq (by omega) (by omega)
      · exact ⟨s', pre, v, hs', hlog⟩

end Rounds

/-- The meta of a three byte image. -/
def smallMeta : Meta :=
  ⟨IMAGE_FLAT_BINARY, COMPRESS_NONE, 3, 3, crc32 CRC_INIT [1, 2, 3], 0, 0x8000⟩

/-- Its upload: the device asks twice for the only chunk, and gets it twice. -/
def smallUpload : List Move :=
  let f := beatFrame 0
  let time := fun _ => 0
  [.opens config smallMeta [1, 2, 3] 0 time, .devTakes f time, .devFires .resend f time,
    .hostTakes f time, .hostTakes f time, .hostTakes f time, .devTakes f time]

/-- A file of two chunks, the second of one byte. -/
def bigFile : List UInt8 := List.replicate 0x10000 0

def bigMeta : Meta := ⟨IMAGE_FLAT_BINARY, COMPRESS_NONE, 0x10000, 0x10000, 0, 0, 0x8000⟩

theorem bigMeta_announces : Announces bigMeta bigFile :=
  ⟨rfl, rfl, (List.length_replicate ..).symm, (List.length_replicate ..).symm⟩

/-- Until the device asks for the first chunk. -/
def bigStart : List Move :=
  let f := beatFrame 0
  let time := fun _ => 0
  [.opens config bigMeta bigFile 0 time, .devTakes f time, .hostTakes f time]

theorem bigStart_requests : ∃ s : Line Board,
    TSys.exec (lineNext (board .tiny true)) (.start config (.zero (fun _ => 0) [])) bigStart =
      some s ∧ s.Requests bigMeta 0 := by
  have hrun : (TSys.exec (lineNext (board .tiny true)) (.start config (.zero (fun _ => 0) []))
      bigStart).any (fun s => s.host.pc = .frames ∧ s.dev.pc = .chunk ∧ s.dev.chunk_num = 0 ∧
        s.dev.chunk_count = chunkCount bigMeta ∧ s.dev.plat.META.compression_type = COMPRESS_NONE ∧
        s.h2d = [] ∧ s.d2h = [(s.session, .frame (rqchFrame s.dev.fsm.iden 0))]) := by
    decide +kernel
  obtain ⟨s, hs, h⟩ := (Option.any_eq_true ..).mp hrun
  simp only [decide_eq_true_eq] at h
  obtain ⟨hhost, hdev, hnum, hcount, hflat, hh2d, hd2h⟩ := h
  exact ⟨s, hs, hhost, hdev, hnum, hcount, hflat, ⟨_, hd2h⟩, hh2d⟩

theorem load_image_after_uploads :
    (∃ s : Line Board, s.dev.log =
        [.init_meta smallMeta true, .feed 0 [1, 2, 3], .load_image (some true)] ∧
      sessionFeeds [.init_meta smallMeta true, .feed 0 [1, 2, 3]] =
        (List.range (chunks [1, 2, 3])).map (fun n => (.ofNat n, slice [1, 2, 3] n))) ∧
    ∃ (s : Line Board) (pre : List Event) (v : Option Bool), s.dev.log = pre ++ [.load_image v] ∧
      sessionFeeds pre = [(0, slice bigFile 0), (1, slice bigFile 1)] ∧
      slice bigFile 0 ++ slice bigFile 1 = bigFile := by
  constructor
  · have hrun : (TSys.exec (lineNext (board .tiny true)) (.start config (.zero (fun _ => 0) []))
        smallUpload).map (·.dev.log) =
          some [.init_meta smallMeta true, .feed 0 [1, 2, 3], .load_image (some true)] := by
      decide +kernel
    obtain ⟨s, hexec, hlog⟩ := Option.map_eq_some_iff.mp hrun
    have hreach : (uploads (board .tiny true) smallMeta [1, 2, 3]).Reachable s := by
      refine ((TSys.steps_of_exec hexec).restrict fun mv hmv _ => ?_).reachable
        (.init ⟨config, .zero (fun _ => 0) [], rfl⟩)
      simp only [smallUpload, List.mem_cons, List.not_mem_nil, or_false] at hmv
      obtain rfl | rfl | rfl | rfl | rfl | rfl | rfl := hmv <;> simp [Move.Uploads]
    exact ⟨s, hlog, (load_image_after_whole_file ⟨rfl, rfl, rfl, rfl⟩ hreach
      (by rw [hlog]; exact ⟨[], rfl⟩)).1⟩
  · obtain ⟨t, hexec, hreq⟩ := bigStart_requests
    have hreach : (uploads (board .tiny true) bigMeta bigFile).Reachable t := by
      refine ((TSys.steps_of_exec hexec).restrict fun mv hmv _ => ?_).reachable
        (.init ⟨config, .zero (fun _ => 0) [], rfl⟩)
      simp only [bigStart, List.mem_cons, List.not_mem_nil, or_false] at hmv
      obtain rfl | rfl | rfl := hmv <;> simp [Move.Uploads]
    have hacc : (board .tiny true).Accepts bigMeta := ⟨.zero (fun _ => 0) [], by decide +kernel⟩
    have hchunks : chunks bigFile = 2 := by simp only [chunks, bigFile, List.length_replicate]
    obtain ⟨s, pre, v, hs, hlog⟩ := hreq.loads .tiny true bigMeta_announces hacc hreach (by omega)
    have hpre : pre ++ [.load_image v] <+: s.dev.log := hlog ▸ List.prefix_rfl
    obtain ⟨hfeeds, hfile⟩ := load_image_after_whole_file bigMeta_announces hs hpre
    rw [hchunks] at hfeeds
    rw [hfeeds] at hfile
    refine ⟨s, pre, v, hlog, hfeeds, ?_⟩
    simpa [List.range_succ] using hfile

end Bcm2835.Pup

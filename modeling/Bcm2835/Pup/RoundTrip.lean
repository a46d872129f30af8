import Bcm2835.Pup.Recv

/-!
# Frames survive the wire

While no timer fires, `fsm_recv` is an automaton on bytes: `recvBytes` is that
automaton, and `recvCalls_of_quiet` says the polls and the clock do not matter
to it. Fed a frame's bytes from the scanning state it delivers the frame and
scans again (`recvBytes_send`); fed anything without `SOH` it stays put
(`recvBytes_gap`).
-/

namespace Bcm2835.Pup

/-- The frames `fsm_recv` delivers from a byte string, called again and again
while no timer fires. -/
def recvBytes (s : RecvSt) : List UInt8 → List Frame
  | [] => []
  | c :: cs =>
      let t := recvGot s 0 c
      (if t.ret = some .ok then [t.st.framebuf.frame] else []) ++ recvBytes t.st cs

/-! ## The clock does not matter -/

/-- Two states of `fsm_recv` that differ in their timers only. -/
structure SameLoop (s t : RecvSt) : Prop where
  pc : s.pc = t.pc
  framebuf : s.framebuf = t.framebuf

/-- Handing a byte over neither reads the timers nor the time. -/
theorem SameLoop.got {s t : RecvSt} (h : SameLoop s t) (now now' : UInt64) (c : UInt8) :
    SameLoop (recvGot s now c).st (recvGot t now' c).st ∧
      (recvGot s now c).ret = (recvGot t now' c).ret := by
  obtain ⟨pc, fsm, framebuf⟩ := s
  obtain ⟨pc', fsm', framebuf'⟩ := t
  obtain ⟨rfl, rfl⟩ : pc = pc' ∧ framebuf = framebuf' := ⟨h.pc, h.framebuf⟩
  unfold recvGot
  cases pc with
  | waitForSoh | stx | etx =>
      refine ⟨?_, rfl⟩
      simp only
      split <;> exact ⟨rfl, rfl⟩
  | hdr i =>
      refine ⟨?_, rfl⟩
      simp only [RecvSt.putHdr]
      by_cases hi : i + 1 < 10
      · simp only [hi, if_true]
        exact ⟨rfl, rfl⟩
      · by_cases hok : fcs16 FCS_INIT (Buf.taken (Function.update framebuf.raw_hdr i c) 10) = FCS_OK
        · simp only [hi, hok, if_true, if_false]
          exact ⟨rfl, rfl⟩
        · simp only [hi, hok, if_false]
          exact ⟨rfl, rfl⟩
  | body off size =>
      refine ⟨?_, rfl⟩
      simp only
      split <;> exact ⟨rfl, rfl⟩
  | eot =>
      simp only
      split <;> exact ⟨⟨rfl, rfl⟩, rfl⟩

/-- While no timer fires, the calls deliver what the automaton delivers from
the bytes that arrive. -/
theorem recvCalls_of_quiet {ps : List Poll} : ∀ {s t : RecvSt}, SameLoop s t →
    recvFired s ps = [] →
    recvCalls s ps = (recvBytes t (ps.filterMap (·.rx))).map (FsmStatus.ok, ·) := by
  induction ps with
  | nil => intro s t _ _; rfl
  | cons p ps ih =>
      intro s t hst hq
      simp only [recvFired, List.append_eq_nil_iff] at hq
      simp only [recvCalls]
      obtain ⟨timer, now, -, -, heq⟩ | ⟨hrx, heq⟩ | ⟨c, now, hrx, heq⟩ := recvStep_cases s p
      · simp [heq, FiredTurn] at hq
      · rw [heq] at hq ⊢
        simpa [List.filterMap_cons, hrx] using ih hst hq.2
      · rw [heq] at hq ⊢
        obtain ⟨hst', hret⟩ := hst.got now 0 c
        simp only [List.filterMap_cons, hrx, recvBytes, List.map_append]
        rw [← ih hst' hq.2, ← hret, ← hst'.framebuf]
        congr 1
        cases hr : (recvGot s now c).ret with
        | none => simp
        | some r =>
            obtain rfl : r = .ok := by
              unfold recvGot at hr
              cases hpc : s.pc <;> simp only [hpc] at hr
              case eot =>
                split at hr
                · simpa using hr.symm
                · simp at hr
              all_goals simp at hr
            simp

/-! ## One frame -/

/-- Bytes without `SOH` are passed through. -/
theorem recvBytes_gap {s : RecvSt} (hpc : s.pc = .waitForSoh) (rest : List UInt8) :
    ∀ {gap : List UInt8}, ASC_SOH ∉ gap → recvBytes s (gap ++ rest) = recvBytes s rest := by
  intro gap
  induction gap with
  | nil => intro _; rfl
  | cons c gap ih =>
      intro h
      simp only [List.mem_cons, not_or] at h
      have hc : recvGot s 0 c = { st := s } := by
        simp [recvGot, hpc, Ne.symm h.1]
      simp only [List.cons_append, recvBytes, hc]
      simpa using ih h.2

/-- The header loop stores its bytes and goes on to `STX` if they check. -/
theorem recvBytes_hdr {full : List UInt8} (hok : fcs16 FCS_INIT full = FCS_OK)
    (rest : List UInt8) : ∀ (l : List UInt8) (s : RecvSt) (i : Nat), l ≠ [] → s.pc = .hdr i →
      i + l.length = 10 → Buf.taken s.framebuf.raw_hdr i ++ l = full →
      ∃ s' : RecvSt, s'.pc = .stx ∧ Buf.taken s'.framebuf.raw_hdr 10 = full ∧
        recvBytes s (l ++ rest) = recvBytes s' rest := by
  intro l
  induction l with
  | nil => intro s i hne; exact absurd rfl hne
  | cons c l ih =>
      intro s i _ hpc hlen hfull
      simp only [List.length_cons] at hlen
      have hnext : Buf.taken (Function.update s.framebuf.raw_hdr i c) (i + 1) ++ l = full := by
        rw [Buf.taken_update, ← hfull]
        simp
      simp only [List.cons_append, recvBytes, recvGot, hpc]
      by_cases hl : l = []
      · have hi : i + 1 = 10 := by simp [hl] at hlen; omega
        rw [hl, List.append_nil, hi] at hnext
        have hlt : ¬ (i + 1 < 10) := by omega
        refine ⟨_, ?_, ?_, by simp [hl]; rfl⟩
        · simp [hlt, hnext, hok, RecvSt.await, RecvSt.putHdr]
        · simp [hlt, hnext, hok, RecvSt.await, RecvSt.putHdr]
      · have hlt : i + 1 < 10 := by
          have := List.length_pos_of_ne_nil hl
          omega
        simp only [hlt, if_true]
        obtain ⟨s', h1, h2, h3⟩ := ih ((s.putHdr i c).await (.hdr (i + 1)) 0) (i + 1)
          hl rfl (by omega) hnext
        exact ⟨s', h1, h2, by simpa using h3⟩

/-- The body loop stores its bytes and goes on to `ETX`. -/
theorem recvBytes_body {full : List UInt8} (rest : List UInt8) :
    ∀ (l : List UInt8) (s : RecvSt) (off size : Nat), l ≠ [] → s.pc = .body off size →
      off + l.length = size → Buf.taken s.framebuf.raw_body off ++ l = full →
      ∃ s' : RecvSt, s'.pc = .etx ∧ Buf.taken s'.framebuf.raw_body size = full ∧
        s'.framebuf.raw_hdr = s.framebuf.raw_hdr ∧
        recvBytes s (l ++ rest) = recvBytes s' rest := by
  intro l
  induction l with
  | nil => intro s off size hne; exact absurd rfl hne
  | cons c l ih =>
      intro s off size _ hpc hlen hfull
      simp only [List.length_cons] at hlen
      have hnext : Buf.taken (Function.update s.framebuf.raw_body off c) (off + 1) ++ l = full := by
        rw [Buf.taken_update, ← hfull]
        simp
      simp only [List.cons_append, recvBytes, recvGot, hpc]
      by_cases hl : l = []
      · have hoff : off + 1 = size := by simp [hl] at hlen; omega
        rw [hl, List.append_nil, hoff] at hnext
        have hlt : ¬ (off + 1 < size) := by omega
        refine ⟨_, ?_, ?_, ?_, by simp [hl]; rfl⟩
        · simp [hlt, RecvSt.await]
        · simp [hlt, RecvSt.await, RecvSt.putBody, hnext]
        · simp [hlt, RecvSt.await, RecvSt.putBody]
      · have hlt : off + 1 < size := by
          have := List.length_pos_of_ne_nil hl
          omega
        simp only [hlt, if_true]
        obtain ⟨s', h1, h2, h3, h4⟩ :=
          ih ((s.putBody off c).await (.body (off + 1) size) 0) (off + 1) size hl rfl (by omega) hnext
        exact ⟨s', h1, h2, h3, by simpa using h4⟩

/-- The header bytes determine the header fields. -/
theorem Frame.hdr_injective {f g : Frame} (h : f.hdr = g.hdr) :
    f.iden = g.iden ∧ f.plen = g.plen ∧ f.type = g.type := by
  simp only [Frame.hdr, List.append_assoc] at h
  obtain ⟨hi, h⟩ := List.append_inj h (by simp)
  obtain ⟨hp, ht⟩ := List.append_inj h (by simp)
  exact ⟨le16_injective hi, le16_injective hp, Vector.toList_inj.mp ht⟩

/-- A buffer that holds a frame's header and payload reads back as the frame. -/
theorem Mframe.frame_eq {m : Mframe} {f : Frame}
    (hhdr : Buf.taken m.raw_hdr 10 = withFcs f.hdr)
    (hbody : Buf.taken m.raw_body (f.payload.length + 2) = withFcs f.payload) : m.frame = f := by
  have h8 : Buf.taken m.raw_hdr 8 = f.hdr := by
    have h := hhdr
    rw [show (10 : Nat) = 8 + 2 from rfl, Buf.taken_add, withFcs] at h
    exact (List.append_inj h (by simp)).1
  rw [m.taken_raw_hdr] at h8
  obtain ⟨hi, hp, ht⟩ := Frame.hdr_injective h8
  have hplen : m.plen.toNat = f.payload.length := by
    rw [← f.plen_toNat, ← hp, Mframe.frame_plen]
  have hpay : m.frame.payload = f.payload := by
    rw [Buf.taken_add, withFcs] at hbody
    simpa [Mframe.frame, Mframe.body, hplen] using (List.append_inj hbody (by simp)).1
  obtain ⟨fi, ft, fp, fl⟩ := f
  simp only [Mframe.frame] at hi ht hpay ⊢
  simp [hi, ht, hpay]

/-- **Round trip of one frame.** Fed what `fsm_send` emits, the automaton
delivers the frame and scans for the next one. -/
theorem recvBytes_send {s : RecvSt} (hpc : s.pc = .waitForSoh) (f : Frame) (rest : List UInt8) :
    ∃ s' : RecvSt, s'.pc = .waitForSoh ∧
      recvBytes s (fsm_send f ++ rest) = f :: recvBytes s' rest := by
  rw [fsm_send_eq]
  simp only [List.append_assoc, List.cons_append, List.nil_append]
  have hsoh : (recvGot s 0 ASC_SOH).st = s.await (.hdr 0) 0 := by simp [recvGot, hpc]
  have hsoh' : (recvGot s 0 ASC_SOH).ret = none := by simp [recvGot, hpc]
  obtain ⟨s1, hpc1, hhdr, h1⟩ := recvBytes_hdr (fcs16_withFcs f.hdr)
    (ASC_STX :: (withFcs f.payload ++ ASC_ETX :: ASC_EOT :: rest)) (withFcs f.hdr)
    (s.await (.hdr 0) 0) 0 (by simp [withFcs, le16]) rfl (by simp) (by simp)
  have hplen : s1.framebuf.plen.toNat = f.payload.length := by
    have h8 : Buf.taken s1.framebuf.raw_hdr 8 = f.hdr := by
      have h := hhdr
      rw [show (10 : Nat) = 8 + 2 from rfl, Buf.taken_add, withFcs] at h
      exact (List.append_inj h (by simp)).1
    rw [Mframe.taken_raw_hdr] at h8
    rw [← f.plen_toNat, ← (Frame.hdr_injective h8).2.1, Mframe.frame_plen]
  have hstx : (recvGot s1 0 ASC_STX).st = s1.await (.body 0 (2 + f.payload.length)) 0 := by
    simp [recvGot, hpc1, hplen]
  have hstx' : (recvGot s1 0 ASC_STX).ret = none := by simp [recvGot, hpc1]
  obtain ⟨s2, hpc2, hbody, hsame, h2⟩ := recvBytes_body (ASC_ETX :: ASC_EOT :: rest)
    (withFcs f.payload) (s1.await (.body 0 (2 + f.payload.length)) 0) 0 (2 + f.payload.length)
    (by simp [withFcs, le16]) rfl (by simp [Nat.add_comm]) rfl
  have hsame : s2.framebuf.raw_hdr = s1.framebuf.raw_hdr := hsame
  have hplen2 : s2.framebuf.plen = s1.framebuf.plen := by simp [Mframe.plen, hsame]
  have hetx : (recvGot s2 0 ASC_ETX) = { st := s2.await .eot 0 } := by simp [recvGot, hpc2]
  have hframe : s2.framebuf.frame = f := by
    refine Mframe.frame_eq (by rw [hsame, hhdr]) ?_
    rw [Nat.add_comm]
    simpa using hbody
  have heot : recvGot (s2.await .eot 0) 0 ASC_EOT =
      { st := (s2.await .eot 0).restart, ret := some .ok } := by
    have hb : fcs16 FCS_INIT (Buf.taken s2.framebuf.raw_body (2 + s2.framebuf.plen.toNat)) = FCS_OK := by
      rw [hplen2, hplen, hbody]
      simpa using fcs16_withFcs f.payload
    simp [recvGot, RecvSt.await, hb]
  refine ⟨(s2.await .eot 0).restart, rfl, ?_⟩
  rw [recvBytes, hsoh, hsoh', h1, recvBytes, hstx, hstx', h2, recvBytes, hetx, recvBytes, heot]
  simpa [RecvSt.await, RecvSt.restart] using hframe

/-- A list of frames, each followed by bytes without `SOH`, is delivered frame by frame. -/
theorem recvBytes_stream : ∀ (msgs : List (Frame × List UInt8)) {s : RecvSt},
    s.pc = .waitForSoh → (∀ m ∈ msgs, ASC_SOH ∉ m.2) →
    recvBytes s (msgs.flatMap fun m => fsm_send m.1 ++ m.2) = msgs.map (·.1) := by
  intro msgs
  induction msgs with
  | nil => intro s _ _; rfl
  | cons m msgs ih =>
      intro s hpc hgap
      obtain ⟨s', hpc', h⟩ := recvBytes_send hpc m.1
        (m.2 ++ msgs.flatMap fun m => fsm_send m.1 ++ m.2)
      rw [List.flatMap_cons, List.append_assoc, h, List.map_cons,
        recvBytes_gap hpc' _ (hgap m List.mem_cons_self),
        ih hpc' fun m' hm' => hgap m' (List.mem_cons_of_mem _ hm')]

end Bcm2835.Pup

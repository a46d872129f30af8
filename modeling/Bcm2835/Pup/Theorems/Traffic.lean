import Bcm2835.Pup.Board
import Bcm2835.Pup.LineSpec
import Mathlib.Algebra.BigOperators.Group.Finset.Piecewise
import Mathlib.Algebra.Order.BigOperators.Group.Finset

/-!
# How often a chunk is asked for

Any frame but the chunk the device waits for makes it ask again, and the host
answers every request. So each copy of a chunk beyond the first makes the device
ask once more for the next chunk, and that request brings a further copy of the
next one: a request too many stays one until the last chunk.

What pays for it is counted in `Tally.charges`. The invariant looks at the line
as one queue, what is on its way to the device in front of what is on its way
to the host, in which an answer stands where its request stood.
-/

namespace Bcm2835.Pup

open Bytes

variable {P : Type}

/-! ## What is counted -/

/-- The message is a request for chunk `n`. -/
def Msg.AsksFor (n : Nat) : Msg → Prop
  | .frame f => f.type = DEV_RQCH ∧ (get32 f.payload 0).toNat = n
  | .ack _ => False

instance (n : Nat) : DecidablePred (Msg.AsksFor n)
  | .frame f => inferInstanceAs (Decidable (f.type = DEV_RQCH ∧ _))
  | .ack _ => inferInstanceAs (Decidable False)

/-- The message is a chunk. -/
def Msg.IsChunk : Msg → Prop
  | .frame f => f.type = HOST_CHNK
  | .ack _ => False

instance : DecidablePred Msg.IsChunk
  | .frame f => inferInstanceAs (Decidable (f.type = HOST_CHNK))
  | .ack _ => inferInstanceAs (Decidable False)

/-- The `RQCH` frames the device has sent for each chunk, the `CHNK` frames the
host has sent, how often `TIMER_RESEND` of the device has fired while it was
waiting for each chunk, and that of the host while it was polling. -/
structure Tally where
  asked : Nat → Nat
  served : Nat
  fired : Nat → Nat
  repolled : Nat

/-- Nothing has happened. -/
def Tally.zero : Tally := ⟨fun _ => 0, 0, fun _ => 0, 0⟩

def Tally.ask (t : Tally) (n : Nat) : Tally :=
  { t with asked := fun m => t.asked m + if m = n then 1 else 0 }

def Tally.fire (t : Tally) (n : Nat) : Tally :=
  { t with fired := fun m => t.fired m + if m = n then 1 else 0 }

/-- The timers of a move that is made in `s`. -/
def Tally.timers (t : Tally) (s : Line P) : Move → Tally
  | .devFires .resend _ _ => if s.dev.pc = .chunk then t.fire s.dev.chunk_num.toNat else t
  | .hostFires .resend _ _ =>
      if s.host.pc = .poll then { t with repolled := t.repolled + 1 } else t
  | _ => t

/-- The tally after a move from `s` to `s'`: what was sent stands at the end of a channel. -/
def Tally.next (t : Tally) (s : Line P) (mv : Move) (s' : Line P) : Tally :=
  let t := t.timers s mv
  { t with
    asked := fun n => t.asked n + (s'.d2h.drop s.d2h.length).countP (fun e => e.2.AsksFor n)
    served := t.served + (s'.h2d.drop s.h2d.length).countP (fun e => e.2.IsChunk) }

/-- No `TIMER_RESET` fires, and no further run of the host starts. -/
def Move.Steady : Move → Prop
  | .devFires timer _ _ | .hostFires timer _ _ => timer ≠ .reset
  | .opens .. => False
  | _ => True

instance : DecidablePred Move.Steady
  | .devFires timer _ _ | .hostFires timer _ _ => inferInstanceAs (Decidable (timer ≠ .reset))
  | .opens .. => inferInstanceAs (Decidable False)
  | .devTakes .. | .hostTakes .. | .loseToDevice _ | .loseToHost _ =>
      inferInstanceAs (Decidable True)

def trafficNext (T : Platform P) (p : Line P × Tally) (mv : Move) : Option (Line P × Tally) :=
  if mv.Steady then (lineNext T p.1 mv).map fun s' => (s', p.2.next p.1 mv s') else none

/-- One run of `fsm_upload` against one run of `fsm_download`. -/
def traffic (T : Platform P) : TSys (Line P × Tally) Move :=
  .ofNext
    (fun p => ∃ config plat config' m file retries time,
      p = ((Line.start config plat).opens config' m file retries time, .zero))
    (trafficNext T)

/-- What chunk `n` may be asked for: once, and once more for every `POLL` frame
that was sent again and every timeout up to that chunk. -/
def Tally.charges (t : Tally) (n : Nat) : Nat :=
  1 + t.repolled + ∑ m ∈ Finset.range (n + 1), t.fired m

section Charges

variable (t : Tally) {n m : Nat}

theorem Tally.charges_mono (h : n ≤ m) : t.charges n ≤ t.charges m := by
  have hsub : Finset.range (n + 1) ⊆ Finset.range (m + 1) := Finset.range_mono (by omega)
  have hle := Finset.sum_le_sum_of_subset (f := t.fired) hsub
  unfold Tally.charges
  omega

theorem Tally.charges_fire : (t.fire n).charges m = t.charges m + if n ≤ m then 1 else 0 := by
  unfold Tally.charges Tally.fire
  simp only [Finset.sum_add_distrib, Finset.sum_ite_eq', Finset.mem_range, Nat.lt_succ_iff]
  omega

theorem Tally.sum_ask (k : Nat) : ∑ i ∈ Finset.range k, (t.ask n).asked i =
    ∑ i ∈ Finset.range k, t.asked i + if n < k then 1 else 0 := by
  unfold Tally.ask
  simp only [Finset.sum_add_distrib, Finset.sum_ite_eq', Finset.mem_range]

end Charges

/-! ## What is on its way -/

/-- What the device makes of a message it is waiting for: a chunk under an
identifier, or no chunk. -/
def Msg.reply : Msg → Option (Option UInt16)
  | .frame f => some (if f.type = HOST_CHNK then some f.iden else none)
  | .ack _ => none

/-- The answer a message asks the host for. -/
def Msg.request : Msg → Option (Option UInt16)
  | .frame f => if f.type = DEV_RQCH then some (some f.iden) else none
  | .ack _ => none

/-- The device sends a request for its current chunk, and no other. -/
def Requests (c : DevCore) (out : List Msg) : Prop :=
  out.filterMap Msg.request = [some c.iden] ∧
    ∀ n, out.countP (fun msg => msg.AsksFor n) = if n = c.chunk_num.toNat then 1 else 0

/-- The device sends no request. -/
def Silent (out : List Msg) : Prop :=
  out.filterMap Msg.request = [] ∧ ∀ n, out.countP (fun msg => msg.AsksFor n) = 0

theorem requests_rqch {c : DevCore} : Requests c [.frame (rqchFrame c.iden c.chunk_num)] := by
  have hget : get32 (le32 c.chunk_num) 0 = c.chunk_num := by
    simpa using get32_append (a := []) (c := []) c.chunk_num rfl
  refine ⟨by simp [Msg.request, rqchFrame], fun n => ?_⟩
  simp [List.countP_cons, Msg.AsksFor, rqchFrame, hget, eq_comm]

theorem Requests.ack {c : DevCore} {out : List Msg} (h : Requests c out) (iden : UInt16) :
    Requests c (.ack iden :: out) := by
  refine ⟨?_, fun n => ?_⟩
  · rw [List.filterMap_cons_none rfl]
    exact h.1
  · have hack : ¬(Msg.ack iden).AsksFor n := id
    rw [List.countP_cons_of_neg (by simpa only [decide_eq_true_eq] using hack)]
    exact h.2 n

theorem silent_of {out : List Msg} (h : ∀ msg ∈ out, msg.request = none) : Silent out := by
  refine ⟨List.filterMap_eq_nil_iff.mpr h, fun n => List.countP_eq_zero.mpr fun msg hmsg hask => ?_⟩
  have hnone := h msg hmsg
  have hask : msg.AsksFor n := of_decide_eq_true hask
  cases msg with
  | frame f => simp [Msg.request, hask.1] at hnone
  | ack iden => exact hask

theorem request_beat (iden : UInt16) : (Msg.frame (beatFrame iden)).request = none := by
  simp [Msg.request, beatFrame, DEV_BEAT, DEV_RQCH]

theorem request_boot (iden : UInt16) (is_ok : Bool) :
    (Msg.frame (bootFrame iden is_ok)).request = none := by
  simp [Msg.request, bootFrame, DEV_BOOT, DEV_RQCH]

/-- The head of the loop over the chunks sends one request, or leaves the loop. -/
theorem NextChunk.requests {c c' : DevCore} {out : List Msg} (h : NextChunk c c' out) :
    (c' = { c with pc := .chunk } ∧ c.chunk_num < c.chunk_count ∧ Requests c' out) ∨
      (c'.pc = .boot ∨ c'.pc = .hung) ∧ c'.chunk_count = c.chunk_count ∧ Silent out := by
  cases h with
  | request hlt => exact .inl ⟨rfl, hlt, requests_rqch⟩
  | verdict is_ok beats =>
      refine .inr ⟨.inl rfl, rfl, silent_of fun msg hmsg => ?_⟩
      simp only [List.mem_append, List.mem_replicate, List.mem_singleton] at hmsg
      rcases hmsg with ⟨-, rfl⟩ | rfl
      · exact request_beat _
      · exact request_boot _ _
  | stuck beats =>
      refine .inr ⟨.inr rfl, rfl, silent_of fun msg hmsg => ?_⟩
      rw [List.eq_of_mem_replicate hmsg]
      exact request_beat _

/-- What a step of the device that sees no `TIMER_RESET` means for the traffic. -/
inductive DeviceTraffic (c : DevCore) (r : FsmStatus) (f : Frame) (c' : DevCore)
    (out : List Msg) : Prop
  | opens : c.pc = .init → r = .ok → f.type = HOST_POLL → c'.pc = .chunk →
      c'.chunk_num < c'.chunk_count → Requests c' out → DeviceTraffic c r f c' out
  | again : c.pc = .chunk → r = .resend ∨ r = .ok ∧ ¬(f.type = HOST_CHNK ∧ f.iden = c.iden) →
      c' = c → Requests c out → DeviceTraffic c r f c' out
  | next : c.pc = .chunk → r = .ok → f.type = HOST_CHNK → f.iden = c.iden → c'.pc = .chunk →
      c'.iden = c.iden + 1 → c'.chunk_num = c.chunk_num + 1 → c'.chunk_count = c.chunk_count →
      c'.chunk_num < c'.chunk_count → Requests c' out → DeviceTraffic c r f c' out
  | closes : c.pc = .chunk → r = .ok → f.type = HOST_CHNK → f.iden = c.iden → c'.pc ≠ .chunk →
      c'.chunk_count = c.chunk_count → Silent out → DeviceTraffic c r f c' out
  | loads : c.pc = .init → r = .ok → f.type = HOST_POLL → c'.pc = .boot ∨ c'.pc = .hung →
      Silent out → DeviceTraffic c r f c' out
  | stays : c.pc ≠ .chunk → c'.pc ≠ .chunk → (c'.pc = .init → c.pc = .init) →
      c'.chunk_count = c.chunk_count → Silent out → DeviceTraffic c r f c' out

theorem downloadStep_traffic {accepts : Meta → Prop} {c c' : DevCore} {r : FsmStatus} {f : Frame}
    {out : List Msg} (h : DownloadStep accepts c r f c' out) (hr : r ≠ .reset) :
    DeviceTraffic c r f c' out := by
  have hnil : Silent [] := silent_of (by simp)
  cases h with
  | idle hpc =>
      have hpc : c.pc ≠ .chunk := by
        rcases hpc with hpc | hpc | ⟨hpc, -⟩ <;> simp [hpc]
      exact .stays hpc hpc id rfl hnil
  | reject hpc =>
      exact .stays (by simp [hpc]) (by simp [DevCore.reset]) (fun _ => hpc) rfl hnil
  | accept hpc hok hopen _ hnext =>
      rcases hnext.requests with ⟨rfl, hlt, hreq⟩ | ⟨hpc', -, hsilent⟩
      · exact .opens hpc hok hopen.1 rfl hlt (hreq.ack 0)
      · refine .loads hpc hok hopen.1 hpc' (silent_of fun msg hmsg => ?_)
        rcases List.mem_cons.mp hmsg with rfl | hmsg
        · rfl
        · exact List.filterMap_eq_nil_iff.mp hsilent.1 msg hmsg
  | timeout _ hreset => exact absurd hreset hr
  | again hpc hwhy => exact .again hpc hwhy rfl requests_rqch
  | refuse hpc hok htype hiden =>
      exact .closes hpc hok htype hiden (by simp [DevCore.reset]) rfl hnil
  | lost hpc hok htype hiden => exact .closes hpc hok htype hiden (by simp) rfl hnil
  | feed hpc hok htype hiden hnext =>
      rcases hnext.requests with ⟨rfl, hlt, hreq⟩ | ⟨hpc', hcount, hsilent⟩
      · exact .next hpc hok htype hiden rfl rfl rfl rfl hlt hreq
      · refine .closes hpc hok htype hiden ?_ hcount hsilent
        rcases hpc' with hpc' | hpc' <;> simp [hpc']
  | repeatBoot hpc =>
      refine .stays (by simp [hpc]) (by simp [hpc]) id rfl (silent_of fun msg hmsg => ?_)
      rw [List.mem_singleton.mp hmsg]
      exact request_boot _ _
  | acked hpc => exact .stays (by simp [hpc]) (by simp) (by simp) rfl hnil

/-! ## The invariant -/

/-- A device in the loop over the chunks that can still pay for one more
request. `queue` is what is on its way, oldest first: an answer to the current
request has nothing else behind it. -/
structure Ready (c : DevCore) (queue : List (Option UInt16)) (t : Tally) : Prop where
  num_lt : c.chunk_num < c.chunk_count
  later : ∀ n, c.chunk_num.toNat < n → t.asked n = 0
  ordered : queue.Pairwise fun x y => x = some c.iden → y = some c.iden
  own : queue.count (some c.iden) ≤ t.asked c.chunk_num.toNat
  room : t.asked c.chunk_num.toNat + 1 + queue.countP (· ≠ some c.iden) ≤
    t.charges c.chunk_num.toNat

/-- The same device behind its request. -/
structure Waiting (c : DevCore) (queue : List (Option UInt16)) (t : Tally) : Prop where
  num_lt : c.chunk_num < c.chunk_count
  later : ∀ n, c.chunk_num.toNat < n → t.asked n = 0
  ordered : queue.Pairwise fun x y => x = some c.iden → y = some c.iden
  own : queue.count (some c.iden) ≤ t.asked c.chunk_num.toNat
  paid : t.asked c.chunk_num.toNat + queue.countP (· ≠ some c.iden) ≤
    t.charges c.chunk_num.toNat

/-- The invariant, over what is on its way to the device and to the host. -/
structure Accounted (c : DevCore) (pc : UploadPc) (replies requests : List (Option UInt16))
    (t : Tally) : Prop where
  polling : pc = .poll → ∀ x ∈ replies, x = none
  bounded : ∀ n, t.asked n ≤ t.charges n
  answered : t.served + requests.length ≤ ∑ n ∈ Finset.range c.chunk_count.toNat, t.asked n
  idle : c.pc = .init →
    (pc ≠ .poll ∧ none ∉ replies) ∨
      ((∀ n, t.asked n = 0) ∧ (∀ x ∈ replies, x = none) ∧ replies.length ≤ 1 + t.repolled)
  waiting : c.pc = .chunk → Waiting c (replies ++ requests) t

section Queue

variable {c : DevCore} {queue queue' : List (Option UInt16)} {t : Tally}

theorem Waiting.sublist (h : Waiting c queue t) (hsub : queue'.Sublist queue) :
    Waiting c queue' t where
  num_lt := h.num_lt
  later := h.later
  ordered := h.ordered.sublist hsub
  own := (hsub.count_le _).trans h.own
  paid := (Nat.add_le_add_left (hsub.countP_le) _).trans h.paid

/-- The request goes to the end of the queue. -/
theorem Ready.asks (h : Ready c queue t) :
    Waiting c (queue ++ [some c.iden]) (t.ask c.chunk_num.toNat) where
  num_lt := h.num_lt
  later n hn := by
    have hne : n ≠ c.chunk_num.toNat := by omega
    simp [Tally.ask, h.later n hn, hne]
  ordered := by
    refine List.pairwise_append.mpr ⟨h.ordered, List.pairwise_singleton _ _, fun x _ y hy _ => ?_⟩
    exact List.mem_singleton.mp hy
  own := by
    have := h.own
    simp only [Tally.ask, List.count_append, List.count_singleton_self, if_true]
    omega
  paid := by
    have hroom := h.room
    have hnew : [some c.iden].countP (· ≠ some c.iden) = 0 := by simp
    have hcharges : (t.ask c.chunk_num.toNat).charges c.chunk_num.toNat =
        t.charges c.chunk_num.toNat := rfl
    rw [List.countP_append, hnew, hcharges]
    simp only [Tally.ask, if_true]
    omega

/-- Behind the answer the device waited for there is no other message. -/
theorem Waiting.answered (h : Waiting c (some c.iden :: queue) t) :
    (∀ x ∈ queue, x = some c.iden) ∧ queue.length + 1 ≤ t.asked c.chunk_num.toNat := by
  have hall : ∀ x ∈ queue, x = some c.iden := fun x hx =>
    List.rel_of_pairwise_cons h.ordered hx rfl
  refine ⟨hall, ?_⟩
  have hcount : queue.count (some c.iden) = queue.length :=
    List.count_eq_length.mpr fun x hx => (hall x hx).symm
  have hown := h.own
  rw [List.count_cons_self, hcount] at hown
  exact hown

end Queue

section Accounts

variable {c c' : DevCore} {pc pc' : UploadPc} {replies replies' requests requests' : List (Option UInt16)}
  {x : Option UInt16} {t : Tally}

/-- Messages that get lost cost nothing. -/
theorem Accounted.sublist (h : Accounted c pc replies requests t) (hrep : replies'.Sublist replies)
    (hreq : requests'.Sublist requests) : Accounted c pc replies' requests' t where
  polling hpc x hx := h.polling hpc x (hrep.subset hx)
  bounded := h.bounded
  answered := (Nat.add_le_add_left hreq.length_le _).trans h.answered
  idle hpc := by
    rcases h.idle hpc with ⟨hpoll, hnone⟩ | ⟨hasked, hall, hlen⟩
    · exact .inl ⟨hpoll, fun hmem => hnone (hrep.subset hmem)⟩
    · exact .inr ⟨hasked, fun x hx => hall x (hrep.subset hx), hrep.length_le.trans hlen⟩
  waiting hpc := (h.waiting hpc).sublist (hrep.append hreq)

/-- The host goes on, but not back to polling. -/
theorem Accounted.goesOn (h : Accounted c pc replies requests t) (hpc : pc' = .poll → pc = .poll) :
    Accounted c pc' replies requests t where
  polling hpoll := h.polling (hpc hpoll)
  bounded := h.bounded
  answered := h.answered
  idle hinit := (h.idle hinit).imp_left fun hleft => ⟨fun hpoll => hleft.1 (hpc hpoll), hleft.2⟩
  waiting := h.waiting

/-- The host answers a request. -/
theorem Accounted.serves {iden : UInt16}
    (h : Accounted c .frames replies (some iden :: requests) t) :
    Accounted c .frames (replies ++ [some iden]) requests { t with served := t.served + 1 } where
  polling := nofun
  bounded := h.bounded
  answered := by
    have hanswered := h.answered
    rw [List.length_cons] at hanswered
    show t.served + 1 + requests.length ≤ ∑ n ∈ Finset.range c.chunk_count.toNat, t.asked n
    omega
  idle hpc := by
    rcases h.idle hpc with ⟨hpoll, hnone⟩ | ⟨hasked, -, -⟩
    · exact .inl ⟨hpoll, by simpa using hnone⟩
    · -- no request can be on its way if there never was one
      have hanswered := h.answered
      simp [hasked] at hanswered
  waiting hpc := by
    have hqueue : replies ++ [some iden] ++ requests = replies ++ some iden :: requests := by simp
    have hwaiting := h.waiting hpc
    rw [hqueue]
    exact ⟨hwaiting.num_lt, hwaiting.later, hwaiting.ordered, hwaiting.own, hwaiting.paid⟩

/-- The host polls again. -/
theorem Accounted.repolls (h : Accounted c .poll replies requests t) :
    Accounted c .poll (replies ++ [none]) requests { t with repolled := t.repolled + 1 } := by
  have hcharges : ∀ n, ({ t with repolled := t.repolled + 1 } : Tally).charges n =
      t.charges n + 1 := by
    intro n
    unfold Tally.charges
    dsimp only
    omega
  have hall : ∀ x ∈ replies ++ [none], x = none := by
    intro x hx
    rcases List.mem_append.mp hx with hx | hx
    · exact h.polling rfl x hx
    · exact List.mem_singleton.mp hx
  refine ⟨fun _ => hall, fun n => ?_, h.answered, fun hpc => ?_, fun hpc => ?_⟩
  · rw [hcharges]
    exact (h.bounded n).trans (Nat.le_succ _)
  · rcases h.idle hpc with ⟨hpoll, -⟩ | ⟨hasked, -, hlen⟩
    · exact absurd rfl hpoll
    · refine .inr ⟨hasked, hall, ?_⟩
      rw [List.length_append]
      show replies.length + 1 ≤ 1 + (t.repolled + 1)
      omega
  · have hwaiting := h.waiting hpc
    have hordered := List.pairwise_append.mp hwaiting.ordered
    refine ⟨hwaiting.num_lt, hwaiting.later, ?_, ?_, ?_⟩
    · refine List.pairwise_append.mpr ⟨?_, hordered.2.1, fun x hx _ _ hiden => ?_⟩
      · refine List.pairwise_of_forall_mem_list fun x hx y _ hiden => ?_
        simp [hall x hx] at hiden
      · simp [hall x hx] at hiden
    · have hown := hwaiting.own
      simpa [List.count_append] using hown
    · have hpaid := hwaiting.paid
      have hnone : [none].countP (· ≠ some c.iden) = 1 := by simp
      rw [List.countP_append] at hpaid
      rw [hcharges, List.countP_append, List.countP_append, hnone]
      dsimp only
      omega

/-- The device sends the request it is ready for. -/
theorem Accounted.asks (hpolling : pc = .poll → ∀ x ∈ replies, x = none)
    (hbounded : ∀ n, t.asked n ≤ t.charges n)
    (hanswered : t.served + requests.length ≤ ∑ n ∈ Finset.range c.chunk_count.toNat, t.asked n)
    (hpc : c.pc = .chunk) (hready : Ready c (replies ++ requests) t) :
    Accounted c pc replies (requests ++ [some c.iden]) (t.ask c.chunk_num.toNat) where
  polling := hpolling
  bounded n := by
    have hn := hbounded n
    have hroom := hready.room
    show t.asked n + (if n = c.chunk_num.toNat then 1 else 0) ≤ t.charges n
    split
    · rename_i heq
      rw [heq]
      omega
    · exact hn
  answered := by
    have hlt := UInt32.lt_iff_toNat_lt.mp hready.num_lt
    rw [Tally.sum_ask, if_pos hlt, List.length_append, List.length_singleton]
    show t.served + (requests.length + 1) ≤ _
    omega
  idle hinit := by
    rw [hpc] at hinit
    cases hinit
  waiting _ := by
    rw [← List.append_assoc]
    exact hready.asks

/-- A timeout of the device pays for its request. -/
theorem Accounted.fires (h : Accounted c pc replies requests t) (hpc : c.pc = .chunk) :
    Accounted c pc replies (requests ++ [some c.iden])
      ((t.fire c.chunk_num.toNat).ask c.chunk_num.toNat) := by
  have hwaiting := h.waiting hpc
  refine .asks h.polling (fun n => ?_) h.answered hpc
    ⟨hwaiting.num_lt, hwaiting.later, hwaiting.ordered, hwaiting.own, ?_⟩
  · rw [Tally.charges_fire]
    exact (h.bounded n).trans (Nat.le_add_right _ _)
  · have hpaid := hwaiting.paid
    rw [Tally.charges_fire, if_pos (Nat.le_refl _)]
    show t.asked c.chunk_num.toNat + 1 + _ ≤ _
    omega

/-- A message that is not the chunk the device waits for is traded for a request. -/
theorem Accounted.again (h : Accounted c pc (x :: replies) requests t) (hpc : c.pc = .chunk)
    (hx : x ≠ some c.iden) :
    Accounted c pc replies (requests ++ [some c.iden]) (t.ask c.chunk_num.toNat) := by
  have hwaiting := h.waiting hpc
  have hrest := h.sublist (List.sublist_cons_self x replies) (List.Sublist.refl requests)
  have hwaiting' := hrest.waiting hpc
  refine .asks hrest.polling h.bounded h.answered hpc
    ⟨hwaiting.num_lt, hwaiting.later, hwaiting'.ordered, hwaiting'.own, ?_⟩
  have hpaid := hwaiting.paid
  rw [List.cons_append, List.countP_cons_of_pos (by simpa using hx)] at hpaid
  omega

/-- The device opens a session and asks for the first chunk. -/
theorem Accounted.opens (h : Accounted c pc (none :: replies) requests t) (hpc : c.pc = .init)
    (hpc' : c'.pc = .chunk) (hlt : c'.chunk_num < c'.chunk_count) :
    Accounted c' pc replies (requests ++ [some c'.iden]) (t.ask c'.chunk_num.toNat) := by
  have hrest := h.sublist (List.sublist_cons_self none replies) (List.Sublist.refl requests)
  rcases h.idle hpc with ⟨-, hnone⟩ | ⟨hasked, hall, hlen⟩
  · exact absurd List.mem_cons_self hnone
  have hnothing : t.served = 0 ∧ requests = [] := by
    have hanswered := h.answered
    simp only [hasked, Finset.sum_const_zero, Nat.le_zero_eq, Nat.add_eq_zero_iff,
      List.length_eq_zero_iff] at hanswered
    exact hanswered
  obtain ⟨hserved, rfl⟩ := hnothing
  have hreplies : ∀ x ∈ replies ++ [], x ≠ some c'.iden := by
    intro x hx
    rw [List.append_nil] at hx
    simp [hall x (List.mem_cons_of_mem _ hx)]
  refine .asks hrest.polling h.bounded (by simp [hserved]) hpc' ⟨hlt, fun n _ => hasked n, ?_, ?_, ?_⟩
  · exact List.pairwise_of_forall_mem_list fun x hx _ _ hiden => absurd hiden (hreplies x hx)
  · rw [List.count_eq_zero.mpr fun hmem => hreplies _ hmem rfl]
    exact Nat.zero_le _
  · have hle : (replies ++ []).countP (· ≠ some c'.iden) ≤ replies.length := by
      rw [List.append_nil]
      exact List.countP_le_length
    rw [List.length_cons] at hlen
    rw [hasked]
    unfold Tally.charges
    omega

/-- The chunk the device waited for has come; what is left are copies of it. -/
theorem Accounted.next (h : Accounted c pc (some c.iden :: replies) requests t)
    (hpc : c.pc = .chunk) (hpc' : c'.pc = .chunk) (hiden : c'.iden = c.iden + 1)
    (hnum : c'.chunk_num = c.chunk_num + 1) (hcount : c'.chunk_count = c.chunk_count)
    (hlt : c'.chunk_num < c'.chunk_count) :
    Accounted c' pc replies (requests ++ [some c'.iden]) (t.ask c'.chunk_num.toNat) := by
  have hwaiting : Waiting c (some c.iden :: (replies ++ requests)) t := h.waiting hpc
  obtain ⟨hall, hlen⟩ := hwaiting.answered
  have hrest := h.sublist (List.sublist_cons_self _ replies) (List.Sublist.refl requests)
  have hnext : c'.chunk_num.toNat = c.chunk_num.toNat + 1 := by
    have hlt := UInt32.lt_iff_toNat_lt.mp hwaiting.num_lt
    have hcc := c.chunk_count.toNat_lt
    rw [hnum, UInt32.toNat_add]
    exact Nat.mod_eq_of_lt (by simp; omega)
  have hne : some c.iden ≠ some c'.iden := by
    rw [hiden]
    simp
  have hother : ∀ x ∈ replies ++ requests, x ≠ some c'.iden := fun x hx => hall x hx ▸ hne
  have hzero : t.asked c'.chunk_num.toNat = 0 := hwaiting.later _ (by omega)
  refine .asks hrest.polling h.bounded (hcount ▸ hrest.answered) hpc'
    ⟨hlt, fun n hn => hwaiting.later n (by omega), ?_, ?_, ?_⟩
  · exact List.pairwise_of_forall_mem_list fun x hx _ _ hx' => absurd hx' (hother x hx)
  · rw [List.count_eq_zero.mpr fun hmem => hother _ hmem rfl]
    exact Nat.zero_le _
  · have hle : (replies ++ requests).countP (· ≠ some c'.iden) ≤ (replies ++ requests).length :=
      List.countP_le_length
    have hpaid := h.bounded c.chunk_num.toNat
    have hmono := t.charges_mono (show c.chunk_num.toNat ≤ c'.chunk_num.toNat by omega)
    rw [hzero]
    omega

/-- The device leaves the loop over the chunks. -/
theorem Accounted.closes (h : Accounted c pc (some c.iden :: replies) requests t)
    (hpc : c.pc = .chunk) (hpc' : c'.pc ≠ .chunk) (hcount : c'.chunk_count = c.chunk_count) :
    Accounted c' pc replies requests t := by
  have hrest := h.sublist (List.sublist_cons_self _ replies) (List.Sublist.refl requests)
  obtain ⟨hall, -⟩ := Waiting.answered (h.waiting hpc)
  refine ⟨hrest.polling, h.bounded, hcount ▸ h.answered, fun _ => .inl ⟨fun hpoll => ?_, ?_⟩,
    fun hchunk => absurd hchunk hpc'⟩
  · have hnone := h.polling hpoll _ List.mem_cons_self
    simp at hnone
  · intro hmem
    have hsome := hall none (List.mem_append_left _ hmem)
    simp at hsome

/-- The device opens a session without chunks. -/
theorem Accounted.loads (h : Accounted c pc (none :: replies) requests t) (hpc : c.pc = .init)
    (hpc' : c'.pc = .boot ∨ c'.pc = .hung) : Accounted c' pc replies requests t := by
  have hrest := h.sublist (List.sublist_cons_self _ replies) (List.Sublist.refl requests)
  rcases h.idle hpc with ⟨-, hnone⟩ | ⟨hasked, -, -⟩
  · exact absurd List.mem_cons_self hnone
  have hanswered := h.answered
  simp only [hasked, Finset.sum_const_zero] at hanswered
  refine ⟨hrest.polling, h.bounded, hanswered.trans (Nat.zero_le _), fun hinit => ?_, fun hchunk => ?_⟩
  · rcases hpc' with hpc' | hpc' <;> simp [hpc'] at hinit
  · rcases hpc' with hpc' | hpc' <;> simp [hpc'] at hchunk

/-- The device stays out of the loop over the chunks. -/
theorem Accounted.stays (h : Accounted c pc replies requests t) (hpc' : c'.pc ≠ .chunk)
    (hinit : c'.pc = .init → c.pc = .init) (hcount : c'.chunk_count = c.chunk_count) :
    Accounted c' pc replies requests t where
  polling := h.polling
  bounded := h.bounded
  answered := hcount ▸ h.answered
  idle hpc := h.idle (hinit hpc)
  waiting hpc := absurd hpc hpc'

end Accounts

/-! ## Moves -/

def Line.replies (s : Line P) : List (Option UInt16) := s.h2d.filterMap (·.2.reply)
def Line.requests (s : Line P) : List (Option UInt16) := s.d2h.filterMap (·.2.request)

/-- The invariant of the line. -/
def Line.Accounted (s : Line P) (t : Tally) : Prop :=
  Pup.Accounted s.dev.core s.host.core.pc s.replies s.requests t

section Next

variable {s s' : Line P} {mv : Move} {t : Tally} {out : List Msg} {σ : Session}

/-- The tally after a move of the device. -/
theorem Tally.next_dev (hd2h : s'.d2h = s.d2h ++ out.map (σ, ·))
    (hh2d : s'.h2d.length ≤ s.h2d.length) :
    t.next s mv s' =
      { t.timers s mv with
        asked := fun n => (t.timers s mv).asked n + out.countP (fun msg => msg.AsksFor n) } := by
  unfold Tally.next
  simp only [hd2h, List.drop_left, List.countP_map, List.drop_eq_nil_of_le hh2d, List.countP_nil]
  rfl

theorem Tally.next_requests {c : DevCore} (hd2h : s'.d2h = s.d2h ++ out.map (σ, ·))
    (hh2d : s'.h2d.length ≤ s.h2d.length) (hout : Requests c out) :
    t.next s mv s' = (t.timers s mv).ask c.chunk_num.toNat := by
  rw [Tally.next_dev hd2h hh2d]
  simp only [hout.2]
  rfl

theorem Tally.next_silent (hd2h : s'.d2h = s.d2h ++ out.map (σ, ·))
    (hh2d : s'.h2d.length ≤ s.h2d.length) (hout : Silent out) :
    t.next s mv s' = t.timers s mv := by
  rw [Tally.next_dev hd2h hh2d]
  simp only [hout.2]
  rfl

/-- The tally after a move of the host. -/
theorem Tally.next_host {run : Nat} (hh2d : s'.h2d = s.h2d ++ out.map (run, ·))
    (hd2h : s'.d2h.length ≤ s.d2h.length) :
    t.next s mv s' =
      { t.timers s mv with
        served := (t.timers s mv).served + out.countP (fun msg => msg.IsChunk) } := by
  unfold Tally.next
  simp only [hh2d, List.drop_left, List.countP_map, List.drop_eq_nil_of_le hd2h, List.countP_nil]
  rfl

theorem requests_append (d2h : List (Session × Msg)) :
    (d2h ++ out.map (σ, ·)).filterMap (·.2.request) =
      d2h.filterMap (·.2.request) ++ out.filterMap Msg.request := by
  rw [List.filterMap_append, List.filterMap_map]
  rfl

theorem replies_append (h2d : List (Nat × Msg)) (run : Nat) :
    (h2d ++ out.map (run, ·)).filterMap (·.2.reply) =
      h2d.filterMap (·.2.reply) ++ out.filterMap Msg.reply := by
  rw [List.filterMap_append, List.filterMap_map]
  rfl

end Next

section Steps

variable {T : Platform P} {s s' : Line P} {t : Tally} {f : Frame} {out : List Msg}

/-- The device takes a message. -/
theorem Line.Accounted.devTakes {framebuf : Frame} {time : Nat → UInt64} {origin : Nat} {msg : Msg}
    {h2d : List (Nat × Msg)} {σ : Session} (h : s.Accounted t) (hhead : s.h2d = (origin, msg) :: h2d)
    (hmsg : s.dev.pc = .init ∨ s.dev.pc = .chunk → msg = .frame f)
    (hstep : DownloadStep T.Accepts s.dev.core .ok f s'.dev.core out)
    (hhost : s'.host = s.host) (hh2d : s'.h2d = h2d) (hd2h : s'.d2h = s.d2h ++ out.map (σ, ·)) :
    s'.Accounted (t.next s (.devTakes framebuf time) s') := by
  have hlen : s'.h2d.length ≤ s.h2d.length := by simp [hh2d, hhead]
  have hreplies : s'.replies = h2d.filterMap (·.2.reply) := by rw [Line.replies, hh2d]
  have hsub : s'.replies.Sublist s.replies := by
    rw [hreplies, Line.replies, hhead]
    exact (List.sublist_cons_self _ _).filterMap _
  have hheard : s.dev.core.pc = .init ∨ s.dev.core.pc = .chunk →
      s.replies = (if f.type = HOST_CHNK then some f.iden else none) :: s'.replies := by
    intro hpc
    rw [hreplies, Line.replies, hhead, List.filterMap_cons_some (by rw [hmsg hpc]; rfl)]
  have hpoll : f.type = HOST_POLL → (if f.type = HOST_CHNK then some f.iden else none) = none := by
    intro htype
    simp [htype, HOST_POLL, HOST_CHNK]
  have hrequests : s'.requests = s.requests ++ out.filterMap Msg.request := by
    rw [Line.requests, hd2h, requests_append]
    rfl
  have h : Pup.Accounted s.dev.core s.host.core.pc s.replies s.requests t := h
  unfold Line.Accounted
  rw [hhost, hrequests]
  cases downloadStep_traffic hstep (by simp) with
  | opens hpc _ htype hpc' hlt hout =>
      rw [hheard (.inl hpc), hpoll htype] at h
      rw [Tally.next_requests hd2h hlen hout, hout.1]
      exact h.opens hpc hpc' hlt
  | again hpc hwhy hsame hout =>
      have hother : ¬(f.type = HOST_CHNK ∧ f.iden = s.dev.core.iden) := by simpa using hwhy
      rw [hheard (.inr hpc)] at h
      rw [Tally.next_requests hd2h hlen hout, hout.1, hsame]
      refine h.again hpc ?_
      split
      · rename_i htype
        simpa using fun hiden => hother ⟨htype, hiden⟩
      · simp
  | next hpc _ htype hiden hpc' hiden' hnum hcount hlt hout =>
      rw [hheard (.inr hpc), if_pos htype, hiden] at h
      rw [Tally.next_requests hd2h hlen hout, hout.1]
      exact h.next hpc hpc' hiden' hnum hcount hlt
  | closes hpc _ htype hiden hpc' hcount hout =>
      rw [hheard (.inr hpc), if_pos htype, hiden] at h
      rw [Tally.next_silent hd2h hlen hout, hout.1, List.append_nil]
      exact h.closes hpc hpc' hcount
  | loads hpc _ htype hpc' hout =>
      rw [hheard (.inl hpc), hpoll htype] at h
      rw [Tally.next_silent hd2h hlen hout, hout.1, List.append_nil]
      exact h.loads hpc hpc'
  | stays _ hpc' hinit hcount hout =>
      rw [Tally.next_silent hd2h hlen hout, hout.1, List.append_nil]
      exact (h.sublist hsub (List.Sublist.refl _)).stays hpc' hinit hcount

/-- `TIMER_RESEND` of the device fires. -/
theorem Line.Accounted.devFires {framebuf : Frame} {time : Nat → UInt64} {σ : Session}
    (h : s.Accounted t) (hstep : DownloadStep T.Accepts s.dev.core .resend f s'.dev.core out)
    (hhost : s'.host = s.host) (hh2d : s'.h2d = s.h2d) (hd2h : s'.d2h = s.d2h ++ out.map (σ, ·)) :
    s'.Accounted (t.next s (.devFires .resend framebuf time) s') := by
  have hlen : s'.h2d.length ≤ s.h2d.length := by rw [hh2d]
  have hrequests : s'.requests = s.requests ++ out.filterMap Msg.request := by
    rw [Line.requests, hd2h, requests_append]
    rfl
  have hreplies : s'.replies = s.replies := by rw [Line.replies, hh2d, Line.replies]
  have h : Pup.Accounted s.dev.core s.host.core.pc s.replies s.requests t := h
  unfold Line.Accounted
  rw [hhost, hrequests, hreplies]
  cases downloadStep_traffic hstep (by simp) with
  | opens _ hok | next _ hok | closes _ hok | loads _ hok => cases hok
  | again hpc _ hsame hout =>
      have htimers : t.timers s (.devFires .resend framebuf time) =
          t.fire s.dev.core.chunk_num.toNat := if_pos hpc
      rw [Tally.next_requests hd2h hlen hout, hout.1, hsame, htimers]
      exact h.fires hpc
  | stays hpc hpc' hinit hcount hout =>
      have htimers : t.timers s (.devFires .resend framebuf time) = t := if_neg hpc
      rw [Tally.next_silent hd2h hlen hout, hout.1, List.append_nil, htimers]
      exact h.stays hpc' hinit hcount

/-- Messages get lost, or a receiver skips them. -/
theorem Line.Accounted.loses {mv : Move} (h : s.Accounted t) (hdev : s'.dev = s.dev)
    (hhost : s'.host = s.host) (hh2d : s'.h2d.Sublist s.h2d) (hd2h : s'.d2h.Sublist s.d2h)
    (htimers : t.timers s mv = t) : s'.Accounted (t.next s mv s') := by
  have hnext : t.next s mv s' = t := by
    rw [Tally.next, htimers, List.drop_eq_nil_of_le hh2d.length_le,
      List.drop_eq_nil_of_le hd2h.length_le]
    rfl
  have h : Pup.Accounted s.dev.core s.host.core.pc s.replies s.requests t := h
  unfold Line.Accounted
  rw [hnext, hdev, hhost]
  exact h.sublist (hh2d.filterMap _) (hd2h.filterMap _)

/-- The host sends nothing a device in the loop over the chunks would take. -/
def Mute (out : List Msg) : Prop :=
  out.filterMap Msg.reply = [] ∧ out.countP (fun msg => msg.IsChunk) = 0

theorem mute_nil : Mute [] := ⟨rfl, rfl⟩

theorem mute_ack (iden : UInt16) : Mute [.ack iden] := ⟨rfl, rfl⟩

/-- The host goes on, and adds nothing to what is on its way. -/
theorem Line.Accounted.mute {mv : Move} {run : Nat} (h : s.Accounted t) (hdev : s'.dev = s.dev)
    (hh2d : s'.h2d = s.h2d ++ out.map (run, ·)) (hd2h : s'.d2h.Sublist s.d2h) (hout : Mute out)
    (hpc : s'.host.core.pc = .poll → s.host.core.pc = .poll) (htimers : t.timers s mv = t) :
    s'.Accounted (t.next s mv s') := by
  have hreplies : s'.replies = s.replies := by
    rw [Line.replies, hh2d, replies_append, hout.1, List.append_nil, Line.replies]
  unfold Line.Accounted
  rw [Tally.next_host hh2d hd2h.length_le, htimers, hout.2, hdev, hreplies]
  have h : Pup.Accounted s.dev.core s.host.core.pc s.replies s.requests t := h
  exact (h.sublist (List.Sublist.refl _) (hd2h.filterMap _)).goesOn hpc

/-- The host takes a message. -/
theorem Line.Accounted.hostTakes {framebuf : Frame} {time : Nat → UInt64} {σ : Session} {msg : Msg}
    {d2h : List (Session × Msg)} {m : Meta} {file : List UInt8} {run : Nat} (h : s.Accounted t)
    (hhead : s.d2h = (σ, msg) :: d2h)
    (hmsg : s.host.pc = .poll ∧ msg = .ack 0 ∨ s.host.pc.Receives ∧ msg = .frame f)
    (hstep : UploadStep m file s.host.core .ok f s'.host.core out) (hdev : s'.dev = s.dev)
    (hh2d : s'.h2d = s.h2d ++ out.map (run, ·)) (hd2h : s'.d2h = d2h) :
    s'.Accounted (t.next s (.hostTakes framebuf time) s') := by
  have hsub : s'.d2h.Sublist s.d2h := by
    rw [hd2h, hhead]
    exact List.sublist_cons_self _ _
  have hmute : Mute out → (s'.host.core.pc = .poll → s.host.core.pc = .poll) →
      s'.Accounted (t.next s (.hostTakes framebuf time) s') :=
    fun hout hpc => h.mute hdev hh2d hsub hout hpc rfl
  generalize hc : s'.host.core = c' at hstep hmute
  cases hstep with
  | idle | ignore => exact hmute mute_nil id
  | giveUp _ hr | poll _ hr | repoll _ hr => cases hr
  | polled | beat | exit => exact hmute mute_nil nofun
  | boot => exact hmute (mute_ack _) nofun
  | @serve data _ hpc _ htype =>
      have hpc : s.host.pc = .frames := hpc
      have hframe : msg = .frame f := by
        rcases hmsg with ⟨hpoll, -⟩ | ⟨-, hframe⟩
        · rw [hpc] at hpoll
          cases hpoll
        · exact hframe
      have hasks : (Msg.frame f).request = some (some f.iden) := if_pos htype.1
      have hrequests : s.requests = some f.iden :: s'.requests := by
        rw [Line.requests, Line.requests, hd2h, hhead, hframe]
        exact List.filterMap_cons_some hasks
      have hreplies : s'.replies = s.replies ++ [some f.iden] := by
        rw [Line.replies, hh2d, replies_append]
        rfl
      have hserved : t.next s (.hostTakes framebuf time) s' = { t with served := t.served + 1 } :=
        Tally.next_host hh2d hsub.length_le
      have h : Pup.Accounted s.dev.core s.host.pc s.replies s.requests t := h
      rw [hpc, hrequests] at h
      unfold Line.Accounted
      rw [hserved, hdev, hc, hreplies]
      show Pup.Accounted s.dev.core s.host.pc _ _ _
      rw [hpc]
      exact h.serves

/-- `TIMER_RESEND` of the host fires. -/
theorem Line.Accounted.hostFires {framebuf : Frame} {time : Nat → UInt64} {m : Meta}
    {file : List UInt8} {run : Nat} (h : s.Accounted t)
    (hquiet : s.host.core.pc.Receives → s.host.core.resend = false)
    (hactive : s.host.core.resend = true)
    (hstep : UploadStep m file s.host.core .resend f s'.host.core out) (hdev : s'.dev = s.dev)
    (hh2d : s'.h2d = s.h2d ++ out.map (run, ·)) (hd2h : s'.d2h = s.d2h) :
    s'.Accounted (t.next s (.hostFires .resend framebuf time) s') := by
  have hserves : ¬s.host.core.pc.Receives := by
    intro hpc
    simp [hquiet hpc] at hactive
  generalize hc : s'.host.core = c' at hstep
  cases hstep with
  | idle hidle =>
      have hpc : s.host.pc ≠ .poll := by
        intro hpoll
        have hpoll : s.host.core.pc = .poll := hpoll
        simp [hpoll] at hidle
      refine h.mute hdev hh2d (hd2h ▸ List.Sublist.refl _) mute_nil ?_ (if_neg hpc)
      rw [hc]
      exact id
  | giveUp _ hr | poll _ hr | polled _ hr => cases hr
  | beat hpc | serve _ hpc | exit hpc => exact absurd (.inl hpc) hserves
  | boot hpc | ignore hpc => exact absurd hpc hserves
  | repoll hpc =>
      have hpc : s.host.pc = .poll := hpc
      have hreplies : s'.replies = s.replies ++ [none] := by
        rw [Line.replies, hh2d, replies_append]
        rfl
      have hrequests : s'.requests = s.requests := by rw [Line.requests, hd2h, Line.requests]
      have htimers : t.timers s (.hostFires .resend framebuf time) =
          { t with repolled := t.repolled + 1 } := if_pos hpc
      have hnext : t.next s (.hostFires .resend framebuf time) s' =
          { t with repolled := t.repolled + 1 } := by
        rw [Tally.next_host hh2d (by rw [hd2h]), htimers]
        rfl
      have h : Pup.Accounted s.dev.core s.host.pc s.replies s.requests t := h
      rw [hpc] at h
      unfold Line.Accounted
      rw [hnext, hdev, hc, hreplies, hrequests]
      exact h.repolls

end Steps

/-! ## Runs -/

section Runs

variable {T : Platform P} {s : Line P} {t : Tally}

theorem trafficNext_some {p p' : Line P × Tally} {mv : Move} (h : trafficNext T p mv = some p') :
    mv.Steady ∧ lineNext T p.1 mv = some p'.1 ∧ p'.2 = p.2.next p.1 mv p'.1 := by
  unfold trafficNext at h
  split at h
  · rename_i hsteady
    obtain ⟨s', hnext, rfl⟩ := Option.map_eq_some_iff.mp h
    exact ⟨hsteady, hnext, rfl⟩
  · cases h

/-- The tally only watches. -/
theorem traffic_line : ∀ p, (traffic T).Reachable p → (line T).Reachable p.1 := by
  refine TSys.invariant_of ?_ ?_
  · rintro p ⟨config, plat, config', m, file, retries, time, rfl⟩
    exact .step (.init ⟨config, plat, rfl⟩)
      (show lineNext T _ (.opens config' m file retries time) = _ from rfl)
  · intro p mv p' _ hp hstep
    exact .step hp (trafficNext_some hstep).2.1

theorem accounted_opens (config config' : Config) (plat : P) (m : Meta) (file : List UInt8)
    (retries : UInt8) (time : Nat → UInt64) :
    ((Line.start config plat).opens config' m file retries time).Accounted .zero := by
  obtain ⟨-, -, hstart⟩ := hostStart_spec config' m file retries time
  have hall : ∀ x ∈ ((Line.start config plat).opens config' m file retries time).replies,
      x = none := by
    intro x hx
    rcases hstart with ⟨-, hout⟩ | ⟨-, hout⟩
    · simp [Line.replies, Line.opens, Line.start, hout] at hx
    · simpa [Line.replies, Line.opens, Line.start, hout, Msg.reply, pollFrame, HOST_POLL, HOST_CHNK]
        using hx
  have hlen : ((Line.start config plat).opens config' m file retries time).replies.length ≤ 1 := by
    rcases hstart with ⟨-, hout⟩ | ⟨-, hout⟩
    · simp [Line.replies, Line.opens, Line.start, hout]
    · simp [Line.replies, Line.opens, Line.start, hout, Msg.reply]
  refine ⟨fun _ => hall, fun n => Nat.zero_le _, ?_, fun _ => .inr ⟨fun _ => rfl, hall, hlen⟩, ?_⟩
  · simp [Line.requests, Line.opens, Tally.zero]
  · intro hpc
    cases hpc

theorem line_accounted : ∀ p, (traffic T).Reachable p → p.1.Accounted p.2 := by
  refine TSys.invariant_of ?_ ?_
  · rintro p ⟨config, plat, config', m, file, retries, time, rfl⟩
    exact accounted_opens config config' plat m file retries time
  · intro p mv p' hreach hp hstep
    obtain ⟨hsteady, hnext, htally⟩ := trafficNext_some hstep
    have hquiet := line_quiet p.1 (traffic_line p hreach)
    rw [htally]
    cases move_step hnext with
    | devTakes hhead hmsg hdown heq =>
        exact hp.devTakes hhead hmsg hdown (by rw [heq]) (by rw [heq]) (by rw [heq])
    | @devFires timer _ _ r _ hr hdown heq =>
        cases timer with
        | reset => exact absurd rfl hsteady
        | symbol => cases hr
        | resend =>
            cases hr
            exact hp.devFires hdown (by rw [heq]) (by rw [heq]) (by rw [heq])
    | hostTakes hhead hmsg hup _ heq =>
        exact hp.hostTakes hhead hmsg hup (by rw [heq]) (by rw [heq]) (by rw [heq])
    | @hostFires timer _ _ r _ hr hactive hup _ heq =>
        cases timer with
        | reset => exact absurd rfl hsteady
        | symbol => cases hr
        | resend =>
            cases hr
            exact hp.hostFires hquiet hactive hup (by rw [heq]) (by rw [heq]) (by rw [heq])
    | devSkips hhead heq =>
        refine hp.loses (by rw [heq]) (by rw [heq]) ?_ (by rw [heq]) rfl
        rw [heq, hhead]
        exact List.sublist_cons_self _ _
    | hostSkips hhead heq =>
        refine hp.loses (by rw [heq]) (by rw [heq]) (by rw [heq]) ?_ rfl
        rw [heq, hhead]
        exact List.sublist_cons_self _ _
    | loseToDevice heq =>
        refine hp.loses (by rw [heq]) (by rw [heq]) ?_ (by rw [heq]) rfl
        rw [heq]
        exact List.eraseIdx_sublist _ _
    | loseToHost heq =>
        refine hp.loses (by rw [heq]) (by rw [heq]) (by rw [heq]) ?_ rfl
        rw [heq]
        exact List.eraseIdx_sublist _ _
    | opens => exact absurd hsteady id

/-- In a run of `fsm_upload` against `fsm_download` in which no `TIMER_RESET`
fires, whether messages get lost or not, the device asks for chunk `n` at most
once, and once more for each time the host polled again and for each time its
own `TIMER_RESEND` fired while it waited for chunk `n` or an earlier one. The
host sends no more chunks than that, over all chunks of the image. -/
theorem requests_bounded (hs : (traffic T).Reachable (s, t)) :
    (∀ n, t.asked n ≤ 1 + t.repolled + ∑ m ∈ Finset.range (n + 1), t.fired m) ∧
      t.served ≤ ∑ n ∈ Finset.range s.dev.chunk_count.toNat,
        (1 + t.repolled + ∑ m ∈ Finset.range (n + 1), t.fired m) := by
  have hinv : Pup.Accounted s.dev.core s.host.core.pc s.replies s.requests t := line_accounted _ hs
  refine ⟨hinv.bounded, ?_⟩
  calc t.served ≤ t.served + s.requests.length := Nat.le_add_right _ _
    _ ≤ ∑ n ∈ Finset.range s.dev.chunk_count.toNat, t.asked n := hinv.answered
    _ ≤ _ := Finset.sum_le_sum fun n _ => hinv.bounded n

end Runs

/-! ## One timeout that came too early -/

/-- A flat image of two chunks. -/
def breedingMeta : Meta := ⟨IMAGE_FLAT_BINARY, COMPRESS_NONE, 0x10000, 0x10000, 0, 0, 0x8000⟩

/-- `TIMER_RESEND` of the device fires once, before the host has looked at the
first request. After that everybody takes the next message, and none is lost. -/
def breedingMoves : List Move :=
  let f := beatFrame 0
  let time := fun _ => 0
  [.devTakes f time, .devFires .resend f time, .hostTakes f time, .hostTakes f time,
    .hostTakes f time, .devTakes f time, .devTakes f time, .hostTakes f time, .hostTakes f time]

def breedingStart : Line Board × Tally :=
  ((Line.start config (.zero (fun _ => 0) [])).opens config breedingMeta
    (List.replicate 0x10000 0) 0 (fun _ => 0), .zero)

def breedingRun : Option (Line Board × Tally) :=
  TSys.exec (trafficNext (board .tiny true)) breedingStart breedingMoves

theorem breedingRun_counts :
    breedingRun.map (fun p => ((p.2.fired 0, p.2.fired 1, p.2.repolled),
      p.2.asked 1, p.2.served, p.1.dev.chunk_count.toNat)) = some ((1, 0, 0), 2, 4, 2) := by
  decide +kernel

theorem breedingRun_ends : ∃ s t, breedingRun = some (s, t) ∧
    (t.fired 0 = 1 ∧ t.fired 1 = 0 ∧ t.repolled = 0) ∧
      t.asked 1 = 2 ∧ t.served = 4 ∧ s.dev.chunk_count.toNat = 2 := by
  obtain ⟨⟨s, t⟩, hrun, hcounts⟩ := Option.map_eq_some_iff.mp breedingRun_counts
  simp only [Prod.mk.injEq] at hcounts
  exact ⟨s, t, hrun, hcounts.1, hcounts.2⟩

theorem requests_bounded_breeding : ∃ s t, breedingRun = some (s, t) ∧ t.asked 1 = 2 ∧
    t.asked 1 ≤ 1 + t.repolled + ∑ m ∈ Finset.range 2, t.fired m ∧
      t.served ≤ ∑ n ∈ Finset.range s.dev.chunk_count.toNat,
        (1 + t.repolled + ∑ m ∈ Finset.range (n + 1), t.fired m) := by
  obtain ⟨s, t, hrun, -, hasked, -⟩ := breedingRun_ends
  have hreach : (traffic (board .tiny true)).Reachable (s, t) :=
    (TSys.steps_of_exec hrun).reachable
      (.init ⟨config, .zero (fun _ => 0) [], config, breedingMeta, _, 0, _, rfl⟩)
  obtain ⟨hbound, htotal⟩ := requests_bounded hreach
  exact ⟨s, t, hrun, hasked, hbound 1, htotal⟩

/-- The device asks twice for the second chunk, though it never timed out while
it waited for it, and the host sends four chunks where the two of the image and
one timeout make three. -/
theorem premature_timeout_breeds : ∃ s t, breedingRun = some (s, t) ∧
    (t.fired 0 = 1 ∧ t.fired 1 = 0 ∧ t.repolled = 0) ∧ ¬t.asked 1 ≤ 1 + t.fired 1 ∧
      ¬t.served ≤ s.dev.chunk_count.toNat + (t.fired 0 + t.fired 1 + t.repolled) := by
  obtain ⟨s, t, hrun, ⟨hfired0, hfired1, hrepolled⟩, hasked, hserved, hcount⟩ := breedingRun_ends
  refine ⟨s, t, hrun, ⟨hfired0, hfired1, hrepolled⟩, ?_, ?_⟩
  · rw [hasked, hfired1]
    decide
  · rw [hserved, hcount, hfired0, hfired1, hrepolled]
    decide

end Bcm2835.Pup

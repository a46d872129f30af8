import Bcm2835.Pup.Board
import Bcm2835.Pup.Parties

/-!
# What the device jumps into

The host acknowledges every `BOOT` frame, and the device leaves for the
trampoline when it gets the acknowledgement, whatever its own verdict was. And
`platform_load_image` does not compare the checksum of an image that came
compressed. `trampoline_verified_iff` says that these are the only ways to jump
into an image that is not what was announced.
-/

namespace Bcm2835.Pup

variable {P : Type}

/-! ## The board behind the log -/

/-- What a board call leaves of the board. -/
def Platform.after (T : Platform P) (p : P) : Event → P
  | .init_meta m _ => (T.platform_init_meta m p).2
  | .feed chunk_no data => (T.platform_feed chunk_no data p).2
  | .load_image _ => (T.platform_load_image p).2.2

/-- The board after the calls of a log. -/
def Platform.replay (T : Platform P) (p : P) (log : List Event) : P := log.foldl T.after p

@[simp] theorem Platform.replay_append (T : Platform P) (p : P) (log : List Event) (e : Event) :
    T.replay p (log ++ [e]) = T.after (T.replay p log) e := List.foldl_append

/-- The board that the last call of a log was made on. -/
def Platform.loaded (T : Platform P) (p : P) (log : List Event) : P := T.replay p log.dropLast

/-- The board is what the calls in the log have made of it; and while the device waits for the
acknowledgement, and after it, the last call was a `platform_load_image` with the session's verdict. -/
structure Device.Recorded (T : Platform P) (p : P) (d : Device P) : Prop where
  board : d.plat = T.replay p d.log
  verdict : d.pc = .boot ∨ d.pc = .trampoline →
    (T.platform_load_image (T.loaded p d.log)).1 = sessionVerdict d.log

section Record

variable {T : Platform P} {p : P} {d : Device P}

theorem Device.Recorded.of_board (h : d.plat = T.replay p d.log)
    (hpc : d.pc ≠ .boot ∧ d.pc ≠ .trampoline) : d.Recorded T p :=
  ⟨h, fun h => (h.elim hpc.1 hpc.2).elim⟩

theorem Device.recorded_nextChunk (h : d.plat = T.replay p d.log) (now now' : UInt64) :
    (d.nextChunk T now now').1.Recorded T p := by
  unfold Device.nextChunk
  split
  · exact .of_board h ⟨by simp [Device.sendRqch], by simp [Device.sendRqch]⟩
  · unfold Device.loadImage
    have hafter : (T.platform_load_image d.plat).2.2 =
        T.replay p (d.log ++ [.load_image (T.platform_load_image d.plat).1]) := by
      rw [Platform.replay_append, ← h]
      rfl
    cases hres : (T.platform_load_image d.plat).1 with
    | none =>
        rw [hres] at hafter
        simp only [hres]
        exact .of_board hafter ⟨nofun, nofun⟩
    | some is_ok =>
        rw [hres] at hafter
        simp only [hres]
        refine ⟨hafter, fun _ => ?_⟩
        show (T.platform_load_image (T.replay p (d.log ++ [Event.load_image (some is_ok)]).dropLast)).1 =
          sessionVerdict (d.log ++ [Event.load_image (some is_ok)])
        rw [List.dropLast_concat, ← h, hres, sessionVerdict_load_image]

theorem Device.Recorded.onInit (h : d.Recorded T p) (f : Frame) (time : Nat → UInt64) :
    (d.onInit T f time).1.Recorded T p := by
  by_cases hf : OpensSession f
  · rw [onInit_open T d f time hf]
    generalize Meta.ofBytes f.payload = m
    have hshown : (d.shown T m).plat = T.replay p (d.shown T m).log := by
      simp only [Device.shown, Platform.replay_append, ← h.board, Platform.after]
    by_cases hm : (T.platform_init_meta m d.plat).1 = true
    · rw [if_pos hm]
      have hnext := recorded_nextChunk (d := d.opened T m (time 3)) hshown (time 4) (time 5)
      cases hX : (d.opened T m (time 3)).nextChunk T (time 4) (time 5) with
      | mk d' out =>
          rw [hX] at hnext
          exact hnext
    · rw [if_neg hm]
      exact .of_board (d := (d.shown T m).reset) hshown
        ⟨by simp [Device.reset], by simp [Device.reset]⟩
  · have hstay : d.onInit T f time = (d, []) := if_neg hf
    rw [hstay]
    exact h

theorem Device.Recorded.onChunk (h : d.Recorded T p) (r : FsmStatus) (f : Frame)
    (time : Nat → UInt64) : (d.onChunk T r f time).1.Recorded T p := by
  have hfed : (T.platform_feed d.chunk_num f.payload d.plat).2 =
      T.replay p (d.log ++ [.feed d.chunk_num f.payload]) := by
    rw [Platform.replay_append, ← h.board]
    rfl
  unfold Device.onChunk
  cases r with
  | reset => exact .of_board h.board ⟨nofun, nofun⟩
  | resend => exact .of_board h.board ⟨nofun, nofun⟩
  | ok =>
      dsimp only
      split
      · split
        · exact .of_board hfed ⟨nofun, nofun⟩
        · exact .of_board hfed ⟨nofun, nofun⟩
        · exact recorded_nextChunk hfed _ _
      · exact .of_board h.board ⟨nofun, nofun⟩

/-- Every step of `fsm_download` keeps the record. -/
theorem Device.Recorded.fsm_download (h : d.Recorded T p) (r : FsmStatus) (f : Frame)
    (time : Nat → UInt64) : (fsm_download T d r f time).1.Recorded T p := by
  unfold Pup.fsm_download
  cases hpc : d.pc with
  | init =>
      dsimp only
      split
      · exact h.onInit f time
      · exact h
  | chunk => exact h.onChunk r f time
  | boot =>
      have hverdict := h.verdict (.inl hpc)
      cases r with
      | reset => exact .of_board h.board ⟨nofun, nofun⟩
      | resend => exact ⟨h.board, fun _ => hverdict⟩
      | ok => exact ⟨h.board, fun _ => hverdict⟩
  | trampoline => exact h
  | hung => exact h

end Record

/-! ## Good images -/

/-- The end of the image that the meta announces. -/
def Board.end_ (b : Board) : Nat := add32 b.img_start b.META.mem_size.toNat

end Bcm2835.Pup

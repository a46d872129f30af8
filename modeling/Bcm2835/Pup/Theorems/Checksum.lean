import Bcm2835.Pup.BoardSpec

/-!
# The checksum of a finished image

`platform_load_image` takes the CRC of a flat image in up to three pieces, the
middle one from the relocation buffer, and each piece in blocks. As `crc32` can
be continued over a concatenation, the pieces add up to the CRC of the bytes
that were fed (`platform_load_image_verdict`).
-/

namespace Bcm2835.Pup

open Mem

/-! ## `crc32` over a concatenation -/

theorem crc32Loop_append (crc : UInt32) (p q : List UInt8) :
    crc32Loop crc (p ++ q) = crc32Loop (crc32Loop crc p) q := by
  induction p generalizing crc with
  | nil => rfl
  | cons c p ih => exact ih _

/-- The complements between two calls cancel. -/
theorem crc32_append (crc : UInt32) (p q : List UInt8) :
    crc32 (crc32 crc p) q = crc32 crc (p ++ q) := by
  simp only [crc32, crc32Loop_append, UInt32.xor_assoc, UInt32.xor_self, UInt32.xor_zero]

@[simp] theorem crc32_nil (crc : UInt32) : crc32 crc [] = crc := by
  simp only [crc32, crc32Loop, UInt32.xor_assoc, UInt32.xor_self, UInt32.xor_zero]

/-! ## Blocks -/

/-- The block loop computes the CRC of the whole range. -/
theorem crc_with_heartbeat_eq (m : Memory) {block_size : Nat} (hblock : 0 < block_size)
    {turns data until_ : Nat} (hturns : until_ - data ≤ turns) (crc : UInt32) :
    (crc_with_heartbeat m block_size turns crc data until_).1 =
      crc32 crc (read m data (until_ - data)) := by
  induction turns generalizing data crc with
  | zero =>
      have hzero : until_ - data = 0 := by omega
      rw [hzero]
      exact (crc32_nil crc).symm
  | succ turns ih =>
      unfold crc_with_heartbeat
      split
      · rename_i hlt
        simp only
        generalize hn : min (until_ - data) block_size = n
        have hrest : until_ - data = n + (until_ - (data + n)) := by omega
        rw [ih (by omega), crc32_append, ← read_add, ← hrest]
      · rename_i hge
        have hzero : until_ - data = 0 := by omega
        rw [hzero]
        exact (crc32_nil crc).symm

theorem crcRange_eq (m : Memory) (acc : UInt32 × Nat) (data until_ : Nat) :
    (crcRange m acc data until_).1 = crc32 acc.1 (read m data (until_ - data)) :=
  crc_with_heartbeat_eq m (by decide) (Nat.le_refl _) acc.1

/-! ## The pieces -/

/-- A stretch of slots that lie next to each other holds that part of the data. -/
theorem read_slots {b : Board} {mem : Memory} {D : List UInt8} {a k n : Nat}
    (hmem : ∀ o (ho : o < D.length), mem (b.slot o) = D[o]) (hn : k + n ≤ D.length)
    (hslot : ∀ i < n, b.slot (k + i) = a + i) : read mem a n = (D.drop k).take n := by
  apply List.ext_getElem
  · simp only [read_length, List.length_take, List.length_drop]
    omega
  · intro i hi hi'
    have hlt : i < n := by simpa using hi
    have hbyte := hmem (k + i) (by omega)
    rw [hslot i hlt] at hbyte
    simpa [Mem.read, Buf.taken] using hbyte

section Image

variable {L : Linked} {m : Meta} {b : Board} {D : List UInt8}

theorem Board.slot_direct {o : Nat} (h : b.reloc.size = 0) : b.slot o = b.img_start + o :=
  if_neg fun hc => hc.1 h

theorem Board.slot_below {o : Nat} (ho : o < b.reloc.tgt_start - b.img_start) :
    b.slot o = b.img_start + o :=
  if_neg fun hc => by omega

theorem Board.Relocated.slot_inside (h : b.Relocated L) {o : Nat} (ho : o < b.reloc.size) :
    b.slot (b.reloc.tgt_start - b.img_start + o) = b.reloc.buf_start + o := by
  have htgt := h.tgt_start_eq
  have hsize := h.size_eq
  rw [Board.slot, if_pos (by omega)]
  omega

theorem Board.Relocated.slot_above (h : b.Relocated L) (o : Nat) :
    b.slot (b.reloc.tgt_start - b.img_start + b.reloc.size + o) = b.reloc.tgt_end + o := by
  have htgt := h.tgt_start_eq
  have hlt := h.tgt_lt
  have hsize := h.size_eq
  rw [Board.slot, if_neg (by omega)]
  omega

/-- The three stretches of a relocated image make up the image. -/
theorem Board.Relocated.stretches (h : b.Relocated L) (hlen : D.length = b.img_end - b.img_start)
    (hmem : ∀ o (ho : o < D.length), b.mem (b.slot o) = D[o]) :
    read b.mem b.img_start (b.reloc.tgt_start - b.img_start) ++
      (read b.mem b.reloc.buf_start b.reloc.size ++
        read b.mem b.reloc.tgt_end (b.img_end - b.reloc.tgt_end)) = D := by
  have hstart := h.tgt_start_eq
  have hend := h.tgt_end_eq
  have hlt := h.tgt_lt
  have hsize := h.size_eq
  generalize hn : b.reloc.tgt_start - b.img_start = n
  have hbelow : read b.mem b.img_start n = D.take n := by
    rw [read_slots (k := 0) hmem (by omega) fun i hi => ?_, List.drop_zero]
    rw [Nat.zero_add]
    exact Board.slot_below (by omega)
  have hinside : read b.mem b.reloc.buf_start b.reloc.size = (D.drop n).take b.reloc.size := by
    refine read_slots hmem (by omega) fun i hi => ?_
    rw [← hn]
    exact h.slot_inside hi
  have habove : read b.mem b.reloc.tgt_end (b.img_end - b.reloc.tgt_end) =
      D.drop (n + b.reloc.size) := by
    rw [read_slots (k := n + b.reloc.size) hmem (by omega) fun i _ => ?_]
    · exact List.take_of_length_le (by rw [List.length_drop]; omega)
    · rw [← hn]
      exact h.slot_above i
  rw [hbelow, hinside, habove, ← List.drop_drop, List.take_append_drop, List.take_append_drop]

/-- The first piece, if there is one, ends where the relocated range starts. -/
theorem Board.Relocated.crc_below (h : b.Relocated L) {acc : (UInt32 × Nat) × Nat}
    (hacc : (if b.reloc.size ≠ 0 ∧ b.img_start < b.reloc.tgt_start ∧
        b.reloc.tgt_start < b.img_end then
          (crcRange b.mem (CRC_INIT, 0) b.img_start b.reloc.tgt_start, b.reloc.tgt_start)
        else ((CRC_INIT, 0), b.img_start)) = acc) :
    acc.1.1 = crc32 CRC_INIT (read b.mem b.img_start (b.reloc.tgt_start - b.img_start)) ∧
      acc.2 = b.reloc.tgt_start := by
  have hstart := h.tgt_start_eq
  have hlt := h.tgt_lt
  have hend := h.tgt_end_eq
  have hsize := h.size_eq
  split at hacc
  · rw [← hacc]
    exact ⟨crcRange_eq .., rfl⟩
  · have heq : b.img_start = b.reloc.tgt_start := by omega
    rw [← hacc, heq, Nat.sub_self]
    exact ⟨(crc32_nil _).symm, rfl⟩

/-- The CRC over the slots of an image, for any memory that holds it. -/
theorem Board.Placed.imageCrc_eq (h : b.Placed L m) (hflat : m.image_format = IMAGE_FLAT_BINARY)
    (hlen : D.length = m.mem_size.toNat) (hmem : ∀ o (ho : o < D.length), b.mem (b.slot o) = D[o]) :
    (imageCrc b b.img_end).1.1 = crc32 CRC_INIT D := by
  have hD : DRAM_LIMIT = 0x20000000 := rfl
  obtain ⟨hend, hlt⟩ := h.img_end_flat hflat
  have hlen : D.length = b.img_end - b.img_start := by omega
  rcases h.place with ⟨hsize, -⟩ | hr
  · -- nothing is relocated: one piece, or none if the image is empty
    have hall : read b.mem b.img_start (b.img_end - b.img_start) = D := by
      rw [read_slots (k := 0) hmem (by omega) fun i _ => ?_, List.drop_zero, ← hlen,
        List.take_length]
      rw [Nat.zero_add]
      exact Board.slot_direct hsize
    simp only [imageCrc, hsize, ne_eq, not_true, false_and, if_false]
    split
    · rw [crcRange_eq, hall]
    · have hnil : D = [] := List.length_eq_zero_iff.mp (by omega)
      rw [hnil, crc32_nil]
  · have hall := hr.stretches hlen hmem
    have hmiddle := hr.tgt_lt
    have hsize := hr.size_eq
    have htgt := hr.tgt_end_eq
    have hbuf := hr.buf_end_eq
    have hbuflt := hr.buf_lt
    simp only [imageCrc]
    generalize hacc : (if b.reloc.size ≠ 0 ∧ b.img_start < b.reloc.tgt_start ∧
        b.reloc.tgt_start < b.img_end then
          (crcRange b.mem (CRC_INIT, 0) b.img_start b.reloc.tgt_start, b.reloc.tgt_start)
        else ((CRC_INIT, 0), b.img_start)) = acc
    obtain ⟨hcrc, hpos⟩ := hr.crc_below hacc
    clear hacc
    -- the second piece is the whole buffer
    have hcnt : min (b.reloc.tgt_end - b.reloc.tgt_start) (sub32 b.img_end b.reloc.tgt_start) =
        b.reloc.size := by
      rw [sub32_eq (by omega) (by omega)]
      omega
    have hinside : b.reloc.size ≠ 0 ∧ b.reloc.tgt_start ≤ b.reloc.tgt_start ∧
        b.reloc.tgt_start < b.reloc.tgt_end := by
      omega
    have hbufzero : add32 b.reloc.buf_start 0 = b.reloc.buf_start := add32_eq (by omega)
    have hbufsize : add32 b.reloc.buf_start b.reloc.size = b.reloc.buf_start + b.reloc.size :=
      add32_eq (by omega)
    have htgtsize : add32 b.reloc.tgt_start b.reloc.size = b.reloc.tgt_end := by
      rw [add32_eq (by omega)]
      omega
    simp only [hpos, Nat.sub_self, hbufzero, hcnt, hbufsize, htgtsize]
    rw [if_pos hinside]
    split
    · simp only [crcRange_eq, hcrc, Nat.add_sub_cancel_left, crc32_append, List.append_assoc, hall]
    · have hlast : b.img_end - b.reloc.tgt_end = 0 := by omega
      have hnil : read b.mem b.reloc.tgt_end 0 = [] := rfl
      rw [hlast, hnil, List.append_nil] at hall
      simp only [crcRange_eq, hcrc, Nat.add_sub_cancel_left, crc32_append, hall]

end Image

/-! ## The verdict -/

/-- Without compression every chunk is fed as it is. -/
theorem feedChunks_none {b : Board} (h : b.META.compression_type = COMPRESS_NONE)
    (chunks : List (List UInt8)) : feedChunks b chunks = chunks.foldl feed_impl b := by
  induction chunks generalizing b with
  | nil => rfl
  | cons chunk chunks ih =>
      have hne : b.META.compression_type ≠ COMPRESS_XZ := by
        rw [h]
        decide
      have hmeta := (feed_impl_sameImage b chunk).1
      simp only [feedChunks, platform_feed, if_neg hne, if_true, List.foldl_cons]
      exact ih (by rw [hmeta, h])

/-- A complete image that was not compressed passes exactly when its CRC is the
announced one, an incomplete one never does; and the CRC taken in pieces is the
one-shot CRC of the bytes that were fed. -/
theorem platform_load_image_verdict {L : Linked} {xz : Bool} {m : Meta} {b₀ b : Board}
    (h : platform_init_meta L xz m b₀ = (true, b)) (hflat : m.image_format = IMAGE_FLAT_BINARY)
    (hnone : m.compression_type = COMPRESS_NONE) (chunks : List (List UInt8))
    (hle : chunks.flatten.length ≤ m.mem_size.toNat) :
    (platform_load_image L (feedChunks b chunks)).1 =
        some (decide (chunks.flatten.length = m.mem_size.toNat ∧
          crc32 CRC_INIT chunks.flatten = m.mem_crc32)) ∧
      (chunks.flatten.length = m.mem_size.toNat →
        (imageCrc (feedChunks b chunks) (feedChunks b chunks).img_end).1.1 =
          crc32 CRC_INIT chunks.flatten) := by
  have hD : DRAM_LIMIT = 0x20000000 := rfl
  have hp := platform_init_meta_placed h
  obtain ⟨hend, hlt⟩ := hp.img_end_flat hflat
  rw [feedChunks_none (by rw [hp.META_eq, hnone])]
  have hst := foldl_feed_impl_stores (k := 0) hp.relocFits hp.feed_eq chunks (by omega)
  obtain ⟨hmeta, hreloc, hstart, hend', hfeed, hmem⟩ := hst.frame
  have hslot := hst.slot_eq
  generalize chunks.foldl feed_impl b = c at *
  rw [hp.feed_eq, add32_eq (by omega)] at hfeed
  -- the fed board is placed like the empty one
  have hcrc : chunks.flatten.length = m.mem_size.toNat →
      (imageCrc c c.img_end).1.1 = crc32 CRC_INIT chunks.flatten := by
    intro hlen
    have hbyte : ∀ o (ho : o < chunks.flatten.length), c.mem (c.slot o) = chunks.flatten[o] := by
      intro o ho
      have hos : o < (b.slots 0 chunks.flatten.length).length := by simpa using ho
      have hat : b.slot o = (b.slots 0 chunks.flatten.length)[o] := by simp [Board.slots]
      rw [hslot, hmem, hat]
      exact scatter_getElem _ (hp.slots_nodup (by omega)) _ _
    have hplaced : Board.Placed L m { c with feed := c.img_start, stored := [] } := by
      refine ⟨by rw [hmeta, hp.META_eq], rfl, rfl, ?_, ?_, ?_, ?_⟩
      · simpa only [hstart, hend'] using hp.img_end_eq
      · simpa only [hstart] using hp.start_lt
      · simpa only [hstart] using hp.format
      · rcases hp.place with ⟨h1, h2, h3⟩ | hr
        · exact .inl ⟨by rw [hreloc, h1], by rw [hreloc, h2], by simpa only [hstart, hend'] using h3⟩
        · refine .inr ⟨?_, ?_, ?_, ?_, ?_, ?_, ?_, ?_⟩ <;> simp only [hreloc, hstart, hend']
          · exact hr.img_end_lt
          · exact hr.tgt_start_eq
          · exact hr.tgt_end_eq
          · exact hr.tgt_lt
          · exact hr.size_eq
          · exact hr.buf_start_eq
          · exact hr.buf_end_eq
          · exact hr.buf_lt
    exact hplaced.imageCrc_eq hflat hlen hbyte
  refine ⟨?_, hcrc⟩
  have hlast : add32 c.img_start c.META.mem_size.toNat = c.img_end := by
    rw [hstart, hend', hmeta, hp.META_eq, hp.img_end_eq]
  simp only [platform_load_image, hlast]
  by_cases hlen : chunks.flatten.length = m.mem_size.toNat
  · have hcomplete : c.feed = c.img_end := by omega
    rw [if_neg (not_not_intro hcomplete), if_pos (by rw [hmeta, hp.META_eq, hnone])]
    simp only [hcrc hlen, loadFormat, hmeta, hp.META_eq, hflat, if_true, Option.map_some,
      Bool.and_true, hlen, true_and]
  · have hshort : c.feed ≠ c.img_end := by omega
    have hfalse : decide (chunks.flatten.length = m.mem_size.toNat ∧
        crc32 CRC_INIT chunks.flatten = m.mem_crc32) = false := decide_eq_false fun hc => hlen hc.1
    rw [if_pos hshort, hfalse]

/-- A flat image of twelve bytes across the start of a loader, with its CRC. -/
def checkedMeta : Meta := ⟨IMAGE_FLAT_BINARY, COMPRESS_NONE, 12, 12, 2455750229, 0, 0x7ffc⟩

/-- The board after it has accepted `checkedMeta`. -/
def checkedBoard : Board := (platform_init_meta .tiny true checkedMeta (.zero (fun _ => 0) [])).2

theorem platform_load_image_checked :
    (platform_load_image .tiny
      (feedChunks checkedBoard [[1, 2, 3], [4, 5, 6, 7, 8, 9], [], [10, 11, 12]])).1 = some true :=
  (platform_load_image_verdict
    (show platform_init_meta .tiny true checkedMeta (.zero (fun _ => 0) []) = (true, checkedBoard)
      from Prod.ext (by decide) rfl) rfl rfl
    [[1, 2, 3], [4, 5, 6, 7, 8, 9], [], [10, 11, 12]] (by decide)).1.trans (by decide +kernel)

end Bcm2835.Pup

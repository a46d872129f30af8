import Bcm2835.Pup.BoardSpec

/-!
# Loading an image over the loader

`feed_impl_places_image`: a flat image of the announced size ends up byte for
byte where it belongs, with the part that meets the running loader in the
buffer, whatever the pieces it came in. `platform_feed_confined_iff`: the
stores stay inside the image and the buffer exactly when the peer sends no more
than it announced (and the announced range does not wrap around).
-/

namespace Bcm2835.Pup

open Mem

variable {L : Linked} {m : Meta} {b : Board}

/-! ## A complete image -/

/-- Every byte of a complete image is in its slot. -/
theorem Board.Placed.mem_slot (h : b.Placed L m) (hflat : m.image_format = IMAGE_FLAT_BINARY)
    {pieces : List (List UInt8)} (hlen : pieces.flatten.length = m.mem_size.toNat)
    {o : Nat} (ho : o < pieces.flatten.length) :
    (pieces.foldl feed_impl b).mem (b.slot o) = pieces.flatten[o] := by
  obtain ⟨hend, hlt⟩ := h.img_end_flat hflat
  have hD : DRAM_LIMIT = 0x20000000 := rfl
  have hst := foldl_feed_impl_stores (k := 0) h.relocFits h.feed_eq pieces (by omega)
  obtain ⟨-, -, -, -, -, hmem⟩ := hst.frame
  have hos : o < (b.slots 0 pieces.flatten.length).length := by simpa using ho
  have hslot : b.slot o = (b.slots 0 pieces.flatten.length)[o] := by
    simp [Board.slots]
  rw [hmem, hslot]
  exact scatter_getElem _ (h.slots_nodup (by omega)) _ _

/-- No byte of the loader is touched. -/
theorem Board.Placed.not_mem_written (h : b.Placed L m)
    (hflat : m.image_format = IMAGE_FLAT_BINARY) {pieces : List (List UInt8)}
    (hlen : pieces.flatten.length = m.mem_size.toNat) {a : Nat} (h1 : L.prog_start ≤ a)
    (h2 : a < L.prog_end) :
    a ∉ (pieces.foldl feed_impl b).written ∧ (pieces.foldl feed_impl b).mem a = b.mem a := by
  obtain ⟨hend, hlt⟩ := h.img_end_flat hflat
  have hD : DRAM_LIMIT = 0x20000000 := rfl
  have hst := foldl_feed_impl_stores (k := 0) h.relocFits h.feed_eq pieces (by omega)
  obtain ⟨-, -, -, -, -, hmem⟩ := hst.frame
  have hslots : a ∉ b.slots 0 pieces.flatten.length := by
    intro hmem
    obtain ⟨o, ho, rfl⟩ := List.mem_map.mp hmem
    simp only [List.mem_range'_1] at ho
    exact h.slot_outside (by omega) ⟨h1, h2⟩
  refine ⟨?_, by rw [hmem, scatter_of_not_mem _ hslots]⟩
  rw [hst.written_eq, Board.written, h.stored_eq]
  simpa using hslots

/-- The trampoline's copy completes the image. -/
theorem Board.Placed.read_relocated (h : b.Placed L m) {mem : Memory} {D : List UInt8}
    (hflat : m.image_format = IMAGE_FLAT_BINARY) (hlen : D.length = m.mem_size.toNat)
    (hmem : ∀ o (ho : o < D.length), mem (b.slot o) = D[o]) :
    read (write (2 ^ 32) mem b.reloc.tgt_start (read mem b.reloc.buf_start b.reloc.size))
      b.img_start m.mem_size.toNat = D := by
  obtain ⟨hend, hlt⟩ := h.img_end_flat hflat
  have hD : DRAM_LIMIT = 0x20000000 := rfl
  apply List.ext_getElem
  · simp [hlen]
  intro o ho1 ho
  have hb := hmem o ho
  simp only [Mem.read, Buf.taken, List.getElem_map, List.getElem_range]
  obtain ⟨h0, -, hdis⟩ | hr := h.place
  · rw [write, scatter_of_not_mem, ← hb, Board.slot, if_neg (by omega)]
    simp [h0]
  · have h1 := hr.tgt_start_eq
    have h2 := hr.tgt_end_eq
    have h3 := hr.size_eq
    have h4 := hr.buf_end_eq
    have h5 := hr.buf_lt
    have h6 := hr.tgt_lt
    have h7 := L.prog_fits
    have hspan : span (2 ^ 32) b.reloc.tgt_start b.reloc.size =
        List.range' b.reloc.tgt_start b.reloc.size := span_eq_range' (by omega)
    rw [Board.slot] at hb
    by_cases hin : b.reloc.tgt_start ≤ b.img_start + o ∧ b.img_start + o < b.reloc.tgt_end
    · rw [if_pos ⟨by omega, hin⟩] at hb
      rw [← hb, write]
      simp only [List.length_map, List.length_range, hspan]
      have hi : b.img_start + o - b.reloc.tgt_start < b.reloc.size := by omega
      have hlen : b.img_start + o - b.reloc.tgt_start <
          (List.range' b.reloc.tgt_start b.reloc.size).length := by simpa using hi
      have hat : b.img_start + o =
          (List.range' b.reloc.tgt_start b.reloc.size)[b.img_start + o - b.reloc.tgt_start] := by
        simp only [List.getElem_range']
        omega
      conv_lhs => rw [hat]
      rw [scatter_getElem _ List.nodup_range' _ (by simpa using hi)]
      simp
    · rw [if_neg (fun hc => hin hc.2)] at hb
      rw [← hb, write, scatter_of_not_mem]
      simp only [List.length_map, List.length_range, hspan, List.mem_range'_1]
      omega

/-- A flat image handed to `feed_impl` in any pieces: every byte is at its
address, or in the buffer if the loader is there; the loader is not written to;
and copying the buffer to its target completes the image. -/
theorem feed_impl_places_image {xz : Bool} {b₀ : Board}
    (h : platform_init_meta L xz m b₀ = (true, b)) (hflat : m.image_format = IMAGE_FLAT_BINARY)
    (pieces : List (List UInt8)) (hlen : pieces.flatten.length = m.mem_size.toNat) :
    let c := pieces.foldl feed_impl b
    (∀ o (ho : o < pieces.flatten.length),
      c.mem (if L.prog_start ≤ b.img_start + o ∧ b.img_start + o < L.prog_end then
          b.reloc.buf_start + (b.img_start + o - b.reloc.tgt_start)
        else b.img_start + o) = pieces.flatten[o]) ∧
    (∀ a, L.prog_start ≤ a → a < L.prog_end → a ∉ c.written ∧ c.mem a = b.mem a) ∧
    read (write (2 ^ 32) c.mem b.reloc.tgt_start (read c.mem b.reloc.buf_start b.reloc.size))
      b.img_start m.mem_size.toNat = pieces.flatten := by
  have hp := platform_init_meta_placed h
  obtain ⟨hend, -⟩ := hp.img_end_flat hflat
  refine ⟨fun o ho => ?_, fun a h1 h2 => hp.not_mem_written hflat hlen h1 h2, ?_⟩
  · rw [← hp.slot_eq (by omega)]
    exact hp.mem_slot hflat hlen ho
  · exact hp.read_relocated hflat hlen fun o ho => hp.mem_slot hflat hlen ho

/-- Twelve bytes that begin four bytes below a loader of eight. -/
def acrossMeta : Meta := ⟨IMAGE_FLAT_BINARY, COMPRESS_NONE, 12, 12, 0, 0, 0x7ffc⟩

/-- The board after it has accepted `acrossMeta`. -/
def acrossBoard : Board :=
  (platform_init_meta .tiny true acrossMeta (.zero (fun _ => 0) [])).2

/-- The loader accepts `acrossMeta`. -/
theorem acrossBoard_accepted :
    platform_init_meta .tiny true acrossMeta (.zero (fun _ => 0) []) = (true, acrossBoard) :=
  Prod.ext (by decide) rfl

theorem feed_impl_places_across :
    let c := [[1, 2, 3], [4, 5, 6, 7, 8, 9], [], [10, 11, 12]].foldl feed_impl acrossBoard
    read (write (2 ^ 32) c.mem acrossBoard.reloc.tgt_start
      (read c.mem acrossBoard.reloc.buf_start acrossBoard.reloc.size)) acrossBoard.img_start 12 =
      [1, 2, 3, 4, 5, 6, 7, 8, 9, 10, 11, 12] :=
  (feed_impl_places_image acrossBoard_accepted rfl
    [[1, 2, 3], [4, 5, 6, 7, 8, 9], [], [10, 11, 12]] rfl).2.2

/-! ## Confinement -/

/-- Addresses `feed_impl` may write: the image outside the loader, and the
relocation buffer. -/
def Board.Allowed (L : Linked) (b : Board) (a : Nat) : Prop :=
  b.img_start ≤ a ∧ a < b.img_end ∧ ¬(L.prog_start ≤ a ∧ a < L.prog_end) ∨
    b.reloc.buf_start ≤ a ∧ a < b.reloc.buf_end

/-- All stores are where they may be, and no byte beyond the announced size has
been stored past the image, over the buffer or over the loader. -/
def Board.Confined (L : Linked) (b : Board) : Prop :=
  (∀ a ∈ b.written, b.Allowed L a) ∧
    ∀ k a, b.written[k]? = some a → b.META.mem_size.toNat ≤ k →
      ¬b.img_end ≤ a ∧ ¬(b.reloc.buf_start ≤ a ∧ a < b.reloc.buf_end) ∧
        ¬(L.prog_start ≤ a ∧ a < L.prog_end)

/-- A board is confined if its stores are, in terms of the placement. -/
theorem confined_iff_written {c : Board} (hM : c.META = b.META) (hr : c.reloc = b.reloc)
    (hs : c.img_start = b.img_start) (he : c.img_end = b.img_end) :
    c.Confined L ↔ (∀ a ∈ c.written, b.Allowed L a) ∧
      ∀ k a, c.written[k]? = some a → b.META.mem_size.toNat ≤ k →
        ¬b.img_end ≤ a ∧ ¬(b.reloc.buf_start ≤ a ∧ a < b.reloc.buf_end) ∧
          ¬(L.prog_start ≤ a ∧ a < L.prog_end) := by
  simp only [Board.Confined, Board.Allowed, hM, hr, hs, he]

/-- The slot of a byte of the image may be written. -/
theorem Board.Placed.slot_allowed (h : b.Placed L m) {o : Nat} (ho : b.img_start + o < b.img_end) :
    b.Allowed L (b.slot o) := by
  have hout := h.slot_outside ho
  unfold Board.slot at hout ⊢
  obtain ⟨h0, -⟩ | hr := h.place
  · rw [if_neg (by omega)] at hout ⊢
    exact .inl ⟨by omega, ho, hout⟩
  · have h3 := hr.size_eq
    have h4 := hr.buf_end_eq
    split
    · exact .inr (by omega)
    · rw [if_neg (by assumption)] at hout
      exact .inl ⟨by omega, ho, hout⟩

/-- As long as no more than the announced size is fed, and the range does not
wrap, everything is confined. -/
theorem Board.Placed.confined_of_le (h : b.Placed L m) {ps : List (List UInt8)}
    (hle : ps.flatten.length ≤ m.mem_size.toNat)
    (hwrap : ps.flatten.length = 0 ∨ b.img_start + m.mem_size.toNat < 2 ^ 32) :
    (ps.foldl feed_impl b).Confined L := by
  have hD : DRAM_LIMIT = 0x20000000 := rfl
  have hs := h.start_lt
  have hst := foldl_feed_impl_stores (k := 0) h.relocFits h.feed_eq ps (by omega)
  obtain ⟨hM, hr, hst', he, -⟩ := hst.frame
  have hw : (ps.foldl feed_impl b).written = b.slots 0 ps.flatten.length := by
    rw [hst.written_eq, Board.written, h.stored_eq]
    rfl
  rw [confined_iff_written hM hr hst' he, hw, h.META_eq]
  obtain h0 | hlt := hwrap
  · simp [h0]
  · have hend : b.img_end = b.img_start + m.mem_size.toNat := by
      rw [h.img_end_eq, add32_eq hlt]
    refine ⟨fun a ha => ?_, fun k a hk hge => ?_⟩
    · obtain ⟨o, ho, rfl⟩ := List.mem_map.mp ha
      simp only [List.mem_range'_1] at ho
      exact h.slot_allowed (by omega)
    · have := (List.getElem?_eq_some_iff.mp hk).1
      simp only [Board.slots_length] at this
      omega

/-- The first byte beyond the announced size goes to the end of the image. -/
theorem Board.Placed.written_at_size (h : b.Placed L m) {ps : List (List UInt8)}
    (hps : ∀ p ∈ ps, p.length ≤ 0x20000) (hlt : m.mem_size.toNat < ps.flatten.length) :
    (ps.foldl feed_impl b).written[m.mem_size.toNat]? = some b.img_end := by
  have hD : DRAM_LIMIT = 0x20000000 := rfl
  have hs := h.start_lt
  have hnil : b.written = [] := by rw [Board.written, h.stored_eq]; rfl
  obtain ⟨h0, -⟩ | hr := h.place
  · -- nothing is relocated: the bytes follow one another
    have hst := foldl_feed_impl_stores_direct h0 (by rw [h.feed_eq]; omega) ps
    rw [hst.written_eq, hnil, h.feed_eq, h.img_end_eq, List.nil_append, span, List.getElem?_map,
      List.getElem?_range hlt]
    rfl
  · -- stop after the piece that crosses the end, which the address space still holds
    have hend := hr.img_end_lt
    have hsz : b.img_start + m.mem_size.toNat = b.img_end := by
      obtain hflat | ⟨-, helf⟩ := h.format
      · exact (h.img_end_flat hflat.1).1.symm
      · have := hr.tgt_lt
        have := hr.tgt_start_eq
        have := hr.tgt_end_eq
        omega
    obtain ⟨ps₁, p, ps₂, rfl, hle, hgt⟩ : ∃ ps₁ p ps₂, ps = ps₁ ++ p :: ps₂ ∧
        ps₁.flatten.length ≤ m.mem_size.toNat ∧
        m.mem_size.toNat < ps₁.flatten.length + p.length := by
      clear hps
      induction ps using List.reverseRecOn with
      | nil => simp at hlt
      | append_singleton qs q ih =>
          by_cases hq : m.mem_size.toNat < qs.flatten.length
          · obtain ⟨ps₁, p, ps₂, rfl, h1, h2⟩ := ih hq
            exact ⟨ps₁, p, ps₂ ++ [q], by simp, h1, h2⟩
          · exact ⟨qs, q, [], rfl, by omega, by simpa using hlt⟩
    have hp : p.length ≤ 0x20000 := hps p (by simp)
    have hlen : (ps₁ ++ [p]).flatten.length = ps₁.flatten.length + p.length := by simp
    have hst := foldl_feed_impl_stores (k := 0) h.relocFits h.feed_eq (ps₁ ++ [p])
      (by rw [hlen]; omega)
    have hpre := foldl_feed_impl_keeps_written ((ps₁ ++ [p]).foldl feed_impl b) ps₂
    rw [← List.foldl_append, List.append_assoc, List.singleton_append] at hpre
    obtain ⟨t, ht⟩ := hpre
    rw [← ht, hst.written_eq, hnil, hlen, List.nil_append,
      List.getElem?_append_left (by simpa using hgt)]
    have htgt := hr.tgt_end_eq
    simp only [Board.slots, List.getElem?_map, List.getElem?_range' hgt, Option.map_some, Board.slot]
    rw [if_neg (by omega)]
    congr 1
    omega

/-- Every piece fits the buffer it comes in. -/
theorem pieces_length_le {c : UInt32} {xz : List XzAnswer} {chunks : List (List UInt8)}
    (h : ∀ chunk ∈ chunks, chunk.length ≤ 0xffff) : ∀ p ∈ pieces c xz chunks, p.length ≤ 0x20000 := by
  have hinf : ∀ (n : Nat) (xz : List XzAnswer) (pos : Nat),
      ∀ p ∈ (inflate n xz pos).1, p.length ≤ 0x20000 := by
    intro n xz
    induction xz with
    | nil => simp [inflate]
    | cons a xz ih =>
        intro pos p hp
        simp only [inflate] at hp
        split at hp
        · simp at hp
        · cases hret : a.ret <;> simp only [hret, List.mem_cons, List.not_mem_nil] at hp
          case XZ_OK | XZ_STREAM_END =>
            obtain rfl | hp := hp
            · exact a.out_le
            · exact ih _ p hp
          case XZ_UNSUPPORTED_CHECK => exact ih _ p hp
  induction chunks generalizing xz with
  | nil => simp [pieces]
  | cons chunk chunks ih =>
      obtain ⟨hc, hcs⟩ := List.forall_mem_cons.mp h
      intro p hp
      simp only [pieces] at hp
      split at hp
      · obtain hp | hp := List.mem_append.mp hp
        · exact hinf _ _ _ p hp
        · split at hp
          · exact ih hcs p hp
          · simp at hp
      · obtain rfl | hp := List.mem_cons.mp hp
        · omega
        · exact ih hcs p hp

/-- The stores of a session stay in the image and the buffer, and nothing is
stored beyond the image, exactly if the pieces it amounts to are no longer
than announced and the announced range does not wrap around the address space
(which only the size of an ELF image can make it do). -/
theorem platform_feed_confined_iff {xz : Bool} {b₀ : Board}
    (h : platform_init_meta L xz m b₀ = (true, b)) {chunks : List (List UInt8)}
    (hchunks : ∀ chunk ∈ chunks, chunk.length ≤ 0xffff) :
    let total := (pieces m.compression_type b.xz chunks).flatten.length
    (feedChunks b chunks).Confined L ↔
      total ≤ m.mem_size.toNat ∧ (total = 0 ∨ b.img_start + m.mem_size.toNat < 2 ^ 32) := by
  intro total
  have hp := platform_init_meta_placed h
  obtain ⟨xz', hfeed⟩ := feedChunks_eq b chunks
  rw [hfeed, hp.META_eq]
  change ((pieces m.compression_type b.xz chunks).foldl feed_impl b).Confined L ↔ _
  refine ⟨fun hc => ?_, fun ⟨hle, hwrap⟩ => hp.confined_of_le hle hwrap⟩
  have hD : DRAM_LIMIT = 0x20000000 := rfl
  have hs := hp.start_lt
  set ps := pieces m.compression_type b.xz chunks with hps
  obtain ⟨hM, hr, hst, he, -⟩ := foldl_feed_impl_sameImage b ps
  rw [confined_iff_written hM hr hst he, hp.META_eq] at hc
  obtain ⟨hall, hbeyond⟩ := hc
  have hle : total ≤ m.mem_size.toNat := by
    by_contra hgt
    have hat := hp.written_at_size (pieces_length_le hchunks) (Nat.lt_of_not_le hgt)
    exact (hbeyond _ _ hat (Nat.le_refl _)).1 (Nat.le_refl _)
  refine ⟨hle, ?_⟩
  by_contra hwrap
  -- the range wraps: this is an ELF image, and its first byte is past `img_end`
  obtain ⟨-, hflat⟩ | ⟨-, helf⟩ := hp.format
  · omega
  obtain ⟨h0, hb0, -⟩ | hrel := hp.place
  · have hst := foldl_feed_impl_stores_direct h0 (by rw [hp.feed_eq]; omega) ps
    have hmem : b.img_start ∈ (ps.foldl feed_impl b).written := by
      rw [hst.written_eq]
      refine List.mem_append_right _ (mem_span.mpr ⟨0, Nat.pos_of_ne_zero fun h => hwrap (.inl h), ?_⟩)
      rw [hp.feed_eq, Nat.add_zero, Nat.mod_eq_of_lt (by omega)]
    have hsize := m.mem_size.toNat_lt
    have hend : b.img_end < b.img_start := by
      rw [hp.img_end_eq, add32]
      omega
    have := hall _ hmem
    unfold Board.Allowed at this
    omega
  · have := hrel.tgt_lt
    have := hrel.tgt_start_eq
    have := hrel.tgt_end_eq
    omega

/-- An image that fills its announced size in two chunks stays confined. -/
theorem platform_feed_confined_across :
    (feedChunks acrossBoard [[1, 2, 3, 4, 5, 6, 7], [8, 9, 10, 11, 12]]).Confined .tiny :=
  (platform_feed_confined_iff acrossBoard_accepted (by decide)).mpr (by decide)

/-- Eight bytes, sixteen below the loader. -/
def overrunMeta : Meta := ⟨IMAGE_FLAT_BINARY, COMPRESS_NONE, 8, 8, 0, 0, 0x7ff0⟩

/-- The board after it has accepted `overrunMeta`. -/
def overrunBoard : Board :=
  (platform_init_meta .tiny true overrunMeta (.zero (fun _ => 0) [])).2

/-- The one chunk the device then asks for may carry twenty bytes, and the last
four of them overwrite the loader. -/
theorem platform_feed_overruns :
    platform_init_meta .tiny true overrunMeta (.zero (fun _ => 0) []) = (true, overrunBoard) ∧
      chunkCount overrunMeta = 1 ∧ 0x8000 ∈ (feedChunks overrunBoard [List.replicate 20 0]).written ∧
      ¬(feedChunks overrunBoard [List.replicate 20 0]).Confined .tiny := by
  have hmem : 0x8000 ∈ (feedChunks overrunBoard [List.replicate 20 0]).written := by decide
  refine ⟨Prod.ext (by decide) rfl, by decide, hmem, fun h => ?_⟩
  have hallowed := h.1 _ hmem
  unfold Board.Allowed at hallowed
  revert hallowed
  decide

end Bcm2835.Pup

import Bcm2835.Pup.Board

/-!
# What the board does with memory

`platform_init_meta` places the image (`Board.Placed`): behind the loader, in
front of it, or across it, and then the bytes that meet the loader are kept in
a buffer. `Board.slot` is the address at which the byte with a given offset is
kept; `feed_impl` stores each byte it is given at its slot (`feed_impl_stores`).
-/

namespace Bcm2835.Pup

open Mem

/-! ## Placement -/

/-- The image does not meet the loader, and nothing is relocated. -/
def Board.Direct (L : Linked) (b : Board) : Prop :=
  b.reloc.size = 0 ∧ b.reloc.buf_end = 0 ∧
    ∀ a, b.img_start ≤ a → a < b.img_end → ¬(L.prog_start ≤ a ∧ a < L.prog_end)

/-- The image meets the loader: the common part is kept in a buffer that starts
where both are over. -/
structure Board.Relocated (L : Linked) (b : Board) : Prop where
  img_end_lt : b.img_end < DRAM_LIMIT
  tgt_start_eq : b.reloc.tgt_start = max b.img_start L.prog_start
  tgt_end_eq : b.reloc.tgt_end = min b.img_end L.prog_end
  tgt_lt : b.reloc.tgt_start < b.reloc.tgt_end
  size_eq : b.reloc.size = b.reloc.tgt_end - b.reloc.tgt_start
  buf_start_eq : b.reloc.buf_start = max L.prog_end b.img_end
  buf_end_eq : b.reloc.buf_end = b.reloc.buf_start + b.reloc.size
  buf_lt : b.reloc.buf_end < DRAM_LIMIT

/-- What a `platform_init_meta` that accepts leaves. -/
structure Board.Placed (L : Linked) (m : Meta) (b : Board) : Prop where
  META_eq : b.META = m
  feed_eq : b.feed = b.img_start
  stored_eq : b.stored = []
  img_end_eq : b.img_end = add32 b.img_start m.mem_size.toNat
  start_lt : b.img_start < DRAM_LIMIT
  format :
    m.image_format = IMAGE_FLAT_BINARY ∧ b.img_start + m.mem_size.toNat < DRAM_LIMIT ∨
      m.image_format = IMAGE_ELF ∧ b.img_start = L.prog_end
  place : b.Direct L ∨ b.Relocated L

theorem imageStart_some {L : Linked} {m : Meta} {a : Nat} (h : imageStart L m = some a) :
    m.image_format = IMAGE_FLAT_BINARY ∧ a = m.load_addr.toNat ∧
        a + m.mem_size.toNat < DRAM_LIMIT ∧ a % 4 = 0 ∨
      m.image_format = IMAGE_ELF ∧ a = L.prog_end := by
  simp only [imageStart] at h
  split at h
  · split at h
    · cases h
    split at h
    · cases h
    split at h
    · cases h
    cases h
    exact .inl ⟨by assumption, rfl, by omega, by omega⟩
  · split at h
    · cases h
      exact .inr ⟨by assumption, rfl⟩
    · cases h

theorem relocation_some {L : Linked} {s e : Nat} {r : Reloc} (h : relocation L s e = some r)
    (he : e < 2 ^ 32) :
    (r.size = 0 ∧ r.buf_end = 0 ∧ (s ≤ e → ∀ a, s ≤ a → a < e → ¬(L.prog_start ≤ a ∧ a < L.prog_end))) ∨
      (r.size ≠ 0 ∧ r.tgt_start = max s L.prog_start ∧ r.tgt_end = min e L.prog_end ∧
        r.size = sub32 r.tgt_end r.tgt_start ∧ r.buf_start = max L.prog_end e ∧
        r.buf_end = add32 r.buf_start r.size ∧
        r.buf_start < sub32 (sub32 DRAM_LIMIT r.size) L.trampoline.length ∧
        (L.prog_start ≤ s ∧ s < L.prog_end ∨ s < L.prog_start ∧ L.prog_start < e)) := by
  have hp := L.prog_nonempty
  have hf := L.prog_fits
  have hD : DRAM_LIMIT = 0x20000000 := rfl
  unfold relocation at h
  by_cases hov : L.prog_start ≤ s ∧ s < L.prog_end ∨ s < L.prog_start ∧ L.prog_start < e
  · simp only [if_pos hov] at h
    split at h
    · rename_i hsz
      cases h
      refine .inl ⟨rfl, rfl, fun hse a h1 h2 ⟨h3, h4⟩ => ?_⟩
      rw [sub32_eq (by omega) (by omega)] at hsz
      omega
    · split at h
      · cases h
      · rename_i hsz hfit
        cases h
        exact .inr ⟨hsz, rfl, rfl, rfl, rfl, rfl, Nat.lt_of_not_le hfit, hov⟩
  · simp only [if_neg hov] at h
    cases h
    exact .inl ⟨rfl, rfl, fun _ a h1 h2 ⟨h3, h4⟩ => hov (by omega)⟩

/-- An accepted meta places the image. -/
theorem platform_init_meta_placed {L : Linked} {xz : Bool} {m : Meta} {b b' : Board}
    (h : platform_init_meta L xz m b = (true, b')) : b'.Placed L m := by
  have hD : DRAM_LIMIT = 0x20000000 := rfl
  have hf := L.prog_fits
  have hp := L.prog_nonempty
  unfold platform_init_meta at h
  split at h
  · cases h
  split at h
  · cases h
  cases hs : imageStart L m with
  | none => simp [hs] at h
  | some s =>
      simp only [hs] at h
      cases hr : relocation L s (add32 s m.mem_size.toNat) with
      | none => simp [hr] at h
      | some r =>
          simp only [hr] at h
          split at h
          · cases h
          have hb' := (Prod.mk.inj h).2
          have hstart := imageStart_some hs
          have he : add32 s m.mem_size.toNat < 2 ^ 32 := Nat.mod_lt _ (by decide)
          have hend : m.image_format = IMAGE_FLAT_BINARY →
              add32 s m.mem_size.toNat = s + m.mem_size.toNat := fun hfmt => by
            obtain ⟨-, -, h1, -⟩ | ⟨h1, -⟩ := hstart
            · exact add32_eq (by omega)
            · rw [hfmt] at h1
              cases h1
          have hlt : s < DRAM_LIMIT := by omega
          subst hb'
          refine ⟨rfl, rfl, rfl, rfl, hlt, ?_, ?_⟩
          · obtain ⟨h1, -, h2, -⟩ | ⟨h1, h2⟩ := hstart
            · exact .inl ⟨h1, h2⟩
            · exact .inr ⟨h1, h2⟩
          · obtain ⟨h0, hb0, hdis⟩ | ⟨h0, h1, h2, h3, h4, h5, h6, hov⟩ := relocation_some hr he
            · refine .inl ⟨h0, hb0, fun a (ha1 : s ≤ a) (ha2 : a < add32 s m.mem_size.toNat) => ?_⟩
              exact hdis (by omega) a ha1 ha2
            · -- an ELF image starts where the loader ends, so this one is flat
              obtain ⟨hfmt, -, hsz, -⟩ | ⟨-, hpe⟩ := hstart
              · rw [hend hfmt] at h2 h4 hov
                rw [sub32_eq (by omega) (by omega)] at h3
                have hsub : sub32 (sub32 DRAM_LIMIT r.size) L.trampoline.length =
                    DRAM_LIMIT - r.size - L.trampoline.length := by
                  rw [sub32_eq (b := r.size) (by omega) (by omega), sub32_eq (by omega) (by omega)]
                rw [hsub] at h6
                rw [add32_eq (by omega)] at h5
                have hne : r.tgt_start < r.tgt_end := by omega
                have hfit : r.buf_end < DRAM_LIMIT := by omega
                refine .inr ⟨?_, h1, ?_, hne, h3, ?_, h5, hfit⟩
                · change add32 s m.mem_size.toNat < DRAM_LIMIT
                  rw [hend hfmt]
                  exact hsz
                · change r.tgt_end = min (add32 s m.mem_size.toNat) L.prog_end
                  rw [hend hfmt]
                  exact h2
                · change r.buf_start = max L.prog_end (add32 s m.mem_size.toNat)
                  rw [hend hfmt]
                  exact h4
              · omega

/-- An accepted meta fixes the start of the image, and with it the relocation. -/
theorem platform_init_meta_relocation {L : Linked} {xz : Bool} {m : Meta} {b b' : Board}
    (h : platform_init_meta L xz m b = (true, b')) :
    imageStart L m = some b'.img_start ∧
      relocation L b'.img_start b'.img_end = some b'.reloc := by
  unfold platform_init_meta at h
  split at h
  · cases h
  split at h
  · cases h
  cases hs : imageStart L m with
  | none => simp [hs] at h
  | some s =>
      simp only [hs] at h
      cases hr : relocation L s (add32 s m.mem_size.toNat) with
      | none => simp [hr] at h
      | some r =>
          simp only [hr] at h
          split at h
          · cases h
          have hb' := (Prod.mk.inj h).2
          subst hb'
          exact ⟨rfl, hr⟩

/-- Either nothing is relocated, or the stub goes behind the buffer after a
check of where the buffer starts. -/
theorem relocation_stub {L : Linked} {s e : Nat} {r : Reloc} (h : relocation L s e = some r) :
    r = .none ∨ r.size ≠ 0 ∧ r.stub_start = add32 r.buf_end 3 / 4 * 4 ∧
      r.stub_end = add32 r.stub_start L.trampoline.length ∧
      r.buf_start < sub32 (sub32 DRAM_LIMIT r.size) L.trampoline.length := by
  simp only [relocation] at h
  generalize (if L.prog_start ≤ s ∧ s < L.prog_end ∨ s < L.prog_start ∧ L.prog_start < e then
    sub32 (min e L.prog_end) (max s L.prog_start) else 0) = size at h
  split at h
  · cases h
    exact .inl rfl
  · split at h
    · cases h
    · rename_i hne hfit
      cases h
      exact .inr ⟨hne, rfl, rfl, Nat.lt_of_not_le hfit⟩

/-! ## Where the bytes of an image are kept -/

/-- The address at which byte `o` of the image is kept until the jump. -/
def Board.slot (b : Board) (o : Nat) : Nat :=
  if b.reloc.size ≠ 0 ∧ b.reloc.tgt_start ≤ b.img_start + o ∧ b.img_start + o < b.reloc.tgt_end then
    b.reloc.buf_start + (b.img_start + o - b.reloc.tgt_start)
  else b.img_start + o

/-- The slots of `n` bytes from offset `o` on. -/
def Board.slots (b : Board) (o n : Nat) : List Nat := (List.range' o n).map b.slot

@[simp] theorem Board.slots_length (b : Board) (o n : Nat) : (b.slots o n).length = n := by
  simp [Board.slots]

@[simp] theorem Board.slots_zero (b : Board) (o : Nat) : b.slots o 0 = [] := rfl

theorem Board.slots_add (b : Board) (o j k : Nat) :
    b.slots o (j + k) = b.slots o j ++ b.slots (o + j) k := by
  simp [Board.slots, ← List.range'_append_1]

/-- The addresses of all bytes stored so far, in the order of the stream. -/
def Board.written (b : Board) : List Nat :=
  b.stored.flatMap fun s => span (2 ^ 32) s.dst s.data.length

/-- `b'` is `b` after `data` has been stored at the addresses `as`. -/
structure Stores (b b' : Board) (as : List Nat) (data : List UInt8) : Prop where
  length_eq : as.length = data.length
  written_eq : b'.written = b.written ++ as
  eq :
    b' =
      { b with
        mem := scatter b.mem as data
        feed := add32 b.feed data.length
        stored := b'.stored }

theorem Stores.refl {b : Board} (h : b.feed < 2 ^ 32) : Stores b b [] [] where
  length_eq := rfl
  written_eq := by simp
  eq := by simp [add32_eq (a := b.feed) (b := 0) h]

theorem Stores.copy (b : Board) (dst : Nat) (data : List UInt8) :
    Stores b (b.copy dst data) (span (2 ^ 32) dst data.length) data where
  length_eq := by simp
  written_eq := by simp [Board.written, Board.copy]
  eq := rfl

theorem Stores.trans {b c d : Board} {as as' : List Nat} {data data' : List UInt8}
    (h : Stores b c as data) (h' : Stores c d as' data') :
    Stores b d (as ++ as') (data ++ data') where
  length_eq := by simp [h.length_eq, h'.length_eq]
  written_eq := by rw [h'.written_eq, h.written_eq, List.append_assoc]
  eq := by
    have hfeed : add32 (add32 b.feed data.length) data'.length =
        add32 b.feed (data ++ data').length := by
      simp [add32, Nat.add_assoc]
    rw [h'.eq, h.eq, scatter_append _ h.length_eq, ← hfeed]

/-- What stays when bytes are stored. -/
theorem Stores.frame {b b' : Board} {as : List Nat} {data : List UInt8} (h : Stores b b' as data) :
    b'.META = b.META ∧ b'.reloc = b.reloc ∧ b'.img_start = b.img_start ∧ b'.img_end = b.img_end ∧
      b'.feed = add32 b.feed data.length ∧ b'.mem = scatter b.mem as data := by
  rw [h.eq]
  exact ⟨rfl, rfl, rfl, rfl, rfl, rfl⟩

theorem Stores.slot_eq {b b' : Board} {as : List Nat} {data : List UInt8}
    (h : Stores b b' as data) : b'.slot = b.slot := by
  obtain ⟨-, hr, hs, -⟩ := h.frame
  funext o
  simp only [Board.slot, hr, hs]

theorem Stores.slots_eq {b b' : Board} {as : List Nat} {data : List UInt8}
    (h : Stores b b' as data) (o n : Nat) : b'.slots o n = b.slots o n := by
  simp only [Board.slots, h.slot_eq]

/-! ## `feed_impl` -/

section Feed

variable {b : Board} {k : Nat} {data : List UInt8}

/-- The relocated range and its buffer fit the address space. -/
def Board.RelocFits (b : Board) : Prop :=
  b.reloc.size ≠ 0 → b.reloc.tgt_end < 2 ^ 32 ∧
    b.reloc.buf_start + (b.reloc.tgt_end - b.reloc.tgt_start) < 2 ^ 32

theorem slots_direct {n : Nat} (hlt : b.img_start + k + n < 2 ^ 32)
    (h : b.reloc.size ≠ 0 →
      b.img_start + k + n ≤ b.reloc.tgt_start ∨ b.reloc.tgt_end ≤ b.img_start + k) :
    b.slots k n = span (2 ^ 32) (b.img_start + k) n := by
  rw [span_eq_range' (by omega), Board.slots, List.range'_eq_map_range, List.range'_eq_map_range,
    List.map_map]
  refine List.map_congr_left fun i hi => ?_
  have hin : i < n := List.mem_range.mp hi
  simp only [Function.comp_apply, Board.slot]
  rw [if_neg (by omega)]
  omega

theorem slots_buffered {n : Nat} (hfit : b.RelocFits) (hs : b.reloc.size ≠ 0)
    (h1 : b.reloc.tgt_start ≤ b.img_start + k) (h2 : b.img_start + k + n ≤ b.reloc.tgt_end) :
    b.slots k n =
      span (2 ^ 32) (b.reloc.buf_start + (b.img_start + k - b.reloc.tgt_start)) n := by
  obtain ⟨hte, hbuf⟩ := hfit hs
  rw [span_eq_range' (by omega), Board.slots, List.range'_eq_map_range, List.range'_eq_map_range,
    List.map_map]
  refine List.map_congr_left fun i hi => ?_
  have hin : i < n := List.mem_range.mp hi
  simp only [Function.comp_apply, Board.slot]
  rw [if_pos (by omega)]
  omega

/-- The first split: what is left starts in the relocated range, or never
reaches it. -/
theorem feedBelow_stores (hfeed : b.feed = b.img_start + k)
    (hlt : b.img_start + k + data.length < 2 ^ 32) :
    ∃ n ≤ data.length, (feedBelow b data).2 = data.drop n ∧
      Stores b (feedBelow b data).1 (b.slots k n) (data.take n) ∧
      (b.reloc.size ≠ 0 → b.img_start + k + data.length ≤ b.reloc.tgt_start ∨
        b.reloc.tgt_start ≤ b.img_start + (k + n)) := by
  unfold feedBelow
  rw [hfeed, add32_eq hlt]
  split
  · rename_i hc
    obtain ⟨hs, h1, h2⟩ := hc
    refine ⟨b.reloc.tgt_start - (b.img_start + k), by omega, rfl, ?_, fun _ => .inr (by omega)⟩
    rw [slots_direct (by omega) (fun _ => .inl (by omega))]
    have := Stores.copy b (b.img_start + k) (data.take (b.reloc.tgt_start - (b.img_start + k)))
    rwa [List.length_take_of_le (by omega)] at this
  · rename_i hc
    exact ⟨0, by omega, rfl, Stores.refl (by omega), fun hs => by omega⟩

/-- The second split: what is left lies outside the relocated range. -/
theorem feedInside_stores (hfit : b.RelocFits) (hfeed : b.feed = b.img_start + k)
    (hlt : b.img_start + k + data.length < 2 ^ 32)
    (hbelow : b.reloc.size ≠ 0 → b.img_start + k + data.length ≤ b.reloc.tgt_start ∨
      b.reloc.tgt_start ≤ b.img_start + k) :
    ∃ n ≤ data.length, (feedInside b data).2 = data.drop n ∧
      Stores b (feedInside b data).1 (b.slots k n) (data.take n) ∧
      (b.reloc.size ≠ 0 → b.img_start + k + data.length ≤ b.reloc.tgt_start ∨
        b.reloc.tgt_end ≤ b.img_start + (k + n) ∨ n = data.length) := by
  unfold feedInside
  rw [hfeed]
  split
  · rename_i hc
    obtain ⟨hs, h1, h2⟩ := hc
    obtain ⟨hte, hbuf⟩ := hfit hs
    refine ⟨min (b.reloc.tgt_end - (b.img_start + k)) data.length, by omega, rfl, ?_,
      fun _ => .inr (by omega)⟩
    have hdst : add32 b.reloc.buf_start (b.img_start + k - b.reloc.tgt_start) =
        b.reloc.buf_start + (b.img_start + k - b.reloc.tgt_start) := add32_eq (by omega)
    rw [slots_buffered hfit hs h1 (by omega)]
    simp only [hdst]
    have := Stores.copy b (b.reloc.buf_start + (b.img_start + k - b.reloc.tgt_start))
      (data.take (min (b.reloc.tgt_end - (b.img_start + k)) data.length))
    rwa [List.length_take_of_le (by omega)] at this
  · rename_i hc
    exact ⟨0, by omega, rfl, Stores.refl (by omega), fun hs => by
      have := hbelow hs
      omega⟩

/-- The last piece goes where it belongs. -/
theorem feedRest_stores (hfeed : b.feed = b.img_start + k)
    (hlt : b.img_start + k + data.length < 2 ^ 32)
    (h : b.reloc.size ≠ 0 → b.img_start + k + data.length ≤ b.reloc.tgt_start ∨
      b.reloc.tgt_end ≤ b.img_start + k ∨ data = []) :
    Stores b (feedRest b data) (b.slots k data.length) data := by
  unfold feedRest
  split
  · rename_i hne
    have hdata : data ≠ [] := fun h0 => hne (by simp [h0])
    rw [hfeed, slots_direct hlt (fun hs => by simpa [hdata] using h hs)]
    exact Stores.copy b _ data
  · rename_i hne
    have hdata : data = [] := List.length_eq_zero_iff.mp (by omega)
    subst hdata
    exact Stores.refl (by omega)

/-- `feed_impl` stores each byte at its slot. -/
theorem feed_impl_stores (hfit : b.RelocFits) (hfeed : b.feed = b.img_start + k)
    (hlt : b.img_start + k + data.length < 2 ^ 32) :
    Stores b (feed_impl b data) (b.slots k data.length) data := by
  obtain ⟨i, hi, hrest, hst, hbelow⟩ := feedBelow_stores hfeed hlt
  obtain ⟨-, hr1, hs1, -, hf1, -⟩ := hst.frame
  set c := (feedBelow b data).1 with hc
  have hfeed1 : c.feed = c.img_start + (k + i) := by
    rw [hf1, hs1, hfeed, List.length_take_of_le hi, add32_eq (by omega), Nat.add_assoc]
  have hlt1 : c.img_start + (k + i) + (data.drop i).length < 2 ^ 32 := by
    rw [hs1, List.length_drop]
    omega
  have hfit1 : c.RelocFits := by rwa [Board.RelocFits, hr1]
  obtain ⟨j, hj, hrest', hst', hin⟩ := feedInside_stores hfit1 hfeed1 hlt1 (by
    rw [hr1, hs1, List.length_drop]
    omega)
  obtain ⟨-, hr2, hs2, -, hf2, -⟩ := hst'.frame
  set d := (feedInside c (data.drop i)).1 with hd
  have hfeed2 : d.feed = d.img_start + (k + i + j) := by
    rw [hf2, hs2, hfeed1, hs1, List.length_take_of_le hj, add32_eq (by
      rw [List.length_drop] at hj
      omega), Nat.add_assoc _ (k + i)]
  have hst'' : Stores d (feedRest d ((data.drop i).drop j))
      (d.slots (k + i + j) ((data.drop i).drop j).length) ((data.drop i).drop j) := by
    refine feedRest_stores hfeed2 ?_ ?_
    · rw [hs2, hs1]
      simp only [List.length_drop] at hj ⊢
      omega
    · rw [hr2, hs2, hr1, hs1]
      intro hs
      have := hin (hr1 ▸ hs)
      rw [hr1, hs1] at this
      simp only [List.length_drop, List.drop_eq_nil_iff] at this hj ⊢
      omega
  have hall := (hst.trans hst').trans hst''
  have heq : feed_impl b data = feedRest d ((data.drop i).drop j) := by
    simp only [feed_impl, ← hc, hrest, ← hd, hrest']
  have hdata : data.take i ++ (data.drop i).take j ++ (data.drop i).drop j = data := by
    rw [List.append_assoc, List.take_append_drop, List.take_append_drop]
  have hslots : b.slots k i ++ c.slots (k + i) j ++
      d.slots (k + i + j) ((data.drop i).drop j).length = b.slots k data.length := by
    have hlen : i + j + ((data.drop i).drop j).length = data.length := by
      simp only [List.length_drop] at hj ⊢
      omega
    rw [hst'.slots_eq, hst.slots_eq, hst.slots_eq, Nat.add_assoc k, ← Board.slots_add,
      ← Board.slots_add, hlen]
  rw [heq]
  rwa [hdata, hslots] at hall

/-- Pieces fed one after the other land at consecutive slots. -/
theorem foldl_feed_impl_stores (hfit : b.RelocFits) (hfeed : b.feed = b.img_start + k)
    (pieces : List (List UInt8)) (hlt : b.img_start + k + pieces.flatten.length < 2 ^ 32) :
    Stores b (pieces.foldl feed_impl b) (b.slots k pieces.flatten.length) pieces.flatten := by
  induction pieces generalizing b k with
  | nil => exact Stores.refl (by omega)
  | cons p ps ih =>
      simp only [List.flatten_cons, List.length_append] at hlt
      have hp := @feed_impl_stores _ _ p hfit hfeed (by omega)
      obtain ⟨-, hr, hs, -, hf, -⟩ := hp.frame
      have hps := ih (b := feed_impl b p) (k := k + p.length) (by rwa [Board.RelocFits, hr])
        (by rw [hf, hs, hfeed, add32_eq (by omega), Nat.add_assoc]) (by rw [hs]; omega)
      have hall := hp.trans hps
      rw [hp.slots_eq, ← Board.slots_add] at hall
      simpa using hall

/-- With nothing to relocate the bytes follow one another, modulo 2³². -/
theorem feed_impl_stores_direct (hs : b.reloc.size = 0) (hf : b.feed < 2 ^ 32) :
    Stores b (feed_impl b data) (span (2 ^ 32) b.feed data.length) data := by
  have heq : feed_impl b data = feedRest b data := by
    simp [feed_impl, feedBelow, feedInside, hs]
  rw [heq, feedRest]
  split
  · exact Stores.copy b _ data
  · rename_i hne
    have hdata : data = [] := List.length_eq_zero_iff.mp (by omega)
    subst hdata
    exact Stores.refl hf

theorem foldl_feed_impl_stores_direct (hs : b.reloc.size = 0) (hf : b.feed < 2 ^ 32)
    (pieces : List (List UInt8)) :
    Stores b (pieces.foldl feed_impl b) (span (2 ^ 32) b.feed pieces.flatten.length)
      pieces.flatten := by
  induction pieces generalizing b with
  | nil => exact Stores.refl hf
  | cons p ps ih =>
      have hp := @feed_impl_stores_direct _ p hs hf
      obtain ⟨-, hr, -, -, hf', -⟩ := hp.frame
      have hps := ih (b := feed_impl b p) (by rw [hr, hs])
        (by rw [hf']; exact Nat.mod_lt _ (by decide))
      have hall := hp.trans hps
      rw [hf', add32, span_mod, ← span_add] at hall
      simpa using hall

/-- Whatever is fed, the stores made so far stay made. -/
theorem feed_impl_keeps_written (b : Board) (data : List UInt8) :
    b.written <+: (feed_impl b data).written := by
  have hcopy : ∀ (c : Board) (dst : Nat) (d : List UInt8), c.written <+: (c.copy dst d).written :=
    fun c dst d => ⟨_, (Stores.copy c dst d).written_eq.symm⟩
  have hbelow : b.written <+: (feedBelow b data).1.written := by
    unfold feedBelow
    split
    · exact hcopy ..
    · exact List.prefix_rfl
  have hinside : ∀ (c : Board) (d : List UInt8), c.written <+: (feedInside c d).1.written := by
    intro c d
    unfold feedInside
    split
    · exact hcopy ..
    · exact List.prefix_rfl
  have hrest : ∀ (c : Board) (d : List UInt8), c.written <+: (feedRest c d).written := by
    intro c d
    unfold feedRest
    split
    · exact hcopy ..
    · exact List.prefix_rfl
  exact hbelow.trans ((hinside _ _).trans (hrest _ _))

theorem foldl_feed_impl_keeps_written (b : Board) (pieces : List (List UInt8)) :
    b.written <+: (pieces.foldl feed_impl b).written := by
  induction pieces generalizing b with
  | nil => exact List.prefix_rfl
  | cons p ps ih => exact (feed_impl_keeps_written b p).trans (ih _)

end Feed

/-! ## `platform_feed` -/

/-- What the decompressor makes of one chunk of `in_size` bytes: the pieces it
puts out, whether the loop around it returns, and the answers left. -/
def inflate (in_size : Nat) : List XzAnswer → Nat →
    List (List UInt8) × Option Bool × List XzAnswer
  | [], in_pos => ([], if in_size ≤ in_pos then some true else none, [])
  | a :: xz, in_pos =>
      if in_size ≤ in_pos then ([], some true, a :: xz)
      else
        match a.ret with
        | .XZ_OK | .XZ_STREAM_END =>
            let rest := inflate in_size xz (in_pos + a.used)
            (a.out :: rest.1, rest.2)
        | .XZ_UNSUPPORTED_CHECK => inflate in_size xz (in_pos + a.used)
        | _ => ([], some false, xz)

/-- The pieces `platform_feed` hands on when it is given the chunks of a
session, up to the first one that fails. -/
def pieces (compression_type : UInt32) : List XzAnswer → List (List UInt8) → List (List UInt8)
  | _, [] => []
  | xz, chunk :: chunks =>
      if compression_type = COMPRESS_XZ then
        let r := inflate chunk.length xz 0
        r.1 ++ if r.2.1 = some true then pieces compression_type r.2.2 chunks else []
      else chunk :: pieces compression_type xz chunks

/-- Feeds the chunks of a session, up to the first one that fails. -/
def feedChunks : Board → List (List UInt8) → Board
  | b, [] => b
  | b, chunk :: chunks =>
      let r := platform_feed chunk b
      if r.1 = some true then feedChunks r.2 chunks else r.2

@[simp] theorem Board.withXz_META (b : Board) (xz : List XzAnswer) :
    (b.withXz xz).META = b.META := rfl

@[simp] theorem Board.withXz_xz (b : Board) (xz : List XzAnswer) : (b.withXz xz).xz = xz := rfl

@[simp] theorem Board.withXz_withXz (b : Board) (xz xz' : List XzAnswer) :
    (b.withXz xz).withXz xz' = b.withXz xz' := rfl

@[simp] theorem Board.withXz_reloc (b : Board) (xz : List XzAnswer) :
    (b.withXz xz).reloc = b.reloc := rfl

@[simp] theorem Board.withXz_feed (b : Board) (xz : List XzAnswer) :
    (b.withXz xz).feed = b.feed := rfl

@[simp] theorem Board.withXz_copy (b : Board) (xz : List XzAnswer) (dst : Nat)
    (data : List UInt8) : (b.withXz xz).copy dst data = (b.copy dst data).withXz xz := rfl

/-- The answers to come do not matter to `feed_impl`. -/
theorem feed_impl_withXz (b : Board) (xz : List XzAnswer) (data : List UInt8) :
    feed_impl (b.withXz xz) data = (feed_impl b data).withXz xz := by
  have hbelow : feedBelow (b.withXz xz) data =
      ((feedBelow b data).1.withXz xz, (feedBelow b data).2) := by
    unfold feedBelow
    by_cases hc : b.reloc.size ≠ 0 ∧ b.feed < b.reloc.tgt_start ∧
        b.reloc.tgt_start < add32 b.feed data.length <;> simp [hc]
  have hinside : ∀ (c : Board) (d : List UInt8), feedInside (c.withXz xz) d =
      ((feedInside c d).1.withXz xz, (feedInside c d).2) := by
    intro c d
    unfold feedInside
    by_cases hc : c.reloc.size ≠ 0 ∧ c.reloc.tgt_start ≤ c.feed ∧ c.feed < c.reloc.tgt_end <;>
      simp [hc]
  have hrest : ∀ (c : Board) (d : List UInt8),
      feedRest (c.withXz xz) d = (feedRest c d).withXz xz := by
    intro c d
    unfold feedRest
    by_cases hc : d.length = 0 <;> simp [hc]
  simp only [feed_impl, hbelow, hinside, hrest]

theorem foldl_feed_impl_withXz (b : Board) (xz : List XzAnswer) (ps : List (List UInt8)) :
    ps.foldl feed_impl (b.withXz xz) = (ps.foldl feed_impl b).withXz xz := by
  induction ps generalizing b with
  | nil => rfl
  | cons p ps ih => simp only [List.foldl_cons, feed_impl_withXz, ih]

/-- `b'` differs from `b` at most in the memory, `feed` and the record of stores. -/
def SameImage (b b' : Board) : Prop :=
  b'.META = b.META ∧ b'.reloc = b.reloc ∧ b'.img_start = b.img_start ∧ b'.img_end = b.img_end ∧
    b'.xz = b.xz

theorem SameImage.trans {b c d : Board} (h : SameImage b c) (h' : SameImage c d) :
    SameImage b d := by
  obtain ⟨h1, h2, h3, h4, h5⟩ := h
  obtain ⟨h1', h2', h3', h4', h5'⟩ := h'
  exact ⟨h1'.trans h1, h2'.trans h2, h3'.trans h3, h4'.trans h4, h5'.trans h5⟩

theorem feed_impl_sameImage (b : Board) (data : List UInt8) : SameImage b (feed_impl b data) := by
  have hbelow : SameImage b (feedBelow b data).1 := by
    unfold feedBelow
    split <;> exact ⟨rfl, rfl, rfl, rfl, rfl⟩
  have hinside : ∀ (c : Board) (d : List UInt8), SameImage c (feedInside c d).1 := by
    intro c d
    unfold feedInside
    split <;> exact ⟨rfl, rfl, rfl, rfl, rfl⟩
  have hrest : ∀ (c : Board) (d : List UInt8), SameImage c (feedRest c d) := by
    intro c d
    unfold feedRest
    split <;> exact ⟨rfl, rfl, rfl, rfl, rfl⟩
  exact hbelow.trans ((hinside _ _).trans (hrest _ _))

theorem foldl_feed_impl_sameImage (b : Board) (ps : List (List UInt8)) :
    SameImage b (ps.foldl feed_impl b) := by
  induction ps generalizing b with
  | nil => exact ⟨rfl, rfl, rfl, rfl, rfl⟩
  | cons p ps ih => exact (feed_impl_sameImage b p).trans (ih _)

/-- The loop around the decompressor feeds what the decompressor puts out. -/
theorem xzLoop_eq (in_size : Nat) (xz : List XzAnswer) (in_pos : Nat) (b : Board) :
    xzLoop in_size xz in_pos b =
      ((inflate in_size xz in_pos).2.1,
        ((inflate in_size xz in_pos).1.foldl feed_impl b).withXz (inflate in_size xz in_pos).2.2) := by
  induction xz generalizing in_pos b with
  | nil => rfl
  | cons a xz ih =>
      simp only [xzLoop, inflate]
      split
      · rfl
      · cases a.ret <;> simp only [ih, List.foldl_cons, List.foldl_nil]

/-- Feeding the chunks of a session is feeding the pieces they amount to. -/
theorem feedChunks_eq (b : Board) (chunks : List (List UInt8)) :
    ∃ xz, feedChunks b chunks =
      ((pieces b.META.compression_type b.xz chunks).foldl feed_impl b).withXz xz := by
  induction chunks generalizing b with
  | nil => exact ⟨b.xz, rfl⟩
  | cons chunk chunks ih =>
      simp only [feedChunks, pieces, platform_feed]
      by_cases hc : b.META.compression_type = COMPRESS_XZ
      · simp only [if_pos hc, xzLoop_eq]
        by_cases hret : (inflate chunk.length b.xz 0).2.1 = some true
        · obtain ⟨xz, hih⟩ := ih (((inflate chunk.length b.xz 0).1.foldl feed_impl b).withXz
            (inflate chunk.length b.xz 0).2.2)
          refine ⟨xz, ?_⟩
          rw [if_pos hret, if_pos hret, hih, foldl_feed_impl_withXz, List.foldl_append]
          simp only [Board.withXz_META, Board.withXz_xz, Board.withXz_withXz,
            (foldl_feed_impl_sameImage b _).1]
        · exact ⟨(inflate chunk.length b.xz 0).2.2, by
            rw [if_neg hret, if_neg hret, List.append_nil]⟩
      · obtain ⟨xz, hih⟩ := ih (feed_impl b chunk)
        obtain ⟨hM, -, -, -, hX⟩ := feed_impl_sameImage b chunk
        refine ⟨xz, ?_⟩
        simp only [if_neg hc, if_true, hih, hM, hX, List.foldl_cons]

/-! ## Slots of a placed image -/

section Placed

variable {L : Linked} {m : Meta} {b : Board}

theorem Board.Placed.img_end_flat (h : b.Placed L m) (hflat : m.image_format = IMAGE_FLAT_BINARY) :
    b.img_end = b.img_start + m.mem_size.toNat ∧ b.img_end < DRAM_LIMIT := by
  have hD : DRAM_LIMIT = 0x20000000 := rfl
  obtain ⟨-, hlt⟩ | ⟨helf, -⟩ := h.format
  · have := h.img_end_eq
    rw [add32_eq (by omega)] at this
    exact ⟨this, by omega⟩
  · rw [hflat] at helf
    cases helf

theorem Board.Placed.relocFits (h : b.Placed L m) : b.RelocFits := by
  intro hs
  have hD : DRAM_LIMIT = 0x20000000 := rfl
  have hf := L.prog_fits
  obtain ⟨h0, -⟩ | h := h.place
  · exact absurd h0 hs
  · have := h.tgt_end_eq
    have := h.buf_end_eq
    have := h.buf_lt
    have := h.size_eq
    omega

/-- A byte of the image is kept in place unless the loader is there. -/
theorem Board.Placed.slot_eq (h : b.Placed L m) {o : Nat} (ho : b.img_start + o < b.img_end) :
    b.slot o =
      if L.prog_start ≤ b.img_start + o ∧ b.img_start + o < L.prog_end then
        b.reloc.buf_start + (b.img_start + o - b.reloc.tgt_start)
      else b.img_start + o := by
  unfold Board.slot
  obtain ⟨h0, -, hdis⟩ | hr := h.place
  · rw [if_neg (by omega), if_neg (hdis _ (by omega) ho)]
  · have h1 := hr.tgt_start_eq
    have h2 := hr.tgt_end_eq
    have h3 := hr.size_eq
    have h4 := hr.tgt_lt
    congr 1
    apply propext
    omega

/-- Slots of different bytes differ, and none is inside the loader. -/
theorem Board.Placed.slot_inj (h : b.Placed L m) {o o' : Nat} (ho : b.img_start + o < b.img_end)
    (ho' : b.img_start + o' < b.img_end) (heq : b.slot o = b.slot o') : o = o' := by
  unfold Board.slot at heq
  obtain ⟨h0, -⟩ | hr := h.place
  · rw [if_neg (by omega), if_neg (by omega)] at heq
    omega
  · have h1 := hr.tgt_start_eq
    have h2 := hr.tgt_end_eq
    have h3 := hr.buf_start_eq
    split at heq <;> split at heq <;> omega

theorem Board.Placed.slot_outside (h : b.Placed L m) {o : Nat}
    (ho : b.img_start + o < b.img_end) : ¬(L.prog_start ≤ b.slot o ∧ b.slot o < L.prog_end) := by
  rw [h.slot_eq ho]
  obtain ⟨h0, -, hdis⟩ | hr := h.place
  · rw [if_neg (hdis _ (by omega) ho)]
    exact hdis _ (by omega) ho
  · have h1 := hr.tgt_start_eq
    have h3 := hr.buf_start_eq
    split <;> omega

theorem Board.Placed.slots_nodup (h : b.Placed L m) {n : Nat} (hn : b.img_start + n ≤ b.img_end) :
    (b.slots 0 n).Nodup := by
  refine List.Nodup.map_on (fun o ho o' ho' heq => ?_) List.nodup_range'
  simp only [List.mem_range'_1] at ho ho'
  exact h.slot_inj (by omega) (by omega) heq

end Placed

end Bcm2835.Pup

import Bcm2835.Lib.Blocks
import Bcm2835.Pup.ElfTrampoline
import Bcm2835.Pup.Theorems.ElfTrust

/-!
# What the ELF stub does

`writeBoot_stored` says what the loader leaves at the place of the stub,
`op_loop_runs` that the stub carries out the operations it finds there, one
after the other, and `stub_runs` what its whole run does to memory.
-/

namespace Bcm2835.Pup

open Arm Mem Bytes

/-! ## What the loader has stored -/

/-- One of several parts of equal length. -/
theorem flatMap_part {f : Nat → List UInt8} {k n i : Nat} (hf : ∀ i, (f i).length = k) (hi : i < n) :
    (((List.range n).flatMap f).drop (k * i)).take k = f i := by
  have hlen : ∀ n, ((List.range n).flatMap f).length = k * n := by
    intro n
    induction n with
    | zero => rfl
    | succ n ih => rw [List.range_succ, List.flatMap_append, List.length_append, ih,
        List.flatMap_singleton, hf, Nat.mul_succ]
  induction n with
  | zero => omega
  | succ n ih =>
      rw [List.range_succ, List.flatMap_append, List.flatMap_singleton]
      by_cases hlast : i = n
      · subst hlast
        rw [List.drop_left' (hlen i), List.take_of_length_le (Nat.le_of_eq (hf i))]
      · have hroom : k * i + k ≤ k * n := by
          rw [← Nat.mul_succ]
          exact Nat.mul_le_mul_left k (by omega)
        rw [List.drop_append_of_le_length (by rw [hlen]; omega),
          List.take_append_of_le_length (by rw [List.length_drop, hlen]; omega)]
        exact ih (by omega)

theorem LoaderOp.bytes_length (op : LoaderOp) : op.bytes.length = 16 := by
  cases op <;> simp [LoaderOp.bytes]

/-- The parameter block that the operations, the old place and the entry point of the file make up
with the placement. -/
structure BlockStored (m : Memory) (params : Nat) (ops : LoaderOps) (img_start entry : Nat)
    (p : Placement) : Prop where
  records : ∀ i < ELF_MAX_SEGMENTS, read m (params + 16 * i) 16 = (ops.loader_ops i).bytes
  counts : read m (params + 256) 8 = leBytes 4 ops.op_count ++ leBytes 4 img_start
  args : read m (params + 264) 12 = leBytes 4 entry ++ leBytes 4 p.elf_alloc ++ leBytes 4 p.elf_size

theorem BlockStored.congr {m m' : Memory} {params img_start entry : Nat} {ops : LoaderOps}
    {p : Placement} (h : BlockStored m params ops img_start entry p)
    (hsame : ∀ x, params ≤ x → x < params + 280 → m' x = m x) :
    BlockStored m' params ops img_start entry p := by
  have hread : ∀ o n, o + n ≤ 280 → read m' (params + o) n = read m (params + o) n := by
    intro o n hn
    exact Mem.read_congr fun i hi => hsame _ (by omega) (by omega)
  refine ⟨fun i hi => ?_, ?_, ?_⟩
  · have hi' : i < 16 := hi
    rw [hread _ _ (by omega), h.records i hi]
  · rw [hread _ _ (by decide), h.counts]
  · rw [hread _ _ (by decide), h.args]

/-- Two words next to each other. -/
theorem words_of_read {m : Memory} {a x : Nat} {b : List UInt8}
    (h : read m a (4 + b.length) = leBytes 4 x ++ b) (hx : x < 2 ^ 32) :
    field m a 4 = x ∧ read m (a + 4) b.length = b := by
  rw [read_add] at h
  obtain ⟨hfirst, hrest⟩ := List.append_inj h (by simp)
  refine ⟨?_, hrest⟩
  rw [field, hfirst, ofLe_leBytes]
  exact Nat.mod_eq_of_lt hx

/-- The last word. -/
theorem word_of_read {m : Memory} {a x : Nat} (h : read m a 4 = leBytes 4 x) (hx : x < 2 ^ 32) :
    field m a 4 = x := by
  rw [field, h, ofLe_leBytes]
  exact Nat.mod_eq_of_lt hx

/-- The memory `m'` holds the stub of a placement. -/
structure StubStored (L : Linked) (m' : Memory) (ops : LoaderOps) (img_start entry : Nat)
    (p : Placement) : Prop
    extends BlockStored m' (p.boot_alloc + L.elf_trampoline_params) ops img_start entry p where
  code : ∀ o n, o + n ≤ L.elf_trampoline_params →
    read m' (p.boot_alloc + o) n = (L.elf_trampoline.drop o).take n

theorem writeBoot_stored {L : Linked} (m : Memory) (ops : LoaderOps) (img_start : Nat)
    {cmdline : List UInt8} {p : Placement}
    (hsize : p.boot_size = L.elf_trampoline.length + cmdline.length)
    (hfit : p.boot_alloc + p.boot_size ≤ 2 ^ 32) :
    (∃ entry < 2 ^ 32, StubStored L (writeBoot L m ops img_start cmdline p) ops img_start entry p ∧
      ((∀ i < 46, img_start + i < p.boot_alloc ∨ p.boot_alloc + p.boot_size ≤ img_start + i) →
        entry = (Elf32_Ehdr.at m img_start).e_entry)) ∧
      ∀ x, x < p.boot_alloc ∨ p.boot_alloc + p.boot_size ≤ x →
        writeBoot L m ops img_start cmdline p x = m x := by
  have hlast := L.params_last
  have hparams : add32 p.boot_alloc L.elf_trampoline_params =
      p.boot_alloc + L.elf_trampoline_params := add32_eq (by omega)
  have hcounts : add32 (p.boot_alloc + L.elf_trampoline_params) 256 =
      p.boot_alloc + L.elf_trampoline_params + 256 := add32_eq (by omega)
  have hargs : add32 (p.boot_alloc + L.elf_trampoline_params) 264 =
      p.boot_alloc + L.elf_trampoline_params + 264 := add32_eq (by omega)
  unfold writeBoot
  simp only [hparams, hcounts, hargs]
  generalize hbs : ((List.range ELF_MAX_SEGMENTS).flatMap fun i => (ops.loader_ops i).bytes) = bs
  have hbslen : bs.length = 256 := by
    rw [← hbs]
    simp [LoaderOp.bytes_length, ELF_MAX_SEGMENTS]
  generalize hm₁ : write (2 ^ 32) m p.boot_alloc L.elf_trampoline = m₁
  generalize hm₂ : write (2 ^ 32) m₁ (p.boot_alloc + L.elf_trampoline_params) bs = m₂
  generalize hm₃ : write (2 ^ 32) m₂ (p.boot_alloc + L.elf_trampoline_params + 256)
    (leBytes 4 ops.op_count ++ leBytes 4 img_start) = m₃
  generalize hentry : (Elf32_Ehdr.at m₃ img_start).e_entry = entry
  have hentrylt : entry < 2 ^ 32 := by
    rw [← hentry]
    exact Nat.lt_of_lt_of_le (ofLe_lt _) (by simp)
  generalize htail : leBytes 4 entry ++ leBytes 4 p.elf_alloc ++ leBytes 4 p.elf_size ++
    leBytes 4 cmdline.length ++ cmdline = tail
  have htaillen : tail.length = 16 + cmdline.length := by
    rw [← htail]
    simp
    omega
  -- what is stored later lies behind
  have hlater : ∀ a n, a + n ≤ p.boot_alloc + L.elf_trampoline_params + 264 →
      read (write (2 ^ 32) m₃ (p.boot_alloc + L.elf_trampoline_params + 264) tail) a n =
        read m₃ a n := fun a n h => read_write_of_apart _ (by omega) (.inl h)
  have hlater₃ : ∀ a n, a + n ≤ p.boot_alloc + L.elf_trampoline_params + 256 →
      read m₃ a n = read m₂ a n := by
    intro a n h
    rw [← hm₃]
    exact read_write_of_apart _ (by simp; omega) (.inl h)
  have hlater₂ : ∀ a n, a + n ≤ p.boot_alloc + L.elf_trampoline_params → read m₂ a n = read m₁ a n := by
    intro a n h
    rw [← hm₂]
    exact read_write_of_apart _ (by omega) (.inl h)
  have houtside : ∀ x, x < p.boot_alloc ∨ p.boot_alloc + p.boot_size ≤ x → m₃ x = m x := by
    intro x hx
    rw [← hm₃, write_of_outside _ (by simp; omega) (by simp; omega), ← hm₂,
      write_of_outside _ (by omega) (by omega), ← hm₁, write_of_outside _ (by omega) (by omega)]
  refine ⟨⟨entry, hentrylt, ⟨⟨?_, ?_, ?_⟩, ?_⟩, fun hout => ?_⟩, fun x hx => ?_⟩
  · intro i hi
    have hi : i < 16 := hi
    rw [hlater _ _ (by omega), hlater₃ _ _ (by omega), ← hm₂, read_write_part _ (by omega) (by omega),
      ← hbs]
    exact flatMap_part (fun i => LoaderOp.bytes_length _) hi
  · rw [hlater _ _ (by omega), ← hm₃]
    have hread := read_write (N := 2 ^ 32) (a := p.boot_alloc + L.elf_trampoline_params + 256)
      (b := leBytes 4 ops.op_count ++ leBytes 4 img_start) m₂ (by simp; omega)
    rwa [List.length_append, leBytes_length, leBytes_length] at hread
  · have hread := read_write_part (N := 2 ^ 32) (a := p.boot_alloc + L.elf_trampoline_params + 264)
      (o := 0) (n := 12) (b := tail) m₃ (by omega) (by omega)
    rw [Nat.add_zero] at hread
    rw [hread, ← htail, List.drop_zero, List.append_assoc _ (leBytes 4 cmdline.length) cmdline]
    exact List.take_left' (by simp)
  · intro o n h
    rw [hlater _ _ (by omega), hlater₃ _ _ (by omega), hlater₂ _ _ (by omega), ← hm₁]
    exact read_write_part _ (by omega) (by omega)
  · rw [← hentry]
    exact congrArg Elf32_Ehdr.e_entry (ehdr_congr fun i hi => houtside _ (hout i hi))
  · rw [write_of_outside _ (by omega) (by omega), houtside x hx]

/-! ## What the operations are for -/

/-- What an operation makes of the memory. -/
def LoaderOp.run (m : Memory) : LoaderOp → Memory
  | .copy dst src size => move m dst src size
  | .zero dst size fill => Mem.fill m dst size (.ofNat fill)

section Loads

variable {m : Memory}

theorem LoaderOp.run_outside {o : LoaderOp} {x : Nat} (hx : x < o.dst ∨ o.dst + o.size ≤ x) :
    o.run m x = m x := by
  cases o with
  | copy dst src size => exact move_outside hx
  | zero dst size fill => exact fill_outside hx

theorem runs_outside {ops : List LoaderOp} {x : Nat}
    (hx : ∀ op ∈ ops, x < op.dst ∨ op.dst + op.size ≤ x) : ops.foldl LoaderOp.run m x = m x := by
  induction ops generalizing m with
  | nil => rfl
  | cons op ops ih =>
      rw [List.foldl_cons, ih fun o ho => hx o (List.mem_cons_of_mem _ ho)]
      exact LoaderOp.run_outside (hx op List.mem_cons_self)

/-- A segment of a file at `elf_alloc` that has room. -/
structure SegmentFits (elf_alloc elf_size : Nat) (phdr : Elf32_Phdr) : Prop where
  file : phdr.p_offset + phdr.p_filesz ≤ elf_size
  filesz : phdr.p_filesz ≤ phdr.p_memsz
  memory : phdr.p_vaddr + phdr.p_memsz ≤ 2 ^ 32

variable {elf_alloc elf_size : Nat} {phdr : Elf32_Phdr}

/-- Where the two operations of a segment store. -/
theorem segmentOps_dst (h : SegmentFits elf_alloc elf_size phdr) {op : LoaderOp}
    (hop : op ∈ segmentOps elf_alloc phdr) :
    phdr.p_vaddr ≤ op.dst ∧ op.dst + op.size ≤ phdr.p_vaddr + phdr.p_memsz := by
  have hfilesz := h.filesz
  have hmemory := h.memory
  unfold segmentOps at hop
  rcases List.mem_append.mp hop with hop | hop
  · split at hop
    · obtain rfl := List.mem_singleton.mp hop
      show phdr.p_vaddr ≤ phdr.p_vaddr ∧ phdr.p_vaddr + phdr.p_filesz ≤ _
      omega
    · cases hop
  · split at hop
    · obtain rfl := List.mem_singleton.mp hop
      show phdr.p_vaddr ≤ add32 phdr.p_vaddr phdr.p_filesz ∧
        add32 phdr.p_vaddr phdr.p_filesz + (phdr.p_memsz - phdr.p_filesz) ≤ _
      rw [add32_eq (by omega)]
      omega
    · cases hop

/-- Where the copy of a segment comes from. -/
theorem segmentOps_src (h : SegmentFits elf_alloc elf_size phdr) (helf : elf_alloc + elf_size ≤ 2 ^ 32)
    {dst src size : Nat} (hop : .copy dst src size ∈ segmentOps elf_alloc phdr) :
    elf_alloc ≤ src ∧ src + size ≤ elf_alloc + elf_size := by
  have hfile := h.file
  unfold segmentOps at hop
  rcases List.mem_append.mp hop with hop | hop
  · split at hop
    · have heq := List.mem_singleton.mp hop
      injection heq with h1 h2 h3
      rw [h2, h3, add32_eq (by omega)]
      omega
    · cases hop
  · split at hop
    · cases List.mem_singleton.mp hop
    · cases hop

/-- The operations of a segment fill it: its part of the file, and zeros behind it. -/
theorem segmentOps_run (h : SegmentFits elf_alloc elf_size phdr)
    (helf : elf_alloc + elf_size ≤ 2 ^ 32) :
    (∀ i < phdr.p_filesz, (segmentOps elf_alloc phdr).foldl LoaderOp.run m (phdr.p_vaddr + i) =
        m (elf_alloc + phdr.p_offset + i)) ∧
      ∀ i, phdr.p_filesz ≤ i → i < phdr.p_memsz →
        (segmentOps elf_alloc phdr).foldl LoaderOp.run m (phdr.p_vaddr + i) = 0 := by
  have hfile := h.file
  have hfilesz := h.filesz
  have hmemory := h.memory
  unfold segmentOps
  rw [List.foldl_append]
  generalize hcopied : (if 0 < phdr.p_filesz then
    [LoaderOp.copy phdr.p_vaddr (add32 elf_alloc phdr.p_offset) phdr.p_filesz] else []).foldl
      LoaderOp.run m = m'
  have hcopy : ∀ i < phdr.p_filesz, m' (phdr.p_vaddr + i) = m (elf_alloc + phdr.p_offset + i) := by
    intro i hi
    rw [← hcopied, if_pos (by omega), add32_eq (by omega)]
    exact move_at hi
  by_cases hlt : phdr.p_filesz < phdr.p_memsz
  · rw [if_pos hlt, add32_eq (by omega)]
    constructor
    · intro i hi
      rw [List.foldl_cons, List.foldl_nil, ← hcopy i hi]
      exact LoaderOp.run_outside (.inl (show phdr.p_vaddr + i < phdr.p_vaddr + phdr.p_filesz by omega))
    · intro i hlo hhi
      obtain ⟨k, rfl⟩ := Nat.exists_eq_add_of_le hlo
      rw [← Nat.add_assoc]
      exact fill_at (show k < phdr.p_memsz - phdr.p_filesz by omega)
  · rw [if_neg hlt]
    exact ⟨hcopy, fun i hlo hhi => by omega⟩

/-- All segments are filled if they keep clear of each other and of the file. -/
theorem segments_run {phdrs : List Elf32_Phdr}
    (hfits : ∀ phdr ∈ phdrs, SegmentFits elf_alloc elf_size phdr)
    (helf : elf_alloc + elf_size ≤ 2 ^ 32)
    (hapart : phdrs.Pairwise fun a b => FirstFit.Apart a.range b.range)
    (hfile : ∀ phdr ∈ phdrs, FirstFit.Apart ⟨elf_alloc, elf_alloc + elf_size⟩ phdr.range) :
    ∀ phdr ∈ phdrs,
      (∀ i < phdr.p_filesz,
        (phdrs.flatMap (segmentOps elf_alloc)).foldl LoaderOp.run m (phdr.p_vaddr + i) =
          m (elf_alloc + phdr.p_offset + i)) ∧
      ∀ i, phdr.p_filesz ≤ i → i < phdr.p_memsz →
        (phdrs.flatMap (segmentOps elf_alloc)).foldl LoaderOp.run m (phdr.p_vaddr + i) = 0 := by
  induction phdrs generalizing m with
  | nil => intro phdr hphdr; cases hphdr
  | cons first rest ih =>
      obtain ⟨hfirst, hrest⟩ := List.pairwise_cons.mp hapart
      have hfits₀ := hfits first List.mem_cons_self
      have hrun := segmentOps_run (m := m) hfits₀ helf
      intro phdr hphdr
      rw [List.flatMap_cons, List.foldl_append]
      rcases List.mem_cons.mp hphdr with rfl | hphdr
      · -- the later segments leave this one alone
        have hkept : ∀ i < phdr.p_memsz, ∀ m' : Memory,
            (rest.flatMap (segmentOps elf_alloc)).foldl LoaderOp.run m' (phdr.p_vaddr + i) =
              m' (phdr.p_vaddr + i) := by
          intro i hi m'
          refine runs_outside fun op hop => ?_
          obtain ⟨other, hother, hop⟩ := List.mem_flatMap.mp hop
          obtain ⟨hlo, hup⟩ := segmentOps_dst (hfits other (List.mem_cons_of_mem _ hother)) hop
          have hclear := hfirst other hother (phdr.p_vaddr + i)
          simp only [Elf32_Phdr.range] at hclear
          omega
        have hfilesz := hfits₀.filesz
        exact ⟨fun i hi => (hkept i (by omega) _).trans (hrun.1 i hi),
          fun i hlo hhi => (hkept i hhi _).trans (hrun.2 i hlo hhi)⟩
      · obtain ⟨hcopied, hzero⟩ := ih (m := (segmentOps elf_alloc first).foldl LoaderOp.run m)
          (fun p hp => hfits p (List.mem_cons_of_mem _ hp)) hrest
          (fun p hp => hfile p (List.mem_cons_of_mem _ hp)) phdr hphdr
        refine ⟨fun i hi => (hcopied i hi).trans ?_, hzero⟩
        -- and this one leaves the file alone
        have hinside := (hfits phdr (List.mem_cons_of_mem _ hphdr)).file
        refine runs_outside fun op hop => ?_
        obtain ⟨hlo, hup⟩ := segmentOps_dst hfits₀ hop
        have hclear := hfile first List.mem_cons_self (elf_alloc + phdr.p_offset + i)
        simp only [Elf32_Phdr.range] at hclear
        omega

end Loads

/-! ## `printx` -/

section Print

variable {w : Waits} {x : Nat} {c : Cpu}

/-- An access to the UART. -/
def OnUart (a : Access) : Prop :=
  a = .load (muart_base + muart_stat) ∨ a = .store (muart_base + muart_io)

theorem putc_log : ∃ l, (putc w c).log = c.log ++ l ∧ ∀ a ∈ l, OnUart a := by
  refine ⟨_, rfl, fun a ha => ?_⟩
  rcases List.mem_append.mp ha with ha | ha
  · exact .inl (List.eq_of_mem_replicate ha)
  · exact .inr (List.mem_singleton.mp ha)

theorem Words.putc (h : Words c) : Words (putc w c) :=
  (h.set .r1 (by decide)).set .r2 (Nat.two_pow_pos 32)

theorem Words.loadByte (h : Words c) (d n : Reg) : Words (loadByte c d n) :=
  (h.set d (Nat.lt_trans (UInt8.toNat_lt _) (by decide))).set n (Nat.mod_lt _ (by decide))

theorem putc_reg {r : Reg} (h1 : r ≠ .r1) (h2 : r ≠ .r2) : (putc w c).reg r = c.reg r := by
  simp [putc, Function.update_of_ne h1, Function.update_of_ne h2]

/-- A plain text is printed to its end, and the loop is over. -/
theorem printxLoop_text {t : List UInt8} (hplain : ∀ ch ∈ t, ch ≠ 0 ∧ ch ≠ 0x25)
    (hfit : c.reg .r3 + t.length < 2 ^ 32)
    (htext : read c.mem (c.reg .r3) (t.length + 1) = t ++ [0]) :
    ∃ c', printxLoop w x (t.length + 1) c = c' ∧ c'.pc = c.pc ∧ c'.mem = c.mem ∧
      (∀ r, r ≠ .r0 → r ≠ .r1 → r ≠ .r2 → r ≠ .r3 → c'.reg r = c.reg r) ∧ (Words c → Words c') ∧
      ∃ l, c'.log = c.log ++ l ∧ ∀ a ∈ l, OnUart a := by
  induction t generalizing c with
  | nil =>
      have hzero : c.mem (c.reg .r3) = 0 := by
        have hhead := congrArg List.head? htext
        simpa [Mem.read, Buf.taken] using hhead
      refine ⟨loadByte c .r0 .r3, ?_, rfl, rfl, fun r h0 _ _ h3 => ?_, fun h => h.loadByte _ _, [],
        (List.append_nil _).symm, ?_⟩
      · show (if (loadByte c .r0 .r3).reg .r0 = 0 then _ else _) = _
        rw [if_pos (by simp [loadByte, hzero])]
      · simp [loadByte, Function.update_of_ne h0, Function.update_of_ne h3]
      · intro a ha
        cases ha
  | cons ch t ih =>
      have hlen : (ch :: t).length + 1 = 1 + (t.length + 1) := by
        rw [List.length_cons, Nat.add_comm]
      rw [hlen, read_add] at htext
      obtain ⟨hhead, hrest⟩ := List.append_inj (show _ = [ch] ++ (t ++ [0]) from htext) (by simp)
      have hch : c.mem (c.reg .r3) = ch := by simpa [Mem.read, Buf.taken] using hhead
      obtain ⟨hne0, hne25⟩ := hplain ch List.mem_cons_self
      have hr0 : (loadByte c .r0 .r3).reg .r0 = ch.toNat := by simp [loadByte, hch]
      have hnot0 : (loadByte c .r0 .r3).reg .r0 ≠ 0 := by
        rw [hr0]
        exact fun h => hne0 (UInt8.toNat_inj.mp h)
      have hnot25 : (loadByte c .r0 .r3).reg .r0 ≠ 0x25 := by
        rw [hr0]
        exact fun h => hne25 (UInt8.toNat_inj.mp h)
      have hr3 : (putc w (loadByte c .r0 .r3)).reg .r3 = c.reg .r3 + 1 := by
        rw [List.length_cons] at hfit
        rw [putc_reg (by decide) (by decide)]
        simpa [loadByte] using Nat.mod_eq_of_lt (show c.reg .r3 + 1 < 2 ^ 32 by omega)
      obtain ⟨c', hloop, hpc, hmem, hreg, hwords, l, hlog, huart⟩ :=
        ih (c := putc w (loadByte c .r0 .r3)) (fun x hx => hplain x (List.mem_cons_of_mem _ hx))
          (by rw [hr3]; rw [List.length_cons] at hfit; omega) (by rw [hr3]; exact hrest)
      obtain ⟨l', hlog', huart'⟩ := putc_log (w := w) (c := loadByte c .r0 .r3)
      refine ⟨c', ?_, hpc, hmem, fun r h0 h1 h2 h3 => ?_, fun h => hwords (h.loadByte _ _).putc,
        l' ++ l, ?_, fun a ha => ?_⟩
      · rw [← hloop]
        show (if (loadByte c .r0 .r3).reg .r0 = 0 then _ else
          if (loadByte c .r0 .r3).reg .r0 = 0x25 then _ else _) = _
        rw [if_neg hnot0, if_neg hnot25]
        rfl
      · rw [hreg r h0 h1 h2 h3, putc_reg h1 h2]
        simp [loadByte, Function.update_of_ne h0, Function.update_of_ne h3]
      · rw [hlog, hlog', List.append_assoc]
        rfl
      · rcases List.mem_append.mp ha with ha | ha
        · exact huart' a ha
        · exact huart a ha

/-- A plain text is printed, with the return address on the stack meanwhile. -/
theorem printx_text {t : List UInt8} {r : Nat} (hplain : ∀ ch ∈ t, ch ≠ 0 ∧ ch ≠ 0x25)
    (hfit : c.reg .r0 + t.length < 2 ^ 32) (hlo : 4 ≤ c.reg .sp) (hhi : c.reg .sp < 2 ^ 32)
    (htext : read (write (2 ^ 32) c.mem (c.reg .sp - 4) (leBytes 4 r)) (c.reg .r0) (t.length + 1) =
      t ++ [0])
    (hret : r < 2 ^ 32) (hwords : Words c) :
    ∃ c', printx w x r (t.length + 1) c = c' ∧ c'.pc = c.pc ∧
      c'.mem = write (2 ^ 32) c.mem (c.reg .sp - 4) (leBytes 4 r) ∧ c'.reg .sp = c.reg .sp ∧
      Words c' ∧ ∃ l, c'.log = c.log ++ l ∧
        ∀ a ∈ l, OnUart a ∨ a = .load (c.reg .sp - 4) ∨ a = .store (c.reg .sp - 4) := by
  have hsp : (c.reg .sp + 2 ^ 32 - 4) % 2 ^ 32 = c.reg .sp - 4 := by omega
  let c₁ := ((c.set .lr r).store .lr (c.reg .sp - 4)).set .sp (c.reg .sp - 4)
  let c₂ := (c₁.set .r3 (c₁.reg .r0)).set .r5 0
  have hmem : c₂.mem = write (2 ^ 32) c.mem (c.reg .sp - 4) (leBytes 4 r) := by
    simp [c₂, c₁, Cpu.store_mem]
  have hr3 : c₂.reg .r3 = c.reg .r0 := by simp [c₂, c₁]
  have hsp₂ : c₂.reg .sp = c.reg .sp - 4 := by simp [c₂, c₁]
  have hwords₁ : Words c₁ := (hwords.set .lr hret).set .sp (by omega)
  have hwords₂ : Words c₂ := (hwords₁.set .r3 (hwords₁ .r0)).set .r5 (Nat.two_pow_pos 32)
  obtain ⟨c', hloop, hpc, hmem', hreg, hwords', l, hlog, huart⟩ :=
    printxLoop_text (w := w) (x := x) (c := c₂) hplain (by rw [hr3]; exact hfit)
      (by rw [hr3, hmem]; exact htext)
  have hsp' : c'.reg .sp = c.reg .sp - 4 :=
    (hreg .sp (by decide) (by decide) (by decide) (by decide)).trans hsp₂
  refine ⟨{ c'.set .sp ((c'.reg .sp + 4) % 2 ^ 32) with log := c'.log ++ [.load (c'.reg .sp)] }, ?_,
    hpc, ?_, ?_, (hwords' hwords₂).set .sp (Nat.mod_lt _ (by decide)),
    [.store (c.reg .sp - 4)] ++ l ++ [.load (c.reg .sp - 4)], ?_, ?_⟩
  · unfold printx
    simp only [hsp]
    show (let c := printxLoop w x (t.length + 1) c₂; _) = _
    rw [hloop]
  · show c'.mem = _
    rw [hmem', hmem]
  · show (c'.set .sp ((c'.reg .sp + 4) % 2 ^ 32)).reg .sp = _
    rw [Cpu.set_reg, Function.update_self, hsp']
    omega
  · show c'.log ++ _ = _
    rw [hlog, hsp']
    simp [c₂, c₁]
  · intro a ha
    rcases List.mem_append.mp ha with ha | ha
    · rcases List.mem_append.mp ha with ha | ha
      · exact .inr (.inr (List.mem_singleton.mp ha))
      · exact .inl (huart a ha)
    · exact .inr (.inl (List.mem_singleton.mp ha))

end Print

/-! ## The run -/

section Run

variable {L : Linked} {A : ElfLabels L} {base : Nat} {E : ElfEnv}

/-- The memories differ on the stub's stack at most. -/
def SameOff (A : ElfLabels L) (base : Nat) (m m' : Memory) : Prop :=
  ∀ x, x < stackLow A base ∨ stackHigh A base ≤ x → m x = m' x

/-- What the listing accesses: aligned words if the stub is aligned, and it stores on its stack and
to the UART alone. -/
structure Accesses (A : ElfLabels L) (base : Nat) (log : List Access) : Prop where
  aligned : base % 4 = 0 → ∀ a ∈ log, a.addr % 4 = 0
  stores : ∀ x, .store x ∈ log →
    x = muart_base + muart_io ∨ stackLow A base ≤ x ∧ x + 4 ≤ stackHigh A base

/-- Words of the stub are loaded. -/
theorem Accesses.loads {log l : List Access} (h : Accesses A base log)
    (hl : ∀ a ∈ l, ∃ k, k % 4 = 0 ∧ a = .load (base + k)) : Accesses A base (log ++ l) := by
  refine ⟨fun hbase a ha => ?_, fun x hx => ?_⟩
  · rcases List.mem_append.mp ha with ha | ha
    · exact h.aligned hbase a ha
    · obtain ⟨k, hk, rfl⟩ := hl a ha
      show (base + k) % 4 = 0
      omega
  · rcases List.mem_append.mp hx with hx | hx
    · exact h.stores x hx
    · obtain ⟨k, -, heq⟩ := hl _ hx
      cases heq

theorem Accesses.block {log l : List Access} (h : Accesses A base log)
    (hl : ∀ a ∈ l, ∃ o, o % 4 = 0 ∧ a = .load (base + L.elf_trampoline_params + o)) :
    Accesses A base (log ++ l) := by
  refine h.loads fun a ha => ?_
  obtain ⟨o, ho, rfl⟩ := hl a ha
  have hp4 := A.params_aligned
  exact ⟨L.elf_trampoline_params + o, by omega, by rw [Nat.add_assoc]⟩

/-- The words of a record are loaded. -/
theorem Accesses.record {log : List Access} (h : Accesses A base log) {a k : Nat}
    (ha : a = base + L.elf_trampoline_params + 16 * k) :
    Accesses A base (log ++ [.load a] ++ [.load (a + 4), .load (a + 8), .load (a + 12)]) := by
  rw [List.append_assoc]
  refine h.block fun x hx => ?_
  simp only [List.cons_append, List.nil_append, List.mem_cons, List.not_mem_nil, or_false] at hx
  rcases hx with rfl | rfl | rfl | rfl
  · exact ⟨16 * k, by omega, by rw [ha]⟩
  · exact ⟨16 * k + 4, by omega, by rw [ha, Nat.add_assoc]⟩
  · exact ⟨16 * k + 8, by omega, by rw [ha, Nat.add_assoc]⟩
  · exact ⟨16 * k + 12, by omega, by rw [ha, Nat.add_assoc]⟩

/-- The stub's first part: it prints its text. -/
theorem stub_prints {c : Cpu} {m' : Memory}
    (htext : read m' (base + A.S_0) 21 = enteredText) (hfit : base + L.elf_trampoline.length ≤ 2 ^ 32)
    (hpc : c.pc = 0) (hmem : c.mem = m') (hlog : c.log = []) (hwords : Words c) :
    ∃ c', ElfStubRuns A base E c c' ∧ c'.pc = 4 ∧ c'.reg .sp = stackHigh A base ∧ Words c' ∧
      SameOff A base c'.mem m' ∧ Accesses A base c'.log := by
  have hlast := L.params_last
  have hbelow := A.stack_below
  have htextbelow := A.text_below
  have hstack := A.stack_aligned
  have hhigh : stackHigh A base = base + A.stack + 256 := rfl
  have hlow : stackLow A base = base + A.stack := rfl
  let c₁ := (c.set .sp (stackHigh A base)).next
  let c₂ := (c₁.set .r0 (base + A.S_0)).next
  have hmem₂ : c₂.mem = m' := hmem
  have hsp₂ : c₂.reg .sp = stackHigh A base := by simp [c₂, c₁]
  have hr0 : c₂.reg .r0 = base + A.S_0 := by simp [c₂]
  have hlog₂ : c₂.log = [] := hlog
  have hP := A.P_0_below
  have hwords₂ : Words c₂ := (hwords.set .sp (by omega)).set .r0 (by omega)
  have hcs : enteredText = enteredText.take 20 ++ [0] := by decide
  obtain ⟨c₃, hprint, hpc₃, hmem₃, hsp₃, hwords₃, l, hlog₃, hl⟩ :=
    printx_text (w := E.waits) (x := base + A.S_PRINT_HEX) (r := base + A.P_0) (c := c₂)
      (t := enteredText.take 20) (by decide +kernel) (show c₂.reg .r0 + 20 < 2 ^ 32 by omega)
      (by omega) (by omega)
      (by
        rw [hsp₂, hr0, hmem₂, ← hcs, ← htext]
        exact read_write_of_apart _ (by rw [leBytes_length]; omega) (.inr (by rw [leBytes_length]; omega)))
      (by omega) hwords₂
  refine ⟨c₃.next.jump 4, ?_, rfl, hsp₃.trans hsp₂, hwords₃, fun x hx => ?_, ?_⟩
  · have hpc₂ : c₂.pc = 2 := by simp [c₂, c₁, hpc]
    refine .head (d := c₁) (step_at (i := .adr .sp (stackHigh A base)) hpc rfl) <|
      .head (d := c₂) (step_at (n := 1) (i := .adr .r0 (base + A.S_0)) (by simp [c₁, hpc]) rfl) <|
      .head (d := c₃.next) ?_ <| .head (d := c₃.next.jump 4) ?_ (.refl _)
    · rw [step_at (i := .bl 2) hpc₂ rfl]
      exact congrArg (fun c => some (Cpu.next c)) hprint
    · exact step_at (n := 3) (i := .b 4) (by rw [Cpu.next_pc, hpc₃, hpc₂]) rfl
  · show c₃.mem x = _
    rw [hmem₃, hmem₂, hsp₂]
    exact write_of_outside _ (by rw [leBytes_length]; omega) (by rw [leBytes_length]; omega)
  · show Accesses A base c₃.log
    rw [hlog₃, hlog₂, List.nil_append]
    rw [hsp₂] at hl
    refine ⟨fun hbase a ha => ?_, fun x hx => ?_⟩
    · rcases hl a ha with (rfl | rfl) | rfl | rfl
      · decide
      · decide
      · show (stackHigh A base - 4) % 4 = 0
        omega
      · show (stackHigh A base - 4) % 4 = 0
        omega
    · rcases hl _ hx with (heq | heq) | heq | heq
      · cases heq
      · cases heq
        exact .inl rfl
      · cases heq
      · cases heq
        exact .inr (by omega)

/-- The arguments of the move, which the block has. -/
theorem stub_loads {ops : LoaderOps} {img_start entry : Nat} {p : Placement} {c : Cpu}
    (hblock : BlockStored c.mem (elfParams L base) ops img_start entry p) (hpc : c.pc = 4)
    (hentry : entry < 2 ^ 32) (hcount : ops.op_count < 2 ^ 32) (himg : img_start < 2 ^ 32)
    (helf : p.elf_alloc < 2 ^ 32) (hsize : p.elf_size < 2 ^ 32) (hwords : Words c) :
    ∃ c', ElfStubRuns A base E c c' ∧ c'.pc = 7 ∧ c'.reg .r0 = p.elf_alloc ∧
      c'.reg .r1 = img_start ∧ c'.reg .r2 = p.elf_size ∧ c'.reg .sp = c.reg .sp ∧ Words c' ∧
      c'.mem = c.mem ∧
      c'.log = c.log ++ [.load (elfParams L base + 268), .load (elfParams L base + 260),
        .load (elfParams L base + 272)] := by
  obtain ⟨-, hsrc⟩ := words_of_read (b := leBytes 4 img_start) hblock.counts hcount
  have hargs := hblock.args
  rw [List.append_assoc] at hargs
  obtain ⟨-, hargs⟩ := words_of_read (b := leBytes 4 p.elf_alloc ++ leBytes 4 p.elf_size) hargs hentry
  obtain ⟨hdst, hlen⟩ := words_of_read (b := leBytes 4 p.elf_size) hargs helf
  have hsrc : c.word (elfParams L base + 260) = img_start := word_of_read hsrc himg
  have hdst : c.word (elfParams L base + 268) = p.elf_alloc := hdst
  have hlen : c.word (elfParams L base + 272) = p.elf_size := word_of_read hlen hsize
  let c₁ := (c.load .r0 (elfParams L base + 268)).next
  let c₂ := (c₁.load .r1 (elfParams L base + 260)).next
  let c₃ := (c₂.load .r2 (elfParams L base + 272)).next
  refine ⟨c₃, ?_, by simp [c₃, c₂, c₁, hpc], ?_, ?_, ?_, ?_, ?_, rfl, ?_⟩
  · refine .head (d := c₁) (step_at (i := .ldrLit .r0 (elfParams L base + 268)) hpc rfl) <|
      .head (d := c₂) (step_at (n := 5) (i := .ldrLit .r1 (elfParams L base + 260)) ?_ rfl) <|
      .head (d := c₃) (step_at (n := 6) (i := .ldrLit .r2 (elfParams L base + 272)) ?_ rfl) (.refl _)
    · simp [c₁, hpc]
    · simp [c₂, c₁, hpc]
  · simp [c₃, c₂, c₁, hdst]
  · have hword : c₁.word (elfParams L base + 260) = img_start := hsrc
    simp [c₃, c₂, hword]
  · have hword : c₂.word (elfParams L base + 272) = p.elf_size := hlen
    simp [c₃, hword]
  · simp [c₃, c₂, c₁]
  · exact Words.load (c := c₂) (Words.load (c := c₁) (hwords.load _ _) _ _) _ _
  · simp [c₃, c₂, c₁]

/-! ### The operations -/

/-- `kind`. -/
def LoaderOp.kind : LoaderOp → Nat
  | .copy _ _ _ => OP_COPY
  | .zero _ _ _ => OP_ZERO

/-- What the routine for the operation gets in `r0`, `r1` and `r2`. -/
def LoaderOp.args : LoaderOp → Nat × Nat × Nat
  | .copy dst src size => (dst, src, size)
  | .zero dst size fill => (dst, size, fill)

/-- The operation fits a stub at `base`: it has words for arguments, and both the memory it stores
to and the one it copies from are clear of the stub. -/
structure OpFits (L : Linked) (base : Nat) (op : LoaderOp) : Prop where
  words : op.args.1 < 2 ^ 32 ∧ op.args.2.1 < 2 ^ 32 ∧ op.args.2.2 < 2 ^ 32
  dst_end : op.dst + op.size ≤ 2 ^ 32
  dst_clear : ∀ x, base ≤ x → x < base + L.elf_trampoline.length → x < op.dst ∨ op.dst + op.size ≤ x
  src : ∀ dst src size, op = .copy dst src size → src + size ≤ 2 ^ 32 ∧
    ∀ x, base ≤ x → x < base + L.elf_trampoline.length → x < src ∨ src + size ≤ x

/-- A record is the words of its operation. -/
theorem record_words {m : Memory} {a : Nat} {op : LoaderOp} (h : read m a 16 = op.bytes)
    (hwords : op.args.1 < 2 ^ 32 ∧ op.args.2.1 < 2 ^ 32 ∧ op.args.2.2 < 2 ^ 32) :
    field m a 4 = op.kind ∧ field m (a + 4) 4 = op.args.1 ∧ field m (a + 8) 4 = op.args.2.1 ∧
      field m (a + 12) 4 = op.args.2.2 := by
  have hbytes : op.bytes = leBytes 4 op.kind ++ (leBytes 4 op.args.1 ++ (leBytes 4 op.args.2.1 ++
      leBytes 4 op.args.2.2)) := by
    cases op <;> rfl
  have hkind : op.kind < 2 ^ 32 := by cases op <;> simp [LoaderOp.kind, OP_COPY, OP_ZERO]
  rw [hbytes] at h
  obtain ⟨hw0, h⟩ := words_of_read (b := leBytes 4 op.args.1 ++ (leBytes 4 op.args.2.1 ++
    leBytes 4 op.args.2.2)) h hkind
  obtain ⟨hw1, h⟩ := words_of_read (b := leBytes 4 op.args.2.1 ++ leBytes 4 op.args.2.2) h hwords.1
  obtain ⟨hw2, h⟩ := words_of_read (b := leBytes 4 op.args.2.2) h hwords.2.1
  exact ⟨hw0, hw1, hw2, word_of_read h hwords.2.2⟩

/-- At `op_loop`, after `k` of `n` operations, with `M` in memory but for the stack. -/
structure AtOp (A : ElfLabels L) (base n : Nat) (M : Memory) (k : Nat) (c : Cpu) : Prop where
  pc : c.pc = 11
  r8 : c.reg .r8 = base + L.elf_trampoline_params + 16 * k
  r9 : c.reg .r9 = k
  r10 : c.reg .r10 = n
  sp : c.reg .sp = stackHigh A base
  words : Words c
  mem : SameOff A base c.mem M
  log : Accesses A base c.log

section Operation

variable {M : Memory} {n k : Nat} {c : Cpu}

theorem cmp_step {q v : Nat} {r : Reg} {o : Operand} (hpc : c.pc = q)
    (hcode : (elfTrampoline A base)[q]? = some (.cmp r o))
    (hv : (c.reg r + 2 ^ 32 - c.value o) % 2 ^ 32 = v) :
    ElfStubStep A base E c = some (c.flag v).next := by
  rw [ElfStubStep, step_at hpc hcode, exec, hv]

theorem beq_step {q target : Nat} (hpc : c.pc = q)
    (hcode : (elfTrampoline A base)[q]? = some (.beq target)) :
    ElfStubStep A base E c = some (if c.z then c.jump target else c.next) := by
  rw [ElfStubStep, step_at hpc hcode, exec]

/-- From `op_loop` to the part for the operation's kind. -/
theorem op_dispatch {op : LoaderOp} (h : AtOp A base n M k c) (hk : k < n) (hn : n < 2 ^ 32)
    (haddr : c.reg .r8 < 2 ^ 32) (hkind : c.word (c.reg .r8) = op.kind) :
    ∃ c', ElfStubRuns A base E c c' ∧ c'.pc = (if op.kind = OP_COPY then 21 else 26) ∧
      c'.reg = Function.update c.reg .r11 op.kind ∧ c'.mem = c.mem ∧
      c'.log = c.log ++ [.load (c.reg .r8)] := by
  obtain ⟨v, hv⟩ : ∃ v, (c.reg .r9 + 2 ^ 32 - c.value (.reg .r10)) % 2 ^ 32 = v := ⟨_, rfl⟩
  have hne : v ≠ 0 := by
    rw [← hv, Cpu.value_reg, h.r9, h.r10]
    omega
  have hoff : (c.reg .r8 + op_kind) % 2 ^ 32 = c.reg .r8 := by
    rw [op_kind, Nat.add_zero]
    exact Nat.mod_eq_of_lt haddr
  let c₁ := (c.flag v).next
  let c₂ := c₁.next
  let c₃ := (c₂.load .r11 (c.reg .r8)).next
  have hpc₁ : c₁.pc = 12 := by simp [c₁, h.pc]
  have hrun : ElfStubRuns A base E c c₃ := by
    refine .head (d := c₁) (cmp_step h.pc rfl hv) <| .head (d := c₂) ?_ <|
      .head (d := c₃) ?_ (.refl _)
    · refine (beq_step hpc₁ rfl).trans ?_
      rw [if_neg (by simpa [c₁] using hne)]
    · refine (step_at (n := 13) (i := .ldrOff .r11 .r8 op_kind) (by simp [c₂, hpc₁]) rfl).trans ?_
      rw [exec, show c₂.reg = c.reg from rfl, hoff]
  have hreg₃ : c₃.reg = Function.update c.reg .r11 op.kind := by
    rw [← hkind]
    rfl
  have h11 : c₃.reg .r11 = op.kind := by rw [hreg₃, Function.update_self]
  have hpc₃ : c₃.pc = 14 := by simp [c₃, c₂, hpc₁]
  cases op with
  | copy dst src size =>
      have h11 : c₃.reg .r11 = 1 := h11
      have hdiff : (c₃.reg .r11 + 2 ^ 32 - 1) % 2 ^ 32 = 0 := by omega
      let c₄ := (c₃.flag 0).next
      have hpc₄ : c₄.pc = 15 := by simp [c₄, hpc₃]
      have hcmp : ElfStubStep A base E c₃ = some c₄ := cmp_step hpc₃ rfl hdiff
      have hbeq : ElfStubStep A base E c₄ = some (c₄.jump 21) := beq_step hpc₄ rfl
      exact ⟨c₄.jump 21, hrun.trans (.head hcmp (.head hbeq (.refl _))), rfl, hreg₃, rfl, rfl⟩
  | zero dst size fill =>
      have h11 : c₃.reg .r11 = 2 := h11
      have hdiff : (c₃.reg .r11 + 2 ^ 32 - 1) % 2 ^ 32 = 1 := by omega
      have hdiff' : (c₃.reg .r11 + 2 ^ 32 - 2) % 2 ^ 32 = 0 := by omega
      let c₄ := (c₃.flag 1).next
      let c₅ := c₄.next
      let c₆ := (c₅.flag 0).next
      have hpc₄ : c₄.pc = 15 := by simp [c₄, hpc₃]
      have hpc₅ : c₅.pc = 16 := by simp [c₅, hpc₄]
      have hpc₆ : c₆.pc = 17 := by simp [c₆, hpc₅]
      have hcmp : ElfStubStep A base E c₃ = some c₄ := cmp_step hpc₃ rfl hdiff
      have hbeq : ElfStubStep A base E c₄ = some c₅ := beq_step hpc₄ rfl
      have hcmp' : ElfStubStep A base E c₅ = some c₆ := cmp_step hpc₅ rfl hdiff'
      have hbeq' : ElfStubStep A base E c₆ = some (c₆.jump 26) := beq_step hpc₆ rfl
      exact ⟨c₆.jump 26, hrun.trans (.head hcmp (.head hbeq (.head hcmp' (.head hbeq' (.refl _))))),
        rfl, hreg₃, rfl, rfl⟩

/-- The arguments, for either kind. -/
theorem op_args {q a x y z : Nat} (hadd : (elfTrampoline A base)[q]? = some (.add .r8 .r8 op_dst))
    (hldmia : (elfTrampoline A base)[q + 1]? = some (.ldmia .r8 [.r0, .r1, .r2])) (hpc : c.pc = q)
    (h8 : c.reg .r8 = a) (hfit : a + 16 < 2 ^ 32) (hx : c.word (a + 4) = x) (hy : c.word (a + 8) = y)
    (hz : c.word (a + 12) = z) :
    ∃ c', ElfStubRuns A base E c c' ∧ c'.pc = q + 2 ∧ c'.reg .r0 = x ∧ c'.reg .r1 = y ∧
      c'.reg .r2 = z ∧ c'.reg .r8 = a + 16 ∧ c'.reg .r9 = c.reg .r9 ∧ c'.reg .r10 = c.reg .r10 ∧
      c'.reg .sp = c.reg .sp ∧ (Words c → Words c') ∧ c'.mem = c.mem ∧
      c'.log = c.log ++ [.load (a + 4), .load (a + 8), .load (a + 12)] := by
  have hstart : (c.reg .r8 + op_dst) % 2 ^ 32 = a + 4 := by
    rw [h8]
    exact Nat.mod_eq_of_lt (show a + 4 < 2 ^ 32 by omega)
  have hend : (a + 4 + 4 * 3) % 2 ^ 32 = a + 16 := Nat.mod_eq_of_lt (by omega)
  let c₁ := (c.set .r8 (a + 4)).next
  let c₂ := ((c₁.loads [.r0, .r1, .r2] (a + 4)).set .r8 (a + 16)).next
  have hadd' : ElfStubStep A base E c = some c₁ := by
    rw [ElfStubStep, step_at hpc hadd, exec, hstart]
  have hldmia' : ElfStubStep A base E c₁ = some c₂ := by
    rw [ElfStubStep, step_at (show c₁.pc = q + 1 by simp [c₁, hpc]) hldmia, exec,
      show c₁.reg .r8 = a + 4 by simp [c₁]]
    exact congrArg (fun v => some ((c₁.loads [.r0, .r1, .r2] (a + 4)).set .r8 v).next) hend
  have hx : c₁.word (a + 4) = x := hx
  have hy : c₁.word (a + 8) = y := hy
  have hz : c₁.word (a + 12) = z := hz
  refine ⟨c₂, .head hadd' (.head hldmia' (.refl _)), by simp [c₂, c₁, hpc], ?_, ?_, ?_, ?_, ?_, ?_,
    ?_, fun h => ?_, rfl, ?_⟩
  · simp [c₂, hx]
  · simp [c₂, hy]
  · simp [c₂, hz]
  · simp [c₂]
  · simp [c₂, c₁]
  · simp [c₂, c₁]
  · simp [c₂, c₁]
  · have h₁ : Words c₁ := h.set .r8 (by omega)
    exact (((h₁.load .r0 _).load .r1 _).load .r2 _).set .r8 hfit
  · simp [c₂, c₁]

/-- The end of either part. -/
theorem op_close {q : Nat} (hadd : (elfTrampoline A base)[q]? = some (.add .r9 .r9 1))
    (hb : (elfTrampoline A base)[q + 1]? = some (.b 11)) (hpc : c.pc = q) (h9 : c.reg .r9 = k)
    (hk : k + 1 < 2 ^ 32) :
    ElfStubRuns A base E c ((c.set .r9 (k + 1)).next.jump 11) := by
  have hadd' : ElfStubStep A base E c = some (c.set .r9 (k + 1)).next := by
    rw [ElfStubStep, step_at hpc hadd, exec, h9, Nat.mod_eq_of_lt hk]
  have hb' : ElfStubStep A base E (c.set .r9 (k + 1)).next =
      some ((c.set .r9 (k + 1)).next.jump 11) :=
    step_at (show (c.set .r9 (k + 1)).next.pc = q + 1 by simp [hpc]) hb
  exact .head hadd' (.head hb' (.refl _))

theorem onStack_iff (hsp : c.reg .sp = stackHigh A base) {x : Nat} :
    OnStack c x ↔ stackLow A base ≤ x ∧ x < stackHigh A base := by
  have hhigh : stackHigh A base = base + A.stack + 256 := rfl
  have hlow : stackLow A base = base + A.stack := rfl
  have hsize : stackSize = 256 := rfl
  unfold OnStack
  rw [hsp]
  omega

/-- What is on the stack is in the stub. -/
theorem stack_inside {x : Nat} (hx : stackLow A base ≤ x ∧ x < stackHigh A base) :
    base ≤ x ∧ x < base + L.elf_trampoline_params := by
  have hhigh : stackHigh A base = base + A.stack + 256 := rfl
  have hlow : stackLow A base = base + A.stack := rfl
  have hbelow := A.stack_below
  have htext := A.text_below
  omega

theorem given_of_clear (hsp : c.reg .sp = stackHigh A base) {a n : Nat} (hend : a + n ≤ 2 ^ 32)
    (hclear : ∀ x, base ≤ x → x < base + L.elf_trampoline.length → x < a ∨ a + n ≤ x) :
    Given c a n := by
  refine ⟨hend, fun i hi hstack => ?_⟩
  obtain ⟨hlo, hhi⟩ := stack_inside ((onStack_iff hsp).mp hstack)
  have hlast := L.params_last
  have hout := hclear (a + i) hlo (by omega)
  omega

theorem callable_of_sp (hwords : Words c) (hsp : c.reg .sp = stackHigh A base) : Callable c :=
  ⟨hwords, hsp ▸ Nat.le_add_left _ _⟩

/-- The routine of a copy does what the operation is for. -/
theorem call_copy {f : Cpu → Cpu} (hf : Memmoves f) (hwords : Words c) (hsp : c.reg .sp = stackHigh A base)
    {dst src size : Nat} (h0 : c.reg .r0 = dst) (h1 : c.reg .r1 = src) (h2 : c.reg .r2 = size)
    (hfits : OpFits L base (.copy dst src size)) (hsame : SameOff A base c.mem M) :
    ReturnsTo c (f c) ∧ SameOff A base (f c).mem (LoaderOp.run M (.copy dst src size)) := by
  subst h0 h1 h2
  have hcall := callable_of_sp hwords hsp
  have hdst : Given c (c.reg .r0) (c.reg .r2) := given_of_clear hsp hfits.dst_end hfits.dst_clear
  obtain ⟨hsrcend, hsrcclear⟩ := hfits.src _ _ _ rfl
  have hsrc : Given c (c.reg .r1) (c.reg .r2) := given_of_clear hsp hsrcend hsrcclear
  refine ⟨hf.returns c hcall ⟨hdst, hsrc⟩, fun x hx => ?_⟩
  have hoff : ¬OnStack c x := fun h => by
    have hin := (onStack_iff hsp).mp h
    omega
  by_cases hin : c.reg .r0 ≤ x ∧ x < c.reg .r0 + c.reg .r2
  · obtain ⟨i, rfl⟩ := Nat.exists_eq_add_of_le hin.1
    have hi : i < c.reg .r2 := by omega
    have hclear := (onStack_iff hsp).not.mp (hsrc.2 i hi)
    rw [hf.moves c hcall ⟨hdst, hsrc⟩ i hi, hsame _ (by omega)]
    exact (move_at hi).symm
  · rw [hf.outside c hcall ⟨hdst, hsrc⟩ x (by omega) hoff, hsame x hx]
    exact (move_outside (by omega)).symm

theorem call_zero {f : Cpu → Cpu} (hf : Memsets f) (hwords : Words c) (hsp : c.reg .sp = stackHigh A base)
    {dst size fill : Nat} (h0 : c.reg .r0 = dst) (h1 : c.reg .r1 = size) (h2 : c.reg .r2 = fill)
    (hfits : OpFits L base (.zero dst size fill)) (hsame : SameOff A base c.mem M) :
    ReturnsTo c (f c) ∧ SameOff A base (f c).mem (LoaderOp.run M (.zero dst size fill)) := by
  subst h0 h1 h2
  have hcall := callable_of_sp hwords hsp
  have hdst : Given c (c.reg .r0) (c.reg .r1) := given_of_clear hsp hfits.dst_end hfits.dst_clear
  refine ⟨hf.returns c hcall hdst, fun x hx => ?_⟩
  have hoff : ¬OnStack c x := fun h => by
    have hin := (onStack_iff hsp).mp h
    omega
  by_cases hin : c.reg .r0 ≤ x ∧ x < c.reg .r0 + c.reg .r1
  · obtain ⟨i, rfl⟩ := Nat.exists_eq_add_of_le hin.1
    have hi : i < c.reg .r1 := by omega
    rw [hf.sets c hcall hdst i hi]
    exact (fill_at hi).symm
  · rw [hf.outside c hcall hdst x (by omega) hoff, hsame x hx]
    exact (fill_outside (by omega)).symm

/-- The part at `q` carries out an operation with routine `r`, and the loop is at the next one. -/
theorem op_part {op : LoaderOp} {q r : Nat}
    (hadd : (elfTrampoline A base)[q]? = some (.add .r8 .r8 op_dst))
    (hldmia : (elfTrampoline A base)[q + 1]? = some (.ldmia .r8 [.r0, .r1, .r2]))
    (hbl : (elfTrampoline A base)[q + 2]? = some (.bl r))
    (hcount : (elfTrampoline A base)[q + 3]? = some (.add .r9 .r9 1))
    (hb : (elfTrampoline A base)[q + 4]? = some (.b 11))
    (hcall : ∀ c : Cpu, Words c → c.reg .sp = stackHigh A base → c.reg .r0 = op.args.1 →
      c.reg .r1 = op.args.2.1 → c.reg .r2 = op.args.2.2 → SameOff A base c.mem M →
      ReturnsTo c (E.routine A base r c) ∧ SameOff A base (E.routine A base r c).mem (op.run M))
    (h : AtOp A base n M k c) (hk : k < n) (hn : n ≤ ELF_MAX_SEGMENTS)
    (hfit : base + L.elf_trampoline.length ≤ 2 ^ 32) (hfits : OpFits L base op)
    (hrecord : read M (base + L.elf_trampoline_params + 16 * k) 16 = op.bytes)
    (hq : (if op.kind = OP_COPY then 21 else 26) = q) :
    ∃ c', ElfStubRuns A base E c c' ∧ AtOp A base n (op.run M) (k + 1) c' := by
  have hn16 : n ≤ 16 := hn
  have hlast := L.params_last
  have hbelow := A.stack_below
  have htext := A.text_below
  have hhigh : stackHigh A base = base + A.stack + 256 := rfl
  obtain ⟨a, ha⟩ : ∃ a, a = base + L.elf_trampoline_params + 16 * k := ⟨_, rfl⟩
  have h8 : c.reg .r8 = a := h.r8.trans ha.symm
  -- the record is not on the stack
  have hrecord' : read c.mem a 16 = op.bytes := by
    rw [← hrecord, ← ha]
    exact Mem.read_congr fun i hi => h.mem _ (.inr (by omega))
  obtain ⟨hw0, hw1, hw2, hw3⟩ := record_words hrecord' hfits.words
  obtain ⟨c₁, hrun₁, hpc₁, hreg₁, hmem₁, hlog₁⟩ := op_dispatch (E := E) h hk (by omega)
    (by omega) (show c.word (c.reg .r8) = op.kind by rw [h8]; exact hw0)
  have hword : ∀ x, c₁.word x = field c.mem x 4 := fun x => by rw [Cpu.word, hmem₁]; rfl
  have hkept : ∀ r, r ≠ .r11 → c₁.reg r = c.reg r := fun r hr => by
    rw [hreg₁, Function.update_of_ne hr]
  obtain ⟨c₂, hrun₂, hpc₂, h0, h1, h2, h8₂, h9₂, h10₂, hsp₂, hwords₂, hmem₂, hlog₂⟩ :=
    op_args (E := E) hadd hldmia (hpc₁.trans hq) ((hkept .r8 (by decide)).trans h8) (by omega)
      ((hword _).trans hw1) ((hword _).trans hw2) ((hword _).trans hw3)
  have hsp : c₂.reg .sp = stackHigh A base := hsp₂.trans ((hkept .sp (by decide)).trans h.sp)
  have hkind : op.kind < 2 ^ 32 := by rw [← hw0]; exact Cpu.word_lt c _
  have hwords₁ : Words c₁ := by
    rw [Words, hreg₁]
    exact h.words.set .r11 hkind
  obtain ⟨hret, hsame⟩ := hcall c₂ (hwords₂ hwords₁) hsp h0 h1 h2 (by
    rw [hmem₂, hmem₁]
    exact h.mem)
  let c₃ := (E.routine A base r c₂).next
  have hpc₃ : c₃.pc = q + 3 := by
    show (E.routine A base r c₂).pc + 1 = _
    rw [hret.pc, hpc₂]
  have hbl' : ElfStubStep A base E c₂ = some c₃ := by rw [ElfStubStep, step_at hpc₂ hbl, exec]
  have hreg₃ : ∀ s, Reg.Kept s → c₃.reg s = c₂.reg s := fun s hs => hret.reg s hs
  have hr9 : c₃.reg .r9 = k := by
    rw [hreg₃ .r9 (by simp [Reg.Kept]), h9₂, hkept .r9 (by decide), h.r9]
  have hclose := op_close (E := E) hcount hb hpc₃ hr9 (by omega)
  refine ⟨_, hrun₁.trans (hrun₂.trans (.head hbl' hclose)), rfl, ?_, ?_, ?_, ?_,
    Words.set (c := c₃) hret.words _ (by omega), hsame, ?_⟩
  · show Function.update c₃.reg .r9 (k + 1) .r8 = _
    rw [Function.update_of_ne (by decide), hreg₃ .r8 (by simp [Reg.Kept]), h8₂]
    omega
  · show Function.update c₃.reg .r9 (k + 1) .r9 = _
    rw [Function.update_self]
  · show Function.update c₃.reg .r9 (k + 1) .r10 = _
    rw [Function.update_of_ne (by decide), hreg₃ .r10 (by simp [Reg.Kept]), h10₂,
      hkept .r10 (by decide), h.r10]
  · show Function.update c₃.reg .r9 (k + 1) .sp = _
    rw [Function.update_of_ne (by decide), hreg₃ .sp (by simp [Reg.Kept]), hsp]
  · show Accesses A base (E.routine A base r c₂).log
    rw [hret.log, hlog₂, hlog₁, h8]
    exact h.log.record ha

/-- A turn of `op_loop` carries out an operation. -/
theorem op_turn {op : LoaderOp} (hmove : Memmoves E.aeabi_memmove) (hset : Memsets E.aeabi_memset)
    (h : AtOp A base n M k c) (hk : k < n) (hn : n ≤ ELF_MAX_SEGMENTS)
    (hfit : base + L.elf_trampoline.length ≤ 2 ^ 32) (hfits : OpFits L base op)
    (hrecord : read M (base + L.elf_trampoline_params + 16 * k) 16 = op.bytes) :
    ∃ c', ElfStubRuns A base E c c' ∧ AtOp A base n (op.run M) (k + 1) c' := by
  cases op with
  | copy dst src size =>
      exact op_part (q := 21) (r := 0) rfl rfl rfl rfl rfl
        (fun c hw hsp h0 h1 h2 hsame => call_copy hmove hw hsp h0 h1 h2 hfits hsame) h hk hn hfit hfits
        hrecord rfl
  | zero dst size fill =>
      exact op_part (q := 26) (r := 1) rfl rfl rfl rfl rfl
        (fun c hw hsp h0 h1 h2 hsame => call_zero hset hw hsp h0 h1 h2 hfits hsame) h hk hn hfit hfits
        hrecord rfl

/-- `op_loop` carries out what is left, one operation after the other. -/
theorem op_loop {ops : List LoaderOp} (hmove : Memmoves E.aeabi_memmove)
    (hset : Memsets E.aeabi_memset) (h : AtOp A base n M k c) (hleft : k + ops.length = n)
    (hn : n ≤ ELF_MAX_SEGMENTS) (hfit : base + L.elf_trampoline.length ≤ 2 ^ 32)
    (hfits : ∀ op ∈ ops, OpFits L base op)
    (hrecords : ∀ i (hi : i < ops.length),
      read M (base + L.elf_trampoline_params + 16 * (k + i)) 16 = ops[i].bytes) :
    ∃ c', ElfStubRuns A base E c c' ∧ AtOp A base n (ops.foldl LoaderOp.run M) n c' := by
  induction ops generalizing M k c with
  | nil =>
      obtain rfl : k = n := hleft
      exact ⟨c, .refl c, h⟩
  | cons op ops ih =>
      rw [List.length_cons] at hleft
      have hfits₀ := hfits op List.mem_cons_self
      obtain ⟨c₁, hrun, hc₁⟩ := op_turn hmove hset h (by omega) hn hfit hfits₀
        (hrecords 0 (by simp))
      obtain ⟨c', hrun', hc'⟩ := ih hc₁ (by omega) (fun o ho => hfits o (List.mem_cons_of_mem _ ho))
        fun i hi => by
          have hi16 : k + (i + 1) < 16 := by
            have hn16 : n ≤ 16 := hn
            omega
          rw [← List.getElem_cons_succ op ops i (by simpa using hi),
            ← hrecords (i + 1) (by simpa using hi), show k + 1 + i = k + (i + 1) by omega]
          -- no operation stores to the stub
          refine Mem.read_congr fun j hj => LoaderOp.run_outside (hfits₀.dst_clear _ ?_ ?_)
          · omega
          · have hlast := L.params_last
            omega
      exact ⟨c', hrun.trans hrun', hc'⟩

/-- From the move to `op_loop`. -/
theorem stub_enters_loop (hpc : c.pc = 8) (hsp : c.reg .sp = stackHigh A base)
    (hwords : Words c) (hlog : Accesses A base c.log) (hparams : elfParams L base = base + L.elf_trampoline_params)
    (hcount : c.word (elfParams L base + 256) = n) :
    ∃ c', ElfStubRuns A base E c c' ∧ AtOp A base n c.mem 0 c' := by
  let c₁ := (c.set .r8 (elfParams L base)).next
  let c₂ := (c₁.set .r9 0).next
  let c₃ := (c₂.load .r10 (elfParams L base + 256)).next
  have hcount : c₂.word (elfParams L base + 256) = n := hcount
  have hp : elfParams L base < 2 ^ 32 := Nat.mod_lt _ (by decide)
  have hwords₂ : Words c₂ := (hwords.set .r8 hp).set .r9 (Nat.two_pow_pos 32)
  refine ⟨c₃, ?_, by simp [c₃, c₂, c₁, hpc], ?_, ?_, ?_, ?_, hwords₂.load _ _, fun x _ => rfl, ?_⟩
  · refine .head (d := c₁) (step_at (i := .adr .r8 (elfParams L base)) hpc rfl) <|
      .head (d := c₂) (step_at (n := 9) (i := .mov .r9 0) (by simp [c₁, hpc]) rfl) <|
      .head (d := c₃) (step_at (n := 10) (i := .ldrLit .r10 (elfParams L base + 256)) ?_ rfl) (.refl _)
    simp [c₂, c₁, hpc]
  · simp [c₃, c₂, c₁, hparams]
  · simp [c₃, c₂]
  · simp [c₃, hcount]
  · simp [c₃, c₂, c₁, hsp]
  · exact hlog.block fun x hx => ⟨256, rfl, by rw [List.mem_singleton.mp hx, hparams]⟩

/-- One `mov r0, #0` with the `mcr` behind it. -/
theorem elf_cache_pair (A : ElfLabels L) (base : Nat) (E : ElfEnv) {q : Nat} (hpc : c.pc = q)
    (hmov : (elfTrampoline A base)[q]? = some (.mov .r0 0))
    (hmcr : (elfTrampoline A base)[q + 1]? = some (.mcr .r0)) :
    ∃ c', ElfStubRuns A base E c c' ∧ c'.pc = q + 2 ∧ c'.mem = c.mem ∧ c'.log = c.log :=
  ⟨(c.set .r0 0).next.next,
    .head (step_at hpc hmov) (.head (step_at (n := q + 1) (by simp [hpc]) hmcr) (.refl _)),
    by simp [hpc], rfl, rfl⟩

/-- Behind the last operation the stub goes on to its last instruction. -/
theorem stub_leaves {entry : Nat} (h : AtOp A base n M n c)
    (hentry : c.word (elfParams L base + 264) = entry) :
    ∃ c', ElfStubRuns A base E c c' ∧ c'.pc = 45 ∧ c'.reg .r9 = entry ∧
      c'.reg .r0 = elfParams L base + 268 ∧ c'.mem = c.mem ∧
      c'.log = c.log ++ [.load (elfParams L base + 264)] := by
  have hdiff : (c.reg .r9 + 2 ^ 32 - c.value (.reg .r10)) % 2 ^ 32 = 0 := by
    rw [Cpu.value_reg, h.r9, h.r10]
    omega
  let c₁ := (c.flag 0).next
  have hcmp : ElfStubStep A base E c = some c₁ := cmp_step h.pc rfl hdiff
  have hpc₁ : c₁.pc = 12 := congrArg (· + 1) h.pc
  have hbeq : ElfStubStep A base E c₁ = some (c₁.jump 31) := beq_step hpc₁ rfl
  obtain ⟨d₁, hrun₁, hd₁, hm₁, hl₁⟩ := elf_cache_pair A base E (q := 31)
    (c := c₁.jump 31) rfl rfl rfl
  obtain ⟨d₂, hrun₂, hd₂, hm₂, hl₂⟩ := elf_cache_pair A base E hd₁ rfl rfl
  obtain ⟨d₃, hrun₃, hd₃, hm₃, hl₃⟩ := elf_cache_pair A base E hd₂ rfl rfl
  obtain ⟨d₄, hrun₄, hd₄, hm₄, hl₄⟩ := elf_cache_pair A base E hd₃ rfl rfl
  obtain ⟨d₅, hrun₅, hd₅, hm₅, hl₅⟩ := elf_cache_pair A base E hd₄ rfl rfl
  obtain ⟨d₆, hrun₆, hd₆, hm₆, hl₆⟩ := elf_cache_pair A base E hd₅ rfl rfl
  have hmem : d₆.mem = c.mem := hm₆.trans (hm₅.trans (hm₄.trans (hm₃.trans (hm₂.trans hm₁))))
  have hlog : d₆.log = c.log := hl₆.trans (hl₅.trans (hl₄.trans (hl₃.trans (hl₂.trans hl₁))))
  have hentry : d₆.word (elfParams L base + 264) = entry := by
    rw [← hentry, Cpu.word, hmem]
    rfl
  let e₁ := (d₆.load .r9 (elfParams L base + 264)).next
  let e₂ := (e₁.set .r0 (elfParams L base + 268)).next
  refine ⟨e₂, ?_, by simp [e₂, e₁, hd₆], ?_, ?_, hmem, ?_⟩
  · refine .head hcmp (.head hbeq ?_)
    refine hrun₁.trans (hrun₂.trans (hrun₃.trans (hrun₄.trans (hrun₅.trans (hrun₆.trans ?_)))))
    refine .head (d := e₁) (step_at (n := 43) (i := .ldrLit .r9 (elfParams L base + 264)) hd₆ rfl) <|
      .head (d := e₂) (step_at (n := 44) (i := .adr .r0 (elfParams L base + 268)) ?_ rfl) (.refl _)
    simp [e₁, hd₆]
  · simp [e₂, e₁, hentry]
  · simp [e₂]
  · show d₆.log ++ [.load (elfParams L base + 264)] = _
    rw [hlog]

end Operation

/-- In front of the move of the file, with `m'` in memory but for the stack. -/
structure AtMove (A : ElfLabels L) (m' : Memory) (img_start : Nat) (p : Placement) (c : Cpu) : Prop where
  dst : c.reg .r0 = p.elf_alloc
  src : c.reg .r1 = img_start
  size : c.reg .r2 = p.elf_size
  sp : c.reg .sp = stackHigh A p.boot_alloc
  words : Words c
  mem : SameOff A p.boot_alloc c.mem m'

/-- The whole run: the text, the move in the state `c₁`, and the operations on what it left. -/
theorem stub_runs {c : Cpu} {m' : Memory} {ops : LoaderOps} {img_start entry : Nat} {p : Placement}
    (hmove : Memmoves E.aeabi_memmove) (hset : Memsets E.aeabi_memset)
    (hstored : StubStored L m' ops img_start entry p)
    (hfit : p.boot_alloc + L.elf_trampoline.length ≤ 2 ^ 32) (hcount : ops.op_count ≤ ELF_MAX_SEGMENTS)
    (hfits : ∀ op ∈ ops.registered, OpFits L p.boot_alloc op) (hentry : entry < 2 ^ 32)
    (himg : img_start < 2 ^ 32) (helf : p.elf_alloc < 2 ^ 32) (hsize : p.elf_size < 2 ^ 32)
    (hpc : c.pc = 0) (hmem : c.mem = m') (hlog : c.log = []) (hwords : Words c) :
    ∃ c₁, AtMove A m' img_start p c₁ ∧
      (ReturnsTo c₁ (E.aeabi_memmove c₁) → (∀ x, p.boot_alloc + L.elf_trampoline_params ≤ x →
          x < p.boot_alloc + L.elf_trampoline.length → (E.aeabi_memmove c₁).mem x = c₁.mem x) →
        ∃ c', ElfStubRuns A p.boot_alloc E c c' ∧ c'.pc = 45 ∧ c'.reg .r9 = entry ∧
          c'.reg .r0 = p.boot_alloc + L.elf_trampoline_params + 268 ∧
          SameOff A p.boot_alloc c'.mem
            (ops.registered.foldl LoaderOp.run (E.aeabi_memmove c₁).mem) ∧
          Accesses A p.boot_alloc c'.log ∧
          .load (p.boot_alloc + L.elf_trampoline_params + 264) ∈ c'.log) := by
  have hlast := L.params_last
  have hbelow := A.stack_below
  have htext := A.text_below
  have hcount16 : ops.op_count ≤ 16 := hcount
  have hhigh : stackHigh A p.boot_alloc = p.boot_alloc + A.stack + 256 := rfl
  have hparams : elfParams L p.boot_alloc = p.boot_alloc + L.elf_trampoline_params :=
    add32_eq (by omega)
  obtain ⟨c₀, hrun₀, hpc₀, hsp₀, hwords₀, hmem₀, hlog₀⟩ := stub_prints (A := A) (E := E)
    ((hstored.code _ _ htext).trans A.text_eq) hfit hpc hmem hlog hwords
  have hblock₀ : BlockStored c₀.mem (elfParams L p.boot_alloc) ops img_start entry p := by
    rw [hparams]
    exact hstored.toBlockStored.congr fun x hlo _ => hmem₀ x (.inr (by omega))
  obtain ⟨c₁, hrun₁, hpc₁, h0, h1, h2, hsp₁, hwords₁, hmem₁, hlog₁⟩ := stub_loads (A := A) (E := E)
    hblock₀ hpc₀ hentry (by omega) himg helf hsize hwords₀
  refine ⟨c₁, ⟨h0, h1, h2, hsp₁.trans hsp₀, hwords₁, hmem₁ ▸ hmem₀⟩, fun hret hkept => ?_⟩
  let c₂ := (E.aeabi_memmove c₁).next
  have hbl : ElfStubStep A p.boot_alloc E c₁ = some c₂ := step_at (i := .bl 0) hpc₁ rfl
  have hpc₂ : c₂.pc = 8 := by
    show (E.aeabi_memmove c₁).pc + 1 = 8
    rw [hret.pc, hpc₁]
  have hsp₂ : c₂.reg .sp = stackHigh A p.boot_alloc :=
    (hret.reg .sp (by simp [Reg.Kept])).trans (hsp₁.trans hsp₀)
  have hlog₂ : Accesses A p.boot_alloc c₂.log := by
    show Accesses A p.boot_alloc (E.aeabi_memmove c₁).log
    rw [hret.log, hlog₁, hparams]
    refine hlog₀.block fun x hx => ?_
    simp only [List.mem_cons, List.not_mem_nil, or_false] at hx
    rcases hx with rfl | rfl | rfl
    · exact ⟨268, rfl, rfl⟩
    · exact ⟨260, rfl, rfl⟩
    · exact ⟨272, rfl, rfl⟩
  have hblock₂ : BlockStored c₂.mem (p.boot_alloc + L.elf_trampoline_params) ops img_start entry p := by
    rw [← hparams]
    refine hblock₀.congr fun x hlo hhi => ?_
    rw [← hmem₁]
    exact hkept x (by omega) (by omega)
  have hcount₂ : c₂.word (elfParams L p.boot_alloc + 256) = ops.op_count := by
    rw [hparams]
    exact (words_of_read (b := leBytes 4 img_start) hblock₂.counts (by omega)).1
  obtain ⟨c₃, hrun₃, hc₃⟩ := stub_enters_loop (E := E) hpc₂ hsp₂ hret.words hlog₂ hparams hcount₂
  have hlength : ops.registered.length = ops.op_count := Buf.taken_length ..
  obtain ⟨c₄, hrun₄, hc₄⟩ := op_loop hmove hset hc₃ (by omega) hcount hfit hfits fun i hi => by
    rw [Nat.zero_add, hblock₂.records i (by omega)]
    have hget := Buf.getElem?_taken ops.loader_ops (n := ops.op_count) (i := i) (by omega)
    exact congrArg LoaderOp.bytes (List.getElem_eq_iff hi |>.mpr hget).symm
  -- the entry point is still in the block
  have hentry₄ : c₄.word (elfParams L p.boot_alloc + 264) = entry := by
    have hblock₄ : BlockStored c₄.mem (p.boot_alloc + L.elf_trampoline_params) ops img_start entry p := by
      refine hblock₂.congr fun x hlo hhi => ?_
      rw [hc₄.mem x (.inr (by omega))]
      exact runs_outside fun op hop => (hfits op hop).dst_clear x (by omega) (by omega)
    have hargs := hblock₄.args
    rw [List.append_assoc] at hargs
    rw [hparams]
    exact (words_of_read (b := leBytes 4 p.elf_alloc ++ leBytes 4 p.elf_size) hargs hentry).1
  obtain ⟨c₅, hrun₅, hpc₅, h9, h0₅, hmem₅, hlog₅⟩ := stub_leaves (E := E) hc₄ hentry₄
  refine ⟨c₅, hrun₀.trans (hrun₁.trans (.head hbl (hrun₃.trans (hrun₄.trans hrun₅)))), hpc₅, h9,
    h0₅.trans (by rw [hparams]), hmem₅ ▸ hc₄.mem, ?_, ?_⟩
  · rw [hlog₅]
    exact hc₄.log.block fun x hx => ⟨264, rfl, by rw [List.mem_singleton.mp hx, hparams]⟩
  · rw [hlog₅, hparams]
    exact List.mem_append_right _ (List.mem_singleton_self _)

end Run

end Bcm2835.Pup

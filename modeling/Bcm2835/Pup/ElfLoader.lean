import Bcm2835.Lib.Bytes
import Bcm2835.Lib.FirstFit
import Bcm2835.Lib.Mem

/-!
# The ELF loader (`elf_loader.c`)

`load_elf_image` claims the memory of every loadable segment, finds room for
the ELF file and for the boot stub by a first-fit search over the claimed
ranges, and writes the stub with the list of copies it is to perform. Addresses
and sizes are 32 bits wide; `add32` and `sub32` wrap as they do. A failed
`assert` and a store behind `memory_map` end a call with an `ElfFault`.
-/

namespace Bcm2835.Pup

open Bytes Mem

def add32 (a b : Nat) : Nat := (a + b) % 2 ^ 32
def sub32 (a b : Nat) : Nat := (a + 2 ^ 32 - b) % 2 ^ 32

theorem add32_eq {a b : Nat} (h : a + b < 2 ^ 32) : add32 a b = a + b := Nat.mod_eq_of_lt h

theorem sub32_eq {a b : Nat} (h : b ≤ a) (ha : a < 2 ^ 32) : sub32 a b = a - b := by
  rw [sub32, show a + 2 ^ 32 - b = a - b + 2 ^ 32 by omega, Nat.add_mod_right,
    Nat.mod_eq_of_lt (by omega)]

/-- A difference that wraps. -/
theorem sub32_of_lt {a b : Nat} (h : a < b) : sub32 a b = a + 2 ^ 32 - b :=
  Nat.mod_eq_of_lt (by omega)

def UINTPTR_MAX : Nat := 2 ^ 32 - 1
def DRAM_LIMIT : Nat := 0x20000000

/-- What the link of the loader fixes: where it runs and the two stubs it
carries. The parameter block of the ELF stub starts `elf_trampoline_params`
bytes into it and is its last part. -/
structure Linked where
  prog_start : Nat
  prog_end : Nat
  trampoline : List UInt8
  elf_trampoline : List UInt8
  elf_trampoline_params : Nat
  prog_nonempty : prog_start < prog_end
  prog_aligned : prog_start % 4 = 0
  prog_fits : prog_end + trampoline.length < DRAM_LIMIT
  params_last : elf_trampoline_params + 280 = elf_trampoline.length
  stub_fits : elf_trampoline.length < DRAM_LIMIT

/-- A loader of eight bytes with empty stubs, for examples. -/
def Linked.tiny : Linked where
  prog_start := 0x8000
  prog_end := 0x8008
  trampoline := []
  elf_trampoline := List.replicate 280 0
  elf_trampoline_params := 0
  prog_nonempty := by decide
  prog_aligned := by decide
  prog_fits := by decide
  params_last := by rw [List.length_replicate]
  stub_fits := by rw [List.length_replicate]; decide

/-! ## Headers -/

/-- The fields of `Elf32_Ehdr` the loader reads. -/
structure Elf32_Ehdr where
  e_ident : List UInt8
  e_type : Nat
  e_machine : Nat
  e_version : Nat
  e_entry : Nat
  e_phoff : Nat
  e_phentsize : Nat
  e_phnum : Nat
deriving DecidableEq

/-- The fields of `Elf32_Phdr` the loader reads. -/
structure Elf32_Phdr where
  p_type : Nat
  p_offset : Nat
  p_vaddr : Nat
  p_filesz : Nat
  p_memsz : Nat
deriving DecidableEq

/-- The number in the `n` bytes at `a`. -/
def field (m : Memory) (a n : Nat) : Nat := ofLe (read m a n)

def Elf32_Ehdr.at (m : Memory) (a : Nat) : Elf32_Ehdr where
  e_ident := read m a 16
  e_type := field m (a + 16) 2
  e_machine := field m (a + 18) 2
  e_version := field m (a + 20) 4
  e_entry := field m (a + 24) 4
  e_phoff := field m (a + 28) 4
  e_phentsize := field m (a + 42) 2
  e_phnum := field m (a + 44) 2

def Elf32_Phdr.at (m : Memory) (a : Nat) : Elf32_Phdr where
  p_type := field m a 4
  p_offset := field m (a + 4) 4
  p_vaddr := field m (a + 8) 4
  p_filesz := field m (a + 16) 4
  p_memsz := field m (a + 20) 4

def ELFMAG : List UInt8 := [0x7f, 0x45, 0x4c, 0x46]
def ELFCLASS32 : UInt8 := 1
def ELFCLASS64 : UInt8 := 2
def ELFDATA2LSB : UInt8 := 1
def ELFDATA2MSB : UInt8 := 2
def EV_CURRENT : Nat := 1
def ELFOSABI_SYSV : UInt8 := 0
def ET_EXEC : Nat := 2
def EM_ARM : Nat := 40
def PT_LOAD : Nat := 1

def validate_elf_header (ehdr : Elf32_Ehdr) (elf32_p elfle_p : Bool) (machine : Nat) : Bool :=
  ehdr.e_ident.take 4 = ELFMAG &&
  ehdr.e_ident.getD 4 0 = (if elf32_p then ELFCLASS32 else ELFCLASS64) &&
  ehdr.e_ident.getD 5 0 = (if elfle_p then ELFDATA2LSB else ELFDATA2MSB) &&
  (ehdr.e_ident.getD 6 0).toNat = EV_CURRENT &&
  ehdr.e_ident.getD 7 0 = ELFOSABI_SYSV &&
  ehdr.e_ident.getD 8 0 = 0 &&
  ehdr.e_type = ET_EXEC &&
  ehdr.e_machine = machine &&
  ehdr.e_version = EV_CURRENT

/-- The program headers, in file order. -/
def phdrs (m : Memory) (img_start : Nat) (ehdr : Elf32_Ehdr) : List Elf32_Phdr :=
  (List.range ehdr.e_phnum).map fun i =>
    Elf32_Phdr.at m (add32 (add32 img_start ehdr.e_phoff) (i * ehdr.e_phentsize))

/-! ## The memory map -/

def ELF_MAX_SEGMENTS : Nat := 16

/-- `range`. -/
abbrev Range := FirstFit.Interval

/-- What ends a call without a result: a failed assertion, or a store to an
entry that `memory_map` does not have. -/
inductive ElfFault
  | assert
  | memory_map (i : Nat)
deriving DecidableEq

/-- `memory_map[]` and `range_count`. Entries from `range_count` on are stale. -/
structure MemoryMap where
  memory_map : Fin (ELF_MAX_SEGMENTS + 2) → Range
  range_count : Nat
  count_le : range_count ≤ ELF_MAX_SEGMENTS + 2

/-- `memory_map[i]`. -/
def MemoryMap.entry (s : MemoryMap) (i : Nat) : Range :=
  if h : i < ELF_MAX_SEGMENTS + 2 then s.memory_map ⟨i, h⟩ else ⟨0, 0⟩

/-- The map with these entries, `n` of them in use. -/
def MemoryMap.of (entry : Nat → Range) (n : Nat) (h : n ≤ ELF_MAX_SEGMENTS + 2) : MemoryMap :=
  ⟨fun i => entry i, n, h⟩

/-- `range_count = 0`. -/
def MemoryMap.reset (s : MemoryMap) : MemoryMap := ⟨s.memory_map, 0, Nat.zero_le _⟩

/-- The loop of `claim_space`: the first of the next `k` entries, from `i` on,
that starts behind `r`. -/
def claimSlot (memory_map : Nat → Range) (r : Range) : Nat → Nat → Option Nat
  | 0, _ => none
  | k + 1, i =>
      if r.start < (memory_map i).start then some i else claimSlot memory_map r k (i + 1)

def claim_space (s : MemoryMap) (r : Range) (force : Bool) : Except ElfFault (Bool × MemoryMap) :=
  if ELF_MAX_SEGMENTS ≤ s.range_count ∧ force = false then .ok (false, s)
  else
    let count := s.range_count + 1
    if hcount : count ≤ ELF_MAX_SEGMENTS + 2 then
      match claimSlot s.entry r count 0 with
      | some i =>
          -- `memmove` of the entries `i ..< count` one place up, the last one to `count`
          if count < ELF_MAX_SEGMENTS + 2 then
            let moved := fun j => if i < j ∧ j ≤ count then s.entry (j - 1) else s.entry j
            .ok (true, .of (Function.update moved i r) count hcount)
          else .error (.memory_map count)
      | none => .ok (true, .of (Function.update s.entry (count - 1) r) count hcount)
    else .error .assert

/-- The search of `allocate_space` over the `k` entries from `i` on, starting
at `p`: the place it finds, if any. -/
def allocateLoop (memory_map : Nat → Range) (size : Nat) (allowed : Range) :
    Nat → Nat → Nat → Option Nat
  | 0, _, p => if size ≤ sub32 allowed.end_ p then some p else none
  | k + 1, i, p =>
      if (memory_map i).start < p then allocateLoop memory_map size allowed k (i + 1) p
      else if allowed.end_ < add32 p size then none
      else if size ≤ (memory_map i).start - p then some p
      else allocateLoop memory_map size allowed k (i + 1) (memory_map i).end_

def allocate_space (s : MemoryMap) (size : Nat) (allowed : Range) (force : Bool) :
    Except ElfFault (Nat × MemoryMap) :=
  if size = 0 then .error .assert
  else
    match allocateLoop s.entry size allowed s.range_count 0 allowed.start with
    | none => .ok (UINTPTR_MAX, s)
    | some p => do
        let claimed ← claim_space s ⟨p, add32 p size⟩ force
        pure (if claimed.1 then p else UINTPTR_MAX, claimed.2)

/-! ## Loader operations -/

/-- `struct elf_loader_op`. -/
inductive LoaderOp
  | copy (dst src size : Nat)
  | zero (dst size fill : Nat)
deriving DecidableEq

/-- `loader_ops[]` and `op_count`. -/
structure LoaderOps where
  loader_ops : Nat → LoaderOp
  op_count : Nat

def register_loader_op (s : LoaderOps) (op : LoaderOp) : Option LoaderOps :=
  if ELF_MAX_SEGMENTS ≤ s.op_count then none
  else some ⟨Function.update s.loader_ops s.op_count op, s.op_count + 1⟩

/-- The operations of one segment: copy what the file has, clear the rest. -/
def segmentOps (elf_alloc : Nat) (phdr : Elf32_Phdr) : List LoaderOp :=
  (if 0 < phdr.p_filesz then
    [.copy phdr.p_vaddr (add32 elf_alloc phdr.p_offset) phdr.p_filesz] else []) ++
  (if phdr.p_filesz < phdr.p_memsz then
    [.zero (add32 phdr.p_vaddr phdr.p_filesz) (phdr.p_memsz - phdr.p_filesz) 0] else [])

/-- The loop that fills `loader_ops`, up to the first operation that does not
fit, and whether all did. -/
def registerOps (s : LoaderOps) : List LoaderOp → Bool × LoaderOps
  | [] => (true, s)
  | op :: ops =>
      match register_loader_op s op with
      | none => (false, s)
      | some s => registerOps s ops

def LoaderOp.bytes : LoaderOp → List UInt8
  | .copy dst src size => leBytes 4 1 ++ leBytes 4 dst ++ leBytes 4 src ++ leBytes 4 size
  | .zero dst size fill => leBytes 4 2 ++ leBytes 4 dst ++ leBytes 4 size ++ leBytes 4 fill

/-! ## `load_elf_image` -/

/-- The static state of `elf_loader.c`. -/
structure ElfLoader where
  map : MemoryMap
  ops : LoaderOps
  elf_trampoline_ptr : Nat

/-- The static state at power-on: all zero. -/
def ElfLoader.zero : ElfLoader where
  map := .of (fun _ => ⟨0, 0⟩) 0 (Nat.zero_le _)
  ops := ⟨fun _ => .copy 0 0 0, 0⟩
  elf_trampoline_ptr := 0

/-- Where an ELF image and its boot stub go. -/
structure Placement where
  elf_alloc : Nat
  elf_size : Nat
  boot_alloc : Nat
  boot_size : Nat
deriving DecidableEq

/-- The first loop over the program headers. A claim that fails is ignored. -/
def claimSegments (s : MemoryMap) (segments : List Elf32_Phdr) : Except ElfFault MemoryMap :=
  segments.foldlM
    (fun s phdr => (claim_space s ⟨phdr.p_vaddr, add32 phdr.p_vaddr phdr.p_memsz⟩ false).map (·.2)) s

/-- The two attempts to place the boot stub: below the loader, then above it. -/
def allocateBoot (L : Linked) (s : MemoryMap) (boot_size mem_hi : Nat) :
    Except ElfFault (Nat × MemoryMap) := do
  let below ← allocate_space s boot_size ⟨0, L.prog_start⟩ true
  if below.1 = UINTPTR_MAX then allocate_space below.2 boot_size ⟨L.prog_end, mem_hi⟩ true
  else pure below

/-- `load_elf_image` up to the point where it starts to write: the placement it
has found, unless it returns false, and the static state it leaves. -/
def planElfImage (L : Linked) (m : Memory) (s : ElfLoader) (img_start img_end : Nat)
    (elf32_p elfle_p : Bool) (machine mem_hi : Nat) (cmdline : List UInt8) :
    Except ElfFault (Option Placement × ElfLoader) :=
  let ehdr := Elf32_Ehdr.at m img_start
  if validate_elf_header ehdr elf32_p elfle_p machine = false then .ok (none, s)
  else do
    let segments := (phdrs m img_start ehdr).filter (·.p_type = PT_LOAD)
    let map ← claimSegments s.map.reset segments
    let elf_size := sub32 img_end img_start
    let elf ← allocate_space map elf_size ⟨0, mem_hi⟩ true
    let s := { s with map := elf.2, ops.op_count := 0 }
    if elf.1 = UINTPTR_MAX then pure (none, s)
    else
      let ops := registerOps s.ops (segments.flatMap (segmentOps elf.1))
      let s := { s with ops := ops.2 }
      if ops.1 = false then pure (none, s)
      else do
        let boot_size := L.elf_trampoline.length + cmdline.length
        let boot ← allocateBoot L elf.2 boot_size mem_hi
        let s := { s with map := boot.2 }
        if boot.1 = UINTPTR_MAX then pure (none, s)
        else pure (some ⟨elf.1, elf_size, boot.1, boot_size⟩, s)

/-- Writes the boot stub of a placement. The entry point is read from the
image only after the stub has been stored. -/
def writeBoot (L : Linked) (m : Memory) (ops : LoaderOps) (img_start : Nat) (cmdline : List UInt8)
    (p : Placement) : Memory :=
  let params := add32 p.boot_alloc L.elf_trampoline_params
  let m := write (2 ^ 32) m p.boot_alloc L.elf_trampoline
  let m := write (2 ^ 32) m params ((List.range ELF_MAX_SEGMENTS).flatMap fun i =>
    (ops.loader_ops i).bytes)
  let m := write (2 ^ 32) m (add32 params 256) (leBytes 4 ops.op_count ++ leBytes 4 img_start)
  let entry := (Elf32_Ehdr.at m img_start).e_entry
  write (2 ^ 32) m (add32 params 264)
    (leBytes 4 entry ++ leBytes 4 p.elf_alloc ++ leBytes 4 p.elf_size ++
      leBytes 4 cmdline.length ++ cmdline)

/-- `load_elf_image`; `some p` stands for the result `true`. -/
def load_elf_image (L : Linked) (m : Memory) (s : ElfLoader) (img_start img_end : Nat)
    (elf32_p elfle_p : Bool) (machine mem_hi : Nat) (cmdline : List UInt8) :
    Except ElfFault (Option Placement × Memory × ElfLoader) := do
  let r ← planElfImage L m s img_start img_end elf32_p elfle_p machine mem_hi cmdline
  match r.1 with
  | none => pure (none, m, r.2)
  | some p =>
      pure (some p, writeBoot L m r.2.ops img_start cmdline p,
        { r.2 with elf_trampoline_ptr := p.boot_alloc })

end Bcm2835.Pup

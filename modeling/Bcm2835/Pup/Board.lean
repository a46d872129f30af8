import Bcm2835.Pup.Download
import Bcm2835.Pup.ElfLoader

/-!
# The board (`bcm2835.c`)

What the Raspberry Pi does with a meta, with the chunks of an image and with
the finished image. Bytes that belong where the running loader is are kept in
a relocation buffer above it. The decompressor is not modelled: the board
carries the answers `xz_dec_run` is going to give (`XzAnswer`), and a loop that
runs out of them has not returned.
-/

namespace Bcm2835.Pup

open Mem

/-- `struct reloc`; `size = 0` means there is nothing to relocate. -/
structure Reloc where
  tgt_start : Nat
  tgt_end : Nat
  buf_start : Nat
  buf_end : Nat
  stub_start : Nat
  stub_end : Nat
  size : Nat
deriving DecidableEq

/-- `(struct reloc){}` with null pointers. -/
def Reloc.none : Reloc := ⟨0, 0, 0, 0, 0, 0, 0⟩

/-- `enum xz_ret`. -/
inductive XzRet
  | XZ_OK
  | XZ_STREAM_END
  | XZ_UNSUPPORTED_CHECK
  | XZ_MEM_ERROR
  | XZ_MEMLIMIT_ERROR
  | XZ_FORMAT_ERROR
  | XZ_OPTIONS_ERROR
  | XZ_DATA_ERROR
  | XZ_BUF_ERROR
deriving DecidableEq

/-- One answer of `xz_dec_run`: the code, how far it advances `in_pos`, and
what it leaves in `decompress_buffer`. -/
structure XzAnswer where
  ret : XzRet
  used : Nat
  out : List UInt8
  out_le : out.length ≤ 0x20000

/-- One `memcpy` of `feed_impl`. -/
structure Store where
  dst : Nat
  data : List UInt8
deriving DecidableEq

/-- The static state of `bcm2835.c`, the memory, and the stores `feed_impl` has
made since the last `platform_init_meta`. -/
structure Board where
  META : Meta
  reloc : Reloc
  img_start : Nat
  img_end : Nat
  feed : Nat
  mem : Memory
  elf : ElfLoader
  xz : List XzAnswer
  stored : List Store

/-- The static state at power-on: all zero. -/
def Board.zero (mem : Memory) (xz : List XzAnswer) : Board where
  META := .ofBytes []
  reloc := .none
  img_start := 0
  img_end := 0
  feed := 0
  mem := mem
  elf := .zero
  xz := xz
  stored := []

/-! ## `platform_init_meta` -/

/-- The `switch` over the image format: where the image starts. -/
def imageStart (L : Linked) (m : Meta) : Option Nat :=
  if m.image_format = IMAGE_FLAT_BINARY then
    let load_addr := m.load_addr.toNat
    if DRAM_LIMIT ≤ load_addr then none
    else if DRAM_LIMIT ≤ load_addr + m.mem_size.toNat then none
    else if load_addr % 4 ≠ 0 then none
    else some load_addr
  else if m.image_format = IMAGE_ELF then some L.prog_end
  else none

/-- The relocation of an image at `[img_start, img_end)`; `none` if its buffer
does not fit. -/
def relocation (L : Linked) (img_start img_end : Nat) : Option Reloc :=
  let tgt_start := max img_start L.prog_start
  let tgt_end := min img_end L.prog_end
  let size :=
    if L.prog_start ≤ img_start ∧ img_start < L.prog_end ∨
        img_start < L.prog_start ∧ L.prog_start < img_end then sub32 tgt_end tgt_start
    else 0
  if size = 0 then some .none
  else
    let stub_size := L.trampoline.length
    let buf_start := max L.prog_end img_end
    if sub32 (sub32 DRAM_LIMIT size) stub_size ≤ buf_start then none
    else
      let buf_end := add32 buf_start size
      let stub_start := add32 buf_end 3 / 4 * 4
      some ⟨tgt_start, tgt_end, buf_start, buf_end, stub_start, add32 stub_start stub_size, size⟩

/-- `xz_dec_init` says whether the allocation of the decoder succeeds; it is
made for every image. -/
def platform_init_meta (L : Linked) (xz_dec_init : Bool) (m : Meta) (b : Board) : Bool × Board :=
  if NUM_COMPRESS_TYPES ≤ m.compression_type then (false, b)
  else if NUM_IMAGE_FORMATS ≤ m.image_format then (false, b)
  else
    match imageStart L m with
    | none => (false, b)
    | some img_start =>
        let img_end := add32 img_start m.mem_size.toNat
        let b : Board := { b with META := m, img_start := img_start, img_end := img_end }
        match relocation L img_start img_end with
        | none => (false, b)
        | some reloc =>
            let b : Board := { b with reloc := reloc }
            if xz_dec_init = false then (false, b)
            else (true, { b with feed := img_start, stored := [] })

/-! ## `platform_feed` -/

/-- One `memcpy` of `feed_impl`, and `feed += cnt`. -/
def Board.copy (b : Board) (dst : Nat) (data : List UInt8) : Board :=
  { b with
    mem := write (2 ^ 32) b.mem dst data
    stored := b.stored ++ [⟨dst, data⟩]
    feed := add32 b.feed data.length }

/-- The part of the data that belongs below the relocated range. -/
def feedBelow (b : Board) (data : List UInt8) : Board × List UInt8 :=
  if b.reloc.size ≠ 0 ∧ b.feed < b.reloc.tgt_start ∧
      b.reloc.tgt_start < add32 b.feed data.length then
    let cnt := b.reloc.tgt_start - b.feed
    (b.copy b.feed (data.take cnt), data.drop cnt)
  else (b, data)

/-- The part that belongs inside it, which goes to the buffer. -/
def feedInside (b : Board) (data : List UInt8) : Board × List UInt8 :=
  if b.reloc.size ≠ 0 ∧ b.reloc.tgt_start ≤ b.feed ∧ b.feed < b.reloc.tgt_end then
    let off := b.feed - b.reloc.tgt_start
    let cnt := min (b.reloc.tgt_end - b.feed) data.length
    (b.copy (add32 b.reloc.buf_start off) (data.take cnt), data.drop cnt)
  else (b, data)

/-- The rest. -/
def feedRest (b : Board) (data : List UInt8) : Board :=
  if data.length ≠ 0 then b.copy b.feed data else b

def feed_impl (b : Board) (data : List UInt8) : Board :=
  let below := feedBelow b data
  let inside := feedInside below.1 below.2
  feedRest inside.1 inside.2

/-- The decompressor has these answers left. -/
def Board.withXz (b : Board) (xz : List XzAnswer) : Board := { b with xz := xz }

/-- The loop around `xz_dec_run`, at `in_pos` of `in_size`. -/
def xzLoop (in_size : Nat) : List XzAnswer → Nat → Board → Option Bool × Board
  | [], in_pos, b => (if in_size ≤ in_pos then some true else none, b.withXz [])
  | a :: xz, in_pos, b =>
      if in_size ≤ in_pos then (some true, b.withXz (a :: xz))
      else
        match a.ret with
        | .XZ_OK | .XZ_STREAM_END => xzLoop in_size xz (in_pos + a.used) (feed_impl b a.out)
        | .XZ_UNSUPPORTED_CHECK => xzLoop in_size xz (in_pos + a.used) b
        | _ => (some false, b.withXz xz)

def platform_feed (data : List UInt8) (b : Board) : Option Bool × Board :=
  if b.META.compression_type = COMPRESS_XZ then xzLoop data.length b.xz 0 b
  else (some true, feed_impl b data)

/-! ## `platform_load_image` -/

/-- `crc_with_heartbeat(crc, data, until, block_size)`: the CRC and the number
of heartbeats. Every turn takes at least one byte, so `until - data` turns are
enough. -/
def crc_with_heartbeat (m : Memory) (block_size : Nat) : Nat → UInt32 → Nat → Nat → UInt32 × Nat
  | 0, crc, _, _ => (crc, 0)
  | turns + 1, crc, data, until_ =>
      if data < until_ then
        let blocksz := min (until_ - data) block_size
        let r := crc_with_heartbeat m block_size turns (crc32 crc (read m data blocksz))
          (data + blocksz) until_
        (r.1, r.2 + 1)
      else (crc, 0)

def CRC_BLOCKSIZE : Nat := 0x4000

/-- One call of `crc_with_heartbeat` in `platform_load_image`. -/
def crcRange (m : Memory) (acc : UInt32 × Nat) (data until_ : Nat) : UInt32 × Nat :=
  let r := crc_with_heartbeat m CRC_BLOCKSIZE (until_ - data) acc.1 data until_
  (r.1, acc.2 + r.2)

/-- The CRC of the image in its up to three pieces, the heartbeats sent
meanwhile, and where `feed` ends up. -/
def imageCrc (b : Board) (end_ : Nat) : (UInt32 × Nat) × Nat :=
  let r := b.reloc
  let below : (UInt32 × Nat) × Nat :=
    if r.size ≠ 0 ∧ b.img_start < r.tgt_start ∧ r.tgt_start < end_ then
      (crcRange b.mem (CRC_INIT, 0) b.img_start r.tgt_start, r.tgt_start)
    else ((CRC_INIT, 0), b.img_start)
  let inside : (UInt32 × Nat) × Nat :=
    if r.size ≠ 0 ∧ r.tgt_start ≤ below.2 ∧ below.2 < r.tgt_end then
      let off := below.2 - r.tgt_start
      let cnt := min (r.tgt_end - below.2) (sub32 end_ below.2)
      (crcRange b.mem below.1 (add32 r.buf_start off) (add32 (add32 r.buf_start off) cnt),
        add32 below.2 cnt)
    else below
  if inside.2 < end_ then (crcRange b.mem inside.1 inside.2 end_, inside.2) else inside

/-- The `switch` over the image format. A call that ends in an `ElfFault` does not come back. -/
def loadFormat (L : Linked) (b : Board) : Option Bool × Board :=
  if b.META.image_format = IMAGE_FLAT_BINARY then (some true, b)
  else if b.META.image_format = IMAGE_ELF then
    match load_elf_image L b.mem b.elf b.img_start b.img_end true true EM_ARM DRAM_LIMIT [] with
    | .error _ => (none, b)
    | .ok r => (some r.1.isSome, { b with mem := r.2.1, elf := r.2.2 })
  else (some false, b)

def platform_load_image (L : Linked) (b : Board) : Option Bool × Nat × Board :=
  let end_ := add32 b.img_start b.META.mem_size.toNat
  if b.feed ≠ end_ then (some false, 0, b)
  else if b.META.compression_type = COMPRESS_NONE then
    let crc := imageCrc b end_
    let r := loadFormat L { b with feed := crc.2 }
    (r.1.map (decide (crc.1.1 = b.META.mem_crc32) && ·), crc.1.2, r.2)
  else if b.META.compression_type = COMPRESS_XZ then
    let r := loadFormat L b
    (r.1, 0, r.2)
  else (some false, 0, b)

/-- The board as `fsm.c` sees it. -/
def board (L : Linked) (xz_dec_init : Bool) : Platform Board where
  platform_init_meta := platform_init_meta L xz_dec_init
  platform_feed _ := platform_feed
  platform_load_image := platform_load_image L

end Bcm2835.Pup

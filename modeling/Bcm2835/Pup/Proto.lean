import Bcm2835.Lib.Bytes
import Bcm2835.Pup.Recv

/-!
# Payloads and configuration (`common.h`)

The structures that travel as frame payloads, byte for byte, and the timeouts
the two state machines are configured with.
-/

namespace Bcm2835.Pup

open Bytes

/-- `meta_t`, 32 bytes on both sides: five words, the padding in front of the
union, and `format_metadata`, which only flat images fill in. -/
structure Meta where
  image_format : UInt32
  compression_type : UInt32
  wire_size : UInt32
  mem_size : UInt32
  mem_crc32 : UInt32
  pad : UInt32
  load_addr : UInt64
deriving DecidableEq

def COMPRESS_NONE : UInt32 := 0
def COMPRESS_XZ : UInt32 := 1
def NUM_COMPRESS_TYPES : UInt32 := 2

def IMAGE_FLAT_BINARY : UInt32 := 0
def IMAGE_ELF : UInt32 := 1
def NUM_IMAGE_FORMATS : UInt32 := 2

/-- The bytes of a `meta_t`. -/
def Meta.toBytes (m : Meta) : List UInt8 :=
  le32 m.image_format ++ le32 m.compression_type ++ le32 m.wire_size ++ le32 m.mem_size ++
    le32 m.mem_crc32 ++ le32 m.pad ++ le64 m.load_addr

/-- `memcpy(&meta, body, sizeof meta)`. -/
def Meta.ofBytes (bs : List UInt8) : Meta where
  image_format := get32 bs 0
  compression_type := get32 bs 4
  wire_size := get32 bs 8
  mem_size := get32 bs 12
  mem_crc32 := get32 bs 16
  pad := get32 bs 20
  load_addr := get64 bs 24

@[simp] theorem Meta.toBytes_length (m : Meta) : m.toBytes.length = 32 := by
  simp [Meta.toBytes]

@[simp] theorem Meta.ofBytes_toBytes (m : Meta) : Meta.ofBytes m.toBytes = m := by
  obtain ⟨f, c, w, s, k, p, a⟩ := m
  simp only [Meta.ofBytes, Meta.toBytes, Meta.mk.injEq]
  refine ⟨?_, ?_, ?_, ?_, ?_, ?_, ?_⟩
  · simpa using get32_append (a := []) f rfl
  · simpa using get32_append (a := le32 f) c (by simp)
  · simpa using get32_append (a := le32 f ++ le32 c) w (by simp)
  · simpa using get32_append (a := le32 f ++ le32 c ++ le32 w) s (by simp)
  · simpa using get32_append (a := le32 f ++ le32 c ++ le32 w ++ le32 s) k (by simp)
  · simpa using get32_append (a := le32 f ++ le32 c ++ le32 w ++ le32 s ++ le32 k) p (by simp)
  · simpa using
      get64_append (a := le32 f ++ le32 c ++ le32 w ++ le32 s ++ le32 k ++ le32 p) (c := []) a (by simp)

/-- The `POLL` frame for a meta. -/
def pollFrame (iden : UInt16) (m : Meta) : Frame := ⟨iden, HOST_POLL, m.toBytes, by simp⟩

/-- The `RQCH` frame for a chunk number. -/
def rqchFrame (iden : UInt16) (num : UInt32) : Frame := ⟨iden, DEV_RQCH, le32 num, by simp⟩

/-- The `BEAT` frame. -/
def beatFrame (iden : UInt16) : Frame := ⟨iden, DEV_BEAT, [], by simp⟩

/-- `boot_t` with `is_ok`. -/
def bootPayload (is_ok : Bool) : List UInt8 := [if is_ok then 1 else 0]

/-- The `BOOT` frame for a verdict. -/
def bootFrame (iden : UInt16) (is_ok : Bool) : Frame :=
  ⟨iden, DEV_BOOT, bootPayload is_ok, by simp [bootPayload]⟩

/-- The bytes of one chunk: as many as `staging` holds. -/
abbrev Chunk := {data : List UInt8 // data.length ≤ 0xffff}

/-- The `CHNK` frame for a chunk. -/
def chnkFrame (iden : UInt16) (data : Chunk) : Frame :=
  ⟨iden, HOST_CHNK, data.1, by have := data.2; omega⟩

/-! ## Timeouts -/

/-- `config_t`. -/
structure Config where
  baud : UInt32
  symbol_timeout : UInt32
  resend_timeout : UInt32
  reset_timeout : UInt32
  heartbeat_interval : UInt32

/-- The common body of `config_symbol_timeout_us`, `config_resend_timeout_us`
and `config_reset_timeout_us`. -/
def config_timeout_us (config : Config) (timeout : UInt32) : UInt64 :=
  let baseline := (timeout.toUInt64 * 1000000) / (config.baud / 10).toUInt64
  if baseline = 0 then 1 else baseline

def config_symbol_timeout_us (config : Config) : UInt64 :=
  config_timeout_us config config.symbol_timeout
def config_resend_timeout_us (config : Config) : UInt64 :=
  config_timeout_us config config.resend_timeout
def config_reset_timeout_us (config : Config) : UInt64 :=
  config_timeout_us config config.reset_timeout

/-- The `config` of `config.h` at `BAUD_RATE` 3'000'000. -/
def config : Config where
  baud := 3000000
  symbol_timeout := 1000
  resend_timeout := 70000
  reset_timeout := 500000
  heartbeat_interval := 100000

/-- The first lines of `fsm_download` and `fsm_upload`: the periods are set and
`TIMER_SYMBOL` is switched on. -/
def Fsm.configure (fsm : Fsm) (config : Config) : Fsm :=
  { fsm with
    timers := fun
      | .reset => { fsm.timers .reset with period := config_reset_timeout_us config }
      | .resend => { fsm.timers .resend with period := config_resend_timeout_us config }
      | .symbol =>
          { fsm.timers .symbol with period := config_symbol_timeout_us config, active := true } }

/-- The static `fsm` at power-on. -/
def Fsm.zero : Fsm := ⟨fun _ => ⟨0, 0, false⟩, 0⟩

end Bcm2835.Pup

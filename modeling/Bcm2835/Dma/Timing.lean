import Mathlib.Data.UInt
import Mathlib.Tactic.Linarith

/-!
# Durations of runs (`private.c`, `dma.c`)

`__dma_timed_run` reads two clocks before and after a run: the 32-bit cycle counter,
set to 0 at the start, and the microsecond timer. `dma_run_info_get_time_ns` takes
the number of wraps of the first from the second and converts the cycles to
nanoseconds. The wraps are always recovered (`ran_cycles`); the conversion
multiplies by 10^9 in 64 bits, and is exact for the runs whose product fits.
-/

namespace Bcm2835.Dma

/-- The clocks in `struct dma_run_info`. -/
structure DmaRunInfo where
  cycle_start : UInt32
  cycle_end : UInt32
  us_start : UInt64
  us_end : UInt64

/-- `DC`: a difference of two `uint32_t`. -/
def DmaRunInfo.DC (info : DmaRunInfo) : UInt64 := (info.cycle_end - info.cycle_start).toUInt64

def DmaRunInfo.dm (info : DmaRunInfo) : UInt64 := info.us_end - info.us_start

/-- A measured rate rounded up to a whole MHz. -/
def arm_freq (rate : UInt32) : UInt32 := (rate + 999999) / 1000000 * 1000000

/-- `k >>= 31; k = (k >> 1) + (k & 1)`. -/
def roundWraps (k : UInt64) : UInt64 := (k >>> 31 >>> 1) + (k >>> 31 &&& 1)

/-- How often the cycle counter wrapped: `k`. -/
def DmaRunInfo.wraps (info : DmaRunInfo) (freq : UInt32) : UInt64 :=
  if info.dm ≠ 0 then roundWraps (info.dm * freq.toUInt64 / 1000000 - info.DC) else 0

/-- The cycles of the run: the first value of `T`. -/
def DmaRunInfo.ran (info : DmaRunInfo) (freq : UInt32) : UInt64 :=
  info.DC + (info.wraps freq <<< 32)

/-- `rates i` is the answer to the `i`-th `ptag_get_measured_clock_rate(PCID_ARM)`; the first
five are dropped. There is no quotient for a rate of 0. -/
def dma_run_info_get_time_ns (rates : Nat → UInt32) (info : DmaRunInfo) : Option UInt64 :=
  if arm_freq (rates 5) = 0 then none
  else some (info.ran (arm_freq (rates 5)) * 1000000000 / (arm_freq (rates 5)).toUInt64)

/-! ## The clock rate -/

/-- The rounded rate is a number of MHz. -/
theorem arm_freq_mhz {rate : UInt32} (hpos : 0 < rate) (hlt : rate.toNat < 4 * 10 ^ 9) :
    ∃ F, (arm_freq rate).toNat = 1000000 * F ∧ 1 ≤ F ∧ F ≤ 4000 := by
  have hpos' : 0 < rate.toNat := hpos
  have hsum : (rate + 999999).toNat = rate.toNat + 999999 := by
    rw [UInt32.toNat_add]
    exact Nat.mod_eq_of_lt (by show rate.toNat + 999999 < 2 ^ 32; omega)
  refine ⟨(rate.toNat + 999999) / 1000000, ?_, by omega, by omega⟩
  rw [arm_freq, UInt32.toNat_mul, UInt32.toNat_div, hsum]
  show (rate.toNat + 999999) / 1000000 * 1000000 % 2 ^ 32 = _
  omega

/-! ## The wraps of the cycle counter -/

/-- Two shifts round to the nearest multiple of 2^32. -/
theorem roundWraps_toNat (k : UInt64) : (roundWraps k).toNat = (k.toNat + 2 ^ 31) / 2 ^ 32 := by
  have hk := k.toNat_lt
  have hbit : (k >>> 31 &&& 1).toNat = k.toNat / 2 ^ 31 % 2 := by
    rw [UInt64.toNat_and, UInt64.toNat_shiftRight]
    show k.toNat >>> 31 &&& 1 = _
    rw [Nat.and_one_is_mod, Nat.shiftRight_eq_div_pow]
  have hhalf : (k >>> 31 >>> 1).toNat = k.toNat / 2 ^ 31 / 2 := by
    rw [UInt64.toNat_shiftRight, UInt64.toNat_shiftRight]
    show k.toNat >>> 31 >>> 1 = _
    rw [Nat.shiftRight_eq_div_pow, Nat.shiftRight_eq_div_pow, Nat.pow_one]
  rw [roundWraps, UInt64.toNat_add, hbit, hhalf]
  omega

variable {info : DmaRunInfo} {C : Nat}

theorem DmaRunInfo.DC_toNat (hstart : info.cycle_start = 0) (hend : info.cycle_end.toNat = C % 2 ^ 32) :
    info.DC.toNat = C % 2 ^ 32 := by
  rw [DmaRunInfo.DC, UInt32.toNat_toUInt64, hstart, UInt32.sub_zero, hend]

/-- A microsecond estimate closer than 2^31 to the cycles tells the cycles, also when it
is too low. -/
theorem DmaRunInfo.ran_cycles {freq : UInt32} {F : Nat} (hstart : info.cycle_start = 0)
    (hend : info.cycle_end.toNat = C % 2 ^ 32) (hF : freq.toNat = 1000000 * F)
    (hclose : |((info.dm.toNat * F : Nat) : Int) - C| < 2 ^ 31) (hC : C < 2 ^ 40) :
    (info.ran freq).toNat = C := by
  have hDC := DmaRunInfo.DC_toNat hstart hend
  obtain ⟨hlo, hhi⟩ := abs_lt.mp hclose
  by_cases hdm : info.dm = 0
  · -- no estimate: the counter has not wrapped
    have hzero : info.dm.toNat = 0 := by
      rw [hdm]
      rfl
    rw [hzero] at hlo
    rw [DmaRunInfo.ran, DmaRunInfo.wraps, if_neg (not_not_intro hdm), UInt64.toNat_add, hDC]
    show (C % 2 ^ 32 + 0) % 2 ^ 64 = C
    omega
  · generalize hE : info.dm.toNat * F = E at hlo hhi
    have hmul : info.dm.toNat * (1000000 * F) = 1000000 * E := by
      rw [← hE, Nat.mul_left_comm]
    have hest : (info.dm * freq.toUInt64 / 1000000).toNat = E := by
      rw [UInt64.toNat_div, UInt64.toNat_mul, UInt32.toNat_toUInt64, hF, hmul]
      show 1000000 * E % 2 ^ 64 / 1000000 = E
      omega
    have hk : (info.dm * freq.toUInt64 / 1000000 - info.DC).toNat =
        (2 ^ 64 - C % 2 ^ 32 + E) % 2 ^ 64 := by
      rw [UInt64.toNat_sub, hest, hDC]
    have hshift : (info.wraps freq <<< 32).toNat =
        ((2 ^ 64 - C % 2 ^ 32 + E) % 2 ^ 64 + 2 ^ 31) / 2 ^ 32 * 2 ^ 32 % 2 ^ 64 := by
      rw [DmaRunInfo.wraps, if_pos hdm, UInt64.toNat_shiftLeft, roundWraps_toNat, hk]
      show _ <<< 32 % 2 ^ 64 = _
      rw [Nat.shiftLeft_eq]
    rw [DmaRunInfo.ran, UInt64.toNat_add, hDC, hshift]
    -- an estimate below the first count makes `k` wrap to 2^32, which the shift drops
    omega

/-! ## Nanoseconds -/

/-- A product reduced to 64 bits has a smaller quotient. -/
theorem quotient_of_wrapped {n f : Nat} (hf : 0 < f) (hle : f ≤ 2 ^ 64) (hn : 2 ^ 64 ≤ n) :
    n % 2 ^ 64 / f < n / f := by
  have hstep : n % 2 ^ 64 + f ≤ n := by omega
  have hdiv : (n % 2 ^ 64 + f) / f ≤ n / f := Nat.div_le_div_right hstep
  rw [Nat.add_div_right _ hf] at hdiv
  omega

/-- From 2^35 cycles on the duration is longer than every 64-bit product's. -/
theorem quotient_of_long {p n f : Nat} (hf : 0 < f) (hle : f ≤ 4 * 10 ^ 9) (hp : p < 2 ^ 64)
    (hn : 2 ^ 35 * 1000000000 ≤ n) : p / f < n / f := by
  have hdiv : (p + f) / f ≤ n / f := Nat.div_le_div_right (by omega)
  rw [Nat.add_div_right _ hf] at hdiv
  omega

/-- The duration is exact, to the last nanosecond, if and only if the cycles times 10^9 fit
in 64 bits. -/
theorem get_time_ns_exact_iff {rates : Nat → UInt32} {rate : UInt32} (hfixed : ∀ i, rates i = rate)
    (hpos : 0 < rate) (hrate : rate.toNat < 4 * 10 ^ 9) (hstart : info.cycle_start = 0)
    (hend : info.cycle_end.toNat = C % 2 ^ 32)
    (hclose : |((info.dm.toNat * (arm_freq rate).toNat / 10 ^ 6 : Nat) : Int) - C| < 2 ^ 31) :
    (dma_run_info_get_time_ns rates info).map (·.toNat) = some (C * 10 ^ 9 / (arm_freq rate).toNat) ↔
      C * 10 ^ 9 < 2 ^ 64 := by
  obtain ⟨F, hF, hF1, hF2⟩ := arm_freq_mhz hpos hrate
  have hne : arm_freq rate ≠ 0 := by
    intro h0
    rw [h0] at hF
    have hzero : (0 : UInt32).toNat = 0 := rfl
    omega
  have hEF : info.dm.toNat * (1000000 * F) / 10 ^ 6 = info.dm.toNat * F := by
    rw [Nat.mul_left_comm]
    exact Nat.mul_div_cancel_left _ (by decide)
  rw [hF, hEF] at hclose
  have hval : (dma_run_info_get_time_ns rates info).map (·.toNat) =
      some ((info.ran (arm_freq rate)).toNat * 1000000000 % 2 ^ 64 / (1000000 * F)) := by
    rw [dma_run_info_get_time_ns, hfixed, if_neg hne, Option.map_some, UInt64.toNat_div,
      UInt64.toNat_mul, UInt32.toNat_toUInt64, hF]
    rfl
  rw [hval, hF, Option.some_inj]
  show _ = C * 1000000000 / _ ↔ C * 1000000000 < 2 ^ 64
  constructor
  · intro heq
    by_contra hbig
    by_cases hC : C < 2 ^ 35
    · rw [DmaRunInfo.ran_cycles hstart hend hF hclose (by omega)] at heq
      have := quotient_of_wrapped (n := C * 1000000000) (f := 1000000 * F) (by omega) (by omega) (by omega)
      omega
    · have := quotient_of_long (p := (info.ran (arm_freq rate)).toNat * 1000000000 % 2 ^ 64)
        (n := C * 1000000000) (f := 1000000 * F) (by omega) (by omega) (Nat.mod_lt _ (by decide)) (by omega)
      omega
  · intro hlt
    rw [DmaRunInfo.ran_cycles hstart hend hF hclose (by omega), Nat.mod_eq_of_lt hlt]

/-- 20 seconds at 700 MHz: three wraps of the counter. -/
def DmaRunInfo.long : DmaRunInfo where
  cycle_start := 0
  cycle_end := 1115098112
  us_start := 0
  us_end := 20000000

/-- 30 seconds at 700 MHz. -/
def DmaRunInfo.longer : DmaRunInfo where
  cycle_start := 0
  cycle_end := 3820130816
  us_start := 0
  us_end := 30000000

theorem get_time_ns_exact_iff_sample :
    (dma_run_info_get_time_ns (fun _ => 699999488) .long).map (·.toNat) =
        some (14000000000 * 10 ^ 9 / (arm_freq 699999488).toNat) ↔
      14000000000 * 10 ^ 9 < 2 ^ 64 :=
  get_time_ns_exact_iff (fun _ => rfl) (by decide) (by decide) rfl (by decide) (by decide)

/-- A run of 30 seconds, with clocks that agree, is reported as one of 3.6. -/
theorem get_time_ns_overflow : DmaRunInfo.longer.cycle_end.toNat = 21000000000 % 2 ^ 32 ∧
    DmaRunInfo.longer.dm.toNat * (arm_freq 699999488).toNat / 10 ^ 6 = 21000000000 ∧
    21000000000 * 10 ^ 9 / (arm_freq 699999488).toNat = 30000000000 ∧
    (dma_run_info_get_time_ns (fun _ => 699999488) .longer).map (·.toNat) = some 3647508466 := by
  decide

end Bcm2835.Dma

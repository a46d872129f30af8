import Bcm2835.Lib.Buf
import Mathlib.Data.UInt

/-!
# Byte memories

A memory is a function from addresses to bytes. `scatter` stores bytes one
after the other at a list of addresses; a `memcpy` in an address space of `N`
bytes is the case of consecutive addresses modulo `N` (`span`).
-/

namespace Mem

/-- A byte-addressed memory. -/
abbrev Memory := Nat → UInt8

/-- The `n` bytes at `a`. -/
def read (m : Memory) (a n : Nat) : List UInt8 := Buf.taken (fun i => m (a + i)) n

/-- Stores the bytes at the addresses, in order. -/
def scatter (m : Memory) : List Nat → List UInt8 → Memory
  | a :: as, b :: bs => scatter (Function.update m a b) as bs
  | _, _ => m

/-- The `n` addresses from `a` on, modulo `N`. -/
def span (N a n : Nat) : List Nat := (List.range n).map fun i => (a + i) % N

/-- Stores `bs` at `a`, modulo `N`. -/
def write (N : Nat) (m : Memory) (a : Nat) (bs : List UInt8) : Memory :=
  scatter m (span N a bs.length) bs

@[simp] theorem read_length (m : Memory) (a n : Nat) : (read m a n).length = n := by simp [read]

@[simp] theorem span_length (N a n : Nat) : (span N a n).length = n := by simp [span]

@[simp] theorem span_zero (N a : Nat) : span N a 0 = [] := rfl

theorem mem_span {N a n x : Nat} : x ∈ span N a n ↔ ∃ i < n, (a + i) % N = x := by
  simp [span]

theorem span_add (N a j k : Nat) : span N a (j + k) = span N a j ++ span N (a + j) k := by
  simp [span, List.range_add, List.map_map, Function.comp_def, Nat.add_assoc]

/-- A start that is already reduced and one that is not reach the same cells. -/
theorem span_mod (N a n : Nat) : span N (a % N) n = span N a n := by
  simp [span]

/-- Addresses that do not reach the end of the address space do not wrap. -/
theorem span_eq_range' {N a n : Nat} (h : a + n ≤ N) : span N a n = List.range' a n := by
  rw [List.range'_eq_map_range]
  refine List.map_congr_left fun i hi => ?_
  have hlt : i < n := List.mem_range.mp hi
  exact Nat.mod_eq_of_lt (by omega)

@[simp] theorem scatter_nil (m : Memory) (bs : List UInt8) : scatter m [] bs = m := by
  simp [scatter]

theorem scatter_append {as as' : List Nat} {bs bs' : List UInt8} (m : Memory)
    (h : as.length = bs.length) :
    scatter m (as ++ as') (bs ++ bs') = scatter (scatter m as bs) as' bs' := by
  induction as generalizing m bs with
  | nil =>
      cases bs with
      | nil => rfl
      | cons b bs => simp at h
  | cons a as ih =>
      cases bs with
      | nil => simp at h
      | cons b bs => exact ih _ (by simpa using h)

/-- Only the listed addresses change. -/
theorem scatter_of_not_mem {as : List Nat} {bs : List UInt8} {x : Nat} (m : Memory)
    (h : x ∉ as) : scatter m as bs x = m x := by
  induction as generalizing m bs with
  | nil => simp
  | cons a as ih =>
      cases bs with
      | nil => rfl
      | cons b bs =>
          rw [scatter, ih _ fun hx => h (List.mem_cons_of_mem _ hx)]
          have hne : x ≠ a := fun hx => h (by simp [hx])
          exact Function.update_of_ne hne _ _

/-- An address listed once holds its byte. -/
theorem scatter_getElem {as : List Nat} {bs : List UInt8} (m : Memory) (hnd : as.Nodup)
    {i : Nat} (hi : i < as.length) (hb : i < bs.length) : scatter m as bs as[i] = bs[i] := by
  induction as generalizing m bs i with
  | nil => simp at hi
  | cons a as ih =>
      obtain ⟨ha, hnd⟩ := List.nodup_cons.mp hnd
      cases bs with
      | nil => simp at hb
      | cons b bs =>
          cases i with
          | zero => simp [scatter, scatter_of_not_mem _ ha]
          | succ i => simpa [scatter] using ih _ hnd (by simpa using hi) (by simpa using hb)

/-! ## Blocks -/

theorem read_add (m : Memory) (a j k : Nat) :
    read m a (j + k) = read m a j ++ read m (a + j) k := by
  simp only [read, Buf.taken_add, Nat.add_assoc]

@[simp] theorem read_zero (m : Memory) (a : Nat) : read m a 0 = [] := rfl

@[simp] theorem write_nil (N : Nat) (m : Memory) (a : Nat) : write N m a [] = m := rfl

/-- A block written in two parts. -/
theorem write_append (N : Nat) (m : Memory) (a : Nat) (bs bs' : List UInt8) :
    write N m a (bs ++ bs') = write N (write N m a bs) (a + bs.length) bs' := by
  rw [write, List.length_append, span_add, scatter_append m (span_length N a bs.length)]
  rfl

/-- A write does not show where it does not reach. -/
theorem write_of_outside {N a x : Nat} {bs : List UInt8} (m : Memory) (hfit : a + bs.length ≤ N)
    (hx : x < a ∨ a + bs.length ≤ x) : write N m a bs x = m x := by
  refine scatter_of_not_mem m ?_
  rw [span_eq_range' hfit, List.mem_range'_1]
  omega

/-- A byte of a written block. -/
theorem write_getElem {N a i : Nat} {bs : List UInt8} (m : Memory) (hfit : a + bs.length ≤ N)
    (hi : i < bs.length) : write N m a bs (a + i) = bs[i] := by
  have hlen : i < (span N a bs.length).length := by simpa using hi
  have hat : (span N a bs.length)[i] = a + i := by
    simp only [span_eq_range' hfit, List.getElem_range', Nat.one_mul]
  have hnd : (span N a bs.length).Nodup := by
    rw [span_eq_range' hfit]
    exact List.nodup_range'
  have hget := scatter_getElem m hnd hlen hi
  rw [hat] at hget
  exact hget

theorem read_congr {m m' : Memory} {a n : Nat} (h : ∀ i < n, m (a + i) = m' (a + i)) :
    read m a n = read m' a n :=
  List.map_congr_left fun i hi => h i (List.mem_range.mp hi)

/-- A block that does not meet what is written reads the same. -/
theorem read_write_of_apart {N a b n : Nat} {bs : List UInt8} (m : Memory)
    (hfit : a + bs.length ≤ N) (h : b + n ≤ a ∨ a + bs.length ≤ b) :
    read (write N m a bs) b n = read m b n := by
  apply read_congr
  intro i hi
  exact write_of_outside m hfit (by omega)

/-- What was written reads back. -/
theorem read_write {N a : Nat} {b : List UInt8} (m : Memory) (hfit : a + b.length ≤ N) :
    read (write N m a b) a b.length = b := by
  apply List.ext_getElem
  · simp
  · intro i hi hi'
    simpa [read, Buf.taken] using write_getElem m hfit hi'

/-- A part of what was written reads back. -/
theorem read_write_part {N a o n : Nat} {b : List UInt8} (m : Memory) (hfit : a + b.length ≤ N)
    (h : o + n ≤ b.length) : read (write N m a b) (a + o) n = (b.drop o).take n := by
  apply List.ext_getElem
  · simp only [read_length, List.length_take, List.length_drop]
    omega
  · intro i hi hi'
    rw [read_length] at hi
    have hget := write_getElem m hfit (show o + i < b.length by omega)
    simp only [read, Buf.taken, List.getElem_map, List.getElem_range, List.getElem_take,
      List.getElem_drop]
    rwa [Nat.add_assoc]

end Mem

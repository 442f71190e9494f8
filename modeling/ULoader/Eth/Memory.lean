/-
**Buffers in memory.**

The driver's buffers lie in one array, the buffer of descriptor `i` at `i * B`. `readBytes` and `overwrite`
are what `memcpy` reads and writes; buffers of different descriptors are apart (`buffers_apart`).
-/

import Mathlib.Data.List.Basic

namespace ULoader.Eth

/-- The bytes `memcpy` reads. -/
def readBytes (memory : Nat → UInt8) (addr count : Nat) : List UInt8 :=
  (List.range count).map fun i => memory (addr + i)

/-- Memory after a write of consecutive bytes. -/
def overwrite (memory : Nat → UInt8) (addr : Nat) (bytes : List UInt8) : Nat → UInt8 :=
  fun a => if addr ≤ a then bytes.getD (a - addr) (memory a) else memory a

/-- One byte of an overwritten memory. -/
theorem overwrite_inside (memory : Nat → UInt8) (addr : Nat) (bytes : List UInt8) {i : Nat}
    (inside : i < bytes.length) : overwrite memory addr bytes (addr + i) = bytes.getD i 0 := by
  simp [overwrite, List.getD_eq_getElem?_getD, inside]

theorem overwrite_outside {memory : Nat → UInt8} {addr : Nat} {bytes : List UInt8} {a : Nat}
    (outside : a < addr ∨ addr + bytes.length ≤ a) : overwrite memory addr bytes a = memory a := by
  unfold overwrite
  split
  · rw [List.getD_eq_getElem?_getD, List.getElem?_eq_none (by omega), Option.getD_none]
  · rfl

theorem readBytes_overwrite_self (memory : Nat → UInt8) (addr : Nat) (bytes : List UInt8) :
    readBytes (overwrite memory addr bytes) addr bytes.length = bytes := by
  apply List.ext_getElem
  · simp [readBytes]
  · intro i _ inside
    simp [readBytes, overwrite, inside]

theorem readBytes_overwrite_other {memory : Nat → UInt8} {addr other count : Nat}
    {bytes : List UInt8} (apart : other + count ≤ addr ∨ addr + bytes.length ≤ other) :
    readBytes (overwrite memory addr bytes) other count = readBytes memory other count := by
  refine List.map_congr_left fun i member => overwrite_outside ?_
  have inside := List.mem_range.mp member
  omega

/-- Buffers of different descriptors do not overlap. -/
theorem buffers_apart {B first second : Nat} (different : first ≠ second) {count size : Nat}
    (countFits : count ≤ B) (sizeFits : size ≤ B) :
    first * B + count ≤ second * B ∨ second * B + size ≤ first * B := by
  rcases Nat.lt_or_gt_of_ne different with less | greater
  · left
    calc first * B + count ≤ first * B + B := by omega
      _ = (first + 1) * B := (Nat.succ_mul first B).symm
      _ ≤ second * B := Nat.mul_le_mul_right B less
  · right
    calc second * B + size ≤ second * B + B := by omega
      _ = (second + 1) * B := (Nat.succ_mul second B).symm
      _ ≤ first * B := Nat.mul_le_mul_right B greater

theorem readBytes_take (memory : Nat → UInt8) (addr : Nat) {count fewer : Nat}
    (less : fewer ≤ count) :
    readBytes memory addr fewer = (readBytes memory addr count).take fewer := by
  rw [readBytes, readBytes, ← List.map_take, List.take_range, Nat.min_eq_left less]

end ULoader.Eth

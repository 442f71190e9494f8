/-
**Words and the two byte orders.**

`loadLE` and `storeLE` are a little-endian machine's 16-bit read and write, `byteSwap` exchanges the
two bytes of a word, `storeBE` is the network order. A read followed by `byteSwap` is the big-endian
value of the two bytes; swapping that value again before the write puts the very same two bytes back
(`storeLE_byteSwap_byteSwap_loadLE`).
-/

import Mathlib.Tactic.IntervalCases

namespace ByteOrder

/-- A word with its two bytes exchanged. -/
def byteSwap (w : UInt16) : UInt16 := (w >>> 8) ||| (w <<< 8)

/-- The word a little-endian machine reads from two consecutive bytes. -/
def loadLE (low high : UInt8) : UInt16 := low.toUInt16 ||| (high.toUInt16 <<< 8)

/-- The two bytes a little-endian machine writes for a word. -/
def storeLE (w : UInt16) : List UInt8 := [w.toUInt8, (w >>> 8).toUInt8]

/-- The two bytes of a word in network order. -/
def storeBE (w : UInt16) : List UInt8 := [(w >>> 8).toUInt8, w.toUInt8]

/-- `IP4_ADDR(ipaddr, a, b, c, d)` on a little-endian machine: the word whose bytes in memory are
`a`, `b`, `c`, `d`. -/
def ip4Addr (a b c d : UInt8) : UInt32 :=
  (d.toUInt32 <<< 24) ||| (c.toUInt32 <<< 16) ||| (b.toUInt32 <<< 8) ||| a.toUInt32

theorem byteSwap_byteSwap (w : UInt16) : byteSwap (byteSwap w) = w := by
  apply UInt16.eq_of_toBitVec_eq
  simp only [byteSwap, UInt16.toBitVec_or, UInt16.toBitVec_shiftLeft, UInt16.toBitVec_shiftRight]
  generalize w.toBitVec = bits
  apply BitVec.eq_of_getLsbD_eq
  intro i inside
  interval_cases i <;> simp

theorem storeLE_loadLE (low high : UInt8) : storeLE (loadLE low high) = [low, high] := by
  have first : (loadLE low high).toUInt8 = low := by
    apply UInt8.eq_of_toBitVec_eq
    apply BitVec.eq_of_getLsbD_eq
    intro i inside
    interval_cases i <;> simp [loadLE]
  have second : (loadLE low high >>> 8).toUInt8 = high := by
    apply UInt8.eq_of_toBitVec_eq
    apply BitVec.eq_of_getLsbD_eq
    intro i inside
    interval_cases i <;> simp [loadLE]
  rw [storeLE, first, second]

/-- A word read back from its own two bytes. -/
theorem loadLE_bytes (word : UInt16) : loadLE word.toUInt8 (word >>> 8).toUInt8 = word := by
  apply UInt16.eq_of_toBitVec_eq
  apply BitVec.eq_of_getLsbD_eq
  intro i inside
  interval_cases i <;> simp [loadLE, -UInt16.toUInt16_toUInt8]

/-- Swapped on the way in and on the way out, the two bytes come back as they were. -/
theorem storeLE_byteSwap_byteSwap_loadLE (low high : UInt8) :
    storeLE (byteSwap (byteSwap (loadLE low high))) = [low, high] := by
  rw [byteSwap_byteSwap, storeLE_loadLE]

end ByteOrder

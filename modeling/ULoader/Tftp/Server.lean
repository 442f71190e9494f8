/-
**The other end of a transfer: an RFC 1350 server.**

A `Transfer` is a file, the end point the server answers from, and how each of its DATA datagrams lies
in memory: how many bytes the first pbuf takes, and what follows them. A block arrives unfragmented, so the
first pbuf takes at least the header (`poolRoom` bytes in a buffer of the pool).

The file goes out in `blockCount = |f| / 512 + 1` blocks; block `k ≥ 1` carries the bytes
`512 (k - 1) .. min (512 k, |f|) - 1` and the number `k mod 2^16` in network order. The last block is
the first one with fewer than 512 bytes, so it is empty when `|f|` is a multiple of 512.

The lemmas say how the client sees a block: as DATA (`type_datagram`), with the server's ACK as the
answer (`ack_datagram`), short exactly when it is the last one (`totLen_datagram_lt_iff`), and worth as many
bytes as it carries (`sizeAfter_datagram`).
-/

import Mathlib.Data.Nat.Basic
import ULoader.Tftp.Client

namespace ULoader.Tftp

open ByteOrder

/-- A file, the end point it is served from, how much of each datagram its first pbuf can take, and what
lies in memory behind that. -/
structure Transfer where
  file : List UInt8
  source : Endpoint
  room : Nat → Nat
  header : ∀ k, 4 ≤ room k
  behind : Nat → Nat → UInt8

/-- The room in a buffer of the pool, behind the Ethernet, IP and UDP headers of a frame. -/
def poolRoom : Nat := 512 - 14 - 20 - 8

theorem header_le_poolRoom : 4 ≤ poolRoom := by decide

namespace Transfer

/-- A file whose datagrams arrive unfragmented, in buffers of the pool. -/
def pooled (file : List UInt8) (source : Endpoint) : Transfer :=
  ⟨file, source, fun _ => poolRoom, fun _ => header_le_poolRoom, fun _ _ => 0⟩

variable (t : Transfer)

/-- The number of DATA blocks of the file. -/
def blockCount : Nat := t.file.length / 512 + 1

/-- The file bytes block `k` carries. -/
def dataBytes (k : Nat) : List UInt8 := (t.file.drop (512 * (k - 1))).take 512

/-- The bytes of DATA block `k`. -/
def dataMsg (k : Nat) : List UInt8 :=
  [0x00, 0x03] ++ storeBE (UInt16.ofNat k) ++ t.dataBytes k

/-- The ACK of block `k` the server waits for. -/
def ackMsg (k : Nat) : List UInt8 := [0x00, 0x04] ++ storeBE (UInt16.ofNat k)

theorem length_dataBytes_le (k : Nat) : (t.dataBytes k).length ≤ 512 := List.length_take_le _ _

theorem length_dataMsg (k : Nat) : (t.dataMsg k).length = 4 + (t.dataBytes k).length := by
  simp [dataMsg, storeBE]
  omega

/-- DATA block `k` as the client receives it. -/
def datagram (k : Nat) : Pbuf where
  payload := t.dataMsg k
  len := min (t.room k) (t.dataMsg k).length
  beyond := t.behind k
  chained := Nat.min_le_right _ _
  fits := by
    have := t.length_dataBytes_le k
    rw [length_dataMsg]
    omega

/-! ### Block lengths -/

theorem length_dataBytes (k : Nat) :
    (t.dataBytes k).length = min 512 (t.file.length - 512 * (k - 1)) := by
  simp [dataBytes]

theorem length_dataBytes_of_lt {k : Nat} (positive : 1 ≤ k) (inside : k < t.blockCount) :
    (t.dataBytes k).length = 512 := by
  unfold blockCount at inside
  rw [length_dataBytes]
  omega

theorem length_dataBytes_last : (t.dataBytes t.blockCount).length = t.file.length % 512 := by
  rw [length_dataBytes, blockCount]
  omega

/-! ### How the client sees a block -/

theorem totLen_datagram (k : Nat) : (t.datagram k).totLen = 4 + (t.dataBytes k).length :=
  t.length_dataMsg k

/-- The header is in the first pbuf. -/
theorem four_le_len_datagram (k : Nat) : 4 ≤ (t.datagram k).len := by
  have message := t.length_dataMsg k
  exact le_min (t.header k) (by omega)

theorem type_datagram (k : Nat) : (t.datagram k).type = 3 := by
  have held := t.four_le_len_datagram k
  rw [Pbuf.type_of_len _ (by omega)]
  show byteSwap (loadLE 0x00 0x03) = 3
  decide

/-- The client's answer to block `k` is the ACK the server waits for. -/
theorem ack_datagram (k : Nat) :
    [0x00, 0x04, (t.datagram k).byte 2, (t.datagram k).byte 3] = ackMsg k := by
  have held := t.four_le_len_datagram k
  rw [Pbuf.byte_of_lt _ (by omega), Pbuf.byte_of_lt _ (by omega)]
  rfl

/-- Only the last block is shorter than a full one. -/
theorem totLen_datagram_lt_iff {k : Nat} (positive : 1 ≤ k) (inside : k ≤ t.blockCount) :
    (t.datagram k).totLen < 512 + 4 ↔ k = t.blockCount := by
  rw [totLen_datagram]
  constructor
  · intro shorter
    by_contra different
    have full := t.length_dataBytes_of_lt positive (lt_of_le_of_ne inside different)
    omega
  · rintro rfl
    have last := t.length_dataBytes_last
    omega

/-- A block adds the bytes it carries to `file_size`. -/
theorem sizeAfter_datagram (size : UInt32) (k : Nat) :
    sizeAfter size (t.datagram k) = size + UInt32.ofNat (t.dataBytes k).length := by
  have header : UInt32.ofNat (4 + (t.dataBytes k).length) - 4 =
      UInt32.ofNat (t.dataBytes k).length := by
    rw [UInt32.ofNat_add, UInt32.add_comm]
    exact UInt32.add_sub_cancel _ 4
  rw [sizeAfter, if_pos (t.type_datagram k), totLen_datagram, header]

end Transfer

end ULoader.Tftp

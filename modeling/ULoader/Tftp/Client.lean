/-
**The TFTP client (`src/tftp.c`).**

The client keeps two globals: `tftp_upcb`, the control block of the last `tftp` command, and
`file_size`. lwIP keeps which blocks are live, that is obtained from `udp_new` and not yet passed to
`udp_remove`; only a live block gets callbacks. `tftpRecv` is the callback. What the functions send,
remove and print is returned as a list of effects, in program order.

* A datagram is a `Pbuf` chain: its payload, how much of it the first pbuf holds, and the memory behind
  that. `tftp_recv` reads four bytes at the first pbuf's payload whatever its length is, which after IP
  reassembly can be zero; `tot_len` counts the whole chain.
* `pbuf_alloc` is taken to succeed (the code never tests its result), and `tot_len` to read the same
  after `pbuf_free`.
* `tftpRecv` is opened once: `tftpRecv_fst` says what it does to the globals, `sends_tftpRecv` and
  `removes_tftpRecv` which calls it makes; the proofs about runs use these.
-/

import Mathlib.Data.Finset.Basic
import ULoader.Lib.ByteOrder

namespace ULoader.Tftp

open ByteOrder

/-! ### Datagrams -/

/-- A UDP end point: IPv4 address and port. -/
structure Endpoint where
  addr : UInt32
  port : UInt16
  deriving DecidableEq, Repr

/-- A UDP control block, named by its address in lwIP's pool. -/
abbrev Pcb := Nat

/-- A received chain of `pbuf`s: the datagram's payload over all of them, the number `p->len` of its
bytes in the first one, and the memory that follows these. -/
structure Pbuf where
  payload : List UInt8
  len : Nat
  beyond : Nat → UInt8
  chained : len ≤ payload.length
  fits : payload.length < 2 ^ 16

namespace Pbuf

/-- A datagram that lies in one pbuf. -/
def single (payload : List UInt8) (beyond : Nat → UInt8) (fits : payload.length < 2 ^ 16) : Pbuf where
  payload := payload
  len := payload.length
  beyond := beyond
  chained := Nat.le_refl _
  fits := fits

/-- `p->tot_len`. -/
def totLen (p : Pbuf) : Nat := p.payload.length

/-- The payload of the first pbuf. -/
def front (p : Pbuf) : List UInt8 := p.payload.take p.len

/-- The byte at `p->payload + index`: in the first pbuf, or in the memory behind it. The payload of the
next pbuf lies elsewhere. -/
def byte (p : Pbuf) (index : Nat) : UInt8 := p.front.getD index (p.beyond (index - p.len))

/-- `*(unsigned short *) (p->payload + index)`. -/
def short (p : Pbuf) (index : Nat) : UInt16 := loadLE (p.byte index) (p.byte (index + 1))

/-- The datagram's type, as `tftp_recv` reads it. -/
def type (p : Pbuf) : UInt16 := byteSwap (p.short 0)

/-- The datagram's block number, as `tftp_recv` reads it. -/
def block (p : Pbuf) : UInt16 := byteSwap (p.short 2)

/-- The datagram's type field, as it was sent. -/
def sentType (p : Pbuf) : UInt16 := byteSwap (loadLE (p.payload.getD 0 0) (p.payload.getD 1 0))

theorem length_front (p : Pbuf) : p.front.length = p.len := by
  rw [front, List.length_take, Nat.min_eq_left p.chained]

theorem byte_of_lt (p : Pbuf) {index : Nat} (inside : index < p.len) :
    p.byte index = p.payload.getD index 0 := by
  have within : index < p.payload.length := Nat.lt_of_lt_of_le inside p.chained
  simp [byte, front, List.getD_eq_getElem?_getD, inside, within]

/-- The type is read as it was sent when the first pbuf holds it. -/
theorem type_of_len (p : Pbuf) (held : 2 ≤ p.len) : p.type = p.sentType := by
  rw [type, short, p.byte_of_lt (by omega), p.byte_of_lt (by omega), sentType]

end Pbuf

/-! ### Effects -/

/-- What `tftp_recv` prints. -/
inductive Report where
  | receive (totLen : Nat) (source : Endpoint)
  | data
  | block (number : UInt16)
  | ack
  | error
  | unknown
  | done
  | fileSize (bytes : UInt32)
  deriving DecidableEq

/-- What the client does besides changing its own globals. -/
inductive Effect where
  | print (report : Report)
  | udpSendto (pcb : Option Pcb) (payload : List UInt8) (dest : Endpoint)
  | udpRemove (pcb : Option Pcb)
  deriving DecidableEq

/-- The blocks passed to `udp_remove`. -/
def removes (effects : List Effect) : List (Option Pcb) :=
  effects.filterMap fun
    | .udpRemove pcb => some pcb
    | _ => none

/-- The datagrams passed to `udp_sendto`, with the block they are sent through. -/
def sends (effects : List Effect) : List (Option Pcb × List UInt8 × Endpoint) :=
  effects.filterMap fun
    | .udpSendto pcb payload dest => some (pcb, payload, dest)
    | _ => none

/-! ### The client -/

/-- The client's globals, and the TFTP blocks that are live in lwIP. -/
structure Client where
  tftpUpcb : Option Pcb := none
  fileSize : UInt32 := 0
  live : Finset Pcb := ∅
  deriving DecidableEq

/-- A client in the middle of a transfer: its control block is live and is `tftp_upcb`. -/
structure OpenTransfer where
  client : Client
  pcb : Pcb
  current : client.tftpUpcb = some pcb
  isLive : pcb ∈ client.live

/-- `tftp_init`, where `udp_new` returns `fresh`. -/
def tftpInit (fresh : Pcb) (c : Client) : Client :=
  { tftpUpcb := some fresh, fileSize := 0, live := insert fresh c.live }

/-- `tftp_deinit`: `udp_remove(tftp_upcb)`. -/
def tftpDeinit (c : Client) : Client × List Effect :=
  ({ c with live := c.tftpUpcb.elim c.live c.live.erase }, [.udpRemove c.tftpUpcb])

/-- `memcpy(dst + offset, src, n)` into a buffer; `none` when it would write behind the buffer. -/
def memcpy (dst : List UInt8) (offset : Nat) (src : List UInt8) : Option (List UInt8) :=
  if offset + src.length ≤ dst.length then
    some (dst.take offset ++ src ++ dst.drop (offset + src.length))
  else none

/-- `"octet"`. -/
def octet : List UInt8 := [0x6f, 0x63, 0x74, 0x65, 0x74]

/-- `"blinky.bin"`, the file the shell asks for. -/
def blinkyBin : List UInt8 := [0x62, 0x6c, 0x69, 0x6e, 0x6b, 0x79, 0x2e, 0x62, 0x69, 0x6e]

/-- The message `tftp_rrq` assembles. The offset moves on by ten after the name, whatever its
length. -/
def rrqMsg (file : List UInt8) : Option (List UInt8) := do
  let msg := List.replicate (512 + 4) 0
  let msg ← memcpy msg 0 [0x00]
  let msg ← memcpy msg 1 [0x01]
  let msg ← memcpy msg 2 (file.takeWhile (· ≠ 0))
  let msg ← memcpy msg (2 + 10) [0x00]
  let msg ← memcpy msg (2 + 10 + 1) octet
  let msg ← memcpy msg (2 + 10 + 1 + 5) [0x00]
  return msg.take (2 + 10 + 1 + 5 + 1)

/-- Where read requests go: `192.168.0.1:69`. -/
def tftpServer : Endpoint := ⟨ip4Addr 192 168 0 1, 69⟩

/-- `tftp_rrq`; a NULL file name sends nothing. -/
def tftpRrq (c : Client) (file : Option (List UInt8)) : Option (List Effect) :=
  match file with
  | none => some []
  | some name => (rrqMsg name).map fun msg => [.udpSendto c.tftpUpcb msg tftpServer]

/-- `tftp`, where `udp_new` returns `fresh`. -/
def tftp (fresh : Pcb) (file : Option (List UInt8)) (c : Client) : Option (Client × List Effect) :=
  (tftpRrq (tftpInit fresh c) file).map fun effects => (tftpInit fresh c, effects)

/-- `tftp_ack`. The address and the port are the callback's own arguments, never NULL. -/
def tftpAck (c : Client) (dest : Endpoint) (block : UInt16) : Effect :=
  .udpSendto c.tftpUpcb ([0x00, 0x04] ++ storeLE (byteSwap block)) dest

/-- The `switch` of `tftp_recv`. -/
def tftpSwitch (c : Client) (p : Pbuf) (source : Endpoint) : Client × List Effect :=
  match p.type with
  | 0x0003 =>
    ({ c with fileSize := c.fileSize + (UInt32.ofNat p.totLen - 4) },
      [.print .data, .print (.block p.block), tftpAck c source p.block])
  | 0x0004 => (c, [.print .ack])
  | 0x0005 => (c, [.print .error])
  | _ => (c, [.print .unknown])

/-- `tftp_recv`. Its `pcb` argument is not used. -/
def tftpRecv (c : Client) (_pcb : Pcb) (p : Pbuf) (source : Endpoint) : Client × List Effect :=
  let switched := tftpSwitch c p source
  let effects := .print (.receive p.totLen source) :: switched.2
  if p.totLen < 512 + 4 then
    let removed := tftpDeinit switched.1
    (removed.1, effects ++ [.print .done, .print (.fileSize switched.1.fileSize)] ++ removed.2)
  else (switched.1, effects)

/-! ### What one callback does -/

/-- `file_size` after a datagram: only DATA adds to it, and then all but the four header bytes. -/
def sizeAfter (size : UInt32) (p : Pbuf) : UInt32 :=
  if p.type = 3 then size + (UInt32.ofNat p.totLen - 4) else size

theorem tftpSwitch_fst (c : Client) (p : Pbuf) (source : Endpoint) :
    (tftpSwitch c p source).1 = { c with fileSize := sizeAfter c.fileSize p } := by
  unfold tftpSwitch sizeAfter
  split <;> simp_all

theorem sends_tftpSwitch (c : Client) (p : Pbuf) (source : Endpoint) :
    sends (tftpSwitch c p source).2 =
      if p.type = 3 then [(c.tftpUpcb, [0x00, 0x04, p.byte 2, p.byte 3], source)] else [] := by
  have bytes : storeLE (byteSwap p.block) = [p.byte 2, p.byte 3] :=
    storeLE_byteSwap_byteSwap_loadLE (p.byte 2) (p.byte 3)
  unfold tftpSwitch
  split <;> simp_all [sends, tftpAck]

theorem removes_tftpSwitch (c : Client) (p : Pbuf) (source : Endpoint) :
    removes (tftpSwitch c p source).2 = [] := by
  unfold tftpSwitch
  split <;> simp [removes, tftpAck]

/-- **The globals after a datagram.** A datagram shorter than a full DATA block ends the transfer,
whatever its type. -/
theorem tftpRecv_fst (c : Client) (pcb : Pcb) (p : Pbuf) (source : Endpoint) :
    (tftpRecv c pcb p source).1 =
      { c with
        fileSize := sizeAfter c.fileSize p
        live := if p.totLen < 512 + 4 then c.tftpUpcb.elim c.live c.live.erase else c.live } := by
  unfold tftpRecv
  simp only [tftpSwitch_fst]
  split <;> rfl

/-- **The datagrams a callback sends**: DATA is acknowledged to its source, with the two block
bytes it carries. -/
theorem sends_tftpRecv (c : Client) (pcb : Pcb) (p : Pbuf) (source : Endpoint) :
    sends (tftpRecv c pcb p source).2 =
      if p.type = 3 then [(c.tftpUpcb, [0x00, 0x04, p.byte 2, p.byte 3], source)] else [] := by
  rw [← sends_tftpSwitch]
  unfold tftpRecv
  split <;> simp [sends, tftpDeinit]

/-- **The blocks a callback removes**: `tftp_upcb`, when the datagram is short. -/
theorem removes_tftpRecv (c : Client) (pcb : Pcb) (p : Pbuf) (source : Endpoint) :
    removes (tftpRecv c pcb p source).2 = if p.totLen < 512 + 4 then [c.tftpUpcb] else [] := by
  have switched := removes_tftpSwitch c p source
  unfold removes at switched ⊢
  unfold tftpRecv
  split <;> simp [switched, tftpDeinit, tftpSwitch_fst]

/-- The read request for `blinky.bin` in octet mode. -/
def readRequest : List UInt8 := [0x00, 0x01] ++ blinkyBin ++ [0x00] ++ octet ++ [0x00]

/-- The request for `blinky.bin` is sent, and is the only effect of `tftp`. -/
theorem tftp_blinkyBin (fresh : Pcb) (c : Client) :
    tftp fresh (some blinkyBin) c =
      some (tftpInit fresh c, [.udpSendto (some fresh) readRequest tftpServer]) := by
  have message : rrqMsg blinkyBin = some readRequest := by decide +kernel
  simp only [tftp, tftpRrq, message, Option.map_some]
  rfl

end ULoader.Tftp

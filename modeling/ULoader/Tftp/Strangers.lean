/-
**Datagrams from strangers.**

A transfer is a sequence of datagrams that reach the client's control block; once the block is
removed the rest is not delivered. `outcome` is what the server can tell of it: the ACKs sent to it,
the final `file_size`, and the server datagram at which the transfer ended. The question is whether it
changes when datagrams of other end points are inserted.

`tftp_recv` does not look at the source of a datagram, so it does change. `undisturbed_iff` says
exactly when not: every foreign datagram that comes before the end is as long as a full block, and those
among them that are taken for DATA add a multiple of `2^32` to `file_size`. The ACKs are never at fault by
themselves: foreign DATA is acknowledged to the stranger.

What a datagram is taken for stands in the two bytes at its first pbuf's payload, `Pbuf.type`. When the
first pbuf is shorter, these are not the datagram's own: a long ACK with an empty first pbuf can be taken
for DATA. The memory behind a first pbuf belongs to the datagram and is the same in both runs.

The proof is two-sided. `outcomeFrom_eq` gives the outcome in closed form; without a short foreign
datagram the delivered datagrams of the server are those of the run without strangers
(`filter_delivered`), and with one the transfer ends at a stranger (`ending_of_short_foreign`).
-/

import Mathlib.Data.List.Basic
import Mathlib.Algebra.BigOperators.Group.List.Basic
import ULoader.Tftp.Client

namespace ULoader.Tftp

/-- A datagram, as it lies in memory, with the end point it comes from. -/
structure Incoming where
  p : Pbuf
  source : Endpoint

/-- How a transfer stands: open, ended by the server's datagram number `index` (from 0), or ended by
a stranger's datagram. -/
inductive Ending where
  | running
  | server (index : Nat)
  | stranger
  deriving DecidableEq

/-- What the server can tell of a transfer. -/
structure Outcome where
  acks : List (List UInt8)
  fileSize : UInt32
  ending : Ending
  deriving DecidableEq

/-- The ACKs among the sent datagrams that go to `server`. -/
def acksTo (server : Endpoint) (sent : List (Option Pcb × List UInt8 × Endpoint)) :
    List (List UInt8) :=
  (sent.filter fun datagram => datagram.2.2 = server).map fun datagram => datagram.2.1

/-- The run of a transfer over a sequence of datagrams, of which the server has sent `seen` before. -/
def outcomeFrom (server : Endpoint) (pcb : Pcb) : Client → Nat → List Incoming → Outcome
  | c, _, [] => ⟨[], c.fileSize, .running⟩
  | c, seen, d :: rest =>
    let (client, effects) := tftpRecv c pcb d.p d.source
    let acks := acksTo server (sends effects)
    if pcb ∈ client.live then
      let later := outcomeFrom server pcb client (if d.source = server then seen + 1 else seen) rest
      { later with acks := acks ++ later.acks }
    else ⟨acks, client.fileSize, if d.source = server then .server seen else .stranger⟩

/-- The outcome of an open transfer over a sequence of datagrams. -/
def outcome (server : Endpoint) (o : OpenTransfer) (ds : List Incoming) : Outcome :=
  outcomeFrom server o.pcb o.client 0 ds

/-- A datagram too short to be a full block. -/
def Incoming.Short (d : Incoming) : Prop := d.p.totLen < 512 + 4

instance (d : Incoming) : Decidable d.Short := inferInstanceAs (Decidable (_ < _))

/-- The foreign datagrams that come before the server datagram that ends the transfer. -/
def foreign (server : Endpoint) (ds : List Incoming) : List Incoming :=
  (ds.takeWhile fun d => ¬ (d.source = server ∧ d.Short)).filter fun d => d.source ≠ server

/-- The bytes behind the header in the datagrams of a sequence that `tftp_recv` takes for DATA. -/
def dataTotal (ds : List Incoming) : Nat :=
  ((ds.filter fun d => d.p.type = 3).map fun d => d.p.totLen - 4).sum

/-! ### The outcome in closed form -/

/-- The datagrams that are delivered: up to the first short one. -/
def delivered : List Incoming → List Incoming
  | [] => []
  | d :: rest => if d.Short then [d] else d :: delivered rest

/-- The ACK payloads the server's datagrams of a sequence are answered with. -/
def answers (server : Endpoint) (ds : List Incoming) : List (List UInt8) :=
  (ds.filter fun d => d.source = server ∧ d.p.type = 3).map fun d =>
    [0x00, 0x04, d.p.byte 2, d.p.byte 3]

/-- What a sequence of delivered datagrams makes of `file_size`. -/
def sizeOver (size : UInt32) (ds : List Incoming) : UInt32 :=
  ds.foldl (fun size d => sizeAfter size d.p) size

/-- Where a sequence ends the transfer. -/
def endingFrom (server : Endpoint) : Nat → List Incoming → Ending
  | _, [] => .running
  | seen, d :: rest =>
    if d.Short then if d.source = server then .server seen else .stranger
    else endingFrom server (if d.source = server then seen + 1 else seen) rest

theorem acksTo_tftpRecv (server : Endpoint) (c : Client) (pcb : Pcb) (d : Incoming) :
    acksTo server (sends (tftpRecv c pcb d.p d.source).2) = answers server [d] := by
  rw [sends_tftpRecv, answers]
  by_cases isData : d.p.type = 3 <;> by_cases own : d.source = server <;>
    simp [acksTo, isData, own]

theorem live_tftpRecv (o : OpenTransfer) (d : Incoming) :
    o.pcb ∈ (tftpRecv o.client o.pcb d.p d.source).1.live ↔ ¬ d.Short := by
  rw [tftpRecv_fst, o.current]
  by_cases short : d.Short
  · have shorter : d.p.totLen < 512 + 4 := short
    simp [shorter, short]
  · have longer : ¬ d.p.totLen < 512 + 4 := short
    simp [longer, short, o.isLive]

/-- The transfer stays open over a datagram that is not short. -/
def OpenTransfer.next (o : OpenTransfer) (d : Incoming) (long : ¬ d.Short) : OpenTransfer where
  client := (tftpRecv o.client o.pcb d.p d.source).1
  pcb := o.pcb
  current := by rw [tftpRecv_fst]; exact o.current
  isLive := (live_tftpRecv o d).mpr long

/-- **The outcome, in closed form.** -/
theorem outcomeFrom_eq (server : Endpoint) (ds : List Incoming) : ∀ (o : OpenTransfer) (seen : Nat),
    outcomeFrom server o.pcb o.client seen ds =
      ⟨answers server (delivered ds), sizeOver o.client.fileSize (delivered ds),
        endingFrom server seen ds⟩ := by
  induction ds with
  | nil => exact fun o seen => rfl
  | cons d rest ih =>
    intro o seen
    have size : (tftpRecv o.client o.pcb d.p d.source).1.fileSize =
        sizeAfter o.client.fileSize d.p := by rw [tftpRecv_fst]
    simp only [outcomeFrom, live_tftpRecv, acksTo_tftpRecv]
    by_cases short : d.Short
    · simp [delivered, endingFrom, short, size, sizeOver]
    · have later := ih (o.next d short) (if d.source = server then seen + 1 else seen)
      simp only [OpenTransfer.next] at later
      simp only [short, not_false_eq_true, if_true, later, delivered, endingFrom, if_false,
        sizeOver, List.foldl_cons, size]
      congr 1
      simp only [answers, List.filter_cons]
      split <;> simp

/-! ### Sizes -/

theorem sizeAfter_eq_add (size : UInt32) (p : Pbuf) : sizeAfter size p = size + sizeAfter 0 p := by
  unfold sizeAfter
  split <;> simp

theorem sizeOver_cons (size : UInt32) (d : Incoming) (ds : List Incoming) :
    sizeOver size (d :: ds) = sizeOver (sizeAfter size d.p) ds := rfl

theorem sizeOver_eq_add (ds : List Incoming) : ∀ size, sizeOver size ds = size + sizeOver 0 ds := by
  induction ds with
  | nil => exact fun size => (UInt32.add_zero size).symm
  | cons d rest ih =>
    intro size
    rw [sizeOver_cons, sizeOver_cons, ih, ih (sizeAfter 0 d.p), sizeAfter_eq_add size,
      UInt32.add_assoc]

/-- The server's datagrams and the foreign ones add up. -/
theorem sizeOver_split (server : Endpoint) (ds : List Incoming) : ∀ size,
    sizeOver size ds = sizeOver size (ds.filter fun d => d.source = server) +
      sizeOver 0 (ds.filter fun d => d.source ≠ server) := by
  induction ds with
  | nil => exact fun size => (UInt32.add_zero size).symm
  | cons d rest ih =>
    intro size
    rw [sizeOver_cons, ih]
    by_cases own : d.source = server
    · simp [own, sizeOver_cons]
    · have moved := sizeOver_eq_add (rest.filter fun d => d.source ≠ server) (sizeAfter 0 d.p)
      simp only [own, decide_false, Bool.false_eq_true, not_false_eq_true, List.filter_cons_of_neg,
        ne_eq, decide_true, List.filter_cons_of_pos, sizeOver_cons] at moved ⊢
      rw [moved, sizeOver_eq_add _ (sizeAfter size d.p), sizeOver_eq_add _ size,
        sizeAfter_eq_add size]
      grind

theorem dataTotal_cons (d : Incoming) (rest : List Incoming) :
    dataTotal (d :: rest) = (if d.p.type = 3 then d.p.totLen - 4 else 0) + dataTotal rest := by
  by_cases isData : d.p.type = 3 <;> simp [dataTotal, isData]

/-- Full blocks add as many bytes as they carry. -/
theorem sizeOver_of_long (ds : List Incoming) (long : ∀ d ∈ ds, ¬ d.Short) :
    sizeOver 0 ds = UInt32.ofNat (dataTotal ds) := by
  induction ds with
  | nil => rfl
  | cons d rest ih =>
    have header : 4 ≤ d.p.totLen := by
      have := long d List.mem_cons_self
      unfold Incoming.Short at this
      omega
    rw [sizeOver_cons, sizeOver_eq_add, ih fun d member => long d (List.mem_cons_of_mem _ member),
      dataTotal_cons]
    by_cases isData : d.p.type = 3
    · rw [if_pos isData, UInt32.ofNat_add, UInt32.ofNat_sub header]
      simp [sizeAfter, isData]
    · simp [sizeAfter, isData]

theorem ofNat_eq_zero_iff (n : Nat) : UInt32.ofNat n = 0 ↔ 2 ^ 32 ∣ n := by
  rw [← UInt32.toNat_inj, UInt32.toNat_ofNat']
  exact (Nat.dvd_iff_mod_eq_zero).symm

/-! ### With and without the strangers -/

theorem foreign_cons_server {server : Endpoint} {d : Incoming} {rest : List Incoming}
    (own : d.source = server) (long : ¬ d.Short) :
    foreign server (d :: rest) = foreign server rest := by
  simp [foreign, own, long]

theorem foreign_cons_short {server : Endpoint} {d : Incoming} {rest : List Incoming}
    (own : d.source = server) (short : d.Short) : foreign server (d :: rest) = [] := by
  simp [foreign, own, short]

theorem foreign_cons_stranger {server : Endpoint} {d : Incoming} {rest : List Incoming}
    (other : d.source ≠ server) : foreign server (d :: rest) = d :: foreign server rest := by
  simp [foreign, other]

/-- Without a short foreign datagram, the server's delivered datagrams are those of the run without
strangers, and the foreign ones that are delivered are those that come before the end. -/
theorem filter_delivered (server : Endpoint) (ds : List Incoming)
    (long : ∀ d ∈ foreign server ds, ¬ d.Short) :
    delivered (ds.filter fun d => d.source = server) =
        (delivered ds).filter (fun d => d.source = server) ∧
      foreign server ds = (delivered ds).filter fun d => d.source ≠ server := by
  induction ds with
  | nil => exact ⟨rfl, rfl⟩
  | cons d rest ih =>
    by_cases own : d.source = server
    · by_cases short : d.Short
      · rw [foreign_cons_short own short]
        simp [delivered, own, short]
      · rw [foreign_cons_server own short] at long ⊢
        obtain ⟨same, strangers⟩ := ih long
        simp [delivered, own, short, same, strangers]
    · rw [foreign_cons_stranger own, List.forall_mem_cons] at long
      obtain ⟨same, strangers⟩ := ih long.2
      rw [foreign_cons_stranger own]
      simp [delivered, own, long.1, same, strangers]

theorem endingFrom_filter (server : Endpoint) (ds : List Incoming)
    (long : ∀ d ∈ foreign server ds, ¬ d.Short) : ∀ seen,
    endingFrom server seen (ds.filter fun d => d.source = server) = endingFrom server seen ds := by
  induction ds with
  | nil => exact fun _ => rfl
  | cons d rest ih =>
    intro seen
    by_cases own : d.source = server
    · by_cases short : d.Short
      · simp [endingFrom, own, short]
      · rw [foreign_cons_server own short] at long
        simp [endingFrom, own, short, ih long]
    · rw [foreign_cons_stranger own, List.forall_mem_cons] at long
      simp [endingFrom, own, long.1, ih long.2]

/-- A short foreign datagram before the end is the end. -/
theorem ending_of_short_foreign (server : Endpoint) (ds : List Incoming) {d : Incoming}
    (member : d ∈ foreign server ds) (short : d.Short) : ∀ seen,
    endingFrom server seen ds = .stranger := by
  induction ds with
  | nil => cases member
  | cons first rest ih =>
    intro seen
    by_cases own : first.source = server
    · by_cases firstShort : first.Short
      · rw [foreign_cons_short own firstShort] at member
        cases member
      · rw [foreign_cons_server own firstShort] at member
        simp [endingFrom, own, firstShort, ih member]
    · rw [foreign_cons_stranger own, List.mem_cons] at member
      by_cases firstShort : first.Short
      · simp [endingFrom, own, firstShort]
      · rcases member with rfl | member
        · exact absurd short firstShort
        · simp [endingFrom, own, firstShort, ih member]

theorem ending_ne_stranger (server : Endpoint) (ds : List Incoming) : ∀ seen,
    endingFrom server seen (ds.filter fun d => d.source = server) ≠ .stranger := by
  induction ds with
  | nil => exact fun seen => nofun
  | cons d rest ih =>
    intro seen
    by_cases own : d.source = server
    · by_cases short : d.Short
      · simp [endingFrom, own, short]
      · simp [endingFrom, own, short, ih]
    · simp [own, ih]

theorem answers_filter (server : Endpoint) (ds : List Incoming) :
    answers server (ds.filter fun d => d.source = server) = answers server ds := by
  unfold answers
  rw [List.filter_filter]
  congr 2
  funext d
  by_cases own : d.source = server <;> simp [own]

/-- **When strangers do not disturb a transfer.** In an open transfer whose first datagram is the
server's, what the server can tell is the same with and without the datagrams of other end points
if and only if every foreign datagram before the end is as long as a full block and those among them
that are taken for DATA carry a multiple of `2^32` bytes. -/
theorem undisturbed_iff (o : OpenTransfer) (first : Incoming) (rest : List Incoming) :
    outcome first.source o (first :: rest) =
        outcome first.source o ((first :: rest).filter fun d => d.source = first.source) ↔
      (∀ d ∈ foreign first.source (first :: rest), ¬ d.Short) ∧
        2 ^ 32 ∣ dataTotal (foreign first.source (first :: rest)) := by
  generalize first :: rest = ds
  generalize first.source = server
  unfold outcome
  rw [outcomeFrom_eq, outcomeFrom_eq, Outcome.mk.injEq]
  by_cases long : ∀ d ∈ foreign server ds, ¬ d.Short
  · obtain ⟨same, strangers⟩ := filter_delivered server ds long
    have size : sizeOver o.client.fileSize (delivered ds) =
        sizeOver o.client.fileSize (delivered (ds.filter fun d => d.source = server)) +
          UInt32.ofNat (dataTotal (foreign server ds)) := by
      rw [sizeOver_split server, same, ← strangers, sizeOver_of_long _ long]
    rw [size, UInt32.add_eq_left, ofNat_eq_zero_iff, endingFrom_filter server ds long, same,
      answers_filter]
    exact ⟨fun equal => ⟨long, equal.2.1⟩, fun undisturbed => ⟨rfl, undisturbed.2, rfl⟩⟩
  · refine ⟨fun equal => absurd equal.2.2 ?_, fun undisturbed => absurd undisturbed.1 long⟩
    push Not at long
    obtain ⟨d, member, short⟩ := long
    rw [ending_of_short_foreign server ds member short]
    exact (ending_ne_stranger server ds 0).symm

/-- A DATA datagram with block number `block` and `count` zero bytes of data. -/
def zeroData (block : UInt8) (count : Nat) (fits : count < 2 ^ 15) : Pbuf :=
  .single ([0x00, 0x03, 0x00, block] ++ List.replicate count 0) (fun _ => 0) (by simp; omega)

/-- The transfer right after the command `tftp`. -/
def freshTransfer : OpenTransfer where
  client := tftpInit 0 {}
  pcb := 0
  current := rfl
  isLive := by decide

/-- **One short datagram of a stranger ends the transfer.** The server sends block 1 with 512 bytes
and block 2 with 10 bytes; an empty DATA datagram from another port between them takes the second
block's ACK and its 10 bytes away, and the transfer ends at the stranger's datagram. -/
theorem stranger_ends_transfer :
    outcome tftpServer freshTransfer
        [⟨zeroData 1 512 (by decide), tftpServer⟩, ⟨zeroData 2 10 (by decide), tftpServer⟩] =
      ⟨[[0x00, 0x04, 0x00, 0x01], [0x00, 0x04, 0x00, 0x02]], 522, .server 1⟩ ∧
    outcome tftpServer freshTransfer
        [⟨zeroData 1 512 (by decide), tftpServer⟩,
          ⟨zeroData 9 0 (by decide), ⟨tftpServer.addr, 4000⟩⟩,
          ⟨zeroData 2 10 (by decide), tftpServer⟩] =
      ⟨[[0x00, 0x04, 0x00, 0x01]], 512, .stranger⟩ := by
  constructor <;> decide +kernel

end ULoader.Tftp

/-
**A transfer over a channel that neither loses, duplicates nor reorders.**

`Session` puts the client and the server of `Server.lean` together with the messages in flight. The
server answers the request with block 1 and the ACK of block `k` with block `k + 1`; the client is
`tftp_recv`. One message is in flight at a time, so the run is determined by the file.

`lockStep_exact`: for every file below 4 GiB the run ends, with exactly one callback for each block, in
order; each sends one ACK, to the block's source, with the block's own two number bytes; only the last
one removes the control block; and `file_size` is then the length of the file. The block number wraps
after 65535, which neither side notices: the client gives back the bytes it got.

The proof is the state after each block (`sending`) and the two steps between two blocks
(`run_sending`), by induction on the blocks.
-/

import ULoader.Lib.StepSystem
import ULoader.Tftp.Server

namespace ULoader.Tftp

open StepSystem Transfer

/-- One callback: what arrived, what was sent and removed, and `file_size` after it. -/
structure Callback where
  datagram : List UInt8
  sends : List (Option Pcb × List UInt8 × Endpoint)
  removes : List (Option Pcb)
  fileSize : UInt32
  deriving DecidableEq

/-- The two parties and the messages in flight: to the server as bytes with their destination, to
the client as block numbers. `block` is the last block the server has sent, 0 before the first. -/
structure Session where
  client : Client
  block : Nat
  toServer : List (List UInt8 × Endpoint)
  toClient : List Nat
  callbacks : List Callback
  deriving DecidableEq

/-- The server's side: the block it has sent after a message. The request goes to port 69, the
ACKs to the end point the blocks come from; any other message is ignored. -/
def serverRecv (t : Transfer) (block : Nat) (message : List UInt8 × Endpoint) : Nat :=
  if block = 0 then
    if message.2 = tftpServer ∧ message.1.take 2 = [0x00, 0x01] then 1 else 0
  else
    if message.2 = t.source ∧ message.1 = ackMsg block ∧ block < t.blockCount then block + 1
    else block

/-- Deliver the message in flight; `none` when there is none left. -/
def deliver (t : Transfer) (pcb : Pcb) (s : Session) (_ : Unit) : Option Session :=
  match s.toServer, s.toClient with
  | message :: rest, _ =>
    let block := serverRecv t s.block message
    some { s with
      block := block
      toServer := rest
      toClient := if block = s.block then s.toClient else s.toClient ++ [block] }
  | [], k :: rest =>
    if pcb ∈ s.client.live then
      let (client, effects) := tftpRecv s.client pcb (t.datagram k) t.source
      some { s with
        client := client
        toServer := (sends effects).map Prod.snd
        toClient := rest
        callbacks := s.callbacks ++
          [⟨t.dataMsg k, sends effects, removes effects, client.fileSize⟩] }
    else some { s with toClient := rest }
  | [], [] => none

/-- The session after `tftp("blinky.bin")`, where `udp_new` returns `fresh`. -/
def opened (fresh : Pcb) (c : Client) : Option Session :=
  (tftp fresh (some blinkyBin) c).map fun (client, effects) =>
    { client := client, block := 0, toServer := (sends effects).map Prod.snd, toClient := [],
      callbacks := [] }

/-! ### The state after each block -/

/-- The callback of block `k`, as it has to be. -/
def callbackOf (t : Transfer) (pcb : Pcb) (k : Nat) : Callback where
  datagram := t.dataMsg k
  sends := [(some pcb, [0x00, 0x04] ++ ((t.dataMsg k).drop 2).take 2, t.source)]
  removes := if k = t.blockCount then [some pcb] else []
  fileSize := UInt32.ofNat (min (512 * k) t.file.length)

/-- The callbacks of the first `count` blocks. -/
def callbacksOf (t : Transfer) (pcb : Pcb) (count : Nat) : List Callback :=
  (List.range count).map fun index => callbackOf t pcb (index + 1)

theorem callbacksOf_succ (t : Transfer) (pcb : Pcb) (count : Nat) :
    callbacksOf t pcb (count + 1) = callbacksOf t pcb count ++ [callbackOf t pcb (count + 1)] := by
  rw [callbacksOf, List.range_succ, List.map_append]
  rfl

/-- The client while blocks come in, after `done` of them. -/
def receiving (pcb : Pcb) (live : Finset Pcb) (t : Transfer) (done : Nat) : Client :=
  { tftpUpcb := some pcb, fileSize := UInt32.ofNat (min (512 * done) t.file.length), live := live }

/-- Block `done + 1` is on its way to the client. -/
def sending (t : Transfer) (pcb : Pcb) (live : Finset Pcb) (done : Nat) : Session where
  client := receiving pcb live t done
  block := done + 1
  toServer := []
  toClient := [done + 1]
  callbacks := callbacksOf t pcb done

/-- The ACK of block `done + 1` is on its way to the server. -/
def acking (t : Transfer) (pcb : Pcb) (live : Finset Pcb) (done : Nat) : Session where
  client := receiving pcb live t (done + 1)
  block := done + 1
  toServer := [(ackMsg (done + 1), t.source)]
  toClient := []
  callbacks := callbacksOf t pcb (done + 1)

theorem deliver_opened (t : Transfer) (fresh : Pcb) (c : Client) :
    ∃ first, opened fresh c = some first ∧
      deliver t fresh first () = some (sending t fresh (insert fresh c.live) 0) := by
  refine ⟨_, by rw [opened, tftp_blinkyBin]; rfl, ?_⟩
  simp [deliver, serverRecv, sends, readRequest, sending, receiving, tftpInit, callbacksOf]

/-- `file_size` after one more block. -/
theorem size_succ (t : Transfer) {done : Nat} (inside : done < t.blockCount) :
    UInt32.ofNat (min (512 * done) t.file.length) + UInt32.ofNat (t.dataBytes (done + 1)).length =
      UInt32.ofNat (min (512 * (done + 1)) t.file.length) := by
  unfold blockCount at inside
  rw [← UInt32.ofNat_add, length_dataBytes]
  congr 1
  omega

/-- **The client's step**: block `done + 1` is counted and acknowledged; the control block is removed
when it was the last one. -/
theorem deliver_sending (t : Transfer) (pcb : Pcb) (live : Finset Pcb) (done : Nat)
    (isLive : pcb ∈ live) (inside : done < t.blockCount) :
    deliver t pcb (sending t pcb live done) () =
      some (acking t pcb (if done + 1 = t.blockCount then live.erase pcb else live) done) := by
  have short := t.totLen_datagram_lt_iff (Nat.le_add_left 1 done) inside
  have client : (tftpRecv (receiving pcb live t done) pcb (t.datagram (done + 1)) t.source).1 =
      receiving pcb (if done + 1 = t.blockCount then live.erase pcb else live) t (done + 1) := by
    rw [tftpRecv_fst]
    simp only [receiving, sizeAfter_datagram, size_succ t inside, short, Option.elim_some]
  have sent : sends (tftpRecv (receiving pcb live t done) pcb (t.datagram (done + 1)) t.source).2 =
      [(some pcb, ackMsg (done + 1), t.source)] := by
    rw [sends_tftpRecv, if_pos (t.type_datagram _), ack_datagram]
    rfl
  have removed : removes
      (tftpRecv (receiving pcb live t done) pcb (t.datagram (done + 1)) t.source).2 =
      if done + 1 = t.blockCount then [some pcb] else [] := by
    rw [removes_tftpRecv]
    simp only [short, receiving]
  simp only [deliver, sending, receiving, isLive, if_true]
  simp only [receiving] at client sent removed
  rw [client, sent, removed, acking, callbacksOf_succ]
  rfl

/-- **The server's step**: the ACK of a block that is not the last brings the next one. -/
theorem deliver_acking (t : Transfer) (pcb : Pcb) (live : Finset Pcb) {done : Nat}
    (more : done + 1 < t.blockCount) :
    deliver t pcb (acking t pcb live done) () = some (sending t pcb live (done + 1)) := by
  simp [deliver, acking, serverRecv, more, sending]

/-- The state a finished transfer ends in. -/
def finished (t : Transfer) (pcb : Pcb) (live : Finset Pcb) : Session :=
  { acking t pcb live (t.blockCount - 1) with toServer := [] }

/-- The last ACK is not answered. -/
theorem deliver_last_ack (t : Transfer) (pcb : Pcb) (live : Finset Pcb) :
    deliver t pcb (acking t pcb live (t.blockCount - 1)) () = some (finished t pcb live) := by
  simp [deliver, acking, serverRecv, finished, blockCount]

/-- Every block but the last takes two steps. -/
theorem run_sending (t : Transfer) (pcb : Pcb) (live : Finset Pcb) (isLive : pcb ∈ live) :
    ∀ done, done < t.blockCount →
      run (deliver t pcb) (sending t pcb live 0) (List.replicate (2 * done) ()) =
        some (sending t pcb live done) := by
  intro done
  induction done with
  | zero => exact fun _ => rfl
  | succ done ih =>
    intro inside
    have before := ih (by omega)
    rw [show 2 * (done + 1) = 2 * done + 2 by omega, List.replicate_add, run_append, before]
    have notLast : ¬ done + 1 = t.blockCount := by omega
    show run _ (sending t pcb live done) [(), ()] = _
    rw [run_cons, deliver_sending t pcb live done isLive (by omega), if_neg notLast, Option.bind_some,
      run_singleton, deliver_acking t pcb live inside]

/-- **A lock-step transfer is exact.** The run started by one `tftp` command ends; its callbacks are
those of the blocks `1 .. blockCount`, each with its one ACK, the removal coming with the last; and
`file_size` is the length of the file. -/
theorem lockStep_exact (t : Transfer) (small : t.file.length < 2 ^ 32) (fresh : Pcb) (c : Client) :
    ∃ first final, opened fresh c = some first ∧
      run (deliver t fresh) first (List.replicate (2 * t.blockCount + 1) ()) = some final ∧
      deliver t fresh final () = none ∧
      final.callbacks = (List.range t.blockCount).map (fun index => callbackOf t fresh (index + 1)) ∧
      final.client.fileSize.toNat = t.file.length ∧ fresh ∉ final.client.live := by
  obtain ⟨first, isOpened, begins⟩ := deliver_opened t fresh c
  have isLive : fresh ∈ insert fresh c.live := Finset.mem_insert_self _ _
  obtain ⟨last, count⟩ : ∃ last, t.blockCount = last + 1 := ⟨_, rfl⟩
  have reached := run_sending t fresh (insert fresh c.live) isLive last (by omega)
  have lastStep := deliver_sending t fresh (insert fresh c.live) last isLive (by omega)
  rw [if_pos count.symm] at lastStep
  have ack := deliver_last_ack t fresh ((insert fresh c.live).erase fresh)
  rw [count, Nat.add_sub_cancel] at ack
  refine ⟨first, finished t fresh ((insert fresh c.live).erase fresh), isOpened, ?_, rfl, ?_, ?_, ?_⟩
  · rw [count, show 2 * (last + 1) + 1 = 1 + (2 * last + 2) by omega, List.replicate_add, run_append]
    show (run _ first [()]).bind _ = _
    rw [run_singleton, begins, Option.bind_some, List.replicate_add, run_append, reached]
    show run _ (sending t fresh _ last) [(), ()] = _
    rw [run_cons, lastStep, Option.bind_some, run_singleton, ack]
  · show callbacksOf t fresh (t.blockCount - 1 + 1) = _
    rw [count]
    rfl
  · show (UInt32.ofNat (min (512 * (t.blockCount - 1 + 1)) t.file.length)).toNat = _
    have whole : min (512 * (t.blockCount - 1 + 1)) t.file.length = t.file.length := by
      unfold blockCount
      omega
    rw [whole, UInt32.toNat_ofNat_of_lt' small]
  · exact Finset.notMem_erase _ _

/-- **A file of 700 bytes**: two callbacks, of which the second one removes the block. -/
theorem lockStep_exact_twoBlocks :
    ∃ first final, opened 7 ⟨some 5, 100, {2}⟩ = some first ∧
      run (deliver (pooled (List.replicate 700 1) ⟨1, 2000⟩) 7) first (List.replicate 5 ()) = some final ∧
      deliver (pooled (List.replicate 700 1) ⟨1, 2000⟩) 7 final () = none ∧
      final.callbacks.map (fun callback => (callback.sends, callback.removes, callback.fileSize)) =
        [([(some 7, [0, 4, 0, 1], ⟨1, 2000⟩)], [], 512),
          ([(some 7, [0, 4, 0, 2], ⟨1, 2000⟩)], [some 7], 700)] ∧
      final.client.fileSize.toNat = 700 ∧ 7 ∉ final.client.live := by
  have blocks : (pooled (List.replicate 700 1) ⟨1, 2000⟩).blockCount = 2 := by decide +kernel
  obtain ⟨first, final, isOpened, reached, ended, callbacks, size, removed⟩ :=
    lockStep_exact (pooled (List.replicate 700 1) ⟨1, 2000⟩) (by decide +kernel) 7 ⟨some 5, 100, {2}⟩
  rw [blocks] at reached callbacks
  refine ⟨first, final, isOpened, reached, ended, ?_, size.trans List.length_replicate, removed⟩
  rw [callbacks]
  decide +kernel

end ULoader.Tftp

/-
**A transfer over a channel that loses messages and delivers DATA again.**

`Wire` is the client, the server and the messages on their way to the server. A DATA block that has
been sent may be delivered at any time and any number of times; a message to the server may arrive
late or be lost. `counted` is the history of the blocks delivered so far.

`tftp_recv` compares a block number with nothing, so a repeated block is counted again
(`repeat_changes_size`). A run leaves `file_size` alone at every repeated block exactly when it has
no repeated block at all, and in those runs the size at the end is the length of the file, as far as
32 bits hold it (`size_exact_iff_fresh`).

* `Upto` — the invariant of the runs without repetition: the blocks `1 .. m` have been counted, and the
  server is at block `m` or `m + 1`.
* `Bounds` — what holds in every run: nothing is delivered after the last block.
-/

import ULoader.Lib.StepSystem
import ULoader.Tftp.LockStep

namespace ULoader.Tftp

open StepSystem Transfer

/-- The two parties, the messages on their way to the server, and the blocks delivered so far. -/
structure Wire where
  client : Client
  block : Nat
  toServer : List (List UInt8 × Endpoint)
  counted : List Nat

/-- The steps of a transfer: a block that was sent reaches the client, a message reaches the server,
or a message to the server is lost. -/
inductive WireEvent where
  | data (k : Nat)
  | arrive (index : Nat)
  | lose (index : Nat)

/-- One step of the transfer, where the client's control block is `pcb`. -/
def wireStep (t : Transfer) (pcb : Pcb) (s : Wire) : WireEvent → Option Wire
  | .data k =>
    if 1 ≤ k ∧ k ≤ s.block ∧ pcb ∈ s.client.live then
      some { s with
        client := (tftpRecv s.client pcb (t.datagram k) t.source).1
        toServer := s.toServer ++
          (sends (tftpRecv s.client pcb (t.datagram k) t.source).2).map Prod.snd
        counted := s.counted ++ [k] }
    else none
  | .arrive index =>
    s.toServer[index]?.map fun message =>
      { s with block := serverRecv t s.block message, toServer := s.toServer.eraseIdx index }
  | .lose index =>
    if index < s.toServer.length then some { s with toServer := s.toServer.eraseIdx index } else none

/-- The transfer after `tftp("blinky.bin")`: the request is on its way (`tftp_blinkyBin`). -/
def requested (fresh : Pcb) (c : Client) : Wire where
  client := tftpInit fresh c
  block := 0
  toServer := [(readRequest, tftpServer)]
  counted := []

/-- A block is delivered only for the first time. -/
def FirstDelivery (s : Wire) (event : WireEvent) : Prop := ∀ k, event = .data k → k ∉ s.counted

/-- A block that was already counted leaves `file_size` unchanged. -/
def RepeatNotCounted (t : Transfer) (pcb : Pcb) (s : Wire) (event : WireEvent) : Prop :=
  ∀ k next, event = .data k → k ∈ s.counted → wireStep t pcb s event = some next →
    next.client.fileSize = s.client.fileSize

/-! ### The steps -/

variable {t : Transfer} {pcb : Pcb} {s next : Wire}

theorem wireStep_data {k : Nat} (taken : wireStep t pcb s (.data k) = some next) :
    (1 ≤ k ∧ k ≤ s.block ∧ pcb ∈ s.client.live) ∧
      next = { s with
        client := (tftpRecv s.client pcb (t.datagram k) t.source).1
        toServer := s.toServer ++ [(ackMsg k, t.source)]
        counted := s.counted ++ [k] } := by
  simp only [wireStep] at taken
  split at taken
  · rename_i possible
    refine ⟨possible, ?_⟩
    rw [sends_tftpRecv, if_pos (t.type_datagram k), ack_datagram] at taken
    exact (Option.some.inj taken).symm
  · cases taken

theorem wireStep_arrive {index : Nat} (taken : wireStep t pcb s (.arrive index) = some next) :
    ∃ message, s.toServer[index]? = some message ∧ next =
      { s with block := serverRecv t s.block message, toServer := s.toServer.eraseIdx index } := by
  simp only [wireStep, Option.map_eq_some_iff] at taken
  obtain ⟨message, found, rfl⟩ := taken
  exact ⟨message, found, rfl⟩

theorem wireStep_lose {index : Nat} (taken : wireStep t pcb s (.lose index) = some next) :
    index < s.toServer.length ∧ next = { s with toServer := s.toServer.eraseIdx index } := by
  simp only [wireStep] at taken
  split at taken
  · rename_i inside
    exact ⟨inside, (Option.some.inj taken).symm⟩
  · cases taken

theorem serverRecv_le {block : Nat} (message : List UInt8 × Endpoint) (bound : block ≤ t.blockCount) :
    serverRecv t block message ≤ t.blockCount := by
  have positive : 1 ≤ t.blockCount := Nat.le_add_left 1 _
  unfold serverRecv
  split_ifs <;> omega

/-- The control block is removed exactly with the last block. -/
theorem live_after_block {c : Client} (k : Nat) (current : c.tftpUpcb = some pcb) (positive : 1 ≤ k)
    (inside : k ≤ t.blockCount) :
    (tftpRecv c pcb (t.datagram k) t.source).1.live =
      if k = t.blockCount then c.live.erase pcb else c.live := by
  rw [tftpRecv_fst, current]
  simp only [t.totLen_datagram_lt_iff positive inside, Option.elim_some]

theorem size_after_block (c : Client) (k : Nat) :
    (tftpRecv c pcb (t.datagram k) t.source).1.fileSize =
      c.fileSize + UInt32.ofNat (t.dataBytes k).length := by
  rw [tftpRecv_fst]
  exact t.sizeAfter_datagram _ _

/-! ### Every run: nothing is delivered after the last block -/

/-- What holds in every run, repeated blocks or not. -/
structure Bounds (t : Transfer) (pcb : Pcb) (s : Wire) : Prop where
  current : s.client.tftpUpcb = some pcb
  sent : s.block ≤ t.blockCount
  inside : ∀ k ∈ s.counted, 1 ≤ k ∧ k ≤ t.blockCount
  ended : t.blockCount ∈ s.counted → pcb ∉ s.client.live

theorem bounds_requested (t : Transfer) (fresh : Pcb) (c : Client) :
    Bounds t fresh (requested fresh c) where
  current := rfl
  sent := Nat.zero_le _
  inside k member := by cases member
  ended member := by cases member

theorem bounds_step (s : Wire) (event : WireEvent) (next : Wire) (bounds : Bounds t pcb s)
    (taken : wireStep t pcb s event = some next) : Bounds t pcb next := by
  cases event with
  | data k =>
    obtain ⟨⟨positive, sent, isLive⟩, rfl⟩ := wireStep_data taken
    have inside : k ≤ t.blockCount := le_trans sent bounds.sent
    refine ⟨?_, bounds.sent, fun j member => ?_, fun member => ?_⟩
    · show (tftpRecv s.client pcb (t.datagram k) t.source).1.tftpUpcb = some pcb
      rw [tftpRecv_fst]
      exact bounds.current
    · rcases List.mem_append.mp member with old | new
      · exact bounds.inside j old
      · rw [List.mem_singleton.mp new]
        exact ⟨positive, inside⟩
    · show pcb ∉ (tftpRecv s.client pcb (t.datagram k) t.source).1.live
      rw [live_after_block k bounds.current positive inside]
      rcases List.mem_append.mp member with old | new
      · exact absurd isLive (bounds.ended old)
      · rw [if_pos (List.mem_singleton.mp new).symm]
        exact Finset.notMem_erase _ _
  | arrive index =>
    obtain ⟨message, _, rfl⟩ := wireStep_arrive taken
    exact ⟨bounds.current, serverRecv_le message bounds.sent, bounds.inside, bounds.ended⟩
  | lose index =>
    rw [(wireStep_lose taken).2]
    exact ⟨bounds.current, bounds.sent, bounds.inside, bounds.ended⟩

/-- **A repeated block is counted again**: it is not the last one, so it carries 512 bytes. -/
theorem repeat_changes_size (s : Wire) (event : WireEvent) (bounds : Bounds t pcb s)
    (possible : (wireStep t pcb s event).isSome) (unchanged : RepeatNotCounted t pcb s event) :
    FirstDelivery s event := by
  rintro k rfl again
  obtain ⟨next, taken⟩ := Option.isSome_iff_exists.mp possible
  obtain ⟨⟨positive, _, isLive⟩, rfl⟩ := wireStep_data taken
  have notLast : k ≠ t.blockCount := fun same => bounds.ended (same ▸ again) isLive
  have full : (t.dataBytes k).length = 512 :=
    t.length_dataBytes_of_lt positive (lt_of_le_of_ne (bounds.inside k again).2 notLast)
  have same := unchanged k _ rfl again taken
  change (tftpRecv s.client pcb (t.datagram k) t.source).1.fileSize = s.client.fileSize at same
  rw [size_after_block, full] at same
  have zero : UInt32.ofNat 512 = 0 := by
    rw [← UInt32.add_sub_cancel (UInt32.ofNat 512) s.client.fileSize, UInt32.add_comm, same,
      UInt32.sub_self]
  exact absurd zero (by decide)

/-! ### The runs without repetition -/

/-- **The blocks `1 .. m` have been counted.** The server has sent block `m`, and then only the
answer to it can be on its way, or already block `m + 1`, and then nothing is. -/
structure Upto (t : Transfer) (pcb : Pcb) (m : Nat) (s : Wire) : Prop where
  current : s.client.tftpUpcb = some pcb
  history : s.counted = List.range' 1 m
  size : s.client.fileSize = UInt32.ofNat (min (512 * m) t.file.length)
  bound : m ≤ t.blockCount
  running : pcb ∈ s.client.live ↔ m < t.blockCount
  server : (s.block = m ∧ (s.toServer = [] ∨
      s.toServer = [if m = 0 then (readRequest, tftpServer) else (ackMsg m, t.source)])) ∨
    (s.block = m + 1 ∧ s.toServer = [])

theorem upto_requested (t : Transfer) (fresh : Pcb) (c : Client) :
    Upto t fresh 0 (requested fresh c) where
  current := rfl
  history := rfl
  size := by simp [requested, tftpInit]
  bound := Nat.zero_le _
  running := by simp [requested, tftpInit, blockCount]
  server := Or.inl ⟨rfl, Or.inr rfl⟩

/-- The message the server waits for brings the next block, while there is one. -/
theorem serverRecv_answer (t : Transfer) (m : Nat) :
    serverRecv t m (if m = 0 then (readRequest, tftpServer) else (ackMsg m, t.source)) =
      if m < t.blockCount then m + 1 else m := by
  have positive : 0 < t.blockCount := Nat.succ_pos _
  unfold serverRecv
  by_cases first : m = 0
  · simp [first, positive, readRequest]
  · simp [first]

theorem upto_data {m k : Nat} (upto : Upto t pcb m s) (fresh : k ∉ s.counted)
    (taken : wireStep t pcb s (.data k) = some next) : Upto t pcb (m + 1) next := by
  obtain ⟨⟨positive, sent, isLive⟩, rfl⟩ := wireStep_data taken
  have more : m < t.blockCount := upto.running.mp isLive
  rw [upto.history, List.mem_range'_1] at fresh
  obtain ⟨same, empty⟩ : k = m + 1 ∧ s.toServer = [] := by
    rcases upto.server with ⟨block, _⟩ | ⟨block, empty⟩
    · omega
    · exact ⟨by omega, empty⟩
  subst same
  have atNext : s.block = m + 1 := by rcases upto.server with ⟨block, _⟩ | ⟨block, _⟩ <;> omega
  refine ⟨?_, ?_, ?_, more, ?_, Or.inl ⟨atNext, Or.inr ?_⟩⟩
  · show (tftpRecv s.client pcb (t.datagram (m + 1)) t.source).1.tftpUpcb = some pcb
    rw [tftpRecv_fst]
    exact upto.current
  · show s.counted ++ [m + 1] = _
    rw [upto.history, List.range'_1_concat, Nat.add_comm 1 m]
  · show (tftpRecv s.client pcb (t.datagram (m + 1)) t.source).1.fileSize = _
    rw [size_after_block, upto.size, size_succ t more]
  · show pcb ∈ (tftpRecv s.client pcb (t.datagram (m + 1)) t.source).1.live ↔ _
    rw [live_after_block (m + 1) upto.current positive more]
    by_cases last : m + 1 = t.blockCount
    · simp [last]
    · simp only [last, if_false, isLive, true_iff]
      omega
  · rw [empty, if_neg (Nat.succ_ne_zero m)]
    rfl

/-- A message leaves the wire: nothing is left behind it. -/
theorem upto_erase {m : Nat} (upto : Upto t pcb m s) (index : Nat)
    (inside : index < s.toServer.length) :
    s.block = m ∧ s.toServer =
        [if m = 0 then (readRequest, tftpServer) else (ackMsg m, t.source)] ∧
      index = 0 ∧ s.toServer.eraseIdx index = [] := by
  rcases upto.server with ⟨block, empty | single⟩ | ⟨_, empty⟩
  · rw [empty] at inside
    exact absurd inside (Nat.not_lt_zero _)
  · rw [single, List.length_singleton, Nat.lt_one_iff] at inside
    subst inside
    exact ⟨block, single, rfl, by rw [single]; rfl⟩
  · rw [empty] at inside
    exact absurd inside (Nat.not_lt_zero _)

theorem upto_arrive {m index : Nat} (upto : Upto t pcb m s)
    (taken : wireStep t pcb s (.arrive index) = some next) : Upto t pcb m next := by
  obtain ⟨message, found, rfl⟩ := wireStep_arrive taken
  obtain ⟨block, single, rfl, empty⟩ :=
    upto_erase upto index (List.getElem?_eq_some_iff.mp found).1
  rw [single] at found
  have answer := serverRecv_answer t m
  rw [Option.some.inj found] at answer
  refine ⟨upto.current, upto.history, upto.size, upto.bound, upto.running, ?_⟩
  show (serverRecv t s.block message = m ∧ _) ∨ (serverRecv t s.block message = m + 1 ∧ _)
  rw [block, answer, empty]
  split
  · exact Or.inr ⟨rfl, rfl⟩
  · exact Or.inl ⟨rfl, Or.inl rfl⟩

theorem upto_lose {m index : Nat} (upto : Upto t pcb m s)
    (taken : wireStep t pcb s (.lose index) = some next) : Upto t pcb m next := by
  obtain ⟨inside, rfl⟩ := wireStep_lose taken
  obtain ⟨block, _, _, empty⟩ := upto_erase upto index inside
  exact ⟨upto.current, upto.history, upto.size, upto.bound, upto.running,
    Or.inl ⟨block, Or.inl empty⟩⟩

theorem upto_step (s : Wire) (event : WireEvent) (next : Wire) (upto : ∃ m, Upto t pcb m s)
    (fresh : FirstDelivery s event) (taken : wireStep t pcb s event = some next) :
    ∃ m, Upto t pcb m next := by
  obtain ⟨m, upto⟩ := upto
  cases event with
  | data k => exact ⟨m + 1, upto_data upto (fresh k rfl) taken⟩
  | arrive index => exact ⟨m, upto_arrive upto taken⟩
  | lose index => exact ⟨m, upto_lose upto taken⟩

/-- When the control block is gone, all blocks have been counted. -/
theorem size_of_ended {m : Nat} (upto : Upto t pcb m s) (ended : pcb ∉ s.client.live) :
    s.client.fileSize.toNat = t.file.length ↔ t.file.length < 2 ^ 32 := by
  have all : min (512 * m) t.file.length = t.file.length := by
    have notRunning := mt upto.running.mpr ended
    unfold blockCount at notRunning
    omega
  rw [upto.size, all]
  constructor
  · intro same
    rw [← same]
    exact UInt32.toNat_lt _
  · exact fun small => UInt32.toNat_ofNat_of_lt' small

/-- **`file_size` is exact when no block is delivered twice.** In a run of a transfer, repeated blocks
leave `file_size` alone exactly when there are none; and in a run without them `file_size` is, once the
transfer has ended, the length of the file, for exactly the files shorter than `2^32`. -/
theorem size_exact_iff_fresh (t : Transfer) (fresh : Pcb) (c : Client) (events : List WireEvent) :
    (Along (wireStep t fresh) (RepeatNotCounted t fresh) (requested fresh c) events ↔
        Along (wireStep t fresh) FirstDelivery (requested fresh c) events) ∧
      (Along (wireStep t fresh) FirstDelivery (requested fresh c) events →
        Always (wireStep t fresh) (fun s => fresh ∉ s.client.live →
          (s.client.fileSize.toNat = t.file.length ↔ t.file.length < 2 ^ 32))
          (requested fresh c) events) := by
  refine ⟨⟨fun along => ?_, fun along => ?_⟩, fun along => ?_⟩
  · exact Along.mono_of_invariant bounds_step repeat_changes_size (bounds_requested t fresh c) along
  · exact Along.mono_of_invariant bounds_step
      (fun s event _ _ first k next isData again => absurd again (first k isData))
      (bounds_requested t fresh c) along
  · exact (always_of_along upto_step events _ ⟨0, upto_requested t fresh c⟩ along).mono
      fun s ⟨m, upto⟩ ended => size_of_ended upto ended

/-- A file of one full block, served from port 2000 of `192.168.0.1`. -/
def oneBlock : Transfer := pooled (List.replicate 512 0) ⟨ByteOrder.ip4Addr 192 168 0 1, 2000⟩

/-- **A retransmitted block.** The request arrives, block 1 is delivered, its ACK is late and block 1 is
delivered again, then the ACK arrives and the empty block 2 ends the transfer: `file_size` is 1024
for a file of 512 bytes. -/
theorem retransmitted_block_counted_twice :
    ∃ final, run (wireStep oneBlock 0) (requested 0 {})
        [.arrive 0, .data 1, .data 1, .arrive 0, .data 2] = some final ∧
      0 ∉ final.client.live ∧ final.client.fileSize = 1024 ∧ oneBlock.file.length = 512 := by
  have outcome : (run (wireStep oneBlock 0) (requested 0 {})
      [.arrive 0, .data 1, .data 1, .arrive 0, .data 2]).map
      (fun s => (s.client.live, s.client.fileSize)) = some (∅, 1024) := by decide +kernel
  obtain ⟨final, reached, shown⟩ := Option.map_eq_some_iff.mp outcome
  obtain ⟨live, size⟩ := Prod.mk.inj shown
  exact ⟨final, reached, by rw [live]; exact Finset.notMem_empty 0, size, List.length_replicate⟩

end ULoader.Tftp

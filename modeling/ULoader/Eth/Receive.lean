/-
**The receive ring.**

The DMA and the main loop share the descriptors. The DMA stores a frame in the descriptor it has come
to if that one is its own, and drops it otherwise; the main loop polls, and reads a frame when there
is one. They come in any order, and `pbuf_alloc` may fail or return a chain of any sizes that add up
to the frame's length.

`receive_in_order` is the result over all such runs. Between polls `Seg_Count` is zero; the
descriptors of the CPU are those from `DMARxDescToGet` up to the DMA's position; every poll that can
take a frame takes exactly one; and the calls of `low_level_input` match the stored frames one by one:
each returns its frame without the CRC, or NULL when `pbuf_alloc` failed.

The ring of descriptors is an instance of `Ring.Holds` (`InRing`): a cell is full when the CPU owns its
descriptor, and then holds the status word and the bytes of the buffer. Storing a frame is a `push`
(`inRing_store`), and a poll that reads one is a `pop` (`inRing_read`), also when the allocation
failed. The receive-buffer-unavailable flag is not modelled: the DMA looks at the `OWN` bit each time.
-/

import Mathlib.Data.List.Forall2
import ULoader.Eth.Input
import ULoader.Lib.StepSystem

namespace ULoader.Eth

open StepSystem

variable {N : Nat}

/-! ### The system -/

/-- What a call of `low_level_input` got from `pbuf_alloc`, and what it returned. -/
structure Call where
  alloc : Option (List Nat)
  packet : Option (List (List UInt8))
  deriving DecidableEq

/-- The receive side, the DMA's position, the frames stored so far, and the calls so far. -/
structure Receive (N : Nat) where
  rx : Rx N
  dma : Fin N
  stored : List (List UInt8)
  calls : List Call

/-- The steps: a frame arrives, or the main loop polls. -/
inductive Event where
  | frame (bytes : List UInt8)
  | poll (alloc : Option (List Nat))

/-- The status word of a frame in a single buffer. -/
def Status.whole (bytes : List UInt8) : Status := ⟨false, true, true, bytes.length⟩

/-- The DMA stores a frame in its descriptor and goes on to the next, or drops the frame. -/
def storeFrame (bytes : List UInt8) (s : Receive N) : Receive N :=
  let desc := s.rx.desc s.dma
  if desc.status.own then
    { s with
      rx := { s.rx with
        desc := Function.update s.rx.desc s.dma { desc with status := .whole bytes }
        rxBuff := overwrite s.rx.rxBuff desc.buffer1Addr bytes }
      dma := desc.buffer2NextDescAddr
      stored := s.stored ++ [bytes] }
  else s

/-- One poll of the main loop. -/
def poll (B : Nat) (alloc : Option (List Nat)) (s : Receive N) : Option (Receive N) :=
  let (received, rx) := ethCheckFrameReceived s.rx
  if received then
    if ∀ sizes ∈ alloc, sizes.sum = (rx.desc rx.dmaRxDescToGet).status.frameLength then
      (lowLevelInput B alloc rx).map fun (packet, rx) =>
        { s with rx := rx, calls := s.calls ++ [⟨alloc, packet⟩] }
    else none
  else some { s with rx := rx }

/-- One step; a frame has at least its CRC and fits a buffer. -/
def step (B : Nat) (s : Receive N) : Event → Option (Receive N)
  | .frame bytes => if 4 ≤ bytes.length ∧ bytes.length ≤ B then some (storeFrame bytes s) else none
  | .poll alloc => poll B alloc s

/-- The receive side after `ETH_DMARxDescChainInit`. -/
def Receive.initial (B : Nat) (rxBuff : Nat → UInt8) (first : 0 < N) : Receive N where
  rx := ethDmaRxDescChainInit B rxBuff first
  dma := ⟨0, first⟩
  stored := []
  calls := []

/-! ### What is to be shown -/

/-- The call returned its frame without the CRC, in `pbuf`s of the allocated sizes; or NULL, when
there was no memory. -/
def Delivers (bytes : List UInt8) (call : Call) : Prop :=
  match call.alloc with
  | none => call.packet = none
  | some sizes => ∃ chain, call.packet = some chain ∧ chain.map List.length = sizes ∧
      chain.flatten = bytes.take (bytes.length - 4)

/-- The number of stored frames not yet polled. -/
def Receive.backlog (s : Receive N) : Nat := s.stored.length - s.calls.length

/-- What `pbuf_alloc` may return when the next frame is read: nothing, or a chain of its length. -/
def Receive.Allocates (s : Receive N) (alloc : Option (List Nat)) : Prop :=
  ∀ sizes ∈ alloc, ∀ bytes, s.stored[s.calls.length]? = some bytes → sizes.sum = bytes.length - 4

/-- **In order, exactly once, and no descriptor lost.** -/
structure InOrder (B : Nat) (s : Receive N) : Prop where
  idle : s.rx.segCount = 0
  fits : s.backlog ≤ N
  position : s.dma = Ring.slot s.rx.dmaRxDescToGet s.backlog
  cpuOwned : ∀ offset < N,
    (s.rx.desc (Ring.slot s.rx.dmaRxDescToGet offset)).status.own = false ↔ offset < s.backlog
  delivered : s.calls.length ≤ s.stored.length ∧
    List.Forall₂ Delivers (s.stored.take s.calls.length) s.calls
  polls : ∀ alloc, s.Allocates alloc → ∃ next, step B s (.poll alloc) = some next ∧
    next.calls.length = min (s.calls.length + 1) s.stored.length

/-! ### The ring holds the frames -/

/-- A descriptor as a cell of the ring: empty when it belongs to the DMA. -/
def cell (rx : Rx N) (i : Fin N) : Option (Status × List UInt8) :=
  if (rx.desc i).status.own then none
  else some ((rx.desc i).status,
    readBytes rx.rxBuff (rx.desc i).buffer1Addr (rx.desc i).status.fl)

/-- What a frame is in the ring. -/
def content (bytes : List UInt8) : Status × List UInt8 := (.whole bytes, bytes)

/-- The invariant of the receive side. -/
structure InRing (B : Nat) (s : Receive N) : Prop where
  chained : s.rx.Chained B
  idle : s.rx.segCount = 0
  polled : s.calls.length ≤ s.stored.length
  sizes : ∀ bytes ∈ s.stored, 4 ≤ bytes.length ∧ bytes.length ≤ B
  holds : Ring.Holds (cell s.rx) s.rx.dmaRxDescToGet s.dma
    ((s.stored.drop s.calls.length).map content)
  delivered : List.Forall₂ Delivers (s.stored.take s.calls.length) s.calls

theorem inRing_initial (B : Nat) (rxBuff : Nat → UInt8) (first : 0 < N) :
    InRing B (Receive.initial B rxBuff first) where
  chained := chained_init B rxBuff first
  idle := rfl
  polled := Nat.le_refl _
  sizes := nofun
  holds := Ring.Holds.empty _ fun _ => rfl
  delivered := .nil

/-! ### The DMA stores a frame -/

/-- What the CPU owns is a stored frame. -/
theorem InRing.fl_le {B : Nat} {s : Receive N} (inRing : InRing B s) {i : Fin N}
    (cpu : (s.rx.desc i).status.own = false) : (s.rx.desc i).status.fl ≤ B := by
  have full : cell s.rx i = some ((s.rx.desc i).status,
      readBytes s.rx.rxBuff (s.rx.desc i).buffer1Addr (s.rx.desc i).status.fl) := by
    simp [cell, cpu]
  obtain ⟨bytes, member, same⟩ := List.mem_map.mp (inRing.holds.mem full)
  have status : Status.whole bytes = (s.rx.desc i).status := congrArg Prod.fst same
  rw [← status]
  exact (inRing.sizes bytes (List.mem_of_mem_drop member)).2

/-- A stored frame fills one cell and leaves the others alone. -/
theorem cell_storeFrame {B : Nat} {s : Receive N} {bytes : List UInt8} (inRing : InRing B s)
    (fits : bytes.length ≤ B) (own : (s.rx.desc s.dma).status.own = true) :
    cell (storeFrame bytes s).rx = Function.update (cell s.rx) s.dma (some (content bytes)) := by
  funext i
  simp only [storeFrame, own, if_true]
  by_cases same : i = s.dma
  · subst same
    simp only [Function.update_self, cell, Status.whole, Bool.false_eq_true, if_false, content]
    rw [readBytes_overwrite_self]
  · rw [Function.update_of_ne same]
    simp only [cell, Function.update_of_ne same]
    by_cases dma : (s.rx.desc i).status.own
    · simp [dma]
    · have cpu : (s.rx.desc i).status.own = false := by simpa using dma
      have different : i.val ≠ s.dma.val := fun equal => same (Fin.ext equal)
      rw [inRing.chained.placed i, inRing.chained.placed s.dma,
        readBytes_overwrite_other (buffers_apart different (inRing.fl_le cpu) fits)]

theorem inRing_store {B : Nat} {s : Receive N} {bytes : List UInt8} (inRing : InRing B s)
    (inside : 4 ≤ bytes.length ∧ bytes.length ≤ B) : InRing B (storeFrame bytes s) := by
  by_cases own : (s.rx.desc s.dma).status.own = true
  · have cells := cell_storeFrame inRing inside.2 own
    obtain ⟨chained, idle, polled, sizes, holds, delivered⟩ := inRing
    have free : cell s.rx s.dma = none := by simp [cell, own]
    have stored : (storeFrame bytes s).stored = s.stored ++ [bytes] := by simp [storeFrame, own]
    have calls : (storeFrame bytes s).calls = s.calls := by simp [storeFrame, own]
    have dma : (storeFrame bytes s).dma = Ring.next s.dma := by
      simp [storeFrame, own, chained.linked]
    have toGet : (storeFrame bytes s).rx.dmaRxDescToGet = s.rx.dmaRxDescToGet := by
      simp [storeFrame, own]
    refine ⟨?_, ?_, ?_, ?_, ?_, ?_⟩
    · have kept := chained.setStatus s.dma (.whole bytes)
      simp only [storeFrame, own, if_true]
      exact ⟨kept.linked, kept.placed⟩
    · simpa [storeFrame, own] using idle
    · rw [stored, calls, List.length_append]
      omega
    · rw [stored]
      intro other member
      rcases List.mem_append.mp member with old | new
      · exact sizes other old
      · rw [List.mem_singleton.mp new]
        exact inside
    · rw [cells, toGet, dma, stored, calls, List.drop_append_of_le_length polled, List.map_append]
      exact holds.push free
    · rw [stored, calls, List.take_append_of_le_length polled]
      exact delivered
  · have same : storeFrame bytes s = s := by simp [storeFrame, own]
    rwa [same]

/-! ### The main loop polls -/

/-- Without a backlog a poll does nothing. -/
theorem poll_empty {B : Nat} {s : Receive N} (inRing : InRing B s)
    (empty : s.stored.length = s.calls.length) (alloc : Option (List Nat)) :
    poll B alloc s = some s := by
  have none : s.stored.drop s.calls.length = [] := List.drop_of_length_le (by omega)
  have free : cell s.rx s.rx.dmaRxDescToGet = Option.none := by
    rw [inRing.holds.front, none]
    rfl
  have own : (s.rx.desc s.rx.dmaRxDescToGet).status.own = true := by
    by_contra cpu
    simp [cell, cpu] at free
  simp [poll, ethCheckFrameReceived, own]

/-- The next frame is in the descriptor that the driver has come to. -/
theorem InRing.next_frame {B : Nat} {s : Receive N} (inRing : InRing B s) {bytes : List UInt8}
    {rest : List (List UInt8)} (waiting : s.stored.drop s.calls.length = bytes :: rest) :
    (s.rx.desc s.rx.dmaRxDescToGet).status = .whole bytes ∧
      readBytes s.rx.rxBuff (s.rx.desc s.rx.dmaRxDescToGet).buffer1Addr bytes.length = bytes := by
  have full : cell s.rx s.rx.dmaRxDescToGet = some (content bytes) := by
    rw [inRing.holds.front, waiting]
    rfl
  unfold cell at full
  split at full
  · cases full
  · have both := Option.some.inj full
    have status : (s.rx.desc s.rx.dmaRxDescToGet).status = .whole bytes := congrArg Prod.fst both
    refine ⟨status, ?_⟩
    have read := congrArg Prod.snd both
    rwa [status] at read

/-- The receive side after a frame was read: one descriptor is given back. -/
def Receive.afterRead (s : Receive N) (call : Call) : Receive N :=
  { s with
    rx := { s.rx.giveBack with lsRxDesc := some s.rx.dmaRxDescToGet }
    calls := s.calls ++ [call] }

/-- The receive side when a frame's last segment was seen. -/
def Rx.announce (rx : Rx N) : Rx N :=
  { rx with lsRxDesc := some rx.dmaRxDescToGet, segCount := rx.segCount + 1 }

/-- `ETH_CheckFrameReceived` announces the next frame, and its length is that of the frame without
the CRC. -/
theorem InRing.checked {B : Nat} {s : Receive N} (inRing : InRing B s) {bytes : List UInt8}
    {rest : List (List UInt8)} (waiting : s.stored.drop s.calls.length = bytes :: rest) :
    ethCheckFrameReceived s.rx = (true, s.rx.announce) ∧
      (s.rx.desc s.rx.dmaRxDescToGet).status.frameLength = bytes.length - 4 := by
  have member : bytes ∈ s.stored := List.mem_of_mem_drop (waiting ▸ List.mem_cons_self)
  have crc := (inRing.sizes bytes member).1
  have status := (inRing.next_frame waiting).1
  constructor
  · simp [ethCheckFrameReceived, status, Status.whole, Rx.announce]
  · simp [status, Status.frameLength, Status.whole, crc]

/-- **A poll reads the next frame.** -/
theorem poll_read {B : Nat} {s : Receive N} (inRing : InRing B s) {bytes : List UInt8}
    {rest : List (List UInt8)} (waiting : s.stored.drop s.calls.length = bytes :: rest)
    {alloc : Option (List Nat)} (allocates : ∀ sizes ∈ alloc, sizes.sum = bytes.length - 4) :
    ∃ packet, poll B alloc s = some (s.afterRead ⟨alloc, packet⟩) ∧ Delivers bytes ⟨alloc, packet⟩ := by
  have member : bytes ∈ s.stored := List.mem_of_mem_drop (waiting ▸ List.mem_cons_self)
  obtain ⟨crc, fits⟩ := inRing.sizes bytes member
  obtain ⟨checked, length⟩ := inRing.checked waiting
  obtain ⟨packet, input, noMemory, memory⟩ := lowLevelInput_single (by omega : 0 < B)
    (show s.rx.announce.segCount = 1 by simp [Rx.announce, inRing.idle]) alloc
    fun sizes isAlloc => by rw [allocates sizes isAlloc]; omega
  refine ⟨packet, ?_, ?_⟩
  · have enough : ∀ sizes ∈ alloc, sizes.sum =
        (s.rx.announce.desc s.rx.announce.dmaRxDescToGet).status.frameLength :=
      fun sizes isAlloc => (allocates sizes isAlloc).trans length.symm
    rw [poll, checked]
    simp only [if_true, if_pos enough, input, Option.map_some]
    rfl
  · rcases alloc with _ | sizes
    · exact noMemory rfl
    · obtain ⟨chain, isChain, lengths, flat⟩ := memory sizes rfl
      refine ⟨chain, isChain, lengths, ?_⟩
      rw [flat, allocates sizes rfl, readBytes_take _ _ (Nat.sub_le bytes.length 4)]
      exact congrArg (List.take _) (inRing.next_frame waiting).2

/-- A poll that reads a frame got a chain of the frame's length, or none. -/
theorem allocates_of_poll {B : Nat} {s next : Receive N} (inRing : InRing B s) {bytes : List UInt8}
    {rest : List (List UInt8)} (waiting : s.stored.drop s.calls.length = bytes :: rest)
    {alloc : Option (List Nat)} (taken : poll B alloc s = some next) :
    ∀ sizes ∈ alloc, sizes.sum = bytes.length - 4 := by
  obtain ⟨checked, length⟩ := inRing.checked waiting
  rw [poll, checked] at taken
  simp only [if_true] at taken
  split at taken
  · rename_i enough
    exact fun sizes isAlloc => (enough sizes isAlloc).trans length
  · cases taken

/-- A descriptor that is given back is an empty cell. -/
theorem cell_afterRead (s : Receive N) (call : Call) :
    cell (s.afterRead call).rx = Function.update (cell s.rx) s.rx.dmaRxDescToGet none := by
  funext i
  by_cases same : i = s.rx.dmaRxDescToGet
  · subst same
    simp [cell, Receive.afterRead, Rx.giveBack, Status.dma]
  · simp [cell, Receive.afterRead, Rx.giveBack, Function.update_of_ne same]

/-- The next frame is the first one that was not polled. -/
theorem getElem?_of_drop {stored : List (List UInt8)} {polled : Nat} {bytes : List UInt8}
    {rest : List (List UInt8)} (waiting : stored.drop polled = bytes :: rest) :
    stored[polled]? = some bytes := by
  have front := congrArg (·[0]?) waiting
  simpa using front

theorem inRing_read {B : Nat} {s : Receive N} (inRing : InRing B s) {bytes : List UInt8}
    {rest : List (List UInt8)} (waiting : s.stored.drop s.calls.length = bytes :: rest) {call : Call}
    (delivers : Delivers bytes call) : InRing B (s.afterRead call) := by
  obtain ⟨chained, idle, polled, sizes, holds, delivered⟩ := inRing
  have front := getElem?_of_drop waiting
  have fewer : s.calls.length < s.stored.length := (List.getElem?_eq_some_iff.mp front).1
  refine ⟨?_, rfl, ?_, sizes, ?_, ?_⟩
  · have kept := chained.setStatus s.rx.dmaRxDescToGet .dma
    exact ⟨kept.linked, kept.placed⟩
  · show (s.calls ++ [call]).length ≤ s.stored.length
    rw [List.length_append]
    exact fewer
  · have after : s.stored.drop (s.calls ++ [call]).length = rest := by
      rw [List.length_append, ← List.drop_drop, waiting]
      rfl
    rw [cell_afterRead]
    rw [waiting, List.map_cons] at holds
    have popped := holds.pop
    rw [← chained.linked] at popped
    show Ring.Holds _ _ _ ((s.stored.drop (s.calls ++ [call]).length).map content)
    rw [after]
    exact popped
  · show List.Forall₂ Delivers (s.stored.take (s.calls ++ [call]).length) (s.calls ++ [call])
    rw [List.length_append, List.length_singleton, List.take_add_one, front]
    exact List.rel_append delivered (.cons delivers .nil)

/-! ### Every run -/

/-- Either all stored frames were polled, or there is a next one. -/
theorem InRing.backlog_cases {B : Nat} {s : Receive N} (inRing : InRing B s) :
    s.stored.length = s.calls.length ∨
      ∃ bytes rest, s.stored.drop s.calls.length = bytes :: rest := by
  have polled := inRing.polled
  rcases waiting : s.stored.drop s.calls.length with _ | ⟨bytes, rest⟩
  · left
    have := List.drop_eq_nil_iff.mp waiting
    omega
  · exact .inr ⟨bytes, rest, rfl⟩

theorem inRing_step {B : Nat} (s : Receive N) (event : Event) (next : Receive N)
    (inRing : InRing B s) (taken : step B s event = some next) : InRing B next := by
  cases event with
  | frame bytes =>
    simp only [step] at taken
    split at taken
    · rename_i inside
      rw [← Option.some.inj taken]
      exact inRing_store inRing inside
    · cases taken
  | poll alloc =>
    have polls : poll B alloc s = some next := taken
    rcases inRing.backlog_cases with empty | ⟨bytes, rest, waiting⟩
    · rw [poll_empty inRing empty] at polls
      rw [← Option.some.inj polls]
      exact inRing
    · obtain ⟨packet, read, delivers⟩ :=
        poll_read inRing waiting (allocates_of_poll inRing waiting polls)
      rw [read] at polls
      rw [← Option.some.inj polls]
      exact inRing_read inRing waiting delivers

/-- A poll takes the next frame, if there is one. -/
theorem polls_of_inRing {B : Nat} {s : Receive N} (inRing : InRing B s) (alloc : Option (List Nat))
    (allocates : s.Allocates alloc) : ∃ next, step B s (.poll alloc) = some next ∧
      next.calls.length = min (s.calls.length + 1) s.stored.length := by
  have polled := inRing.polled
  rcases inRing.backlog_cases with empty | ⟨bytes, rest, waiting⟩
  · exact ⟨s, poll_empty inRing empty alloc, by omega⟩
  · have front := getElem?_of_drop waiting
    have fewer : s.calls.length < s.stored.length := (List.getElem?_eq_some_iff.mp front).1
    obtain ⟨packet, read, _⟩ := poll_read inRing waiting
      fun sizes isAlloc => allocates sizes isAlloc bytes front
    refine ⟨_, read, ?_⟩
    show (s.calls ++ [_]).length = _
    rw [List.length_append, List.length_singleton]
    omega

theorem inOrder_of_inRing {B : Nat} (s : Receive N) (inRing : InRing B s) : InOrder B s := by
  have queue : ((s.stored.drop s.calls.length).map content).length = s.backlog := by
    rw [List.length_map, List.length_drop, Receive.backlog]
  refine ⟨inRing.idle, queue ▸ inRing.holds.fits, queue ▸ inRing.holds.ends, fun offset inside => ?_,
    ⟨inRing.polled, inRing.delivered⟩, polls_of_inRing inRing⟩
  rw [← queue, ← inRing.holds.isSome_iff inside]
  by_cases own : (s.rx.desc (Ring.slot s.rx.dmaRxDescToGet offset)).status.own <;> simp [cell, own]

/-- **The receive ring works in order.** For every number of descriptors and size of the buffers, and
every order of arriving frames and polls, every state of the run is `InOrder`. -/
theorem receive_in_order (B : Nat) (rxBuff : Nat → UInt8) (first : 0 < N) (events : List Event) :
    Always (step B) (InOrder B) (Receive.initial B rxBuff first) events := by
  exact (always_of_invariant inRing_step events _ (inRing_initial B rxBuff first)).mono
    inOrder_of_inRing

/-- Two frames, of which the second finds no memory, and a poll too many. -/
def twoFrames : List Event :=
  [.frame (List.replicate 64 7), .frame (List.replicate 68 9), .poll (some [40, 0, 20]), .poll none,
    .poll none]

theorem receive_in_order_five :
    Always (step 1524) (InOrder 1524) (Receive.initial 1524 (fun _ => 0) (by decide : 0 < 5))
        twoFrames ∧
      (run (step 1524) (Receive.initial 1524 (fun _ => 0) (by decide : 0 < 5)) twoFrames).map
          Receive.calls =
        some [⟨some [40, 0, 20], some [List.replicate 40 7, [], List.replicate 20 7]⟩,
          ⟨none, none⟩] :=
  ⟨receive_in_order 1524 (fun _ => 0) (by decide) twoFrames, by decide +kernel⟩

end ULoader.Eth

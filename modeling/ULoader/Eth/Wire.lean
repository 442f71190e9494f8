/-
**What goes out on the wire.**

The DMA sends the descriptors that `low_level_output` hands to it, one after the other: it has a position of
its own, and waits there for as long as the descriptor belongs to the CPU. The two come in any order. What it
takes from a descriptor is a segment: so many bytes of the buffer, with the flags `FS` and `LS` that tell
where a frame begins and where it ends.

* `bytes_in_order` — whatever the frames are, as long as each has at least one byte and fits the ring, the
  bytes that have been sent and those that wait in the ring are, in order, the bytes of the frames that
  `low_level_output` has accepted: none is lost, none comes twice.
* `framed_iff` — they are sent as the frames they belong to exactly as long as no frame is spread over
  descriptors that carry flags of earlier ones: `ETH_Prepare_Transmit_Descriptors` sets `FS` and `LS` and
  never clears them.
* `frames_in_order` — so when every frame fits into one buffer, as it does with the configured sizes, the
  frames on the wire are the accepted ones.

The ring is an instance of `Ring.Holds`: a cell is full when its descriptor belongs to the DMA. A call of
`low_level_output` is an `append`, a step of the DMA a `pop`.
-/

import ULoader.Eth.Transmit
import ULoader.Lib.StepSystem

namespace ULoader.Eth.Wire

open Ring StepSystem

variable {N : Nat}

/-! ### The system -/

/-- What the DMA takes from a descriptor. -/
structure Segment where
  first : Bool
  last : Bool
  bytes : List UInt8
  deriving DecidableEq, Repr

/-- The transmit side, the DMA's position, the frames accepted so far, and what has been sent. -/
structure Transmit (N : Nat) where
  tx : Tx N
  dma : Fin N
  accepted : List (List UInt8)
  wire : List Segment

/-- A frame is handed to the driver, or the DMA looks at its descriptor. -/
inductive Event where
  | output (chain : List (List UInt8))
  | dma (others : UInt32)

/-- The segment in a descriptor. -/
def segmentAt (tx : Tx N) (i : Fin N) : Segment :=
  ⟨(tx.desc i).status.fs, (tx.desc i).status.ls, tx.segment i⟩

/-- The DMA sends a descriptor of its own and gives it back, with whatever it reports in the other bits of
the status word; the flags `FS` and `LS` are not among these. -/
def sendSegment (others : UInt32) (s : Transmit N) : Transmit N :=
  let desc := s.tx.desc s.dma
  if desc.status.own then
    { s with
      tx := { s.tx with
        desc := Function.update s.tx.desc s.dma
          { desc with status := { desc.status with own := false, others := others } } }
      dma := desc.buffer2NextDescAddr
      wire := s.wire ++ [segmentAt s.tx s.dma] }
  else s

/-- One step; a frame is not empty, and fits the ring and the length of `tot_len`. -/
def step (B : Nat) (s : Transmit N) : Event → Option (Transmit N)
  | .output chain =>
    if 1 ≤ chain.flatten.length ∧ chain.flatten.length ≤ min (N * B) 65535 then
      (lowLevelOutput B chain s.tx).map fun (err, tx) =>
        { s with tx := tx, accepted := s.accepted ++ if err = .ok then [chain.flatten] else [] }
    else none
  | .dma others => some (sendSegment others s)

/-- `ETH_DMATxDescChecksumInsertionConfig`, on one descriptor. -/
def ethDmaTxDescChecksumInsertionConfig (checksum : UInt32) (desc : TxDesc N) : TxDesc N :=
  { desc with status := { desc.status with others := desc.status.others ||| checksum } }

/-- The transmit side after `low_level_init`. -/
def Transmit.initial (B : Nat) (before : Fin N → TxDesc N) (txBuff : Nat → UInt8) (first : 0 < N) :
    Transmit N where
  tx :=
    let tx := ethDmaTxDescChainInit B before txBuff first
    { tx with desc := fun i => ethDmaTxDescChecksumInsertionConfig 0x00c00000 (tx.desc i) }
  dma := ⟨0, first⟩
  accepted := []
  wire := []

/-! ### What is to be shown -/

/-- A descriptor as a cell of the ring: empty when it belongs to the CPU. -/
def cell (tx : Tx N) (i : Fin N) : Option Segment :=
  if (tx.desc i).status.own then some (segmentAt tx i) else none

/-- What waits in the ring, in the order in which the DMA will come to it. -/
def Transmit.pending (s : Transmit N) : List Segment :=
  (List.range N).filterMap fun offset => cell s.tx (slot s.dma offset)

/-- The segments that a frame is to be sent in. -/
def cutFrame (B : Nat) (bytes : List UInt8) : List Segment :=
  (List.range (segments B bytes.length)).map fun j =>
    ⟨j = 0, j = segments B bytes.length - 1, (bytes.drop (j * B)).take B⟩

/-- The bytes are those of the accepted frames. -/
def SameBytes (s : Transmit N) : Prop :=
  ((s.wire ++ s.pending).map Segment.bytes).flatten = s.accepted.flatten

/-- The segments are those of the accepted frames. -/
def Framed (B : Nat) (s : Transmit N) : Prop :=
  s.wire ++ s.pending = s.accepted.flatMap (cutFrame B)

/-- The driver finds all descriptors that a frame needs free. -/
def Transmit.Accepts (B : Nat) (s : Transmit N) (chain : List (List UInt8)) : Prop :=
  ∀ j < segments B chain.flatten.length, (s.tx.desc (slot s.tx.dmaTxDescToSet j)).status.own = false

instance (B : Nat) (s : Transmit N) (chain : List (List UInt8)) : Decidable (s.Accepts B chain) :=
  inferInstanceAs (Decidable (∀ j < _, _))

/-- Of the descriptors that an accepted frame needs, only the first carries an old `FS`, and only the last
an old `LS`. -/
def Unstained (B : Nat) (s : Transmit N) : Event → Prop
  | .output chain => s.Accepts B chain → ∀ j < segments B chain.flatten.length,
    ((s.tx.desc (slot s.tx.dmaTxDescToSet j)).status.fs = true → j = 0) ∧
      ((s.tx.desc (slot s.tx.dmaTxDescToSet j)).status.ls = true →
        j = segments B chain.flatten.length - 1)
  | .dma _ => True

instance (B : Nat) (s : Transmit N) : (event : Event) → Decidable (Unstained B s event)
  | .output chain => inferInstanceAs (Decidable (s.Accepts B chain → _))
  | .dma _ => .isTrue trivial

/-! ### The flags in the descriptors -/

/-- The flags are added to those of before. -/
theorem prepareDesc_flags (B frameLength count j : Nat) (desc : TxDesc N) :
    (prepareDesc B frameLength count j desc).status.fs = (desc.status.fs || decide (j = 0)) ∧
      (prepareDesc B frameLength count j desc).status.ls =
        (desc.status.ls || decide (j = count - 1)) := by
  unfold prepareDesc
  dsimp only
  split
  · rename_i last
    split
    · rename_i first
      exact ⟨by simp [first], by simp [last]⟩
    · rename_i later
      exact ⟨by simp [later], by simp [last]⟩
  · rename_i more
    split
    · rename_i first
      exact ⟨by simp [first], by simp [more]⟩
    · rename_i later
      exact ⟨by simp [later], by simp [more]⟩

theorem ethPrepareTransmitDescriptors_flags {B frameLength : Nat} {tx : Tx N} (positive : 0 < B)
    (chained : tx.Chained B) (nonempty : 1 ≤ frameLength) (fits : segments B frameLength ≤ N)
    (free : (tx.desc tx.dmaTxDescToSet).status.own = false) (j : Nat)
    (inside : j < segments B frameLength) :
    let after := (ethPrepareTransmitDescriptors B frameLength tx).2.desc (slot tx.dmaTxDescToSet j)
    let before := tx.desc (slot tx.dmaTxDescToSet j)
    after.status.fs = (before.status.fs || decide (j = 0)) ∧
      after.status.ls = (before.status.ls || decide (j = segments B frameLength - 1)) := by
  have counts := bufCount_eq positive nonempty
  by_cases single : segments B frameLength = 1
  · have first : j = 0 := by omega
    simp [ethPrepareTransmitDescriptors, free, counts, single, first]
  · obtain ⟨-, prepared, -⟩ := prepareLoop_spec B frameLength (segments B frameLength)
      (segments B frameLength) 0 tx.dmaTxDescToSet tx chained.linked fits
    simp only [ethPrepareTransmitDescriptors, free, Bool.false_eq_true, if_false, counts, single]
    rw [prepared j inside, Nat.zero_add]
    exact prepareDesc_flags ..

/-! ### A call of `low_level_output` -/

/-- What a frame becomes in the ring: its pieces, with the flags that the descriptors had before. -/
def handed (B : Nat) (tx : Tx N) (bytes : List UInt8) : List Segment :=
  (List.range (segments B bytes.length)).map fun j =>
    ⟨(tx.desc (slot tx.dmaTxDescToSet j)).status.fs || decide (j = 0),
      (tx.desc (slot tx.dmaTxDescToSet j)).status.ls || decide (j = segments B bytes.length - 1),
      (bytes.drop (j * B)).take B⟩

@[simp] theorem length_handed (B : Nat) (tx : Tx N) (bytes : List UInt8) :
    (handed B tx bytes).length = segments B bytes.length := by
  rw [handed, List.length_map, List.length_range]

/-- No descriptor of the DMA announces more than a buffer. -/
def Sized (B : Nat) (tx : Tx N) : Prop :=
  ∀ i, (tx.desc i).status.own = true → (tx.desc i).controlBufferSize &&& tbs1 ≤ B

/-- A cell is what it was when its descriptor and the bytes of its buffer are. -/
theorem cell_congr {B : Nat} {before after : Tx N} (chained : before.Chained B) (sized : Sized B before)
    {i : Fin N} (desc : after.desc i = before.desc i)
    (bytes : (before.desc i).status.own = true → ∀ r < B,
      after.txBuff (i * B + r) = before.txBuff (i * B + r)) :
    cell after i = cell before i := by
  unfold cell
  rw [desc]
  split
  · rename_i own
    have read : after.segment i = before.segment i := by
      rw [Tx.segment, Tx.segment, desc, chained.placed]
      refine List.map_congr_left fun r member => bytes own r ?_
      exact (List.mem_range.mp member).trans_le (sized i own)
    rw [segmentAt, segmentAt, desc, read]
  · rfl

/-- What a call does to the ring when it is refused. -/
structure Refused (B : Nat) (tx after : Tx N) (chain : List (List UInt8)) : Prop where
  busy : ¬ ∀ j < segments B chain.flatten.length,
    (tx.desc (slot tx.dmaTxDescToSet j)).status.own = false
  desc : after.desc = tx.desc
  toSet : after.dmaTxDescToSet = tx.dmaTxDescToSet
  cells : cell after = cell tx

/-- What a call does to the ring when it is accepted. -/
structure Accepted (B : Nat) (tx after : Tx N) (chain : List (List UInt8)) : Prop where
  fits : segments B chain.flatten.length ≤ N
  free : ∀ j < segments B chain.flatten.length,
    (tx.desc (slot tx.dmaTxDescToSet j)).status.own = false
  chained : after.Chained B
  sized : Sized B after
  toSet : after.dmaTxDescToSet = slot tx.dmaTxDescToSet (segments B chain.flatten.length)
  filled : ∀ j < segments B chain.flatten.length,
    cell after (slot tx.dmaTxDescToSet j) = (handed B tx chain.flatten)[j]?
  others : ∀ i, (∀ j < segments B chain.flatten.length, i ≠ slot tx.dmaTxDescToSet j) →
    cell after i = cell tx i

/-- The sizes that are written into the descriptors do not exceed a buffer. -/
theorem sized_of_prepared {B frameLength count j : Nat} {before desc : TxDesc N}
    (prepared : Prepared B frameLength count j before desc) (small : B ≤ tbs1)
    (rest : frameLength - (count - 1) * B ≤ B) : desc.controlBufferSize &&& tbs1 ≤ B := by
  have size : (if j = count - 1 then frameLength - (count - 1) * B else B) ≤ B := by
    split
    · exact rest
    · exact Nat.le_refl B
  rw [prepared.size, land_tbs1 (size.trans small), land_tbs1 (size.trans small)]
  exact size

/-- **`low_level_output`** puts a frame into the ring, or refuses it and leaves the ring alone. -/
theorem lowLevelOutput_ring {B : Nat} (small : B ≤ tbs1) {tx : Tx N} (chained : tx.Chained B)
    (sized : Sized B tx) {chain : List (List UInt8)} (nonempty : 1 ≤ chain.flatten.length)
    (fits : chain.flatten.length ≤ min (N * B) 65535) :
    (∃ after, lowLevelOutput B chain tx = some (.ok, after) ∧ Accepted B tx after chain) ∨
      ∃ err after, err ≠ .ok ∧ lowLevelOutput B chain tx = some (err, after) ∧
        Refused B tx after chain := by
  have inRing : chain.flatten.length ≤ N * B := fits.trans (Nat.min_le_left ..)
  have positive := bufferSize_pos nonempty inRing
  rcases lowLevelOutput_cases chained nonempty inRing with
    ⟨copied, c, m, ends, sent, tight⟩ | ⟨err, copied, failed, ends, met⟩
  · left
    have whole : chain.flatten.length % 2 ^ 16 = chain.flatten.length :=
      Nat.mod_eq_of_lt (by omega)
    have count := sent.segments_eq positive tight nonempty
    have bound : segments B chain.flatten.length ≤ N := by
      rw [count]
      exact sent.bound
    have copiedFree : (copied.desc copied.dmaTxDescToSet).status.own = false := by
      rw [sent.desc, sent.toSet, ← slot_zero tx.dmaTxDescToSet]
      exact sent.free 0 (Nat.zero_le m)
    obtain ⟨advanced, prepared, others⟩ := ethPrepareTransmitDescriptors_spec positive
      (sent.chained chained) nonempty bound copiedFree
    have flags := ethPrepareTransmitDescriptors_flags positive (sent.chained chained) nonempty bound
      copiedFree
    have same := sameRing_ethPrepareTransmitDescriptors B chain.flatten.length copied
    rw [whole] at ends
    generalize (ethPrepareTransmitDescriptors B chain.flatten.length copied).2 = after at *
    rw [sent.toSet] at advanced prepared others flags
    rw [sent.desc] at prepared others flags
    have rest : chain.flatten.length - (segments B chain.flatten.length - 1) * B ≤ B := by
      have enough := (lt_segments positive chain.flatten.length
        (segments B chain.flatten.length)).not.mp (Nat.lt_irrefl _)
      have cut := Nat.sub_mul (segments B chain.flatten.length) 1 B
      rw [Nat.one_mul] at cut
      omega
    refine ⟨after, ends, bound, fun j inside => sent.free j (by omega),
      same.chained (sent.chained chained), fun i own => ?_, advanced, fun j inside => ?_,
      fun i outside => ?_⟩
    · by_cases new : ∃ j < segments B chain.flatten.length, i = slot tx.dmaTxDescToSet j
      · obtain ⟨j, inside, rfl⟩ := new
        exact sized_of_prepared (prepared j inside) small rest
      · have old := others i fun j inside isSlot => new ⟨j, inside, isSlot⟩
        rw [old] at own ⊢
        exact sized i own
    · have piece := sent.segment positive chained small inside same.txBuff (prepared j inside)
      rw [cell, if_pos (prepared j inside).own, segmentAt, (flags j inside).1, (flags j inside).2,
        piece, handed, List.getElem?_map, List.getElem?_range inside]
      rfl
    · refine cell_congr chained sized (others i outside) fun own r inside => ?_
      rw [same.txBuff]
      exact sent.untouched i own r inside
  · right
    refine ⟨err, copied, failed, ends, fun free => ?_, met.desc, met.toSet, funext fun i => ?_⟩
    · obtain ⟨j, needed, busy⟩ := met.busy
      rw [free j ((lt_segments positive _ j).mpr needed)] at busy
      cases busy
    · exact cell_congr chained sized (congrFun met.desc i) fun own => met.untouched i own

/-! ### The ring holds what waits -/

/-- The invariant of the transmit side. -/
structure InRing (B : Nat) (s : Transmit N) : Prop where
  chained : s.tx.Chained B
  sized : Sized B s.tx
  holds : Holds (cell s.tx) s.dma s.tx.dmaTxDescToSet s.pending

theorem pending_of_holds {s : Transmit N} {queue : List Segment}
    (holds : Holds (cell s.tx) s.dma s.tx.dmaTxDescToSet queue) : s.pending = queue :=
  holds.filterMap

theorem holds_initial (B : Nat) (before : Fin N → TxDesc N) (txBuff : Nat → UInt8) (first : 0 < N) :
    Holds (cell (Transmit.initial B before txBuff first).tx) ⟨0, first⟩ ⟨0, first⟩ [] := by
  refine Holds.empty _ fun i => ?_
  simp [cell, Transmit.initial, ethDmaTxDescChainInit, ethDmaTxDescChecksumInsertionConfig,
    TxStatus.tch]

theorem pending_initial (B : Nat) (before : Fin N → TxDesc N) (txBuff : Nat → UInt8)
    (first : 0 < N) : (Transmit.initial B before txBuff first).pending = [] :=
  pending_of_holds (holds_initial B before txBuff first)

theorem inRing_initial (B : Nat) (before : Fin N → TxDesc N) (txBuff : Nat → UInt8) (first : 0 < N) :
    InRing B (Transmit.initial B before txBuff first) := by
  have chained := chained_txInit B before txBuff first
  refine ⟨⟨fun i => ?_, fun i => ?_⟩, fun i own => ?_, ?_⟩
  · simp only [Transmit.initial, ethDmaTxDescChecksumInsertionConfig, chained.linked]
  · simp only [Transmit.initial, ethDmaTxDescChecksumInsertionConfig, chained.placed]
  · simp [Transmit.initial, ethDmaTxDescChainInit, ethDmaTxDescChecksumInsertionConfig,
      TxStatus.tch] at own
  · rw [pending_initial]
    exact holds_initial B before txBuff first

/-- **The DMA's step** moves the front of the ring to the wire. -/
theorem inRing_sendSegment {B : Nat} {s : Transmit N} (inRing : InRing B s) (others : UInt32) :
    InRing B (sendSegment others s) ∧ (sendSegment others s).pending = s.pending.tail ∧
      (sendSegment others s).wire ++ (sendSegment others s).pending = s.wire ++ s.pending := by
  by_cases own : (s.tx.desc s.dma).status.own = true
  · let after : Transmit N := sendSegment others s
    have front : cell s.tx s.dma = some (segmentAt s.tx s.dma) := by simp [cell, own]
    obtain ⟨rest, queue⟩ : ∃ rest, s.pending = segmentAt s.tx s.dma :: rest := by
      rw [inRing.holds.front] at front
      cases pending : s.pending with
      | nil => rw [pending] at front; cases front
      | cons segment rest =>
        rw [pending] at front
        exact ⟨rest, by rw [Option.some.inj front]⟩
    have cells : cell after.tx = Function.update (cell s.tx) s.dma none := by
      funext i
      by_cases same : i = s.dma
      · subst same
        simp [after, sendSegment, own, cell]
      · simp [after, sendSegment, own, cell, segmentAt, Tx.segment, Function.update_of_ne same]
    have popped := inRing.holds
    rw [queue] at popped
    have holds : Holds (cell after.tx) after.dma after.tx.dmaTxDescToSet rest := by
      have dma : after.dma = next s.dma := by
        simp [after, sendSegment, own, inRing.chained.linked]
      have toSet : after.tx.dmaTxDescToSet = s.tx.dmaTxDescToSet := by
        simp [after, sendSegment, own]
      rw [cells, dma, toSet]
      exact popped.pop
    have pending := pending_of_holds holds
    refine ⟨⟨⟨fun i => ?_, fun i => ?_⟩, fun i stillOwn => ?_, pending.symm ▸ holds⟩,
      by rw [queue]; exact pending, ?_⟩
    · by_cases same : i = s.dma
      · subst same
        simp [sendSegment, own, inRing.chained.linked]
      · simp [sendSegment, own, Function.update_of_ne same, inRing.chained.linked]
    · by_cases same : i = s.dma
      · subst same
        simp [sendSegment, own, inRing.chained.placed]
      · simp [sendSegment, own, Function.update_of_ne same, inRing.chained.placed]
    · by_cases same : i = s.dma
      · subst same
        simp [sendSegment, own] at stillOwn
      · simp only [sendSegment, own, if_true, Function.update_of_ne same] at stillOwn ⊢
        exact inRing.sized i stillOwn
    · show after.wire ++ after.pending = _
      rw [pending, queue]
      simp [after, sendSegment, own]
  · have same : sendSegment others s = s := by simp [sendSegment, own]
    have empty : s.pending = [] := by
      have front := inRing.holds.front
      rw [cell, if_neg own, eq_comm, List.getElem?_eq_none_iff] at front
      exact List.eq_nil_of_length_eq_zero (Nat.le_zero.mp front)
    rw [same, empty]
    exact ⟨inRing, rfl, rfl⟩

theorem accepted_sendSegment (others : UInt32) (s : Transmit N) :
    (sendSegment others s).accepted = s.accepted := by
  unfold sendSegment
  dsimp only
  split <;> rfl

/-- What a step can do to the frames: nothing, or a frame is accepted and waits in the ring. -/
inductive Taken (B : Nat) (s : Transmit N) (next : Transmit N) : Event → Prop where
  | kept {event : Event} (refuses : ∀ chain, event = .output chain → ¬ s.Accepts B chain)
    (accepted : next.accepted = s.accepted)
    (sent : next.wire ++ next.pending = s.wire ++ s.pending) : Taken B s next event
  | accepted (chain : List (List UInt8)) (accepts : s.Accepts B chain)
    (nonempty : 1 ≤ chain.flatten.length) (positive : 0 < B)
    (accepted : next.accepted = s.accepted ++ [chain.flatten])
    (sent : next.wire ++ next.pending = s.wire ++ s.pending ++ handed B s.tx chain.flatten) :
    Taken B s next (.output chain)

/-- A frame is accepted. -/
theorem inRing_accepted {B : Nat} {s : Transmit N} (inRing : InRing B s) {after : Tx N}
    {chain : List (List UInt8)} (done : Accepted B s.tx after chain) :
    let next : Transmit N := { s with tx := after, accepted := s.accepted ++ [chain.flatten] }
    InRing B next ∧ next.pending = s.pending ++ handed B s.tx chain.flatten := by
  intro next
  have holds : Holds (cell after) s.dma (slot s.tx.dmaTxDescToSet (handed B s.tx chain.flatten).length)
      (s.pending ++ handed B s.tx chain.flatten) := by
    refine inRing.holds.append ?_ ?_ ?_ ?_ <;> rw [length_handed]
    · exact done.fits
    · intro j less
      simp [cell, done.free j less]
    · exact done.filled
    · exact done.others
  rw [length_handed, ← done.toSet] at holds
  have pending : next.pending = s.pending ++ handed B s.tx chain.flatten := pending_of_holds holds
  exact ⟨⟨done.chained, done.sized, pending.symm ▸ holds⟩, pending⟩

/-- A frame is refused. -/
theorem inRing_refused {B : Nat} {s : Transmit N} (inRing : InRing B s) {after : Tx N}
    {chain : List (List UInt8)} (refused : Refused B s.tx after chain) :
    let next : Transmit N := { s with tx := after }
    InRing B next ∧ next.pending = s.pending := by
  intro next
  have holds : Holds (cell after) s.dma after.dmaTxDescToSet s.pending := by
    rw [refused.cells, refused.toSet]
    exact inRing.holds
  have pending : next.pending = s.pending := pending_of_holds holds
  refine ⟨⟨⟨fun i => ?_, fun i => ?_⟩, fun i own => ?_, pending.symm ▸ holds⟩, pending⟩
  · show (after.desc i).buffer2NextDescAddr = _
    rw [refused.desc, inRing.chained.linked]
  · show (after.desc i).buffer1Addr = _
    rw [refused.desc, inRing.chained.placed]
  · change (after.desc i).status.own = true at own
    show (after.desc i).controlBufferSize &&& tbs1 ≤ B
    rw [refused.desc] at own ⊢
    exact inRing.sized i own

/-- **One step.** -/
theorem inRing_step {B : Nat} (small : B ≤ tbs1) {s next : Transmit N} {event : Event}
    (inRing : InRing B s) (taken : step B s event = some next) :
    InRing B next ∧ Taken B s next event := by
  cases event with
  | dma others =>
    obtain ⟨kept, -, sent⟩ := inRing_sendSegment inRing others
    cases taken
    exact ⟨kept, .kept nofun (accepted_sendSegment others s) sent⟩
  | output chain =>
    rw [step] at taken
    split at taken
    · rename_i inside
      have positive := bufferSize_pos inside.1 (inside.2.trans (Nat.min_le_left ..))
      rcases lowLevelOutput_ring small inRing.chained inRing.sized inside.1 inside.2 with
        ⟨after, ends, done⟩ | ⟨err, after, failed, ends, refused⟩
      · rw [ends] at taken
        have isNext : next = { s with tx := after, accepted := s.accepted ++ [chain.flatten] } :=
          (Option.some.inj taken).symm
        obtain ⟨kept, pending⟩ := inRing_accepted inRing done
        rw [isNext]
        refine ⟨kept, .accepted chain done.free inside.1 positive rfl ?_⟩
        rw [pending, List.append_assoc]
      · rw [ends] at taken
        have isNext : next = { s with tx := after } := by
          have same := (Option.some.inj taken).symm
          simpa [failed] using same
        obtain ⟨kept, pending⟩ := inRing_refused inRing refused
        rw [isNext]
        refine ⟨kept, .kept (fun other same => ?_) rfl (by rw [pending])⟩
        cases same
        exact refused.busy
    · cases taken

/-! ### Every run -/

/-- The pieces of a frame, whatever their flags, are its bytes. -/
theorem bytes_handed {B : Nat} (positive : 0 < B) (tx : Tx N) (bytes : List UInt8) :
    ((handed B tx bytes).map Segment.bytes).flatten = bytes := by
  have enough := (lt_segments positive bytes.length (segments B bytes.length)).not.mp
    (Nat.lt_irrefl _)
  rw [handed, List.map_map]
  exact (Lines.flatten_pieces ..).trans (List.take_of_length_le (Nat.le_of_not_lt enough))

/-- A frame goes out as such exactly when the flags of before do not matter. -/
theorem handed_eq_cutFrame_iff {B : Nat} {s : Transmit N} {chain : List (List UInt8)}
    (accepts : s.Accepts B chain) :
    handed B s.tx chain.flatten = cutFrame B chain.flatten ↔ Unstained B s (.output chain) := by
  rw [handed, cutFrame, List.map_inj_left]
  simp only [List.mem_range, Segment.mk.injEq, and_true, Unstained]
  constructor
  · intro same _ j inside
    obtain ⟨first, last⟩ := same j inside
    constructor
    · intro old
      rw [old, Bool.true_or] at first
      exact of_decide_eq_true first.symm
    · intro old
      rw [old, Bool.true_or] at last
      exact of_decide_eq_true last.symm
  · intro clean j inside
    obtain ⟨first, last⟩ := clean accepts j inside
    constructor
    · rw [Bool.or_eq_right_iff_imp]
      exact fun old => decide_eq_true (first old)
    · rw [Bool.or_eq_right_iff_imp]
      exact fun old => decide_eq_true (last old)

theorem sameBytes_step {B : Nat} (small : B ≤ tbs1) (s : Transmit N) (event : Event)
    (next : Transmit N) (inRing : InRing B s ∧ SameBytes s) (taken : step B s event = some next) :
    InRing B next ∧ SameBytes next := by
  obtain ⟨inRing, same⟩ := inRing
  obtain ⟨kept, effect⟩ := inRing_step small inRing taken
  refine ⟨kept, ?_⟩
  unfold SameBytes at same ⊢
  cases effect with
  | kept _ accepted sent => rw [sent, accepted, same]
  | accepted chain _ _ positive accepted sent =>
    rw [sent, accepted, List.map_append, List.flatten_append, same, bytes_handed positive,
      List.flatten_append, List.flatten_singleton]

/-- **No byte is lost, and none comes twice.** For every number of descriptors and every size of the buffers
that the size field can hold, and every order of frames of 1 to `min (N * B) 65535` bytes and steps of the
DMA, in every state of the run the bytes sent, followed by those in the ring, are the bytes of the accepted
frames in order. -/
theorem bytes_in_order (B : Nat) (small : B ≤ tbs1) (before : Fin N → TxDesc N) (txBuff : Nat → UInt8)
    (first : 0 < N) (events : List Event) :
    Always (step B) SameBytes (Transmit.initial B before txBuff first) events := by
  have initial : SameBytes (Transmit.initial B before txBuff first) := by
    rw [SameBytes, pending_initial]
    rfl
  refine (always_of_invariant (sameBytes_step small) events _
    ⟨inRing_initial B before txBuff first, initial⟩).mono fun _ both => both.2

/-- Three small buffers; the third frame has to wait for the DMA. -/
def busyRing : List Event :=
  [.output [[1, 2], [3]], .output [[4, 5, 6, 7, 8]], .output [[9]], .dma 0, .output [[9]], .dma 0]

theorem zero_lt_three : 0 < 3 := by decide

/-- A ring of three buffers of four bytes. -/
def three : Transmit 3 := Transmit.initial 4 (fun _ => ⟨.tch, 0, 0, ⟨0, zero_lt_three⟩⟩) (fun _ => 0) zero_lt_three

theorem bytes_in_order_busyRing :
    Always (step 4) SameBytes three busyRing ∧
      (run (step 4) three busyRing).map Transmit.accepted =
        some [[1, 2, 3], [4, 5, 6, 7, 8], [9]] :=
  ⟨bytes_in_order 4 (by decide) _ _ _ busyRing, by decide +kernel⟩

/-- Each descriptor has sent a small frame when a larger one comes. -/
def usedRing : List Event :=
  [.output [[1]], .output [[2]], .output [[3]], .dma 0, .dma 0, .output [[4, 5, 6, 7, 8]]]

/-- A frame in a single segment. -/
def whole (bytes : List UInt8) : Segment := ⟨true, true, bytes⟩

theorem handed_whole {B : Nat} (tx : Tx N) {bytes : List UInt8} (nonempty : 1 ≤ bytes.length)
    (fits : bytes.length ≤ B) : handed B tx bytes = [whole bytes] := by
  have positive : 0 < B := by omega
  have one : segments B bytes.length = 1 := by
    have some := (lt_segments positive bytes.length 0).mpr (by omega)
    have enough := (lt_segments positive bytes.length 1).not.mpr (by omega)
    omega
  simp [handed, one, whole, List.take_of_length_le fits]

/-- What has been sent and what waits is the accepted frames. -/
def Whole (s : Transmit N) : Prop := s.wire ++ s.pending = s.accepted.map whole

/-- A frame that fits one buffer. -/
def FitsOne (B : Nat) : Event → Prop
  | .output chain => chain.flatten.length ≤ B
  | .dma _ => True

instance (B : Nat) : (event : Event) → Decidable (FitsOne B event)
  | .output chain => inferInstanceAs (Decidable (chain.flatten.length ≤ B))
  | .dma _ => .isTrue trivial

theorem whole_step {B : Nat} (small : B ≤ tbs1) (s : Transmit N) (event : Event) (next : Transmit N)
    (both : InRing B s ∧ Whole s) (fits : FitsOne B event) (taken : step B s event = some next) :
    InRing B next ∧ Whole next := by
  obtain ⟨inRing, whole⟩ := both
  obtain ⟨kept, effect⟩ := inRing_step small inRing taken
  refine ⟨kept, ?_⟩
  unfold Whole at whole ⊢
  cases effect with
  | kept _ accepted sent => rw [sent, accepted, whole]
  | accepted chain _ nonempty _ accepted sent =>
    rw [sent, accepted, whole, handed_whole s.tx nonempty fits, List.map_append, List.map_singleton]

/-- The DMA alone empties the ring. -/
theorem run_dma {B : Nat} (reports : List UInt32) : ∀ s : Transmit N, InRing B s →
    ∃ final, run (step B) s (reports.map .dma) = some final ∧ final.accepted = s.accepted ∧
      final.pending = s.pending.drop reports.length ∧
      final.wire ++ final.pending = s.wire ++ s.pending := by
  induction reports with
  | nil => exact fun s _ => ⟨s, rfl, rfl, rfl, rfl⟩
  | cons others reports ih =>
    intro s inRing
    obtain ⟨kept, pending, sent⟩ := inRing_sendSegment inRing others
    obtain ⟨final, ends, accepted, left, all⟩ := ih _ kept
    refine ⟨final, ends, accepted.trans (accepted_sendSegment others s), ?_, all.trans sent⟩
    rw [left, pending, List.drop_tail]
    rfl

/-- **The frames on the wire are the accepted ones.** In every run in which each frame has at least one byte
and fits one buffer, what has been sent and what waits is the accepted frames, in order, each whole in one
segment; and once the DMA has looked at as many descriptors as the ring has, with no further frame, all of
them have been sent. -/
theorem frames_in_order (B : Nat) (small : B ≤ tbs1) (before : Fin N → TxDesc N)
    (txBuff : Nat → UInt8) (first : 0 < N) (events : List Event) (fits : ∀ event ∈ events, FitsOne B event)
    (s : Transmit N) (reached : run (step B) (Transmit.initial B before txBuff first) events = some s) :
    s.wire ++ s.pending = s.accepted.map whole ∧
      ∀ reports : List UInt32, N ≤ reports.length →
        ∃ final, run (step B) s (reports.map .dma) = some final ∧
          final.wire = s.accepted.map whole := by
  have initial : Whole (Transmit.initial B before txBuff first) := by
    rw [Whole, pending_initial]
    rfl
  obtain ⟨inRing, whole⟩ := (always_of_along (whole_step small) events _
    ⟨inRing_initial B before txBuff first, initial⟩ (along_of_forall events _ fits)).last reached
  refine ⟨whole, fun reports enough => ?_⟩
  obtain ⟨final, ends, -, left, all⟩ := run_dma reports s inRing
  rw [List.drop_of_length_le (inRing.holds.fits.trans enough)] at left
  refine ⟨final, ends, ?_⟩
  rw [left, List.append_nil] at all
  rw [all, whole]

theorem frames_in_order_busyRing :
    ∃ s, run (step 4) three [.output [[1, 2], [3]], .output [[4]], .dma 0] = some s ∧
      s.wire ++ s.pending = s.accepted.map whole ∧
      ∀ reports : List UInt32, 3 ≤ reports.length →
        ∃ final, run (step 4) s (reports.map .dma) = some final ∧
          final.wire = s.accepted.map whole :=
  ⟨_, rfl, frames_in_order 4 (by decide) _ _ _ [.output [[1, 2], [3]], .output [[4]], .dma 0]
    (by decide) _ rfl⟩

end ULoader.Eth.Wire

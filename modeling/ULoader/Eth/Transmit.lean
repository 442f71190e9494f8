/-
**Transmission.**

Where a frame is cut is computed twice: by the copy in `low_level_output`, and by division in
`ETH_Prepare_Transmit_Descriptors`.

* `transmit_segments` — the two agree: with free descriptors, the buffers handed to the DMA hold, at the
  sizes written into the descriptors, exactly the bytes of the chain.
* `transmit_atomic` — the copy fails exactly when one of the descriptors the frame needs belongs to the
  DMA; then nothing but free buffers has changed, and no buffer of the DMA is ever written.

Both rest on the invariant of the copy (`Sent`) and on one lemma about the loop that prepares the
descriptors (`prepareLoop_spec`).
-/

import ULoader.Eth.Output
import ULoader.Lib.Lines

namespace ULoader.Eth

open Ring

variable {N : Nat}

/-! ### The number of segments -/

/-- The number of buffers that so many bytes need. -/
def segments (B total : Nat) : Nat := (total + B - 1) / B

theorem lt_segments {B : Nat} (positive : 0 < B) (total j : Nat) :
    j < segments B total ↔ j * B < total := by
  rw [segments, Nat.lt_iff_add_one_le, Nat.le_div_iff_mul_le positive, Nat.succ_mul]
  omega

/-- `ETH_Prepare_Transmit_Descriptors` counts the buffers right. -/
theorem bufCount_eq {B : Nat} (positive : 0 < B) {total : Nat} (nonempty : 1 ≤ total) :
    bufCount B total = segments B total := by
  have cut := Nat.div_add_mod total B
  have rest := Nat.mod_lt total positive
  have counted (count : Nat) (enough : total ≤ count * B) (needed : (count - 1) * B < total)
      (some : 1 ≤ count) : count = segments B total := by
    have upper : ¬ count < segments B total := by
      rw [lt_segments positive]
      omega
    have lower := (lt_segments positive total (count - 1)).mpr needed
    omega
  unfold bufCount
  by_cases large : total > B
  · have quotient : 1 ≤ total / B := Nat.div_pos (Nat.le_of_lt large) positive
    rw [if_pos large]
    by_cases remainder : total % B ≠ 0
    · rw [if_pos remainder]
      refine counted _ ?_ ?_ (Nat.succ_pos _)
      · rw [Nat.succ_mul, Nat.mul_comm]
        omega
      · rw [Nat.add_sub_cancel, Nat.mul_comm]
        omega
    · rw [if_neg remainder]
      refine counted _ ?_ ?_ quotient
      · rw [Nat.mul_comm]
        omega
      · rw [Nat.mul_comm, Nat.mul_sub_one]
        omega
  · rw [if_neg large]
    exact counted 1 (by omega) (by omega) (Nat.le_refl 1)

/-! ### The descriptors are prepared -/

/-- What the `j`th of `count` descriptors gets, and what it keeps. -/
structure Prepared (B frameLength count j : Nat) (before desc : TxDesc N) : Prop where
  own : desc.status.own = true
  size : desc.controlBufferSize =
    (if j = count - 1 then frameLength - (count - 1) * B else B) &&& tbs1
  addr : desc.buffer1Addr = before.buffer1Addr
  link : desc.buffer2NextDescAddr = before.buffer2NextDescAddr

theorem prepared_desc (B frameLength count j : Nat) (desc : TxDesc N) :
    Prepared B frameLength count j desc (prepareDesc B frameLength count j desc) := by
  unfold prepareDesc
  dsimp only
  refine ⟨rfl, ?_, ?_, ?_⟩
  · by_cases last : j = count - 1
    · rw [if_pos last, if_pos last]
    · rw [if_neg last, if_neg last]
  · split <;> split <;> rfl
  · split <;> split <;> rfl

/-- The memory, the links and the places of the buffers are the same. -/
structure SameRing (before after : Tx N) : Prop where
  txBuff : after.txBuff = before.txBuff
  link : ∀ i, (after.desc i).buffer2NextDescAddr = (before.desc i).buffer2NextDescAddr
  addr : ∀ i, (after.desc i).buffer1Addr = (before.desc i).buffer1Addr

theorem SameRing.chained {B : Nat} {before after : Tx N} (same : SameRing before after)
    (chained : before.Chained B) : after.Chained B where
  linked i := (same.link i).trans (chained.linked i)
  placed i := (same.addr i).trans (chained.placed i)

/-- One descriptor is written, and its link and buffer are not. -/
theorem sameRing_update {tx : Tx N} {i : Fin N} {desc : TxDesc N}
    (link : desc.buffer2NextDescAddr = (tx.desc i).buffer2NextDescAddr)
    (addr : desc.buffer1Addr = (tx.desc i).buffer1Addr) (toSet : Fin N) :
    SameRing tx ⟨Function.update tx.desc i desc, tx.txBuff, toSet⟩ where
  txBuff := rfl
  link x := by
    by_cases same : x = i
    · subst same
      simpa using link
    · simp [Function.update_of_ne same]
  addr x := by
    by_cases same : x = i
    · subst same
      simpa using addr
    · simp [Function.update_of_ne same]

theorem sameRing_prepareLoop (B frameLength count rest : Nat) : ∀ (i : Nat) (next : Fin N) (tx : Tx N),
    SameRing tx (prepareLoop B frameLength count rest i next tx).2 := by
  induction rest with
  | zero => exact fun _ _ tx => ⟨rfl, fun _ => rfl, fun _ => rfl⟩
  | succ rest ih =>
    intro i next tx
    have desc := prepared_desc B frameLength count i (tx.desc next)
    have once := sameRing_update desc.link desc.addr tx.dmaTxDescToSet
    have later := ih (i + 1) (tx.desc next).buffer2NextDescAddr
      { tx with desc := Function.update tx.desc next (prepareDesc B frameLength count i (tx.desc next)) }
    exact ⟨later.txBuff.trans once.txBuff, fun x => (later.link x).trans (once.link x),
      fun x => (later.addr x).trans (once.addr x)⟩

/-- `ETH_Prepare_Transmit_Descriptors` writes status words and sizes only. -/
theorem sameRing_ethPrepareTransmitDescriptors (B frameLength : Nat) (tx : Tx N) :
    SameRing tx (ethPrepareTransmitDescriptors B frameLength tx).2 := by
  unfold ethPrepareTransmitDescriptors
  dsimp only
  split
  · exact ⟨rfl, fun _ => rfl, fun _ => rfl⟩
  · split
    · refine sameRing_update ?_ ?_ _ <;> rfl
    · have loop := sameRing_prepareLoop B frameLength (bufCount B frameLength) (bufCount B frameLength)
        0 tx.dmaTxDescToSet tx
      exact ⟨loop.txBuff, loop.link, loop.addr⟩

/-- **The loop** prepares so many descriptors from the first one on, each by its number, and no
others. -/
theorem prepareLoop_spec (B frameLength count rest : Nat) : ∀ (i : Nat) (next : Fin N) (tx : Tx N),
    (∀ x, (tx.desc x).buffer2NextDescAddr = Ring.next x) → rest ≤ N →
    (prepareLoop B frameLength count rest i next tx).1 = slot next rest ∧
      (∀ j < rest, (prepareLoop B frameLength count rest i next tx).2.desc (slot next j) =
        prepareDesc B frameLength count (i + j) (tx.desc (slot next j))) ∧
      ∀ x, (∀ j < rest, x ≠ slot next j) →
        (prepareLoop B frameLength count rest i next tx).2.desc x = tx.desc x := by
  induction rest with
  | zero => exact fun i next tx _ _ => ⟨(slot_zero next).symm, nofun, fun _ _ => rfl⟩
  | succ rest ih =>
    intro i next tx linked fits
    let after : Tx N :=
      { tx with desc := Function.update tx.desc next (prepareDesc B frameLength count i (tx.desc next)) }
    have desc := prepared_desc B frameLength count i (tx.desc next)
    have once : SameRing tx after := sameRing_update desc.link desc.addr tx.dmaTxDescToSet
    obtain ⟨last, prepared, others⟩ := ih (i + 1) (Ring.next next) after
      (fun x => (once.link x).trans (linked x)) (by omega)
    have turn : prepareLoop B frameLength count (rest + 1) i next tx =
        prepareLoop B frameLength count rest (i + 1) (Ring.next next) after := by
      rw [prepareLoop, linked]
    rw [turn]
    refine ⟨by rw [last, slot_next], fun j inside => ?_, fun x outside => ?_⟩
    · cases j with
      | zero =>
        rw [slot_zero, others next fun j less same => ?_]
        · exact Function.update_self ..
        · rw [slot_next] at same
          have := slot_inj next.pos (by omega) ((slot_zero next).trans same)
          omega
      | succ j =>
        have other : slot next (j + 1) ≠ next := fun same => by
          have := slot_inj (by omega) next.pos (same.trans (slot_zero next).symm)
          omega
        rw [← slot_next, prepared j (by omega), slot_next, show i + 1 + j = i + (j + 1) by omega]
        exact congrArg _ (Function.update_of_ne other ..)
    · rw [others x fun j less same => outside (j + 1) (by omega) (by rw [same, slot_next])]
      exact Function.update_of_ne (fun same => outside 0 (by omega) (by rw [same, slot_zero])) ..

/-- **`ETH_Prepare_Transmit_Descriptors`**, when the first descriptor is free and the frame fits. -/
theorem ethPrepareTransmitDescriptors_spec {B frameLength : Nat} {tx : Tx N} (positive : 0 < B)
    (chained : tx.Chained B) (nonempty : 1 ≤ frameLength) (fits : segments B frameLength ≤ N)
    (free : (tx.desc tx.dmaTxDescToSet).status.own = false) :
    (ethPrepareTransmitDescriptors B frameLength tx).2.dmaTxDescToSet =
        slot tx.dmaTxDescToSet (segments B frameLength) ∧
      (∀ j < segments B frameLength, Prepared B frameLength (segments B frameLength) j
        (tx.desc (slot tx.dmaTxDescToSet j))
        ((ethPrepareTransmitDescriptors B frameLength tx).2.desc (slot tx.dmaTxDescToSet j))) ∧
      ∀ x, (∀ j < segments B frameLength, x ≠ slot tx.dmaTxDescToSet j) →
        (ethPrepareTransmitDescriptors B frameLength tx).2.desc x = tx.desc x := by
  have counts := bufCount_eq positive nonempty
  by_cases single : segments B frameLength = 1
  · simp only [ethPrepareTransmitDescriptors, free, Bool.false_eq_true, if_false, counts, single,
      if_true]
    refine ⟨chained.linked _, fun j inside => ?_, fun x outside => ?_⟩
    · have first : j = 0 := by omega
      rw [first, slot_zero, Function.update_self]
      exact ⟨rfl, by simp, rfl, rfl⟩
    · exact Function.update_of_ne (fun same => outside 0 Nat.zero_lt_one (by rw [same, slot_zero])) ..
  · simp only [ethPrepareTransmitDescriptors, free, Bool.false_eq_true, if_false, counts, single]
    obtain ⟨last, prepared, others⟩ := prepareLoop_spec B frameLength (segments B frameLength)
      (segments B frameLength) 0 tx.dmaTxDescToSet tx chained.linked fits
    refine ⟨last, fun j inside => ?_, others⟩
    rw [prepared j inside, Nat.zero_add]
    exact prepared_desc ..

/-! ### The bytes in the buffers -/

theorem land_tbs1 {size : Nat} (small : size ≤ tbs1) : size &&& tbs1 = size :=
  Nat.and_two_pow_sub_one_of_lt_two_pow (n := 13) (Nat.lt_succ_of_le small)

/-- The buffer of the `j`th descriptor holds the `j`th piece of the copied bytes. -/
theorem Sent.piece {B : Nat} {before tx : Tx N} {c : OutCursor N} {m : Nat} {data : List UInt8}
    (sent : Sent B before tx c m data) (positive : 0 < B) {j : Nat} :
    readBytes tx.txBuff (slot before.dmaTxDescToSet j * B) (min B (data.length - j * B)) =
      (data.drop (j * B)).take B := by
  apply List.ext_getElem
  · simp [readBytes]
  · intro r inside _
    have small : r < min B (data.length - j * B) := by simpa [readBytes] using inside
    have within : j * B + r < data.length := by omega
    have part : (j * B + r) / B = j := by
      rw [Nat.mul_comm, Nat.mul_add_div positive, Nat.div_eq_of_lt (by omega), Nat.add_zero]
    have position : (j * B + r) % B = r := by
      rw [Nat.mul_comm, Nat.mul_add_mod, Nat.mod_eq_of_lt (by omega)]
    have held := sent.content (j * B + r) within
    rw [part, position] at held
    simp [readBytes, held, List.getD_eq_getElem?_getD, within]

/-- The frame ends in the buffer of the cursor. -/
theorem Sent.segments_eq {B : Nat} {before tx : Tx N} {c : OutCursor N} {m : Nat} {data : List UInt8}
    (sent : Sent B before tx c m data) (positive : 0 < B) (tight : m = 0 ∨ 0 < c.offset)
    (nonempty : 1 ≤ data.length) : segments B data.length = m + 1 := by
  have length := sent.length
  have inside := sent.inside
  have needed : m < segments B data.length := by
    rw [lt_segments positive]
    rcases tight with rfl | begun
    · omega
    · omega
  have enough : ¬ m + 1 < segments B data.length := by
    rw [lt_segments positive, Nat.succ_mul]
    omega
  omega

/-- What the DMA sends of a descriptor: as many bytes of its buffer as its size field says. -/
def Tx.segment (tx : Tx N) (i : Fin N) : List UInt8 :=
  readBytes tx.txBuff (tx.desc i).buffer1Addr ((tx.desc i).controlBufferSize &&& tbs1)

/-! ### The whole function -/

/-- Before the copy. -/
theorem Sent.begins {B : Nat} {tx : Tx N} (chained : tx.Chained B)
    (free : (tx.desc tx.dmaTxDescToSet).status.own = false) :
    Sent B tx tx ⟨tx.dmaTxDescToSet, (tx.desc tx.dmaTxDescToSet).buffer1Addr, 0, 0⟩ 0 [] where
  desc := rfl
  toSet := rfl
  untouched _ _ _ _ := rfl
  bound := tx.dmaTxDescToSet.pos
  current := (slot_zero _).symm
  buffer := by rw [slot_zero, chained.placed]
  inside := Nat.zero_le B
  length := by simp
  counted := rfl
  free j first := by
    rw [Nat.le_zero.mp first, slot_zero]
    exact free
  content _ inside := absurd inside (Nat.not_lt_zero _)

theorem Harmless.chained {B : Nat} {before tx : Tx N} (harmless : Harmless B before tx)
    (chained : before.Chained B) : tx.Chained B where
  linked i := by
    rw [harmless.desc]
    exact chained.linked i
  placed i := by
    rw [harmless.desc]
    exact chained.placed i

theorem bufferSize_pos {B total : Nat} (nonempty : 1 ≤ total) (fits : total ≤ N * B) : 0 < B := by
  rcases Nat.eq_zero_or_pos B with rfl | positive
  · rw [Nat.mul_zero] at fits
    omega
  · exact positive

/-- **`low_level_output`** copies the chain and has the descriptors prepared, or has met a descriptor of
the DMA. -/
theorem lowLevelOutput_cases {B : Nat} {tx : Tx N} (chained : tx.Chained B) {chain : List (List UInt8)}
    (nonempty : 1 ≤ chain.flatten.length) (fits : chain.flatten.length ≤ N * B) :
    (∃ copied c m, lowLevelOutput B chain tx =
          some (.ok, (ethPrepareTransmitDescriptors B (chain.flatten.length % 2 ^ 16) copied).2) ∧
        Sent B tx copied c m chain.flatten ∧ (m = 0 ∨ 0 < c.offset)) ∨
      ∃ err copied, err ≠ .ok ∧ lowLevelOutput B chain tx = some (err, copied) ∧
        Met B tx copied chain.flatten.length := by
  have positive := bufferSize_pos nonempty fits
  by_cases busy : (tx.desc tx.dmaTxDescToSet).status.own = true
  · -- The first `pbuf` already finds the descriptor taken.
    obtain ⟨payload, rest, rfl⟩ : ∃ payload rest, chain = payload :: rest := by
      cases chain with
      | nil => simp at nonempty
      | cons payload rest => exact ⟨payload, rest, rfl⟩
    refine .inr ⟨.buf, tx, by decide, ?_, ⟨rfl, rfl, fun _ _ _ _ => rfl⟩, 0, ?_, ?_⟩
    · simp [lowLevelOutput, outChain, outPbuf, busy]
    · omega
    · rw [slot_zero]
      exact busy
  · have free : (tx.desc tx.dmaTxDescToSet).status.own = false := by simpa using busy
    rcases outChain_spec positive chained chain tx _ 0 [] (.begins chained free) (.inl rfl)
      (by rw [List.length_nil, Nat.zero_add]; exact fits) with
      ⟨copied, c, m, ends, sent, tight⟩ | ⟨copied, ends, met⟩
    · rw [List.nil_append] at sent
      refine .inl ⟨copied, c, m, ?_, sent, tight⟩
      rw [lowLevelOutput, ends, ← sent.counted]
      rfl
    · rw [List.length_nil, Nat.zero_add] at met
      refine .inr ⟨.use, copied, by decide, ?_, met⟩
      rw [lowLevelOutput, ends]
      rfl

/-- The sizes written into the descriptors cut the frame as the copy did. -/
theorem Sent.segment {B : Nat} {before copied after : Tx N} {c : OutCursor N} {m : Nat}
    {data : List UInt8} (sent : Sent B before copied c m data) (positive : 0 < B)
    (chained : before.Chained B) (sized : B ≤ tbs1) {j : Nat} (inside : j < segments B data.length)
    (kept : after.txBuff = copied.txBuff)
    (prepared : Prepared B data.length (segments B data.length) j
      (before.desc (slot before.dmaTxDescToSet j)) (after.desc (slot before.dmaTxDescToSet j))) :
    after.segment (slot before.dmaTxDescToSet j) = (data.drop (j * B)).take B := by
  have size : (if j = segments B data.length - 1 then
      data.length - (segments B data.length - 1) * B else B) = min B (data.length - j * B) := by
    by_cases last : j = segments B data.length - 1
    · have enough : ¬ j + 1 < segments B data.length := by omega
      rw [lt_segments positive, Nat.succ_mul] at enough
      rw [if_pos last, ← last]
      omega
    · have more : j + 1 < segments B data.length := by omega
      rw [lt_segments positive, Nat.succ_mul] at more
      rw [if_neg last]
      omega
  have small : min B (data.length - j * B) ≤ tbs1 := (Nat.min_le_left ..).trans sized
  rw [Tx.segment, prepared.size, prepared.addr, chained.placed, size, land_tbs1 small,
    land_tbs1 small, kept]
  exact sent.piece positive

/-- **Segmentation.** For every ring and every chain that fits it, if the descriptors that the frame needs
are free, then `low_level_output` succeeds, hands exactly these to the DMA, advances by as many, and what
the DMA sends of them is the chain. -/
theorem transmit_segments {B : Nat} (tx : Tx N) (chained : tx.Chained B) (sized : B ≤ tbs1)
    (chain : List (List UInt8)) (nonempty : 1 ≤ chain.flatten.length)
    (fits : chain.flatten.length ≤ min (N * B) 65535)
    (free : ∀ j < segments B chain.flatten.length,
      (tx.desc (slot tx.dmaTxDescToSet j)).status.own = false) :
    ∃ after, lowLevelOutput B chain tx = some (.ok, after) ∧
      (∀ i, (after.desc i).status.own = true ↔ (tx.desc i).status.own = true ∨
        ∃ j < segments B chain.flatten.length, i = slot tx.dmaTxDescToSet j) ∧
      after.dmaTxDescToSet = slot tx.dmaTxDescToSet (segments B chain.flatten.length) ∧
      ((List.range (segments B chain.flatten.length)).map fun j =>
        after.segment (slot tx.dmaTxDescToSet j)).flatten = chain.flatten := by
  have positive := bufferSize_pos nonempty (fits.trans (Nat.min_le_left ..))
  rcases lowLevelOutput_cases chained nonempty (fits.trans (Nat.min_le_left ..)) with
    ⟨copied, c, m, ends, sent, tight⟩ | ⟨err, copied, _, _, met⟩
  · have whole : chain.flatten.length % 2 ^ 16 = chain.flatten.length :=
      Nat.mod_eq_of_lt (by omega)
    have count := sent.segments_eq positive tight nonempty
    have copiedFree : (copied.desc copied.dmaTxDescToSet).status.own = false := by
      rw [sent.desc, sent.toSet, ← slot_zero tx.dmaTxDescToSet]
      exact sent.free 0 (Nat.zero_le m)
    obtain ⟨advanced, prepared, others⟩ := ethPrepareTransmitDescriptors_spec positive
      (sent.chained chained) nonempty (by rw [count]; exact sent.bound) copiedFree
    rw [sent.toSet] at advanced prepared others
    rw [sent.desc] at prepared others
    rw [whole] at ends
    refine ⟨_, ends, fun i => ?_, advanced, ?_⟩
    · by_cases handed : ∃ j < segments B chain.flatten.length, i = slot tx.dmaTxDescToSet j
      · obtain ⟨j, inside, rfl⟩ := handed
        exact ⟨fun _ => .inr ⟨j, inside, rfl⟩, fun _ => (prepared j inside).own⟩
      · rw [others i fun j inside same => handed ⟨j, inside, same⟩, or_iff_left handed]
    · have pieces (j : Nat) (inside : j ∈ List.range (segments B chain.flatten.length)) :
          (ethPrepareTransmitDescriptors B chain.flatten.length copied).2.segment
              (slot tx.dmaTxDescToSet j) = (chain.flatten.drop (j * B)).take B :=
        sent.segment positive chained sized (List.mem_range.mp inside)
          (sameRing_ethPrepareTransmitDescriptors ..).txBuff (prepared j (List.mem_range.mp inside))
      have enough := (lt_segments positive chain.flatten.length
        (segments B chain.flatten.length)).not.mp (Nat.lt_irrefl _)
      rw [List.map_congr_left pieces, Lines.flatten_pieces]
      exact List.take_of_length_le (Nat.le_of_not_lt enough)
  · obtain ⟨j, needed, busy⟩ := met.busy
    rw [free j ((lt_segments positive _ j).mpr needed)] at busy
    cases busy

/-- A ring of three small buffers, with `DMATxDescToSet` at its last one. -/
def smallRing : Tx 3 :=
  { ethDmaTxDescChainInit 4 (fun _ => ⟨.tch, 0, 0, 0⟩) (fun _ => 0) (by decide) with
    dmaTxDescToSet := 2 }

theorem chained_smallRing : smallRing.Chained 4 := by
  have init := chained_txInit 4 (fun _ => (⟨.tch, 0, 0, 0⟩ : TxDesc 3)) (fun _ => 0) (by decide)
  exact ⟨init.linked, init.placed⟩

/-- Two buffers' worth in three `pbuf`s, over the end of the ring. -/
theorem transmit_segments_smallRing :
    ∃ after, lowLevelOutput 4 [[1, 2, 3], [], [4, 5, 6]] smallRing = some (.ok, after) ∧
      (∀ i, (after.desc i).status.own = true ↔ (smallRing.desc i).status.own = true ∨
        ∃ j < 2, i = slot 2 j) ∧
      after.dmaTxDescToSet = 1 ∧
      ((List.range 2).map fun j => after.segment (slot 2 j)).flatten = [1, 2, 3, 4, 5, 6] :=
  transmit_segments smallRing chained_smallRing (by decide) [[1, 2, 3], [], [4, 5, 6]] (by decide)
    (by decide) (by decide)

/-- **Failure is atomic.** For every ring, whatever descriptors belong to the DMA, and every chain that
fits, `low_level_output` fails exactly when one of the descriptors that the frame needs belongs to the
DMA, and then no descriptor and not `DMATxDescToSet` has changed. Whatever it returns, it has written to
no buffer of the DMA, and the ring is still one. -/
theorem transmit_atomic {B : Nat} (tx : Tx N) (chained : tx.Chained B) (chain : List (List UInt8))
    (nonempty : 1 ≤ chain.flatten.length) (fits : chain.flatten.length ≤ N * B) :
    ∃ err after, lowLevelOutput B chain tx = some (err, after) ∧
      (err ≠ .ok ↔ ∃ j < segments B chain.flatten.length,
        (tx.desc (slot tx.dmaTxDescToSet j)).status.own = true) ∧
      (err ≠ .ok → after.desc = tx.desc ∧ after.dmaTxDescToSet = tx.dmaTxDescToSet) ∧
      (∀ i, (tx.desc i).status.own = true → ∀ r < B,
        after.txBuff ((tx.desc i).buffer1Addr + r) = tx.txBuff ((tx.desc i).buffer1Addr + r)) ∧
      after.Chained B := by
  have positive := bufferSize_pos nonempty fits
  rcases lowLevelOutput_cases chained nonempty fits with
    ⟨copied, c, m, ends, sent, tight⟩ | ⟨err, copied, failed, ends, met⟩
  · have same := sameRing_ethPrepareTransmitDescriptors B (chain.flatten.length % 2 ^ 16) copied
    refine ⟨.ok, _, ends, ⟨fun failed => absurd rfl failed, ?_⟩, fun failed => absurd rfl failed,
      fun i own r inside => ?_, same.chained (sent.chained chained)⟩
    · rintro ⟨j, needed, busy⟩
      rw [sent.segments_eq positive tight nonempty] at needed
      rw [sent.free j (Nat.lt_succ_iff.mp needed)] at busy
      cases busy
    · rw [same.txBuff, chained.placed]
      exact sent.untouched i own r inside
  · refine ⟨err, copied, ends, ⟨fun _ => ?_, fun _ => failed⟩, fun _ => ⟨met.desc, met.toSet⟩,
      fun i own r inside => ?_, met.chained chained⟩
    · obtain ⟨j, needed, busy⟩ := met.busy
      exact ⟨j, (lt_segments positive _ j).mpr needed, busy⟩
    · rw [chained.placed]
      exact met.untouched i own r inside

/-- The second of the two descriptors is still with the DMA. -/
theorem transmit_atomic_busy :
    let busy : Tx 3 :=
      { smallRing with desc := Function.update smallRing.desc 0 ⟨⟨true, true, true, 0⟩, 4, 0, 1⟩ }
    ∃ err after, lowLevelOutput 4 [[1, 2, 3], [], [4, 5, 6]] busy = some (err, after) ∧
      (err ≠ .ok ↔ ∃ j < 2, (busy.desc (slot 2 j)).status.own = true) ∧
      (err ≠ .ok → after.desc = busy.desc ∧ after.dmaTxDescToSet = 2) ∧
      (∀ i, (busy.desc i).status.own = true → ∀ r < 4,
        after.txBuff ((busy.desc i).buffer1Addr + r) = busy.txBuff ((busy.desc i).buffer1Addr + r)) ∧
      after.Chained 4 :=
  transmit_atomic _ ⟨by decide, by decide⟩ [[1, 2, 3], [], [4, 5, 6]] (by decide) (by decide)

end ULoader.Eth

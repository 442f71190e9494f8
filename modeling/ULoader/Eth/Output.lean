/-
**`low_level_output`.**

The function copies a chain of `pbuf`s into the buffers of the transmit descriptors from
`DMATxDescToSet` on, and then `ETH_Prepare_Transmit_Descriptors` hands these descriptors to the DMA. The
copy runs over two sequences of pieces of different sizes at once, and meets a descriptor that still
belongs to the DMA at the start of a `pbuf` (`ERR_BUF`) or when a buffer is full (`ERR_USE`).

`Sent` is the invariant of the copy: after so many bytes the cursor is in descriptor `m` of the ring, all
descriptors up to there belong to the CPU, their buffers hold the bytes in order, and no buffer of the
DMA has been touched. Its two moves are a write into the current buffer (`Sent.write`) and the step to
the next descriptor (`Sent.advance`). The status word is modelled by the bits that the driver uses; the
flags of `DMASR` are not modelled.
-/

import Mathlib.Data.List.GetD
import Mathlib.Logic.Function.Basic
import ULoader.Eth.Memory
import ULoader.Lib.Ring

namespace ULoader.Eth

open Ring

variable {N : Nat}

/-! ### The transmit descriptors -/

/-- The status word: `OWN`, `FS`, `LS`, and the other bits. -/
structure TxStatus where
  own : Bool
  fs : Bool
  ls : Bool
  others : UInt32
  deriving DecidableEq, Repr

/-- `ETH_DMATxDesc_TCH` as a whole status word. -/
def TxStatus.tch : TxStatus := ⟨false, false, false, 0x00100000⟩

/-- A transmit descriptor of a table of `N`. -/
structure TxDesc (N : Nat) where
  status : TxStatus
  controlBufferSize : Nat
  buffer1Addr : Nat
  buffer2NextDescAddr : Fin N
  deriving DecidableEq

/-- The transmit side of the driver: the table, `Tx_Buff` and `DMATxDescToSet`. -/
structure Tx (N : Nat) where
  desc : Fin N → TxDesc N
  txBuff : Nat → UInt8
  dmaTxDescToSet : Fin N

/-- `ETH_DMATxDescChainInit`, over the table as it was. -/
def ethDmaTxDescChainInit (B : Nat) (before : Fin N → TxDesc N) (txBuff : Nat → UInt8)
    (first : 0 < N) : Tx N where
  desc i :=
    { before i with
      status := .tch
      buffer1Addr := i * B
      buffer2NextDescAddr := if inside : i.val + 1 < N then ⟨i + 1, inside⟩ else ⟨0, first⟩ }
  txBuff := txBuff
  dmaTxDescToSet := ⟨0, first⟩

/-- `ETH_DMATxDesc_TBS1`. -/
def tbs1 : Nat := 0x1fff

/-- The number of descriptors `ETH_Prepare_Transmit_Descriptors` uses. -/
def bufCount (B frameLength : Nat) : Nat :=
  if frameLength > B then
    if frameLength % B ≠ 0 then frameLength / B + 1 else frameLength / B
  else 1

/-- One pass of its loop over a descriptor, the `i`th. -/
def prepareDesc (B frameLength count i : Nat) (desc : TxDesc N) : TxDesc N :=
  let desc := if i = 0 then { desc with status := { desc.status with fs := true } } else desc
  let desc := { desc with controlBufferSize := B &&& tbs1 }
  let desc :=
    if i = count - 1 then
      { desc with
        status := { desc.status with ls := true }
        controlBufferSize := (frameLength - (count - 1) * B) &&& tbs1 }
    else desc
  { desc with status := { desc.status with own := true } }

/-- The loop, from the `i`th descriptor on: `DMATxNextDesc` at its end, and the table. -/
def prepareLoop (B frameLength count : Nat) : Nat → Nat → Fin N → Tx N → Fin N × Tx N
  | 0, _, next, tx => (next, tx)
  | rest + 1, i, next, tx =>
    let link := (tx.desc next).buffer2NextDescAddr
    let desc := prepareDesc B frameLength count i (tx.desc next)
    prepareLoop B frameLength count rest (i + 1) link
      { tx with desc := Function.update tx.desc next desc }

/-- `ETH_Prepare_Transmit_Descriptors`; `false` is `ETH_ERROR`. -/
def ethPrepareTransmitDescriptors (B frameLength : Nat) (tx : Tx N) : Bool × Tx N :=
  let desc := tx.desc tx.dmaTxDescToSet
  if desc.status.own then (false, tx)
  else if bufCount B frameLength = 1 then
    let prepared :=
      { desc with
        status := { desc.status with fs := true, ls := true, own := true }
        controlBufferSize := frameLength &&& tbs1 }
    (true, { tx with
      desc := Function.update tx.desc tx.dmaTxDescToSet prepared
      dmaTxDescToSet := desc.buffer2NextDescAddr })
  else
    let (next, tx) :=
      prepareLoop B frameLength (bufCount B frameLength) (bufCount B frameLength) 0
        tx.dmaTxDescToSet tx
    (true, { tx with dmaTxDescToSet := next })

/-! ### The copy -/

/-- What `low_level_output` returns. -/
inductive OutputErr where
  | ok
  | buf
  | use
  deriving DecidableEq, Repr

/-- `DmaTxDesc`, `buffer`, `bufferoffset` and `framelength` of the copy. -/
structure OutCursor (N : Nat) where
  desc : Fin N
  buffer : Nat
  offset : Nat
  frameLength : Nat

/-- A `memcpy` into the current buffer. -/
def Tx.write (tx : Tx N) (c : OutCursor N) (bytes : List UInt8) : Tx N :=
  { tx with txBuff := overwrite tx.txBuff (c.buffer + c.offset) bytes }

/-- `framelength` is a `uint16_t`. -/
def OutCursor.count (c : OutCursor N) (bytes : Nat) : Nat := (c.frameLength + bytes) % 2 ^ 16

/-- The inner loop, for as long as the rest of the `pbuf` is longer than the rest of the buffer. An error
leaves what has been written. `none` is a loop that does not end. -/
def outWhile (B : Nat) : Nat → Tx N → OutCursor N → List UInt8 →
    Option (Except (OutputErr × Tx N) (Tx N × OutCursor N × List UInt8))
  | 0, _, _, _ => none
  | fuel + 1, tx, c, payload =>
    if payload.length + c.offset > B then
      let tx := tx.write c (payload.take (B - c.offset))
      let desc := (tx.desc c.desc).buffer2NextDescAddr
      if (tx.desc desc).status.own then some (.error (.use, tx))
      else
        outWhile B fuel tx ⟨desc, (tx.desc desc).buffer1Addr, 0, c.count (B - c.offset)⟩
          (payload.drop (B - c.offset))
    else some (.ok (tx, c, payload))

/-- The outer loop's body: one `pbuf`. -/
def outPbuf (B : Nat) (tx : Tx N) (c : OutCursor N) (payload : List UInt8) :
    Option (Except (OutputErr × Tx N) (Tx N × OutCursor N)) :=
  if (tx.desc c.desc).status.own then some (.error (.buf, tx))
  else
    (outWhile B (payload.length + c.offset + 1) tx c payload).map fun
      | .error failed => .error failed
      | .ok (tx, c, rest) =>
        .ok (tx.write c rest,
          { c with offset := c.offset + rest.length, frameLength := c.count rest.length })

/-- The outer loop, over the payloads of the `pbuf`s. -/
def outChain (B : Nat) : Tx N → OutCursor N → List (List UInt8) →
    Option (Except (OutputErr × Tx N) (Tx N × OutCursor N))
  | tx, c, [] => some (.ok (tx, c))
  | tx, c, payload :: rest =>
    (outPbuf B tx c payload).bind fun
      | .error failed => some (.error failed)
      | .ok (tx, c) => outChain B tx c rest

/-- `low_level_output`, for a chain with these payloads. -/
def lowLevelOutput (B : Nat) (chain : List (List UInt8)) (tx : Tx N) : Option (OutputErr × Tx N) :=
  let start : OutCursor N :=
    ⟨tx.dmaTxDescToSet, (tx.desc tx.dmaTxDescToSet).buffer1Addr, 0, 0⟩
  (outChain B tx start chain).map fun
    | .error failed => failed
    | .ok (tx, c) => (.ok, (ethPrepareTransmitDescriptors B c.frameLength tx).2)

/-! ### The invariant of the copy -/

/-- The links and the buffers are those of `ETH_DMATxDescChainInit`. -/
structure Tx.Chained (B : Nat) (tx : Tx N) : Prop where
  linked : ∀ i, (tx.desc i).buffer2NextDescAddr = Ring.next i
  placed : ∀ i : Fin N, (tx.desc i).buffer1Addr = i * B

theorem chained_txInit (B : Nat) (before : Fin N → TxDesc N) (txBuff : Nat → UInt8)
    (first : 0 < N) : (ethDmaTxDescChainInit B before txBuff first).Chained B where
  linked i := by
    apply Fin.ext
    simp only [ethDmaTxDescChainInit, Ring.next, Ring.slot]
    split
    · rename_i inside
      exact (Nat.mod_eq_of_lt inside).symm
    · rename_i outside
      have last : i.val + 1 = N := by omega
      simp [last]
  placed _ := rfl

/-- Only buffers of the CPU have changed. -/
structure Harmless (B : Nat) (before tx : Tx N) : Prop where
  desc : tx.desc = before.desc
  toSet : tx.dmaTxDescToSet = before.dmaTxDescToSet
  untouched : ∀ i : Fin N, (before.desc i).status.own = true → ∀ r < B,
    tx.txBuff (i * B + r) = before.txBuff (i * B + r)

/-- The bytes of `data` have been copied, and the cursor is in the `m`th descriptor. -/
structure Sent (B : Nat) (before tx : Tx N) (c : OutCursor N) (m : Nat) (data : List UInt8) : Prop
    extends Harmless B before tx where
  bound : m < N
  current : c.desc = slot before.dmaTxDescToSet m
  buffer : c.buffer = slot before.dmaTxDescToSet m * B
  inside : c.offset ≤ B
  length : data.length = m * B + c.offset
  counted : c.frameLength = data.length % 2 ^ 16
  free : ∀ j ≤ m, (before.desc (slot before.dmaTxDescToSet j)).status.own = false
  content : ∀ p < data.length,
    tx.txBuff (slot before.dmaTxDescToSet (p / B) * B + p % B) = data.getD p 0

/-- A write into the current buffer is not one into another. -/
theorem Sent.elsewhere {B : Nat} {before tx : Tx N} {c : OutCursor N} {m : Nat} {data : List UInt8}
    (sent : Sent B before tx c m data) {bytes : List UInt8} (fits : c.offset + bytes.length ≤ B)
    {i : Fin N} (other : i ≠ slot before.dmaTxDescToSet m) {r : Nat} (inside : r < B) :
    (tx.write c bytes).txBuff (i * B + r) = tx.txBuff (i * B + r) := by
  have different : i.val ≠ (slot before.dmaTxDescToSet m).val := fun same => other (Fin.ext same)
  have apart := buffers_apart (B := B) different (Nat.le_refl B) (Nat.le_refl B)
  refine overwrite_outside ?_
  rw [sent.buffer]
  omega

/-- The bytes copied before stand where they stood. -/
theorem Sent.old_byte {B : Nat} {before tx : Tx N} {c : OutCursor N} {m : Nat} {data : List UInt8}
    (sent : Sent B before tx c m data) {bytes : List UInt8} (fits : c.offset + bytes.length ≤ B)
    {p : Nat} (old : p < data.length) :
    (tx.write c bytes).txBuff (slot before.dmaTxDescToSet (p / B) * B + p % B) =
      tx.txBuff (slot before.dmaTxDescToSet (p / B) * B + p % B) := by
  have length := sent.length
  have inside := sent.inside
  have positive : 0 < B := by
    rcases Nat.eq_zero_or_pos B with none | some
    · rw [none, Nat.mul_zero] at length
      omega
    · exact some
  by_cases here : p / B = m
  · have cut := Nat.div_add_mod p B
    rw [here, Nat.mul_comm] at cut
    rw [here]
    refine overwrite_outside (.inl ?_)
    rw [sent.buffer]
    omega
  · have part : p / B < m := by
      refine Nat.lt_of_le_of_ne (Nat.lt_succ_iff.mp (Nat.div_lt_of_lt_mul ?_)) here
      rw [Nat.mul_comm, Nat.succ_mul]
      omega
    refine sent.elsewhere fits (fun same => here ?_) (Nat.mod_lt p positive)
    exact slot_inj (part.trans sent.bound) sent.bound same

/-- The new bytes stand behind them. -/
theorem Sent.new_byte {B : Nat} {before tx : Tx N} {c : OutCursor N} {m : Nat} {data : List UInt8}
    (sent : Sent B before tx c m data) {bytes : List UInt8} (fits : c.offset + bytes.length ≤ B)
    {i : Nat} (inside : i < bytes.length) :
    (tx.write c bytes).txBuff (slot before.dmaTxDescToSet ((data.length + i) / B) * B +
      (data.length + i) % B) = bytes.getD i 0 := by
  have small : c.offset + i < B := by omega
  have whole : data.length + i = c.offset + i + B * m := by
    rw [sent.length, Nat.mul_comm]
    omega
  rw [whole, Nat.add_mul_div_left _ _ (by omega), Nat.add_mul_mod_self_left, Nat.div_eq_of_lt small,
    Nat.mod_eq_of_lt small, Nat.zero_add, ← Nat.add_assoc, ← sent.buffer]
  exact overwrite_inside _ _ _ inside

/-- **A write into the current buffer.** -/
theorem Sent.write {B : Nat} {before tx : Tx N} {c : OutCursor N} {m : Nat} {data : List UInt8}
    (sent : Sent B before tx c m data) (bytes : List UInt8) (fits : c.offset + bytes.length ≤ B) :
    Sent B before (tx.write c bytes)
      { c with offset := c.offset + bytes.length, frameLength := c.count bytes.length } m
      (data ++ bytes) where
  desc := sent.desc
  toSet := sent.toSet
  untouched i own r inside := by
    have other : i ≠ slot before.dmaTxDescToSet m := by
      rintro rfl
      rw [sent.free m (Nat.le_refl m)] at own
      cases own
    rw [sent.elsewhere fits other inside, sent.untouched i own r inside]
  bound := sent.bound
  current := sent.current
  buffer := sent.buffer
  inside := fits
  length := by
    rw [List.length_append, sent.length]
    exact Nat.add_assoc _ _ _
  counted := by
    rw [List.length_append]
    show (c.frameLength + bytes.length) % 2 ^ 16 = _
    rw [sent.counted, Nat.mod_add_mod]
  free := sent.free
  content p within := by
    by_cases old : p < data.length
    · rw [List.getD_append _ _ _ _ old, ← sent.content p old]
      exact sent.old_byte fits old
    · obtain ⟨i, rfl⟩ := Nat.exists_eq_add_of_le (Nat.le_of_not_lt old)
      rw [List.length_append] at within
      rw [List.getD_append_right _ _ _ _ (by omega), Nat.add_sub_cancel_left]
      exact sent.new_byte fits (by omega)

/-- **The step to the next descriptor**, when the current buffer is full and the next one free. -/
theorem Sent.advance {B : Nat} {before tx : Tx N} {c : OutCursor N} {m : Nat} {data : List UInt8}
    (sent : Sent B before tx c m data) (chained : before.Chained B) (full : c.offset = B)
    (bound : m + 1 < N)
    (nextFree : (before.desc (slot before.dmaTxDescToSet (m + 1))).status.own = false) :
    Sent B before tx
      ⟨slot before.dmaTxDescToSet (m + 1),
        (before.desc (slot before.dmaTxDescToSet (m + 1))).buffer1Addr, 0, c.frameLength⟩ (m + 1)
      data where
  desc := sent.desc
  toSet := sent.toSet
  untouched := sent.untouched
  bound := bound
  current := rfl
  buffer := chained.placed _
  inside := Nat.zero_le B
  length := by
    rw [sent.length, full, Nat.succ_mul]
    rfl
  counted := sent.counted
  free j upTo := by
    rcases Nat.lt_or_eq_of_le upTo with less | rfl
    · exact sent.free j (Nat.lt_succ_iff.mp less)
    · exact nextFree
  content := sent.content

/-! ### What the copy does -/

/-- The copy has met a descriptor of the DMA among those that so many bytes need. -/
structure Met (B : Nat) (before tx : Tx N) (total : Nat) : Prop extends Harmless B before tx where
  busy : ∃ j, j * B < total ∧ (before.desc (slot before.dmaTxDescToSet j)).status.own = true

/-- A payload that does not fit fills the current buffer, and the ring has a next one. -/
theorem Sent.fill {B : Nat} {before tx : Tx N} {c : OutCursor N} {m : Nat} {data payload : List UInt8}
    (sent : Sent B before tx c m data) (more : payload.length + c.offset > B)
    (fits : data.length + payload.length ≤ N * B) :
    m + 1 < N ∧ Sent B before (tx.write c (payload.take (B - c.offset)))
      { c with offset := B, frameLength := c.count (B - c.offset) } m
      (data ++ payload.take (B - c.offset)) := by
  have inside := sent.inside
  have length := sent.length
  have taken : (payload.take (B - c.offset)).length = B - c.offset := by
    rw [List.length_take]
    omega
  constructor
  · by_contra beyond
    have last : m + 1 = N := by have := sent.bound; omega
    rw [← last, Nat.succ_mul] at fits
    omega
  · have filled := sent.write (payload.take (B - c.offset)) (by rw [taken]; omega)
    rwa [taken, Nat.add_sub_cancel' inside] at filled

/-- One turn of the inner loop. -/
theorem outWhile_turn {B : Nat} {before tx : Tx N} {c : OutCursor N} {m : Nat} {data payload : List UInt8}
    (sent : Sent B before tx c m data) (chained : before.Chained B)
    (more : payload.length + c.offset > B) (fuel : Nat) :
    outWhile B (fuel + 1) tx c payload =
      if (before.desc (slot before.dmaTxDescToSet (m + 1))).status.own then
        some (.error (.use, tx.write c (payload.take (B - c.offset))))
      else
        outWhile B fuel (tx.write c (payload.take (B - c.offset)))
          ⟨slot before.dmaTxDescToSet (m + 1),
            (before.desc (slot before.dmaTxDescToSet (m + 1))).buffer1Addr, 0, c.count (B - c.offset)⟩
          (payload.drop (B - c.offset)) := by
  have desc : (tx.write c (payload.take (B - c.offset))).desc = before.desc := sent.desc
  have link : (before.desc c.desc).buffer2NextDescAddr = slot before.dmaTxDescToSet (m + 1) := by
    rw [chained.linked, sent.current, next_slot]
  rw [outWhile, if_pos more]
  simp only [desc, link]

/-- **The inner loop.** It ends in the current or a later buffer, with a rest that fits; or it meets a
descriptor of the DMA. -/
theorem outWhile_spec {B : Nat} {before : Tx N} (positive : 0 < B) (chained : before.Chained B)
    (fuel : Nat) : ∀ (tx : Tx N) (c : OutCursor N) (m : Nat) (data payload : List UInt8),
    Sent B before tx c m data → data.length + payload.length ≤ N * B →
    (m = 0 ∨ 0 < c.offset + payload.length) → payload.length + c.offset < fuel →
    (∃ tx' c' m' copied rest, outWhile B fuel tx c payload = some (.ok (tx', c', rest)) ∧
        payload = copied ++ rest ∧ Sent B before tx' c' m' (data ++ copied) ∧
        c'.offset + rest.length ≤ B ∧ (m' = 0 ∨ 0 < c'.offset + rest.length)) ∨
      ∃ tx', outWhile B fuel tx c payload = some (.error (.use, tx')) ∧
        Met B before tx' (data.length + payload.length) := by
  induction fuel with
  | zero => intro tx c m data payload _ _ _ enough; omega
  | succ fuel ih =>
    intro tx c m data payload sent fits tight enough
    by_cases more : payload.length + c.offset > B
    · have inside := sent.inside
      have length := sent.length
      obtain ⟨next, filled⟩ := sent.fill more fits
      have turn := outWhile_turn sent chained more fuel
      have total : (data ++ payload.take (B - c.offset)).length +
          (payload.drop (B - c.offset)).length = data.length + payload.length := by
        rw [List.length_append, Nat.add_assoc, ← List.length_append, List.take_append_drop]
      have left : (payload.drop (B - c.offset)).length = payload.length - (B - c.offset) :=
        List.length_drop
      by_cases busy : (before.desc (slot before.dmaTxDescToSet (m + 1))).status.own = true
      · rw [if_pos busy] at turn
        refine .inr ⟨_, turn, filled.toHarmless, m + 1, ?_, busy⟩
        rw [length, Nat.succ_mul]
        omega
      · rw [if_neg busy] at turn
        have advanced := filled.advance chained rfl next (by simpa using busy)
        rcases ih _ _ (m + 1) _ (payload.drop (B - c.offset)) advanced (by rw [total]; exact fits)
          (.inr (by rw [left]; show 0 < 0 + _; omega)) (by rw [left]; show _ + 0 < fuel; omega) with
          ⟨tx', c', m', copied, rest, ends, cut, sent', small, tight'⟩ | ⟨tx', ends, met⟩
        · refine .inl ⟨tx', c', m', payload.take (B - c.offset) ++ copied, rest, turn.trans ends, ?_,
            by rw [← List.append_assoc]; exact sent', small, tight'⟩
          rw [List.append_assoc, ← cut, List.take_append_drop]
        · rw [total] at met
          exact .inr ⟨tx', turn.trans ends, met⟩
    · refine .inl ⟨tx, c, m, [], payload, ?_, rfl, by rw [List.append_nil]; exact sent, by omega,
        tight⟩
      rw [outWhile, if_neg more]

/-- **One `pbuf`.** -/
theorem outPbuf_spec {B : Nat} {before : Tx N} (positive : 0 < B) (chained : before.Chained B)
    {tx : Tx N} {c : OutCursor N} {m : Nat} {data : List UInt8} (sent : Sent B before tx c m data)
    (tight : m = 0 ∨ 0 < c.offset) (payload : List UInt8)
    (fits : data.length + payload.length ≤ N * B) :
    (∃ tx' c' m', outPbuf B tx c payload = some (.ok (tx', c')) ∧
        Sent B before tx' c' m' (data ++ payload) ∧ (m' = 0 ∨ 0 < c'.offset)) ∨
      ∃ tx', outPbuf B tx c payload = some (.error (.use, tx')) ∧
        Met B before tx' (data.length + payload.length) := by
  have free : (tx.desc c.desc).status.own = false := by
    rw [sent.desc, sent.current]
    exact sent.free m (Nat.le_refl m)
  have pending : m = 0 ∨ 0 < c.offset + payload.length := tight.imp_right (Nat.lt_add_right _)
  have begins : outPbuf B tx c payload =
      (outWhile B (payload.length + c.offset + 1) tx c payload).map fun
        | .error failed => .error failed
        | .ok (tx, c, rest) =>
          .ok (tx.write c rest,
            { c with offset := c.offset + rest.length, frameLength := c.count rest.length }) := by
    rw [outPbuf, free, if_neg Bool.false_ne_true]
  rcases outWhile_spec positive chained (payload.length + c.offset + 1) tx c m data payload sent fits
    pending (Nat.lt_succ_self _) with
    ⟨tx', c', m', copied, rest, ends, cut, sent', small, tight'⟩ | ⟨tx', ends, met⟩
  · refine .inl ⟨tx'.write c' rest, _, m', by rw [begins, ends]; rfl, ?_, tight'⟩
    rw [cut, ← List.append_assoc]
    exact sent'.write rest small
  · exact .inr ⟨tx', by rw [begins, ends]; rfl, met⟩

/-- **The copy.** -/
theorem outChain_spec {B : Nat} {before : Tx N} (positive : 0 < B) (chained : before.Chained B)
    (chain : List (List UInt8)) : ∀ (tx : Tx N) (c : OutCursor N) (m : Nat) (data : List UInt8),
    Sent B before tx c m data → (m = 0 ∨ 0 < c.offset) →
    data.length + chain.flatten.length ≤ N * B →
    (∃ tx' c' m', outChain B tx c chain = some (.ok (tx', c')) ∧
        Sent B before tx' c' m' (data ++ chain.flatten) ∧ (m' = 0 ∨ 0 < c'.offset)) ∨
      ∃ tx', outChain B tx c chain = some (.error (.use, tx')) ∧
        Met B before tx' (data.length + chain.flatten.length) := by
  induction chain with
  | nil =>
    intro tx c m data sent tight _
    exact .inl ⟨tx, c, m, rfl, by rw [List.flatten_nil, List.append_nil]; exact sent, tight⟩
  | cons payload rest ih =>
    intro tx c m data sent tight fits
    rw [List.flatten_cons, List.length_append] at fits
    rcases outPbuf_spec positive chained sent tight payload (by omega) with
      ⟨tx', c', m', ends, sent', tight'⟩ | ⟨tx', ends, met⟩
    · have later := ih tx' c' m' (data ++ payload) sent' tight' (by rw [List.length_append]; omega)
      rw [List.length_append, List.append_assoc, ← List.flatten_cons] at later
      rw [List.flatten_cons, List.length_append, ← Nat.add_assoc, outChain, ends, Option.bind_some]
      exact later
    · refine .inr ⟨tx', by rw [outChain, ends]; rfl, met.toHarmless, ?_⟩
      obtain ⟨j, needed, busy⟩ := met.busy
      rw [List.flatten_cons, List.length_append]
      exact ⟨j, by omega, busy⟩

end ULoader.Eth

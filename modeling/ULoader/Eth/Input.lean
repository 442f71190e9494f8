/-
**`low_level_input`.**

The function takes the frame that `ETH_CheckFrameReceived` has announced, copies it into the chain of
`pbuf`s that `pbuf_alloc` returns, and gives the frame's descriptors back to the DMA.

The copy walks two sequences of pieces of different sizes at once: the `pbuf`s, and the receive
buffers behind the descriptors. `stream` is the sequence of bytes that the descriptors from a cursor
on hold; the main lemma, `copyChain_eq`, says that the copy cuts this stream at the sizes of the
`pbuf`s, whatever they are.
-/

import ULoader.Eth.Descriptors
import ULoader.Eth.Memory

namespace ULoader.Eth

variable {N : Nat}

/-! ### The copy -/

/-- `DMARxDesc`, `buffer` and `bufferoffset` of the copy. -/
structure Cursor (N : Nat) where
  desc : Fin N
  buffer : Nat
  offset : Nat

/-- The inner loop, for as long as the rest of the `pbuf` is longer than the rest of the receive
buffer: the payload grows by what is copied. `none` is a loop that does not end. -/
def copyWhile (B : Nat) (rx : Rx N) :
    Nat → Cursor N → Nat → List UInt8 → Option (Cursor N × Nat × List UInt8)
  | 0, _, _, _ => none
  | fuel + 1, c, bytesLeft, payload =>
    if bytesLeft + c.offset > B then
      let desc := (rx.desc c.desc).buffer2NextDescAddr
      copyWhile B rx fuel ⟨desc, (rx.desc desc).buffer1Addr, 0⟩ (bytesLeft - (B - c.offset))
        (payload ++ readBytes rx.rxBuff (c.buffer + c.offset) (B - c.offset))
    else some (c, bytesLeft, payload)

/-- The outer loop's body: fill a `pbuf` of `len` bytes. -/
def copyPbuf (B : Nat) (rx : Rx N) (c : Cursor N) (len : Nat) : Option (Cursor N × List UInt8) := do
  let (c, bytesLeft, payload) ← copyWhile B rx (len + c.offset + 1) c len []
  return ({ c with offset := c.offset + bytesLeft },
    payload ++ readBytes rx.rxBuff (c.buffer + c.offset) bytesLeft)

/-- The outer loop, over the sizes of the `pbuf`s. -/
def copyChain (B : Nat) (rx : Rx N) : Cursor N → List Nat → Option (List (List UInt8))
  | _, [] => some []
  | c, len :: rest => do
    let (c, payload) ← copyPbuf B rx c len
    let others ← copyChain B rx c rest
    return payload :: others

/-- The loop that gives descriptors back to the DMA. -/
def release : Nat → Fin N → Rx N → Rx N
  | 0, _, rx => rx
  | count + 1, i, rx =>
    release count (rx.desc i).buffer2NextDescAddr
      { rx with desc := Function.update rx.desc i { rx.desc i with status := .dma } }

/-- `low_level_input`, where `pbuf_alloc` returns a chain of `pbuf`s of the given sizes, or NULL. It
returns the payloads of the chain, or NULL. -/
def lowLevelInput (B : Nat) (alloc : Option (List Nat)) (rx : Rx N) :
    Option (Option (List (List UInt8)) × Rx N) := do
  let (frame, rx) ← ethGetReceivedFrame rx
  let p ← match alloc with
    | none => some none
    | some sizes => (copyChain B rx ⟨frame.descriptor, frame.buffer, 0⟩ sizes).map some
  let rx := release rx.segCount frame.descriptor rx
  return (p, { rx with segCount := 0 })

/-! ### The stream behind a cursor -/

/-- The address of the cursor's buffer and of those behind the descriptors that follow it. -/
def segment (rx : Rx N) (c : Cursor N) : Nat → Nat
  | 0 => c.buffer
  | k + 1 => (rx.desc ((fun i => (rx.desc i).buffer2NextDescAddr)^[k + 1] c.desc)).buffer1Addr

/-- The byte at a position of the stream. -/
def streamByte (B : Nat) (rx : Rx N) (c : Cursor N) (position : Nat) : UInt8 :=
  rx.rxBuff (segment rx c (position / B) + position % B)

/-- A piece of the stream. -/
def stream (B : Nat) (rx : Rx N) (c : Cursor N) (start count : Nat) : List UInt8 :=
  (List.range count).map fun i => streamByte B rx c (start + i)

theorem length_stream (B : Nat) (rx : Rx N) (c : Cursor N) (start count : Nat) :
    (stream B rx c start count).length = count := by
  rw [stream, List.length_map, List.length_range]

theorem stream_add (B : Nat) (rx : Rx N) (c : Cursor N) (start first second : Nat) :
    stream B rx c start (first + second) =
      stream B rx c start first ++ stream B rx c (start + first) second := by
  simp only [stream, List.range_add, List.map_append, List.map_map, Function.comp_def,
    Nat.add_assoc]

theorem stream_congr {B : Nat} {rx : Rx N} {c d : Cursor N} {start other : Nat}
    (same : ∀ i, streamByte B rx d (other + i) = streamByte B rx c (start + i)) (count : Nat) :
    stream B rx d other count = stream B rx c start count := by
  simp only [stream, same]

/-- Inside the cursor's buffer the stream is the buffer. -/
theorem readBytes_eq_stream {B : Nat} (rx : Rx N) (c : Cursor N) {start count : Nat}
    (inside : start + count ≤ B) :
    readBytes rx.rxBuff (c.buffer + start) count = stream B rx c start count := by
  refine List.map_congr_left fun i member => ?_
  have small : start + i < B := by
    have := List.mem_range.mp member
    omega
  rw [streamByte, Nat.div_eq_of_lt small, Nat.mod_eq_of_lt small, segment, Nat.add_assoc]

/-- The cursor at the start of the next descriptor's buffer. -/
def Cursor.advance (rx : Rx N) (c : Cursor N) : Cursor N :=
  let desc := (rx.desc c.desc).buffer2NextDescAddr
  ⟨desc, (rx.desc desc).buffer1Addr, 0⟩

/-- The stream from the next descriptor on is the stream after one buffer. -/
theorem streamByte_advance {B : Nat} (positive : 0 < B) (rx : Rx N) (c : Cursor N) (position : Nat) :
    streamByte B rx (c.advance rx) position = streamByte B rx c (B + position) := by
  have shifted (k : Nat) : segment rx (c.advance rx) k = segment rx c (k + 1) := by
    cases k with
    | zero => rfl
    | succ k => rw [segment, segment, Function.iterate_succ_apply _ (k + 1)]; rfl
  rw [streamByte, streamByte, shifted, Nat.add_div_left _ positive, Nat.add_mod_left]

/-! ### The copy cuts the stream -/

/-- **The inner loop.** It ends within the receive buffer, with what is copied and what is left being
the bytes of the stream. -/
theorem copyWhile_eq {B : Nat} (positive : 0 < B) (rx : Rx N) : ∀ (fuel : Nat) (c : Cursor N)
    (bytesLeft : Nat) (payload : List UInt8), c.offset ≤ B → bytesLeft + c.offset < fuel →
    ∃ (d : Cursor N) (rest : Nat) (copied : List UInt8),
      copyWhile B rx fuel c bytesLeft payload = some (d, rest, payload ++ copied) ∧
        d.offset + rest ≤ B ∧
        copied ++ stream B rx d d.offset rest = stream B rx c c.offset bytesLeft ∧
        ∀ i, streamByte B rx d (d.offset + rest + i) =
          streamByte B rx c (c.offset + bytesLeft + i) := by
  intro fuel
  induction fuel with
  | zero => intro c bytesLeft payload _ enough; omega
  | succ fuel ih =>
    intro c bytesLeft payload inside enough
    by_cases more : bytesLeft + c.offset > B
    · obtain ⟨d, rest, copied, copies, ends, bytes, after⟩ :=
        ih (c.advance rx) (bytesLeft - (B - c.offset))
          (payload ++ readBytes rx.rxBuff (c.buffer + c.offset) (B - c.offset)) (Nat.zero_le _)
          (by show bytesLeft - (B - c.offset) + 0 < fuel; omega)
      refine ⟨d, rest, readBytes rx.rxBuff (c.buffer + c.offset) (B - c.offset) ++ copied, ?_, ends,
        ?_, fun i => ?_⟩
      · rw [copyWhile, if_pos more, ← List.append_assoc]
        exact copies
      · have cut : bytesLeft = (B - c.offset) + (bytesLeft - (B - c.offset)) := by omega
        have next : stream B rx (c.advance rx) 0 (bytesLeft - (B - c.offset)) =
            stream B rx c (c.offset + (B - c.offset)) (bytesLeft - (B - c.offset)) :=
          stream_congr (fun i => by
            rw [streamByte_advance positive]
            congr 1
            omega) _
        have inBuffer : c.offset + (B - c.offset) ≤ B := by omega
        rw [List.append_assoc, bytes, readBytes_eq_stream rx c inBuffer]
        conv_rhs => rw [cut, stream_add]
        rw [← next]
        rfl
      · rw [after i, streamByte_advance positive]
        congr 1
        show B + (0 + (bytesLeft - (B - c.offset)) + i) = _
        omega
    · refine ⟨c, bytesLeft, [], ?_, by omega, rfl, fun i => rfl⟩
      rw [copyWhile, if_neg more, List.append_nil]

/-- **One `pbuf`** gets the next bytes of the stream. -/
theorem copyPbuf_eq {B : Nat} (positive : 0 < B) (rx : Rx N) (c : Cursor N) (len : Nat)
    (inside : c.offset ≤ B) :
    ∃ d : Cursor N, copyPbuf B rx c len = some (d, stream B rx c c.offset len) ∧ d.offset ≤ B ∧
      ∀ i, streamByte B rx d (d.offset + i) = streamByte B rx c (c.offset + len + i) := by
  obtain ⟨d, rest, copied, copies, ends, bytes, after⟩ :=
    copyWhile_eq positive rx (len + c.offset + 1) c len [] inside (Nat.lt_succ_self _)
  refine ⟨{ d with offset := d.offset + rest }, ?_, ends, after⟩
  rw [copyPbuf, copies, ← bytes, ← readBytes_eq_stream rx d ends]
  rfl

/-- **The copy.** The `pbuf`s have the sizes they were allocated with, and together hold the first
bytes of the stream. -/
theorem copyChain_eq {B : Nat} (positive : 0 < B) (rx : Rx N) (sizes : List Nat) :
    ∀ c : Cursor N, c.offset ≤ B → ∃ chain, copyChain B rx c sizes = some chain ∧
      chain.map List.length = sizes ∧ chain.flatten = stream B rx c c.offset sizes.sum := by
  induction sizes with
  | nil => exact fun c _ => ⟨[], rfl, rfl, rfl⟩
  | cons len rest ih =>
    intro c inside
    obtain ⟨d, copies, dInside, after⟩ := copyPbuf_eq positive rx c len inside
    obtain ⟨chain, others, lengths, bytes⟩ := ih d dInside
    refine ⟨stream B rx c c.offset len :: chain, ?_, ?_, ?_⟩
    · rw [copyChain, copies]
      simp only [Option.bind_eq_bind, Option.bind_some, others]
      rfl
    · rw [List.map_cons, lengths, length_stream]
    · rw [List.flatten_cons, bytes, List.sum_cons, stream_add, stream_congr after]

/-! ### A frame in a single buffer -/

/-- The receive side after a frame of one segment was read: its descriptor is given back, whether or
not there was memory for it. -/
def Rx.giveBack (rx : Rx N) : Rx N :=
  { rx with
    desc := Function.update rx.desc rx.dmaRxDescToGet
      { rx.desc rx.dmaRxDescToGet with status := .dma }
    dmaRxDescToGet := (rx.desc rx.dmaRxDescToGet).buffer2NextDescAddr
    segCount := 0 }

/-- **A frame of one segment.** With memory for it, `low_level_input` returns the first bytes of its
buffer; without, it returns NULL. -/
theorem lowLevelInput_single {B : Nat} (positive : 0 < B) {rx : Rx N} (single : rx.segCount = 1)
    (alloc : Option (List Nat)) (fits : ∀ sizes ∈ alloc, sizes.sum ≤ B) :
    ∃ packet, lowLevelInput B alloc rx = some (packet, rx.giveBack) ∧
      (alloc = none → packet = none) ∧
      ∀ sizes ∈ alloc, ∃ chain, packet = some chain ∧ chain.map List.length = sizes ∧
        chain.flatten =
          readBytes rx.rxBuff (rx.desc rx.dmaRxDescToGet).buffer1Addr sizes.sum := by
  rcases alloc with _ | sizes
  · refine ⟨none, ?_, fun _ => rfl, nofun⟩
    simp [lowLevelInput, ethGetReceivedFrame, single, release, Rx.giveBack]
  · let start : Cursor N :=
      ⟨rx.dmaRxDescToGet, (rx.desc rx.dmaRxDescToGet).buffer1Addr, 0⟩
    obtain ⟨chain, copied, lengths, flat⟩ := copyChain_eq positive
      { rx with dmaRxDescToGet := (rx.desc rx.dmaRxDescToGet).buffer2NextDescAddr } sizes start
      (Nat.zero_le B)
    refine ⟨some chain, ?_, nofun, ?_⟩
    · simp only [single, start] at copied
      simp [lowLevelInput, ethGetReceivedFrame, single, release, Rx.giveBack, copied]
    · rintro _ ⟨rfl⟩
      refine ⟨chain, rfl, lengths, ?_⟩
      have inside : start.offset + sizes.sum ≤ B := by
        rw [Nat.zero_add]
        exact fits sizes rfl
      rw [flat, ← readBytes_eq_stream _ start inside]
      rfl

end ULoader.Eth

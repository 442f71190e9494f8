/-
**Frames over several receive buffers.**

A frame longer than a buffer is stored over `k` consecutive descriptors. `ETH_CheckFrameReceived` goes
through them poll by poll and announces the frame at the last one (`checkFor_eq`).
`ETH_Get_Received_Frame` then returns the buffer of the first segment but the descriptor of the last, and
`low_level_input` starts both the copy and the release of the descriptors from there.

`reads_iff` says when this is right all the same: for a frame of one segment; and for a frame that fills
the whole ring, because then all descriptors are released whatever the start, if it repeats itself with
the period of a buffer. In every other case the last descriptor but one is never given back to the DMA.
-/

import ULoader.Eth.Receive

namespace ULoader.Eth

open Ring

variable {N : Nat}

/-! ### The frame in the ring -/

/-- The `k` descriptors from `DMARxDescToGet` on hold a frame, given with its CRC: `FS` on the first,
`LS` and the length on the last, and every buffer but the last one full. -/
structure Spans (B k : Nat) (rx : Rx N) (bytes : List UInt8) : Prop where
  chained : rx.Chained B
  idle : rx.segCount = 0
  nonempty : 1 ≤ k
  fits : k ≤ N
  crc : 4 ≤ bytes.length
  before : (k - 1) * B < bytes.length
  within : bytes.length ≤ k * B
  own : ∀ j < k, (rx.desc (slot rx.dmaRxDescToGet j)).status.own = false
  fs : ∀ j < k, (rx.desc (slot rx.dmaRxDescToGet j)).status.fs = decide (j = 0)
  ls : ∀ j < k, (rx.desc (slot rx.dmaRxDescToGet j)).status.ls = decide (j + 1 = k)
  fl : (rx.desc (slot rx.dmaRxDescToGet (k - 1))).status.fl = bytes.length
  content : ∀ p < bytes.length,
    rx.rxBuff ((rx.desc (slot rx.dmaRxDescToGet (p / B))).buffer1Addr + p % B) = bytes.getD p 0

/-- The polls of the main loop until one announces a frame, at most so many. -/
def checkFor : Nat → Rx N → Option (Rx N)
  | 0, _ => none
  | polls + 1, rx =>
    let (received, rx) := ethCheckFrameReceived rx
    if received then some rx else checkFor polls rx

/-- What `low_level_input` should do with the frame, once it is announced, when `pbuf_alloc` returns a
chain of these sizes: return its bytes without the CRC, and give exactly its descriptors back. -/
def Reads (B k : Nat) (rx : Rx N) (bytes : List UInt8) (sizes : List Nat) : Prop :=
  ∃ ready chain after, checkFor k rx = some ready ∧
    lowLevelInput B (some sizes) ready = some (some chain, after) ∧
    chain.flatten = bytes.take (bytes.length - 4) ∧
    (∀ j < k, (after.desc (slot rx.dmaRxDescToGet j)).status.own = true) ∧
    ∀ i, (∀ j < k, i ≠ slot rx.dmaRxDescToGet j) → (after.desc i).status = (rx.desc i).status

/-! ### The polls -/

/-- The receive side in the middle of a frame, `j` segments on. -/
def Rx.walked (rx : Rx N) (j : Nat) : Rx N :=
  { rx with
    fsRxDesc := some rx.dmaRxDescToGet
    lsRxDesc := none
    segCount := j
    dmaRxDescToGet := slot rx.dmaRxDescToGet j }

/-- The receive side when the frame is announced. -/
def Rx.announced (rx : Rx N) (k : Nat) : Rx N :=
  { rx with
    fsRxDesc := if k = 1 then rx.fsRxDesc else some rx.dmaRxDescToGet
    lsRxDesc := some (slot rx.dmaRxDescToGet (k - 1))
    segCount := k
    dmaRxDescToGet := slot rx.dmaRxDescToGet (k - 1) }

/-- The polls from a middle segment on. -/
theorem checkFor_walked {B k : Nat} {rx : Rx N} {bytes : List UInt8} (spans : Spans B k rx bytes)
    (rest : Nat) : ∀ j, 1 ≤ j → j + rest + 1 = k →
    checkFor (rest + 1) (rx.walked j) = some (rx.announced k) := by
  induction rest with
  | zero =>
    intro j middle ends
    have own := spans.own j (by omega)
    have ls := spans.ls j (by omega)
    have last : j = k - 1 := by omega
    have several : k ≠ 1 := by omega
    simp only [checkFor, ethCheckFrameReceived, Rx.walked, own, ls, Rx.announced, several]
    simp [last, show k - 1 + 1 = k by omega]
  | succ rest ih =>
    intro j middle ends
    have own := spans.own j (by omega)
    have fs := spans.fs j (by omega)
    have ls := spans.ls j (by omega)
    have notFirst : j ≠ 0 := by omega
    have notLast : j + 1 ≠ k := by omega
    have next : ethCheckFrameReceived (rx.walked j) = (false, rx.walked (j + 1)) := by
      simp only [ethCheckFrameReceived, Rx.walked, own, fs, ls, notFirst, notLast,
        spans.chained.linked, next_slot]
      simp
    rw [checkFor, next]
    exact ih (j + 1) (by omega) (by omega)

/-- **The polls announce the frame at its last segment.** -/
theorem checkFor_eq {B k : Nat} {rx : Rx N} {bytes : List UInt8} (spans : Spans B k rx bytes) :
    checkFor k rx = some (rx.announced k) := by
  have own := spans.own 0 spans.nonempty
  have fs := spans.fs 0 spans.nonempty
  have ls := spans.ls 0 spans.nonempty
  rw [slot_zero] at own fs ls
  by_cases single : k = 1
  · subst single
    simp [checkFor, ethCheckFrameReceived, own, ls, Rx.announced, spans.idle]
  · obtain ⟨rest, isRest⟩ : ∃ rest, k = rest + 2 := ⟨k - 2, by have := spans.nonempty; omega⟩
    have notLast : 0 + 1 ≠ k := by omega
    have first : ethCheckFrameReceived rx = (false, rx.walked 1) := by
      simp only [ethCheckFrameReceived, own, fs, ls, notLast, Rx.walked, spans.chained.linked]
      simp [Ring.next]
    have later := checkFor_walked spans rest 1 (Nat.le_refl 1) (by omega)
    rw [isRest] at later ⊢
    rw [checkFor, first]
    exact later

/-! ### The copy and the release -/

/-- **The release** gives so many descriptors from the first one on back, and no others. -/
theorem release_status (count : Nat) : ∀ (start : Fin N) (rx : Rx N),
    (∀ i, (rx.desc i).buffer2NextDescAddr = Ring.next i) → ∀ i,
    ((release count start rx).desc i).status =
      if ∃ offset < count, i = slot start offset then .dma else (rx.desc i).status := by
  induction count with
  | zero =>
    intro start rx _ i
    rw [release, if_neg]
    rintro ⟨offset, less, -⟩
    omega
  | succ count ih =>
    intro start rx linked i
    rw [release, ih _ _ (fun j => by simp only [update_status]; exact linked j), linked]
    simp only [update_status]
    by_cases later : ∃ offset < count, i = slot (Ring.next start) offset
    · have among : ∃ offset < count + 1, i = slot start offset := by
        obtain ⟨offset, less, same⟩ := later
        exact ⟨offset + 1, by omega, by rw [same, slot_next]⟩
      rw [if_pos later, if_pos among]
    · rw [if_neg later]
      by_cases first : i = start
      · rw [if_pos first, if_pos ⟨0, by omega, by rw [first, slot_zero]⟩]
      · rw [if_neg first, if_neg]
        rintro ⟨offset, less, same⟩
        cases offset with
        | zero => exact first (by rw [same, slot_zero])
        | succ offset => exact later ⟨offset, by omega, by rw [same, slot_next]⟩

/-- The links of the ring, followed. -/
theorem iterate_link {B : Nat} {rx : Rx N} (chained : rx.Chained B) (start : Fin N) (count : Nat) :
    (fun i => (rx.desc i).buffer2NextDescAddr)^[count] start = slot start count := by
  induction count with
  | zero => exact (slot_zero start).symm
  | succ count ih => rw [Function.iterate_succ_apply', ih, chained.linked, next_slot]

/-- The byte that the copy finds at a position of the frame: in the first buffer it is right, and from
then on it is one of the descriptor after the last, and of those that follow. -/
def copiedByte (B k : Nat) (rx : Rx N) (p : Nat) : UInt8 :=
  rx.rxBuff ((rx.desc (slot rx.dmaRxDescToGet (if p / B = 0 then 0 else k - 1 + p / B))).buffer1Addr +
    p % B)

/-- **`low_level_input` on a frame of `k` segments**: what it copies, and what it gives back. -/
theorem lowLevelInput_announced {B k : Nat} {rx : Rx N} (positive : 0 < B) (chained : rx.Chained B)
    (nonempty : 1 ≤ k) (sizes : List Nat) :
    ∃ chain after, lowLevelInput B (some sizes) (rx.announced k) = some (some chain, after) ∧
      chain.flatten = (List.range sizes.sum).map (copiedByte B k rx) ∧
      ∀ i, (after.desc i).status =
        if ∃ offset < k, i = slot rx.dmaRxDescToGet (k - 1 + offset) then .dma
        else (rx.desc i).status := by
  let start : Cursor N :=
    ⟨slot rx.dmaRxDescToGet (k - 1), (rx.desc rx.dmaRxDescToGet).buffer1Addr, 0⟩
  let read : Rx N :=
    { rx.announced k with
      dmaRxDescToGet := (rx.desc (slot rx.dmaRxDescToGet (k - 1))).buffer2NextDescAddr }
  have taken : ethGetReceivedFrame (rx.announced k) =
      some (⟨(rx.desc (slot rx.dmaRxDescToGet (k - 1))).status.frameLength, start.buffer, start.desc⟩,
        read) := by
    by_cases single : k = 1
    · subst single
      simp [ethGetReceivedFrame, Rx.announced, start, read]
    · have several : k > 1 := by omega
      simp [ethGetReceivedFrame, Rx.announced, start, read, single, several]
  obtain ⟨chain, copied, -, flat⟩ := copyChain_eq positive read sizes start (Nat.zero_le B)
  have copies : copyChain B read ⟨start.desc, start.buffer, 0⟩ sizes = some chain := copied
  have bytes : chain.flatten = (List.range sizes.sum).map fun p => streamByte B read start (0 + p) :=
    flat
  refine ⟨chain, { release k start.desc read with segCount := 0 }, ?_, ?_, fun i => ?_⟩
  · simp only [lowLevelInput, taken, Option.bind_eq_bind, Option.bind_some, copies, Option.map_some]
    rfl
  · rw [bytes]
    refine List.map_congr_left fun p _ => ?_
    rw [Nat.zero_add, streamByte, copiedByte]
    cases isPart : p / B with
    | zero =>
      rw [segment, if_pos rfl, slot_zero]
      rfl
    | succ part =>
      have links : (fun i => (read.desc i).buffer2NextDescAddr)^[part + 1] start.desc =
          slot start.desc (part + 1) := iterate_link chained start.desc (part + 1)
      rw [segment, links, if_neg (Nat.succ_ne_zero part), slot_slot]
      rfl
  · rw [show ({ release k start.desc read with segCount := 0 } : Rx N).desc =
      (release k start.desc read).desc from rfl, release_status k start.desc read chained.linked]
    simp only [start, slot_slot]
    rfl

/-! ### When the frame is read as it is -/

/-- A list without its last bytes, by positions. -/
theorem map_range_eq_take {bytes : List UInt8} {count : Nat} (inside : count ≤ bytes.length)
    (byte : Nat → UInt8) :
    (List.range count).map byte = bytes.take count ↔ ∀ p < count, byte p = bytes.getD p 0 := by
  constructor
  · intro same p less
    have entries := congrArg (fun list => list.getD p 0) same
    simpa [less, List.getD_eq_getElem?_getD] using entries
  · intro same
    apply List.ext_getElem
    · simpa using inside
    · intro p less _
      have below : p < count := by simpa using less
      have within : p < bytes.length := by omega
      simp [same p below, List.getD_eq_getElem?_getD, within]

/-- The bytes of the first buffer are copied right. -/
theorem copiedByte_first {B k : Nat} {rx : Rx N} {bytes : List UInt8} (spans : Spans B k rx bytes)
    {p : Nat} (inside : p < bytes.length) (first : p < B) : copiedByte B k rx p = bytes.getD p 0 := by
  rw [← spans.content p inside, copiedByte, Nat.div_eq_of_lt first, if_pos rfl]

/-- In a frame that fills the whole ring, the bytes of the other buffers are copied one buffer late. -/
theorem copiedByte_whole {B : Nat} {rx : Rx N} {bytes : List UInt8} (spans : Spans B N rx bytes)
    (positive : 0 < B) {p : Nat} (inside : p < bytes.length) (later : B ≤ p) :
    copiedByte B N rx p = bytes.getD (p - B) 0 := by
  have around : slot rx.dmaRxDescToGet (N - 1 + p / B) = slot rx.dmaRxDescToGet ((p - B) / B) := by
    have nonempty := spans.nonempty
    rw [Nat.div_eq_sub_div positive later, show N - 1 + ((p - B) / B + 1) = N + (p - B) / B by omega,
      ← slot_slot, slot_self]
  have part : p / B ≠ 0 := by
    rw [Nat.div_eq_sub_div positive later]
    exact Nat.succ_ne_zero _
  rw [← spans.content (p - B) (by omega), copiedByte, if_neg part, around,
    Nat.mod_eq_sub_mod later]

/-- With more than one segment but not the whole ring, the last descriptor but one is not among those
given back. -/
theorem not_released {k : Nat} (start : Fin N) (several : 2 ≤ k) (less : k < N) :
    ¬ ∃ offset < k, slot start (k - 2) = slot start (k - 1 + offset) := by
  rintro ⟨offset, inside, same⟩
  have shifted : slot (slot start (k - 2)) 0 = slot (slot start (k - 2)) (offset + 1) := by
    rw [slot_zero, slot_slot, same]
    congr 1
    omega
  have := slot_inj start.pos (by omega) shifted
  omega

theorem Spans.positive {B k : Nat} {rx : Rx N} {bytes : List UInt8} (spans : Spans B k rx bytes) :
    0 < B := by
  have crc := spans.crc
  have within := spans.within
  rcases Nat.eq_zero_or_pos B with none | some
  · rw [none, Nat.mul_zero] at within
    omega
  · exact some

/-- **A descriptor that is lost.** A frame of more than one segment that does not fill the ring is
announced and read, and its last descriptor but one still belongs to the CPU. -/
theorem Spans.kept {B k : Nat} {rx : Rx N} {bytes : List UInt8} (spans : Spans B k rx bytes)
    (several : 2 ≤ k) (less : k < N) (sizes : List Nat) :
    ∃ ready chain after, checkFor k rx = some ready ∧
      lowLevelInput B (some sizes) ready = some (some chain, after) ∧
      (after.desc (slot rx.dmaRxDescToGet (k - 2))).status.own = false := by
  obtain ⟨chain, after, input, -, status⟩ :=
    lowLevelInput_announced spans.positive spans.chained spans.nonempty sizes
  refine ⟨_, chain, after, checkFor_eq spans, input, ?_⟩
  rw [status, if_neg (not_released _ several less)]
  exact spans.own (k - 2) (by omega)

theorem Spans.not_reads {B k : Nat} {rx : Rx N} {bytes : List UInt8} (spans : Spans B k rx bytes)
    (several : 2 ≤ k) (less : k < N) (sizes : List Nat) : ¬ Reads B k rx bytes sizes := by
  rintro ⟨ready, chain, after, checked, input, -, own, -⟩
  obtain ⟨ready', chain', after', checked', input', kept⟩ := spans.kept several less sizes
  rw [checked] at checked'
  cases checked'
  rw [input] at input'
  cases input'
  rw [own (k - 2) (by omega)] at kept
  cases kept

/-- **When a frame over several buffers is read as it is.** The `k` descriptors from `DMARxDescToGet`
on hold a frame, and `pbuf_alloc` returns a chain of its length. After the polls that announce it,
`low_level_input` returns the bytes of the frame and gives exactly its descriptors back if and only if
the frame has one segment, or it fills the ring and its bytes repeat with the period of a buffer. -/
theorem reads_iff {B k : Nat} {rx : Rx N} {bytes : List UInt8} (spans : Spans B k rx bytes)
    (sizes : List Nat) (allocated : sizes.sum = bytes.length - 4) :
    Reads B k rx bytes sizes ↔
      k = 1 ∨ (k = N ∧ ∀ p, B ≤ p → p < bytes.length - 4 →
        bytes.getD p 0 = bytes.getD (p - B) 0) := by
  have nonempty := spans.nonempty
  have positive := spans.positive
  obtain ⟨chain, after, input, flat, status⟩ :=
    lowLevelInput_announced positive spans.chained nonempty sizes
  have copied : chain.flatten = bytes.take (bytes.length - 4) ↔
      ∀ p < bytes.length - 4, copiedByte B k rx p = bytes.getD p 0 := by
    rw [flat, allocated]
    exact map_range_eq_take (by omega) _
  constructor
  · intro reads
    by_cases single : k = 1
    · exact .inl single
    · have whole : k = N := by
        by_contra notWhole
        exact spans.not_reads (by omega) (Nat.lt_of_le_of_ne spans.fits notWhole) sizes reads
      subst whole
      obtain ⟨ready, chain', after', checked, input', right, -⟩ := reads
      rw [checkFor_eq spans] at checked
      cases checked
      rw [input] at input'
      cases input'
      refine .inr ⟨rfl, fun p later inside => ?_⟩
      rw [← copied.mp right p inside, copiedByte_whole spans positive (by omega) later]
  · rintro (rfl | ⟨rfl, periodic⟩)
    · have within := spans.within
      refine ⟨_, chain, after, checkFor_eq spans, input, copied.mpr fun p inside => ?_,
        fun j less => ?_, fun i other => ?_⟩
      · exact copiedByte_first spans (by omega) (by omega)
      · rw [status, if_pos ⟨j, less, by rw [Nat.sub_self, Nat.zero_add]⟩]
        rfl
      · rw [status, if_neg]
        rintro ⟨offset, less, same⟩
        exact other offset less (by rw [same, Nat.sub_self, Nat.zero_add])
    · refine ⟨_, chain, after, checkFor_eq spans, input, copied.mpr fun p inside => ?_,
        fun j less => ?_, fun i other => ?_⟩
      · by_cases first : p < B
        · exact copiedByte_first spans (by omega) first
        · rw [copiedByte_whole spans positive (by omega) (by omega), periodic p (by omega) inside]
      · obtain ⟨offset, inside, same⟩ :=
          exists_slot (slot rx.dmaRxDescToGet (k - 1)) (slot rx.dmaRxDescToGet j)
        rw [status, if_pos ⟨offset, inside, by rw [← same, slot_slot]⟩]
        rfl
      · obtain ⟨offset, inside, same⟩ := exists_slot rx.dmaRxDescToGet i
        exact absurd same.symm (other offset inside)

/-- The receive side with a frame in its first descriptors. -/
def Rx.holding (B k : Nat) (bytes : List UInt8) (first : 0 < N) : Rx N where
  desc i :=
    { status :=
        if i < k then ⟨false, decide (i.val = 0), decide (i.val + 1 = k), bytes.length⟩ else .dma
      buffer1Addr := i * B
      buffer2NextDescAddr := Ring.next i }
  rxBuff a := bytes.getD a 0
  dmaRxDescToGet := ⟨0, first⟩
  fsRxDesc := none
  lsRxDesc := none
  segCount := 0

theorem spans_holding {B k : Nat} {bytes : List UInt8} (first : 0 < N) (nonempty : 1 ≤ k)
    (fits : k ≤ N) (crc : 4 ≤ bytes.length) (before : (k - 1) * B < bytes.length)
    (within : bytes.length ≤ k * B) : Spans B k (Rx.holding B k bytes first) bytes := by
  have place (j : Nat) (inside : j < k) : (slot (⟨0, first⟩ : Fin N) j).val = j := by
    simp [slot, Nat.mod_eq_of_lt (Nat.lt_of_lt_of_le inside fits)]
  refine ⟨⟨fun _ => rfl, fun _ => rfl⟩, rfl, nonempty, fits, crc, before, within, ?_, ?_, ?_, ?_, ?_⟩
  · intro j inside
    simp [Rx.holding, place j inside, inside]
  · intro j inside
    simp [Rx.holding, place j inside, inside]
  · intro j inside
    simp [Rx.holding, place j inside, inside]
  · have inside : k - 1 < k := by omega
    simp only [Rx.holding, place (k - 1) inside, inside, if_true]
  · intro p inside
    have part : p / B < k := Nat.div_lt_of_lt_mul (by rw [Nat.mul_comm]; omega)
    simp only [Rx.holding, place (p / B) part]
    rw [Nat.mul_comm, Nat.div_add_mod]

/-- A frame of 20 bytes, the same in every buffer of eight. -/
def periodicFrame : List UInt8 :=
  [1, 2, 3, 4, 5, 6, 7, 8, 1, 2, 3, 4, 5, 6, 7, 8, 9, 9, 9, 9]

/-- A frame in one buffer of the configured ring, and one over all three buffers of a small ring. -/
theorem reads_single_and_whole :
    Reads 1524 1 (Rx.holding 1524 1 (List.replicate 64 7) (by decide : 0 < 5)) (List.replicate 64 7)
        [40, 20] ∧
      Reads 8 3 (Rx.holding 8 3 periodicFrame (by decide : 0 < 3)) periodicFrame [10, 6] := by
  have periodic : ∀ p < 16, 8 ≤ p → periodicFrame.getD p 0 = periodicFrame.getD (p - 8) 0 := by decide
  constructor
  · exact (reads_iff (spans_holding (by decide) (by decide) (by decide) (by decide) (by decide)
      (by decide)) [40, 20] (by decide)).mpr (.inl rfl)
  · exact (reads_iff (spans_holding (by decide) (by decide) (by decide) (by decide) (by decide)
      (by decide)) [10, 6] (by decide)).mpr
      (.inr ⟨rfl, fun p later inside => periodic p inside later⟩)

/-- **An oversized frame.** A frame of 1600 bytes is stored over two of the five buffers of 1524 bytes:
it is not read as it is, and its first descriptor still belongs to the CPU afterwards. -/
theorem oversized_not_read :
    Spans 1524 2 (Rx.holding 1524 2 (List.replicate 1600 7) (by decide : 0 < 5))
        (List.replicate 1600 7) ∧
      [1596].sum = (List.replicate 1600 (7 : UInt8)).length - 4 ∧
      ¬ Reads 1524 2 (Rx.holding 1524 2 (List.replicate 1600 7) (by decide : 0 < 5))
        (List.replicate 1600 7) [1596] ∧
      ∃ ready chain after,
        checkFor 2 (Rx.holding 1524 2 (List.replicate 1600 7) (by decide : 0 < 5)) = some ready ∧
        lowLevelInput 1524 (some [1596]) ready = some (some chain, after) ∧
        (after.desc 0).status.own = false := by
  have spans : Spans 1524 2 (Rx.holding 1524 2 (List.replicate 1600 7) (by decide : 0 < 5))
      (List.replicate 1600 7) :=
    spans_holding (by decide) (by decide) (by decide) (by rw [List.length_replicate]; decide)
      (by rw [List.length_replicate]; decide) (by rw [List.length_replicate]; decide)
  exact ⟨spans, by rw [List.length_replicate]; rfl, spans.not_reads (Nat.le_refl 2) (by decide) [1596],
    spans.kept (Nat.le_refl 2) (by decide) [1596]⟩

end ULoader.Eth

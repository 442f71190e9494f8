/-
**The receive descriptors of the Ethernet DMA.**

The table of receive descriptors that `ETH_DMARxDescChainInit` links into a ring, the buffers behind
them, and the driver's functions that poll and read it. The ring has `N` descriptors with buffers of
`B` bytes each; the driver is compiled with five of 1524 bytes.

The status word of a descriptor is modelled by the fields the driver reads: `OWN`, `FS`, `LS` and the
frame length. Descriptors are named by their index in the table, buffers by their address in
`Rx_Buff`.
-/

import Mathlib.Logic.Function.Basic
import ULoader.Lib.Ring

namespace ULoader.Eth

/-! ### The table -/

/-- The status word: the descriptor belongs to the DMA, it holds a frame's first and last segment,
and the length of the frame. -/
structure Status where
  own : Bool
  fs : Bool
  ls : Bool
  fl : Nat
  deriving DecidableEq, Repr

/-- `ETH_DMARxDesc_OWN` as a whole status word. -/
def Status.dma : Status := ⟨true, false, false, 0⟩

/-- A receive descriptor of a table of `N`. -/
structure RxDesc (N : Nat) where
  status : Status
  buffer1Addr : Nat
  buffer2NextDescAddr : Fin N
  deriving DecidableEq

/-- The receive side of the driver: the table, `Rx_Buff`, `DMARxDescToGet` and
`DMA_RX_FRAME_infos`. -/
structure Rx (N : Nat) where
  desc : Fin N → RxDesc N
  rxBuff : Nat → UInt8
  dmaRxDescToGet : Fin N
  fsRxDesc : Option (Fin N)
  lsRxDesc : Option (Fin N)
  segCount : Nat

variable {N : Nat}

/-- `ETH_DMARxDescChainInit`: the descriptors belong to the DMA, each has its own buffer, and they
form a ring. The frame information is a global, so it starts as zero. -/
def ethDmaRxDescChainInit (B : Nat) (rxBuff : Nat → UInt8) (first : 0 < N) : Rx N where
  desc i :=
    { status := .dma
      buffer1Addr := i * B
      buffer2NextDescAddr := if inside : i.val + 1 < N then ⟨i + 1, inside⟩ else ⟨0, first⟩ }
  rxBuff := rxBuff
  dmaRxDescToGet := ⟨0, first⟩
  fsRxDesc := none
  lsRxDesc := none
  segCount := 0

/-! ### Polling -/

/-- `ETH_CheckFrameReceived`. -/
def ethCheckFrameReceived (rx : Rx N) : Bool × Rx N :=
  let desc := rx.desc rx.dmaRxDescToGet
  if ¬ desc.status.own ∧ desc.status.ls then
    (true, { rx with lsRxDesc := some rx.dmaRxDescToGet, segCount := rx.segCount + 1 })
  else if ¬ desc.status.own ∧ desc.status.fs ∧ ¬ desc.status.ls then
    (false, { rx with
      fsRxDesc := some rx.dmaRxDescToGet
      lsRxDesc := none
      segCount := 1
      dmaRxDescToGet := desc.buffer2NextDescAddr })
  else if ¬ desc.status.own ∧ ¬ desc.status.fs ∧ ¬ desc.status.ls then
    (false, { rx with
      segCount := rx.segCount + 1
      dmaRxDescToGet := desc.buffer2NextDescAddr })
  else (false, rx)

/-- `FrameTypeDef`. -/
structure Frame (N : Nat) where
  length : Nat
  buffer : Nat
  descriptor : Fin N

/-- The frame length without its CRC; a field below four wraps, as `uint32_t` does. -/
def Status.frameLength (status : Status) : Nat :=
  if 4 ≤ status.fl then status.fl - 4 else 2 ^ 32 - 4 + status.fl

/-- `ETH_Get_Received_Frame`; `none` is a read through `FS_Rx_Desc` while it is NULL. The frame starts
in the first segment's buffer, but its descriptor is the current one. -/
def ethGetReceivedFrame (rx : Rx N) : Option (Frame N × Rx N) := do
  let desc := rx.desc rx.dmaRxDescToGet
  let buffer ←
    if rx.segCount > 1 then rx.fsRxDesc.map fun first => (rx.desc first).buffer1Addr
    else some desc.buffer1Addr
  return ({ length := desc.status.frameLength, buffer := buffer, descriptor := rx.dmaRxDescToGet },
    { rx with dmaRxDescToGet := desc.buffer2NextDescAddr })

/-! ### The ring -/

/-- The links and the buffers are those of `ETH_DMARxDescChainInit`. -/
structure Rx.Chained (B : Nat) (rx : Rx N) : Prop where
  linked : ∀ i, (rx.desc i).buffer2NextDescAddr = Ring.next i
  placed : ∀ i : Fin N, (rx.desc i).buffer1Addr = i * B

theorem chained_init (B : Nat) (rxBuff : Nat → UInt8) (first : 0 < N) :
    (ethDmaRxDescChainInit B rxBuff first).Chained B where
  linked i := by
    apply Fin.ext
    simp only [ethDmaRxDescChainInit, Ring.next, Ring.slot]
    split
    · rename_i inside
      exact (Nat.mod_eq_of_lt inside).symm
    · rename_i outside
      have last : i.val + 1 = N := by omega
      simp [last]
  placed _ := rfl

/-- A change of a status word, as every descriptor sees it. -/
theorem update_status (desc : Fin N → RxDesc N) (i j : Fin N) (status : Status) :
    Function.update desc i { desc i with status := status } j =
      { desc j with status := if j = i then status else (desc j).status } := by
  by_cases same : j = i
  · subst same
    simp
  · simp [same]

/-- A change of the status words keeps the ring. -/
theorem Rx.Chained.setStatus {B : Nat} {rx : Rx N} (chained : rx.Chained B) (i : Fin N)
    (status : Status) :
    ({ rx with desc := Function.update rx.desc i { rx.desc i with status := status } } :
      Rx N).Chained B where
  linked j := by
    simp only [update_status]
    exact chained.linked j
  placed j := by
    simp only [update_status]
    exact chained.placed j

end ULoader.Eth

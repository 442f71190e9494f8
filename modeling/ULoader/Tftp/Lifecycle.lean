/-
**The life of a TFTP control block.**

The client as a step system over `Client`: the console command `tftp`, and the arrival of any
datagram on any block that is still live. Two things are asked of a run.

* `SoleBlock` — at most one block is live, and it is `tftp_upcb`. Then the block a callback is for is
  the one its ACK goes through and the one it removes (`OwnBlock`).
* `RemovesLive` — `udp_remove` is only called on a live block.

`tftp_init` overwrites `tftp_upcb` without removing the block it held, and `tftp_recv` removes
`tftp_upcb` instead of the block it was called for. So both hold exactly in the runs in which no
`tftp` command comes while a block is live (`soleBlock_iff_idle`); one repeated command leaks a block
and then has the other one removed twice (`repeated_tftp_removes_twice`).
-/

import Mathlib.Data.Finset.Card
import ULoader.Lib.StepSystem
import ULoader.Tftp.Client

namespace ULoader.Tftp

open StepSystem

/-- The steps of the client: a command, with the block `udp_new` returns, or a datagram. -/
inductive Event where
  | tftp (fresh : Pcb)
  | recv (pcb : Pcb) (p : Pbuf) (source : Endpoint)

/-- What a step does. `udp_new` returns a block that is not live; only live blocks get callbacks. -/
def perform (c : Client) : Event → Option (Client × List Effect)
  | .tftp fresh => if fresh ∈ c.live then none else tftp fresh (some blinkyBin) c
  | .recv pcb p source => if pcb ∈ c.live then some (tftpRecv c pcb p source) else none

/-- The state after a step. -/
def step (c : Client) (event : Event) : Option Client := (perform c event).map Prod.fst

/-- The effects of a step. -/
def effectsOf (c : Client) (event : Event) : List Effect :=
  ((perform c event).map Prod.snd).getD []

/-- **At most one live block, and it is `tftp_upcb`.** -/
structure SoleBlock (c : Client) : Prop where
  atMostOne : c.live.card ≤ 1
  current : ∀ pcb ∈ c.live, c.tftpUpcb = some pcb

/-- A callback sends through the block it was called for, and removes no other. -/
def OwnBlock (c : Client) (event : Event) : Prop :=
  ∀ pcb p source, event = .recv pcb p source →
    (∀ sent ∈ sends (effectsOf c event), sent.1 = some pcb) ∧
      ∀ removed ∈ removes (effectsOf c event), removed = some pcb

/-- `udp_remove` is only called on a live block. -/
def RemovesLive (c : Client) (event : Event) : Prop :=
  ∀ removed ∈ removes (effectsOf c event), ∃ pcb ∈ c.live, removed = some pcb

/-- A `tftp` command comes only when no block is live. -/
def TftpWhenIdle (c : Client) (event : Event) : Prop :=
  ∀ fresh, event = .tftp fresh → c.live = ∅

/-! ### The two kinds of step -/

theorem step_tftp {c next : Client} {fresh : Pcb} (taken : step c (.tftp fresh) = some next) :
    fresh ∉ c.live ∧ next = tftpInit fresh c := by
  simp only [step, perform] at taken
  split at taken
  · cases taken
  · rename_i notLive
    rw [tftp_blinkyBin] at taken
    exact ⟨notLive, (Option.some.inj taken).symm⟩

theorem step_recv {c next : Client} {pcb : Pcb} {p : Pbuf} {source : Endpoint}
    (taken : step c (.recv pcb p source) = some next) :
    pcb ∈ c.live ∧ next = (tftpRecv c pcb p source).1 := by
  simp only [step, perform] at taken
  split at taken
  · rename_i isLive
    exact ⟨isLive, (Option.some.inj taken).symm⟩
  · cases taken

theorem effectsOf_tftp {c : Client} {fresh : Pcb} (taken : (step c (.tftp fresh)).isSome) :
    removes (effectsOf c (.tftp fresh)) = [] := by
  obtain ⟨next, taken⟩ := Option.isSome_iff_exists.mp taken
  have notLive := (step_tftp taken).1
  simp only [effectsOf, perform, if_neg notLive, tftp_blinkyBin]
  rfl

theorem effectsOf_recv {c : Client} {pcb : Pcb} {p : Pbuf} {source : Endpoint}
    (isLive : pcb ∈ c.live) :
    effectsOf c (.recv pcb p source) = (tftpRecv c pcb p source).2 := by
  simp only [effectsOf, perform, if_pos isLive]
  rfl

/-! ### The invariant -/

theorem soleBlock_initial : SoleBlock {} := ⟨by decide, by decide⟩

theorem SoleBlock.of_subset {c next : Client} (sole : SoleBlock c)
    (fewer : next.live ⊆ c.live) (same : next.tftpUpcb = c.tftpUpcb) : SoleBlock next where
  atMostOne := le_trans (Finset.card_le_card fewer) sole.atMostOne
  current pcb isLive := by rw [same]; exact sole.current pcb (fewer isLive)

/-- A callback never makes a block live. -/
theorem tftpRecv_live_subset (c : Client) (pcb : Pcb) (p : Pbuf) (source : Endpoint) :
    (tftpRecv c pcb p source).1.live ⊆ c.live := by
  rw [tftpRecv_fst]
  simp only
  split
  · cases c.tftpUpcb with
    | none => exact Finset.Subset.refl _
    | some current => exact Finset.erase_subset _ _
  · exact Finset.Subset.refl _

theorem soleBlock_step (c : Client) (event : Event) (next : Client) (sole : SoleBlock c)
    (idle : TftpWhenIdle c event) (taken : step c event = some next) : SoleBlock next := by
  cases event with
  | tftp fresh =>
    obtain ⟨_, rfl⟩ := step_tftp taken
    have empty : c.live = ∅ := idle fresh rfl
    refine ⟨?_, fun pcb isLive => ?_⟩
    · simp [tftpInit, empty]
    · simp only [tftpInit, empty, insert_empty_eq, Finset.mem_singleton] at isLive ⊢
      rw [isLive]
  | recv pcb p source =>
    obtain ⟨_, rfl⟩ := step_recv taken
    exact sole.of_subset (tftpRecv_live_subset c pcb p source) (by rw [tftpRecv_fst])

/-- A command that comes while a block is live leaves two. -/
theorem idle_of_soleBlock (c : Client) (event : Event) (next : Client)
    (taken : step c event = some next) (sole : SoleBlock next) : TftpWhenIdle c event := by
  rintro fresh rfl
  obtain ⟨notLive, rfl⟩ := step_tftp taken
  by_contra nonempty
  obtain ⟨old, isLive⟩ := Finset.nonempty_iff_ne_empty.mpr nonempty
  have same : (some fresh : Option Pcb) = some old :=
    sole.current old (Finset.mem_insert_of_mem isLive)
  exact notLive (Option.some.inj same ▸ isLive)

theorem ownBlock_of_soleBlock (c : Client) (event : Event) (sole : SoleBlock c)
    (taken : (step c event).isSome) : OwnBlock c event := by
  rintro pcb p source rfl
  obtain ⟨next, taken⟩ := Option.isSome_iff_exists.mp taken
  have isLive := (step_recv taken).1
  have current : c.tftpUpcb = some pcb := sole.current pcb isLive
  rw [effectsOf_recv isLive, sends_tftpRecv, removes_tftpRecv, current]
  refine ⟨fun sent member => ?_, fun removed member => ?_⟩
  · split at member
    · rw [List.mem_singleton.mp member]
    · cases member
  · split at member
    · exact List.mem_singleton.mp member
    · cases member

theorem removesLive_of_soleBlock (c : Client) (event : Event) (sole : SoleBlock c)
    (taken : (step c event).isSome) : RemovesLive c event := by
  intro removed member
  cases event with
  | tftp fresh =>
    rw [effectsOf_tftp taken] at member
    cases member
  | recv pcb p source =>
    obtain ⟨next, performed⟩ := Option.isSome_iff_exists.mp taken
    exact ⟨pcb, (step_recv performed).1,
      (ownBlock_of_soleBlock c _ sole taken pcb p source rfl).2 removed member⟩

/-! ### The runs that keep to one block -/

/-- **Exactly the runs without a repeated command are safe.** From the start, a run keeps to one live
block, with every callback acting on its own block and every removal hitting a live one, if and only
if each of its `tftp` commands comes when no block is live. -/
theorem soleBlock_iff_idle (events : List Event) :
    (Always step SoleBlock {} events ∧ Along step OwnBlock {} events ∧
        Along step RemovesLive {} events) ↔ Along step TftpWhenIdle {} events := by
  have exactly : Always step SoleBlock {} events ↔ Along step TftpWhenIdle {} events :=
    always_iff_along soleBlock_step (fun _ sole => sole)
      (fun c event next _ taken sole => idle_of_soleBlock c event next taken sole)
      events {} soleBlock_initial
  rw [← exactly]
  exact ⟨fun safe => safe.1, fun sole =>
    ⟨sole, sole.along ownBlock_of_soleBlock, sole.along removesLive_of_soleBlock⟩⟩

/-- An ERROR datagram of four bytes. -/
def errorDatagram : Pbuf := .single [0x00, 0x05, 0x00, 0x01] (fun _ => 0) (by simp)

/-- **A repeated command.** `tftp` twice, and two error datagrams from the server for the first
block: two blocks are live after the second command, the first datagram removes the second block, and
the second datagram removes it again. -/
theorem repeated_tftp_removes_twice :
    ¬ Always step SoleBlock {} [.tftp 0, .tftp 1] ∧
      ¬ Along step RemovesLive {} [.tftp 0, .tftp 1, .recv 0 errorDatagram tftpServer,
        .recv 0 errorDatagram tftpServer] := by
  constructor
  · intro always
    have sole : SoleBlock { tftpUpcb := some 1, fileSize := 0, live := {1, 0} } :=
      always.last (by decide +kernel)
    exact absurd sole.atMostOne (by decide)
  · intro along
    have live : RemovesLive { tftpUpcb := some 1, fileSize := 0, live := {0} }
        (.recv 0 errorDatagram tftpServer) :=
      (along_iff _ _).mp along [.tftp 0, .tftp 1, .recv 0 errorDatagram tftpServer] _ [] _ rfl
        (by decide +kernel) (by decide +kernel)
    obtain ⟨pcb, isLive, same⟩ := live (some 1) (by decide +kernel)
    rw [← Option.some.inj same] at isLive
    exact absurd isLive (by decide)

end ULoader.Tftp

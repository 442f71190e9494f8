/-
**`ip_reass` and its queue.**

The datagrams whose fragments are still arriving are a linked list, newest first, in the five nodes of a pool. They
hold at most ten pbufs: when a fragment would exceed that, or needs a node and there is none, the oldest other
datagrams are given up, those at the end of the list.

To unlink a datagram, `ip_reass_remove_oldest_datagram` hands over the last node but one as the node in front of it.
That is right for the last node. When the last node is the datagram of the fragment itself, the node given up is the
last but one: it is returned to the pool, and the list still leads to it (`Strands`).
-/

import ULoader.Ip.Fragments
import ULoader.Lib.Links
import ULoader.Lib.StepSystem
import Mathlib.Algebra.GroupWithZero.Nat

namespace ULoader.Ip

open Links Pieces StepSystem

/-! ### The code -/

/-- `MEMP_NUM_REASSDATA`. -/
abbrev Entry := Fin 5

/-- The pool of `struct ip_reassdata`, and `ip_reass`'s variables. -/
structure Reass where
  mem : Entry → Option (Node Entry Datagram)
  free : List Entry
  reassdatagrams : Option Entry
  pbufcount : Nat

/-- After `memp_init`. -/
def Reass.init : Reass := ⟨fun _ => none, [4, 3, 2, 1, 0], none, 0⟩

/-- `IP_ADDRESSES_AND_ID_MATCH`. -/
def addressesAndIdMatch (first second : IpHdr) : Bool :=
  first.src == second.src && first.dest == second.dest && first.id == second.id

/-- Subtraction of `u16_t`. -/
def sub16 (a b : Nat) : Nat := (a + 0x10000 - b % 0x10000) % 0x10000

/-- The pbufs of a datagram's fragments. -/
def Datagram.pbufs (ipr : Datagram) : Nat := (ipr.p.map Frag.clen).sum

/-- `memp_free`. Freeing a node twice is undefined. -/
def mempFree (s : Reass) (ipr : Entry) : Option Reass := do
  let _ ← s.mem ipr
  some { s with mem := Function.update s.mem ipr none, free := ipr :: s.free }

/-- `ip_reass_dequeue_datagram`. -/
def dequeueDatagram (s : Reass) (ipr : Entry) (prev : Option Entry) : Option Reass := do
  let node ← s.mem ipr
  if s.reassdatagrams = some ipr then mempFree { s with reassdatagrams := node.next } ipr
  else do
    let prev ← prev
    let ahead ← s.mem prev
    mempFree { s with mem := Function.update s.mem prev (some ⟨node.next, ahead.value⟩) } ipr

/-- `ip_reass_free_complete_datagram`, with the number of pbufs freed and the datagram whose first fragment goes
back with `icmp_time_exceeded`. -/
def freeCompleteDatagram (s : Reass) (ipr : Entry) (prev : Option Entry) : Option (Reass × Nat × List Whole) := do
  let node ← s.mem ipr
  let first ← node.value.p.head?
  let exceeded := if first.start = 0 then [⟨node.value.iphdr, first.piece.data⟩] else []
  let freed := node.value.pbufs % 0x10000
  let s ← dequeueDatagram s ipr prev
  some ({ s with pbufcount := sub16 s.pbufcount freed }, freed, exceeded)

/-- What the loop over the list finds. -/
structure Found where
  oldest : Option (Entry × Datagram)
  prev : Option Entry
  others : Nat

/-- The older of two datagrams, the later in the list if they are of the same age. -/
def older (oldest : Option (Entry × Datagram)) (r : Entry × Datagram) : Option (Entry × Datagram) :=
  match oldest with
  | none => some r
  | some oldest => if r.2.timer ≤ oldest.2.timer then some r else some oldest

/-- The loop over the list in `ip_reass_remove_oldest_datagram`. -/
def findOldest (mem : Entry → Option (Node Entry Datagram)) (fraghdr : IpHdr) :
    Nat → Option Entry → Found → Option Found
  | 0, _, _ => none
  | _ + 1, none, found => some found
  | fuel + 1, some r, found => do
    let node ← mem r
    let found := if addressesAndIdMatch node.value.iphdr fraghdr then found
      else { found with oldest := older found.oldest (r, node.value), others := found.others + 1 }
    let found := if node.next.isSome then { found with prev := some r } else found
    findOldest mem fraghdr fuel node.next found

/-- `ip_reass_remove_oldest_datagram`, with the number of pbufs freed so far. -/
def removeOldestDatagram (fraghdr : IpHdr) (needed : Nat) :
    Nat → Reass → Nat → List Whole → Option (Reass × Nat × List Whole)
  | 0, _, _, _ => none
  | fuel + 1, s, freed, exceeded => do
    let found ← findOldest s.mem fraghdr 6 s.reassdatagrams ⟨none, none, 0⟩
    let (s, freed, exceeded) ← match found.oldest with
      | none => some (s, freed, exceeded)
      | some oldest => do
        let (s, current, more) ← freeCompleteDatagram s oldest.1 found.prev
        some (s, freed + current, exceeded ++ more)
    if freed < needed ∧ 1 < found.others then removeOldestDatagram fraghdr needed fuel s freed exceeded
    else some (s, freed, exceeded)

/-- `memp_malloc`, and the new entry at the front of the list. -/
def mempMalloc (s : Reass) (fraghdr : IpHdr) : Reass × Option Entry :=
  match s.free with
  | [] => (s, none)
  | ipr :: free =>
    (⟨Function.update s.mem ipr (some ⟨s.reassdatagrams, Datagram.new fraghdr⟩), free, some ipr, s.pbufcount⟩,
      some ipr)

/-- `ip_reass_enqueue_new_datagram`. -/
def enqueueNewDatagram (s : Reass) (fraghdr : IpHdr) (clen : Nat) :
    Option (Reass × Option Entry × List Whole) := do
  match mempMalloc s fraghdr with
  | (s, some ipr) => some (s, some ipr, [])
  | (s, none) =>
    let (s, freed, exceeded) ← removeOldestDatagram fraghdr clen 6 s 0 []
    if clen ≤ freed then
      let (s, ipr) := mempMalloc s fraghdr
      some (s, ipr, exceeded)
    else some (s, none, exceeded)

/-- What a call hands up, and what it sends back. -/
structure Result where
  whole : Option Whole
  exceeded : List Whole

/-- The check for room in front of `ip_reass`: whether the fragment may be taken. -/
def makeRoom (s : Reass) (p : Fragment) : Option (Reass × Bool × List Whole) :=
  if 10 < s.pbufcount + p.clen then do
    let (s, freed, exceeded) ← removeOldestDatagram p.hdr p.clen 6 s 0 []
    some (s, freed ≠ 0 && s.pbufcount + p.clen ≤ 10, exceeded)
  else some (s, true, [])

/-- The fragment is chained into the datagram of an entry; a complete datagram leaves the queue. -/
def chainInto (s : Reass) (ipr : Entry) (prev : Option Entry) (base : Datagram) (p : Fragment) :
    Option (Reass × Option Whole) := do
  let node ← s.mem ipr
  let count := (s.pbufcount + p.clen) % 0x10000
  match base.receive p with
  | (whole, some true) =>
    let s ← dequeueDatagram s ipr prev
    some ({ s with pbufcount := sub16 count (whole.pbufs % 0x100) }, some whole.assemble)
  | (kept, verdict) =>
    some ({ s with mem := Function.update s.mem ipr (some ⟨node.next, kept⟩),
                   pbufcount := if verdict = none then sub16 count p.clen else count }, none)

/-- `ip_reass`. -/
def ipReass (s : Reass) (p : Fragment) : Option (Reass × Result) := do
  if p.hdr.hl * 4 ≠ 20 then some (s, ⟨none, []⟩)
  else
    let (s, room, given) ← makeRoom s p
    if !room then some (s, ⟨none, given⟩)
    else
      match ← search (addressesAndIdMatch ·.iphdr p.hdr) s.mem 6 none s.reassdatagrams with
      | (prev, some (ipr, node)) =>
        let (s, whole) ← chainInto s ipr prev (node.value.noteHeader p.hdr) p
        some (s, ⟨whole, given⟩)
      | (prev, none) =>
        let (s, ipr, more) ← enqueueNewDatagram s p.hdr p.clen
        match ipr with
        | none => some (s, ⟨none, given ++ more⟩)
        | some ipr =>
          let (s, whole) ← chainInto s ipr prev (Datagram.new p.hdr) p
          some (s, ⟨whole, given ++ more⟩)

end ULoader.Ip

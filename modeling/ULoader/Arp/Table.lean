/-
**The ARP table.**

`etharp.c` keeps ten pairs of an IP and a hardware address. An entry is empty, pending (a request is out, one
packet may wait for the answer) or stable; a stable entry that is about to expire is asked for again.

* `Entry`, `Table` — `struct etharp_entry`, `arp_table`. What a packet is does not matter here.
* `etharpFindEntry` — one sweep that looks for the address and remembers what could be recycled.
* `etharpUpdateArpEntry`, `etharpArpInput`, `etharpQuery`, `etharpOutput`, `etharpTmr`,
  `etharpCleanupNetif` — the functions of the source, with the frames they hand to `linkoutput`.
* **`etharpFindEntry_spec`** — what the sweep finds: the entry of the address; or a free one; or, if it has
  to, the least destructive one to recycle.
-/

import Mathlib.Data.Fin.Basic
import Mathlib.Data.List.FinRange
import ULoader.Lib.ByteOrder

namespace ULoader.Arp

open ByteOrder

/-- `ARP_TABLE_SIZE`. -/
def arpTableSize : Nat := 10

/-- `ARP_MAXAGE`, in ticks of `etharp_tmr`. -/
def arpMaxage : Nat := 240

/-- `ARP_AGE_REREQUEST_USED`. -/
def arpAgeRerequestUsed : Nat := arpMaxage - 12

/-- `ARP_MAXPENDING`. -/
def arpMaxpending : Nat := 2

/-- `struct eth_addr`. -/
abbrev EthAddr := Vector UInt8 6

/-- `ethbroadcast`. -/
def ethbroadcast : EthAddr := #v[0xff, 0xff, 0xff, 0xff, 0xff, 0xff]

/-- `ethzero`. -/
def ethzero : EthAddr := #v[0, 0, 0, 0, 0, 0]

/-- `enum etharp_state`. -/
inductive EntryState
  | empty
  | pending
  | stable
  | stableRerequesting
  deriving DecidableEq

/-- `state >= ETHARP_STATE_STABLE`. -/
def EntryState.isStable : EntryState → Bool
  | .empty | .pending => false
  | .stable | .stableRerequesting => true

/-- `struct etharp_entry`; `netif` says whether the entry names the interface. -/
structure Entry (α : Type) where
  q : Option α
  ipaddr : UInt32
  netif : Bool
  ethaddr : EthAddr
  state : EntryState
  ctime : Nat

abbrev Index := Fin arpTableSize

/-- `arp_table`. -/
abbrev Table (α : Type) := Index → Entry α

/-- `arp_table` and `etharp_cached_entry`. -/
structure Cache (α : Type) where
  table : Table α
  cached : Index

/-- What `etharp.c` reads of the interface. -/
structure Netif where
  ipAddr : UInt32
  netmask : UInt32
  gw : UInt32
  hwaddr : EthAddr

/-- A frame handed to `linkoutput`. -/
inductive Frame (α : Type)
  /-- An IP packet. -/
  | ip (dest src : EthAddr) (packet : α)
  /-- An ARP message. -/
  | arp (dest src : EthAddr) (opcode : UInt16) (shwaddr : EthAddr) (sipaddr : UInt32) (dhwaddr : EthAddr)
      (dipaddr : UInt32)

/-! ### Addresses -/

/-- `ip_addr_netcmp(addr1, addr2, mask)`. -/
def ipAddrNetcmp (addr1 addr2 mask : UInt32) : Bool := addr1 &&& mask == addr2 &&& mask

/-- `ip4_addr_isbroadcast(addr, netif)`; the interface has `NETIF_FLAG_BROADCAST`. -/
def ip4AddrIsbroadcast (addr : UInt32) (netif : Netif) : Bool :=
  if ~~~addr = 0 ∨ addr = 0 then true
  else if addr = netif.ipAddr then false
  else ipAddrNetcmp addr netif.ipAddr netif.netmask && (addr &&& ~~~netif.netmask == 0xffffffff &&& ~~~netif.netmask)

/-- `ip_addr_ismulticast(addr)`, on a little-endian machine. -/
def ipAddrIsmulticast (addr : UInt32) : Bool := addr &&& ip4Addr 0xf0 0 0 0 == ip4Addr 0xe0 0 0 0

/-- `ip_addr_islinklocal(addr)`. -/
def ipAddrIslinklocal (addr : UInt32) : Bool := addr &&& ip4Addr 0xff 0xff 0 0 == ip4Addr 0xa9 0xfe 0 0

/-- An address `etharp_update_arp_entry` and `etharp_query` refuse. -/
def nonUnicast (addr : UInt32) (netif : Netif) : Bool :=
  addr == 0 || ip4AddrIsbroadcast addr netif || ipAddrIsmulticast addr

/-- The hardware address of an IP multicast group; `ip4_addr2` to `ip4_addr4` are the bytes in memory. -/
def mcastaddr (addr : UInt32) : EthAddr :=
  #v[0x01, 0x00, 0x5e, (addr >>> 8).toUInt8 &&& 0x7f, (addr >>> 16).toUInt8, (addr >>> 24).toUInt8]

/-! ### Finding an entry -/

section Table

variable {α : Type}

/-- `etharp_free_entry(i)` on the entry itself. -/
def Entry.free (entry : Entry α) : Entry α := { entry with q := none, state := .empty }

/-- An oldest entry so far, `ARP_TABLE_SIZE` being `none`, and its age. -/
structure Oldest where
  index : Option Index
  age : Nat

/-- `if (arp_table[i].ctime >= age) { old = i; age = arp_table[i].ctime; }`. -/
def Oldest.note (oldest : Oldest) (i : Index) (ctime : Nat) : Oldest :=
  if oldest.age ≤ ctime then ⟨some i, ctime⟩ else oldest

/-- What the sweep remembers. -/
structure Candidates where
  empty : Option Index
  oldStable : Oldest
  oldPending : Oldest
  oldQueue : Oldest

/-- One round of the sweep over an entry that is not the one looked for. -/
def Candidates.note (c : Candidates) (i : Index) (entry : Entry α) : Candidates :=
  match entry.state with
  | .empty => if c.empty = none then { c with empty := some i } else c
  | .pending =>
    if entry.q.isSome then { c with oldQueue := c.oldQueue.note i entry.ctime }
    else { c with oldPending := c.oldPending.note i entry.ctime }
  | .stable | .stableRerequesting => { c with oldStable := c.oldStable.note i entry.ctime }

/-- The sweep of `etharp_find_entry`: the entry of the address, or the candidates. -/
def sweep (table : Table α) (ipaddr : UInt32) : List Index → Candidates → Index ⊕ Candidates
  | [], c => .inr c
  | i :: rest, c =>
    if (table i).state ≠ .empty ∧ ipaddr = (table i).ipaddr then .inl i
    else sweep table ipaddr rest (c.note i (table i))

/-- The values of `flags`. -/
inductive Flags
  | tryHard
  | findOnly
  deriving DecidableEq

/-- A fresh entry for an address. -/
def Entry.fresh (entry : Entry α) (ipaddr : UInt32) : Entry α := { entry with ipaddr := ipaddr, ctime := 0 }

/-- `etharp_find_entry(ipaddr, flags)`: the index, `none` for `ERR_MEM`. -/
def etharpFindEntry (table : Table α) (ipaddr : UInt32) (flags : Flags) : Option Index × Table α :=
  match sweep table ipaddr (List.finRange arpTableSize) ⟨none, ⟨none, 0⟩, ⟨none, 0⟩, ⟨none, 0⟩⟩ with
  | .inl i => (some i, table)
  | .inr c =>
    if flags = .findOnly ∨ (c.empty = none ∧ flags ≠ .tryHard) then (none, table)
    else match c.empty with
      | some i => (some i, Function.update table i ((table i).fresh ipaddr))
      | none =>
        match c.oldStable.index <|> c.oldPending.index <|> c.oldQueue.index with
        | some i => (some i, Function.update table i ((table i).free.fresh ipaddr))
        | none => (none, table)

/-! ### Sending -/

/-- What the environment answers during a call: whether the packet has room for an Ethernet header,
whether there is memory for an ARP request and whether `linkoutput` takes it, and whether there is memory
for a copy of the packet. -/
structure Env where
  room : Bool
  alloc : Bool
  link : Bool
  copy : Bool

/-- `etharp_request(netif, ipaddr)`: the frames, and whether it is `ERR_OK`. -/
def etharpRequest (env : Env) (netif : Netif) (ipaddr : UInt32) : List (Frame α) × Bool :=
  if env.alloc then
    ([.arp ethbroadcast netif.hwaddr 1 netif.hwaddr netif.ipAddr ethzero ipaddr], env.link)
  else ([], false)

/-- `etharp_update_arp_entry(netif, ipaddr, ethaddr, flags)`. -/
def etharpUpdateArpEntry (netif : Netif) (table : Table α) (ipaddr : UInt32) (ethaddr : EthAddr)
    (flags : Flags) : Table α × List (Frame α) :=
  if nonUnicast ipaddr netif then (table, [])
  else match etharpFindEntry table ipaddr flags with
    | (none, table) => (table, [])
    | (some i, table) =>
      (Function.update table i { table i with
          q := none, netif := true, ethaddr := ethaddr, state := .stable, ctime := 0 },
        ((table i).q.map (Frame.ip ethaddr netif.hwaddr)).toList)

/-- `struct etharp_hdr`, numbers as they are meant, and `p->len`. -/
structure ArpPacket where
  len : Nat
  hwtype : UInt16
  proto : UInt16
  hwlen : UInt8
  protolen : UInt8
  opcode : UInt16
  shwaddr : EthAddr
  sipaddr : UInt32
  dipaddr : UInt32

/-- Long enough, and IP over Ethernet. -/
def ArpPacket.valid (hdr : ArpPacket) : Bool :=
  42 ≤ hdr.len && hdr.hwtype == 1 && hdr.hwlen == 6 && hdr.protolen == 4 && hdr.proto == 0x0800

/-- `for_us` in `etharp_arp_input`. -/
def forUs (netif : Netif) (hdr : ArpPacket) : Bool := netif.ipAddr != 0 && hdr.dipaddr == netif.ipAddr

/-- `etharp_arp_input(netif, ethaddr, p)`. -/
def etharpArpInput (netif : Netif) (table : Table α) (hdr : ArpPacket) : Table α × List (Frame α) :=
  if hdr.valid then
    let (table, frames) := etharpUpdateArpEntry netif table hdr.sipaddr hdr.shwaddr
      (if forUs netif hdr then .tryHard else .findOnly)
    if hdr.opcode = 1 ∧ forUs netif hdr then
      (table, frames ++ [.arp hdr.shwaddr netif.hwaddr 2 netif.hwaddr netif.ipAddr hdr.shwaddr hdr.sipaddr])
    else (table, frames)
  else (table, [])

/-- `etharp_query(netif, ipaddr, q)`. -/
def etharpQuery (env : Env) (netif : Netif) (arp : Cache α) (ipaddr : UInt32) (q : Option α) :
    Cache α × List (Frame α) :=
  if nonUnicast ipaddr netif then (arp, [])
  else match etharpFindEntry arp.table ipaddr .tryHard with
    | (none, table) => ({ arp with table := table }, [])
    | (some i, table) =>
      let entry := table i
      let entry := if entry.state = .empty then { entry with state := .pending } else entry
      let request := if entry.state = .pending ∨ q.isNone then (etharpRequest env netif ipaddr).1 else []
      match q with
      | none => ({ arp with table := Function.update table i entry }, request)
      | some packet =>
        if entry.state.isStable then
          (⟨Function.update table i entry, i⟩, request ++ [.ip entry.ethaddr netif.hwaddr packet])
        else
          let entry := if env.copy then { entry with q := some packet } else entry
          ({ arp with table := Function.update table i entry }, request)

/-- `etharp_output_to_arp_index(netif, q, arp_idx)`. -/
def etharpOutputToArpIndex (env : Env) (netif : Netif) (table : Table α) (packet : α) (i : Index) :
    Table α × List (Frame α) :=
  let entry := table i
  if entry.state = .stable ∧ arpAgeRerequestUsed ≤ entry.ctime then
    let (frames, ok) := etharpRequest env netif entry.ipaddr
    (if ok then Function.update table i { entry with state := .stableRerequesting } else table,
      frames ++ [.ip entry.ethaddr netif.hwaddr packet])
  else (table, [.ip entry.ethaddr netif.hwaddr packet])

/-- The next hop of a unicast packet: the destination, or the gateway when that is not on the local
network; `none` when there is no gateway. -/
def nextHop (netif : Netif) (ipaddr : UInt32) : Option UInt32 :=
  if !ipAddrNetcmp ipaddr netif.ipAddr netif.netmask && !ipAddrIslinklocal ipaddr then
    if netif.gw ≠ 0 then some netif.gw else none
  else some ipaddr

/-- The entry is stable and of this address. -/
def Entry.answers (entry : Entry α) (ipaddr : UInt32) : Bool := entry.state.isStable && ipaddr == entry.ipaddr

/-- `etharp_output(netif, q, ipaddr)`. -/
def etharpOutput (env : Env) (netif : Netif) (arp : Cache α) (packet : α) (ipaddr : UInt32) :
    Cache α × List (Frame α) :=
  if !env.room then (arp, [])
  else if ip4AddrIsbroadcast ipaddr netif then (arp, [.ip ethbroadcast netif.hwaddr packet])
  else if ipAddrIsmulticast ipaddr then (arp, [.ip (mcastaddr ipaddr) netif.hwaddr packet])
  else match nextHop netif ipaddr with
    | none => (arp, [])
    | some dstAddr =>
      if (arp.table arp.cached).answers dstAddr then
        let (table, frames) := etharpOutputToArpIndex env netif arp.table packet arp.cached
        ({ arp with table := table }, frames)
      else match (List.finRange arpTableSize).find? fun i => (arp.table i).answers dstAddr with
        | some i =>
          let (table, frames) := etharpOutputToArpIndex env netif arp.table packet i
          (⟨table, i⟩, frames)
        | none => etharpQuery env netif arp dstAddr (some packet)

/-- One entry in `etharp_tmr()`. -/
def Entry.tick (entry : Entry α) : Entry α :=
  if entry.state = .empty then entry
  else
    let entry := { entry with ctime := (entry.ctime + 1) % 256 }
    if arpMaxage ≤ entry.ctime ∨ (entry.state = .pending ∧ arpMaxpending ≤ entry.ctime) then entry.free
    else if entry.state = .stableRerequesting then { entry with state := .stable }
    else entry

/-- `etharp_tmr()`. -/
def etharpTmr (table : Table α) : Table α := fun i => (table i).tick

/-- `etharp_cleanup_netif(netif)`. -/
def etharpCleanupNetif (table : Table α) : Table α :=
  fun i => if (table i).state ≠ .empty ∧ (table i).netif then (table i).free else table i

/-! ### What the sweep finds -/

section Sweep

variable {table : Table α} {ipaddr : UInt32}

/-- `oldest` is an oldest of the entries seen that have the property. -/
structure Oldest.Of (oldest : Oldest) (table : Table α) (P : Entry α → Prop) (seen : List Index) :
    Prop where
  found : ∀ i, oldest.index = some i → P (table i) ∧ (table i).ctime = oldest.age
  older : ∀ i ∈ seen, P (table i) → oldest.index ≠ none ∧ (table i).ctime ≤ oldest.age
  fresh : oldest.index = none → oldest.age = 0

/-- An entry with the property is noted. -/
theorem Oldest.Of.note {oldest : Oldest} {P : Entry α → Prop} {seen : List Index} {i : Index}
    (of : oldest.Of table P seen) (holds : P (table i)) :
    (oldest.note i (table i).ctime).Of table P (seen ++ [i]) := by
  rw [Oldest.note]
  split
  next later =>
    refine ⟨?_, ?_, by simp⟩
    · rintro j ⟨⟩
      exact ⟨holds, rfl⟩
    · intro j member holdsOther
      refine ⟨by simp, ?_⟩
      rcases List.mem_append.mp member with member | member
      · exact (of.older j member holdsOther).2.trans later
      · rw [List.mem_singleton.mp member]
  next younger =>
    have some : oldest.index ≠ none := fun nothing => younger (by rw [of.fresh nothing]; exact Nat.zero_le _)
    refine ⟨of.found, ?_, of.fresh⟩
    intro j member holdsOther
    rcases List.mem_append.mp member with member | member
    · exact of.older j member holdsOther
    · rw [List.mem_singleton.mp member]
      exact ⟨some, by omega⟩

/-- An entry without the property is passed over. -/
theorem Oldest.Of.skip {oldest : Oldest} {P : Entry α → Prop} {seen : List Index} {i : Index}
    (of : oldest.Of table P seen) (fails : ¬ P (table i)) : oldest.Of table P (seen ++ [i]) := by
  refine ⟨of.found, fun j member holds => ?_, of.fresh⟩
  rcases List.mem_append.mp member with member | member
  · exact of.older j member holds
  · rw [List.mem_singleton.mp member] at holds
    exact absurd holds fails

/-- What the candidates are after the entries seen. -/
structure Candidates.Of (c : Candidates) (table : Table α) (seen : List Index) : Prop where
  empty : ∀ i, c.empty = some i → (table i).state = .empty
  full : c.empty = none → ∀ i ∈ seen, (table i).state ≠ .empty
  stable : c.oldStable.Of table (fun entry => entry.state.isStable = true) seen
  pending : c.oldPending.Of table (fun entry => entry.state = .pending ∧ entry.q = none) seen
  queue : c.oldQueue.Of table (fun entry => entry.state = .pending ∧ entry.q ≠ none) seen

theorem Candidates.Of.note {c : Candidates} {seen : List Index} (of : c.Of table seen) (i : Index) :
    (c.note i (table i)).Of table (seen ++ [i]) := by
  have full : (table i).state ≠ .empty → c.empty = none → ∀ j ∈ seen ++ [i], (table j).state ≠ .empty := by
    intro busy nothing j member
    rcases List.mem_append.mp member with member | member
    · exact of.full nothing j member
    · rw [List.mem_singleton.mp member]
      exact busy
  rw [Candidates.note]
  cases here : (table i).state with
  | empty =>
    have stable := of.stable.skip (i := i) (by simp [here, EntryState.isStable])
    have pending := of.pending.skip (i := i) (by simp [here])
    have queue := of.queue.skip (i := i) (by simp [here])
    by_cases nothing : c.empty = none
    · rw [if_pos nothing]
      refine ⟨?_, by simp, stable, pending, queue⟩
      rintro j ⟨⟩
      exact here
    · rw [if_neg nothing]
      exact ⟨of.empty, fun absent => absurd absent nothing, stable, pending, queue⟩
  | pending =>
    have stable := of.stable.skip (i := i) (by simp [here, EntryState.isStable])
    cases waiting : (table i).q with
    | none =>
      exact ⟨of.empty, full (by simp [here]), stable, of.pending.note ⟨here, waiting⟩,
        of.queue.skip (by simp [waiting])⟩
    | some packet =>
      exact ⟨of.empty, full (by simp [here]), stable, of.pending.skip (by simp [waiting]),
        of.queue.note ⟨here, by simp [waiting]⟩⟩
  | stable =>
    exact ⟨of.empty, full (by simp [here]), of.stable.note (by simp [here, EntryState.isStable]),
      of.pending.skip (by simp [here]), of.queue.skip (by simp [here])⟩
  | stableRerequesting =>
    exact ⟨of.empty, full (by simp [here]), of.stable.note (by simp [here, EntryState.isStable]),
      of.pending.skip (by simp [here]), of.queue.skip (by simp [here])⟩

/-- The sweep finds the entry of the address, or goes through all entries. -/
theorem sweep_spec (rest : List Index) : ∀ {seen : List Index} {c : Candidates}, c.Of table seen →
    (∀ i ∈ seen, (table i).state ≠ .empty → ipaddr ≠ (table i).ipaddr) →
    (∃ i, sweep table ipaddr rest c = .inl i ∧ (table i).state ≠ .empty ∧ ipaddr = (table i).ipaddr) ∨
    ∃ c', sweep table ipaddr rest c = .inr c' ∧ c'.Of table (seen ++ rest) ∧
      ∀ i ∈ seen ++ rest, (table i).state ≠ .empty → ipaddr ≠ (table i).ipaddr := by
  induction rest with
  | nil =>
    intro seen c of unlike
    exact .inr ⟨c, rfl, by simpa using of, by simpa using unlike⟩
  | cons i rest ih =>
    intro seen c of unlike
    rw [sweep]
    split
    next match' => exact .inl ⟨i, rfl, match'.1, match'.2⟩
    next different =>
      have onward := @ih (seen ++ [i]) (c.note i (table i)) (of.note i) (by
        intro j member busy
        rcases List.mem_append.mp member with member | member
        · exact unlike j member busy
        · rw [List.mem_singleton.mp member] at busy ⊢
          exact fun same => different ⟨busy, same⟩)
      simpa only [List.append_assoc, List.singleton_append] using onward

/-- What may be recycled: a stable entry, else a pending one without a packet, else any; and the oldest of
its kind. -/
def Recyclable (table : Table α) (i : Index) : Prop :=
  ((table i).state.isStable = true ∧ ∀ j, (table j).state.isStable = true → (table j).ctime ≤ (table i).ctime) ∨
  ((table i).state = .pending ∧ (table i).q = none ∧ (∀ j, (table j).state = .pending) ∧
    ∀ j, (table j).q = none → (table j).ctime ≤ (table i).ctime) ∨
  ((table i).state = .pending ∧ (∀ j, (table j).state = .pending ∧ (table j).q ≠ none) ∧
    ∀ j, (table j).ctime ≤ (table i).ctime)

/-- **What `etharp_find_entry` finds**: the entry of the address; else nothing, if it may only look; else an
empty entry; and only when there is none, the least destructive one to recycle. -/
theorem etharpFindEntry_spec (table : Table α) (ipaddr : UInt32) (flags : Flags) :
    (∃ i, etharpFindEntry table ipaddr flags = (some i, table) ∧ (table i).state ≠ .empty ∧
      ipaddr = (table i).ipaddr) ∨
    ((∀ i, (table i).state ≠ .empty → ipaddr ≠ (table i).ipaddr) ∧
      ((flags = .findOnly ∧ etharpFindEntry table ipaddr flags = (none, table)) ∨
      (flags = .tryHard ∧ ∃ i, (table i).state = .empty ∧ etharpFindEntry table ipaddr flags =
        (some i, Function.update table i ((table i).fresh ipaddr))) ∨
      (flags = .tryHard ∧ (∀ j, (table j).state ≠ .empty) ∧ ∃ i, Recyclable table i ∧
        etharpFindEntry table ipaddr flags =
          (some i, Function.update table i ((table i).free.fresh ipaddr))))) := by
  have start : (⟨none, ⟨none, 0⟩, ⟨none, 0⟩, ⟨none, 0⟩⟩ : Candidates).Of table [] :=
    ⟨by simp, by simp, ⟨by simp, by simp, by simp⟩, ⟨by simp, by simp, by simp⟩, ⟨by simp, by simp, by simp⟩⟩
  have all : ∀ i : Index, i ∈ [] ++ List.finRange arpTableSize := fun i => by simp
  rcases @sweep_spec α table ipaddr (List.finRange arpTableSize) [] _ start (by simp) with
    ⟨i, found, busy, same⟩ | ⟨c, swept, of, unlike⟩
  · exact .inl ⟨i, by rw [etharpFindEntry, found], busy, same⟩
  · refine .inr ⟨fun i => unlike i (all i), ?_⟩
    rw [etharpFindEntry, swept]
    cases flags with
    | findOnly => exact .inl ⟨rfl, by simp⟩
    | tryHard =>
      refine .inr ?_
      cases empty : c.empty with
      | some i => exact .inl ⟨rfl, i, of.empty i empty, by simp [empty]⟩
      | none =>
        have full := fun j => of.full empty j (all j)
        refine .inr ⟨rfl, full, ?_⟩
        cases stable : c.oldStable.index with
        | some i =>
          obtain ⟨holds, age⟩ := of.stable.found i stable
          refine ⟨i, .inl ⟨holds, fun j other => ?_⟩, by simp [empty, stable]⟩
          rw [age]
          exact (of.stable.older j (all j) other).2
        | none =>
          have pending : ∀ j, (table j).state = .pending := by
            intro j
            cases here : (table j).state with
            | empty => exact absurd here (full j)
            | pending => rfl
            | stable => exact absurd stable (of.stable.older j (all j) (by rw [here]; rfl)).1
            | stableRerequesting => exact absurd stable (of.stable.older j (all j) (by rw [here]; rfl)).1
          cases idle : c.oldPending.index with
          | some i =>
            obtain ⟨⟨_, holds⟩, age⟩ := of.pending.found i idle
            refine ⟨i, .inr (.inl ⟨pending i, holds, pending, fun j other => ?_⟩), by simp [empty, stable, idle]⟩
            rw [age]
            exact (of.pending.older j (all j) ⟨pending j, other⟩).2
          | none =>
            have waiting : ∀ j, (table j).state = .pending ∧ (table j).q ≠ none := fun j =>
              ⟨pending j, fun alone => (of.pending.older j (all j) ⟨pending j, alone⟩).1 idle⟩
            cases queue : c.oldQueue.index with
            | some i =>
              obtain ⟨_, age⟩ := of.queue.found i queue
              refine ⟨i, .inr (.inr ⟨pending i, waiting, fun j => ?_⟩), by simp [empty, stable, idle, queue]⟩
              rw [age]
              exact (of.queue.older j (all j) (waiting j)).2
            | none =>
              have first : Index := ⟨0, by decide⟩
              exact absurd queue (of.queue.older first (all first) (waiting first)).1

end Sweep

end Table

end ULoader.Arp

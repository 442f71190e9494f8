/-
**The ARP table over whole runs.**

IP packets handed over for sending, ARP messages, the five-second timer, DHCP's probes, the interface going
down or changing its addresses: in any order. `Packet` is a packet with what has to be remembered about it;
`heard` is what the network has announced, with the tick it was announced at.

* **`addressed`** — every IP frame goes to the broadcast address, to the group's address, or to the hardware
  address its next hop announced last, less than 240 ticks ago.
* **`sent_once`** — no packet is sent twice, none is sent and still waiting, and none waits longer than one
  tick; an IP address has at most one entry.
* **`answered`** — when a next hop announces itself, the packet that waits for it is sent in the same call.
* **`spared`** — a packet that waits is given up for the sake of another address only when all ten entries
  hold a waiting packet.
-/

import ULoader.Arp.Table
import ULoader.Lib.StepSystem

namespace ULoader.Arp

open StepSystem

/-- A packet handed to `etharp_output`: its number, its destination and next hop, and the tick. -/
structure Packet where
  serial : Nat
  dst : UInt32
  hop : UInt32
  born : Nat
  deriving DecidableEq

/-- `heard` has for every IP address the hardware address announced last, and the tick; `sent` the numbers of
the packets handed to `linkoutput`. -/
structure State where
  cache : Cache Packet
  netif : Netif
  ticks : Nat
  heard : UInt32 → Option (EthAddr × Nat)
  serial : Nat
  sent : List Nat

inductive Event
  /-- `etharp_arp_input`. -/
  | arp (hdr : ArpPacket)
  /-- `etharp_output`. -/
  | output (ipaddr : UInt32) (env : Env)
  /-- `etharp_query` without a packet: `dhcp_check`. -/
  | query (ipaddr : UInt32) (env : Env)
  /-- `etharp_tmr`. -/
  | tmr
  /-- `etharp_cleanup_netif`: the interface goes down. -/
  | cleanup
  /-- `netif_set_addr`. -/
  | configure (ipAddr netmask gw : UInt32)

/-- The packet of an output. -/
def State.packet (s : State) (ipaddr : UInt32) : Packet :=
  ⟨s.serial, ipaddr, (nextHop s.netif ipaddr).getD ipaddr, s.ticks⟩

/-- What the code does: the table after the event, and the frames. -/
def emit (s : State) : Event → Cache Packet × List (Frame Packet)
  | .arp hdr =>
    let (table, frames) := etharpArpInput s.netif s.cache.table hdr
    ({ s.cache with table := table }, frames)
  | .output ipaddr env => etharpOutput env s.netif s.cache (s.packet ipaddr) ipaddr
  | .query ipaddr env => etharpQuery env s.netif s.cache ipaddr none
  | .tmr => ({ s.cache with table := etharpTmr s.cache.table }, [])
  | .cleanup => ({ s.cache with table := etharpCleanupNetif s.cache.table }, [])
  | .configure _ _ _ => (s.cache, [])

/-- The number of the packet in a frame. -/
def Frame.serial? : Frame Packet → Option Nat
  | .ip _ _ packet => some packet.serial
  | .arp .. => none

/-- An ARP message announces its sender, when `etharp_update_arp_entry` takes the address. -/
def announce (s : State) : Event → UInt32 → Option (EthAddr × Nat)
  | .arp hdr =>
    if hdr.valid && !nonUnicast hdr.sipaddr s.netif then
      Function.update s.heard hdr.sipaddr (some (hdr.shwaddr, s.ticks))
    else s.heard
  | _ => s.heard

def step (s : State) (event : Event) : Option State :=
  let (cache, frames) := emit s event
  some { cache := cache
         netif := match event with
           | .configure ipAddr netmask gw => { s.netif with ipAddr := ipAddr, netmask := netmask, gw := gw }
           | _ => s.netif
         ticks := match event with
           | .tmr => s.ticks + 1
           | _ => s.ticks
         heard := announce s event
         serial := match event with
           | .output _ _ => s.serial + 1
           | _ => s.serial
         sent := s.sent ++ frames.filterMap Frame.serial? }

/-- At power-up: all zero, so every entry is empty. -/
def initial (netif : Netif) : State :=
  ⟨⟨fun _ => ⟨none, 0, false, ethzero, .empty, 0⟩, ⟨0, by decide⟩⟩, netif, 0, fun _ => none, 0, []⟩

/-! ### The invariant -/

/-- What holds of an entry: a stable one has what its address announced last, and its age is the time since
then; a pending one is young, and the packet that waits on it is for its address and younger still. -/
def Sound (ticks : Nat) (heard : UInt32 → Option (EthAddr × Nat)) (entry : Entry Packet) : Prop :=
  match entry.state with
  | .empty => entry.q = none
  | .pending => entry.ctime < arpMaxpending ∧
      ∀ packet, entry.q = some packet → packet.hop = entry.ipaddr ∧ ticks ≤ packet.born + entry.ctime
  | .stable | .stableRerequesting => entry.q = none ∧ entry.ctime < arpMaxage ∧
      ∃ since, heard entry.ipaddr = some (entry.ethaddr, since) ∧ ticks = since + entry.ctime

/-- **The invariant.** -/
structure Inv (s : State) : Prop where
  sound : ∀ i, Sound s.ticks s.heard (s.cache.table i)
  unique : ∀ i j, (s.cache.table i).state ≠ .empty → (s.cache.table j).state ≠ .empty →
    (s.cache.table i).ipaddr = (s.cache.table j).ipaddr → i = j
  once : s.sent.Nodup
  waiting : ∀ i packet, (s.cache.table i).q = some packet → packet.serial ∉ s.sent ∧ packet.serial < s.serial
  apart : ∀ i j packet other, (s.cache.table i).q = some packet → (s.cache.table j).q = some other →
    packet.serial = other.serial → i = j
  bounded : ∀ n ∈ s.sent, n < s.serial

theorem Sound.idle {ticks : Nat} {heard : UInt32 → Option (EthAddr × Nat)} {entry : Entry Packet}
    (sound : Sound ticks heard entry) (settled : entry.state ≠ .pending) : entry.q = none := by
  unfold Sound at sound
  split at sound
  · exact sound
  next here => exact absurd here settled
  · exact sound.1
  · exact sound.1

/-- Packets wait on pending entries, for their address, and not for long. -/
theorem Sound.waits {ticks : Nat} {heard : UInt32 → Option (EthAddr × Nat)} {entry : Entry Packet}
    {packet : Packet} (sound : Sound ticks heard entry) (waits : entry.q = some packet) :
    entry.state = .pending ∧ packet.hop = entry.ipaddr ∧ ticks ≤ packet.born + 1 := by
  have pending : entry.state = .pending := by
    by_contra settled
    rw [sound.idle settled] at waits
    cases waits
  rw [Sound, pending] at sound
  obtain ⟨young, each⟩ := sound
  obtain ⟨hop, age⟩ := each packet waits
  rw [arpMaxpending] at young
  exact ⟨pending, hop, by omega⟩

/-- A stable entry has the address announced last. -/
theorem Sound.heard {ticks : Nat} {heard : UInt32 → Option (EthAddr × Nat)} {entry : Entry Packet}
    (sound : Sound ticks heard entry) (stable : entry.state.isStable = true) :
    ∃ since, heard entry.ipaddr = some (entry.ethaddr, since) ∧ ticks < since + arpMaxage := by
  unfold Sound at sound
  split at sound <;> rename_i here <;> rw [here] at stable
  · cases stable
  · cases stable
  · obtain ⟨-, young, since, announced, age⟩ := sound
    exact ⟨since, announced, by omega⟩
  · obtain ⟨-, young, since, announced, age⟩ := sound
    exact ⟨since, announced, by omega⟩

/-- An announcement of another address changes nothing. -/
theorem Sound.announce {ticks : Nat} {heard : UInt32 → Option (EthAddr × Nat)} {entry : Entry Packet}
    {ipaddr : UInt32} {news : Option (EthAddr × Nat)} (sound : Sound ticks heard entry)
    (other : entry.state ≠ .empty → entry.ipaddr ≠ ipaddr) :
    Sound ticks (Function.update heard ipaddr news) entry := by
  unfold Sound at sound ⊢
  cases here : entry.state with
  | empty => simpa [here] using sound
  | pending => simpa [here] using sound
  | stable => simpa [here, Function.update_of_ne (other (by simp [here]))] using sound
  | stableRerequesting => simpa [here, Function.update_of_ne (other (by simp [here]))] using sound

/-- A tick makes the entry older by one, or frees it. -/
theorem Sound.tick {ticks : Nat} {heard : UInt32 → Option (EthAddr × Nat)} {entry : Entry Packet}
    (sound : Sound ticks heard entry) : Sound (ticks + 1) heard entry.tick := by
  obtain ⟨q, ipaddr, netif, ethaddr, state, ctime⟩ := entry
  have old : ∀ limit, limit ≤ 240 → ctime < limit → (ctime + 1) % 256 = ctime + 1 :=
    fun limit small young => Nat.mod_eq_of_lt (by omega)
  cases state with
  | empty => exact sound
  | pending =>
    obtain ⟨young, each⟩ := sound
    simp only [Entry.tick, old 2 (by decide) young, reduceCtorEq, if_false]
    split
    · rfl
    · next kept =>
      refine ⟨?_, fun packet held => ?_⟩
      · simp only [true_and, not_or] at kept
        exact Nat.lt_of_not_le kept.2
      · obtain ⟨hop, born⟩ := each packet held
        exact ⟨hop, by simp only at born ⊢; omega⟩
  | stable =>
    obtain ⟨idle, young, since, announced, age⟩ := sound
    simp only [Entry.tick, old 240 (by decide) young, reduceCtorEq, false_and, or_false, if_false]
    split
    · rfl
    · next kept =>
      exact ⟨idle, Nat.lt_of_not_le kept, since, announced, by simp only at age ⊢; omega⟩
  | stableRerequesting =>
    obtain ⟨idle, young, since, announced, age⟩ := sound
    simp only [Entry.tick, old 240 (by decide) young, reduceCtorEq, false_and, or_false, if_false, if_true]
    split
    · rfl
    · next kept =>
      exact ⟨idle, Nat.lt_of_not_le kept, since, announced, by simp only at age ⊢; omega⟩

/-! ### One entry changes -/

section Put

variable {s : State}

/-- The numbers of the packets that wait on an entry: at most one. -/
def Entry.tokens (entry : Entry Packet) : List Nat := (entry.q.map Packet.serial).toList

theorem Entry.mem_tokens {entry : Entry Packet} {n : Nat} :
    n ∈ entry.tokens ↔ ∃ packet, entry.q = some packet ∧ packet.serial = n := by
  simp [Entry.tokens]

/-- **One entry changes, and some packets are sent.** What is sent or waits on the entry afterwards waited
there before, or is new. -/
theorem Inv.put (inv : Inv s) (i : Index) {entry : Entry Packet} {cached : Index} {netif : Netif}
    {heard : UInt32 → Option (EthAddr × Nat)} {serial : Nat} {more : List Nat}
    (sound : Sound s.ticks heard entry)
    (others : ∀ j, j ≠ i → Sound s.ticks heard (s.cache.table j))
    (alone : entry.state ≠ .empty → ∀ j, j ≠ i → (s.cache.table j).state ≠ .empty →
      (s.cache.table j).ipaddr ≠ entry.ipaddr)
    (grows : s.serial ≤ serial) (different : (more ++ entry.tokens).Nodup)
    (known : ∀ n ∈ more ++ entry.tokens,
      n ∈ (s.cache.table i).tokens ∨ (s.serial ≤ n ∧ n < serial)) :
    Inv ⟨⟨Function.update s.cache.table i entry, cached⟩, netif, s.ticks, heard, serial, s.sent ++ more⟩ := by
  obtain ⟨onceMore, -, disjoint⟩ := List.nodup_append.mp different
  -- what waits on another entry is neither sent now nor new
  have elsewhere : ∀ j packet, j ≠ i → (s.cache.table j).q = some packet →
      packet.serial ∉ more ++ entry.tokens := by
    intro j packet apart waits member
    rcases known _ member with old | ⟨new, -⟩
    · obtain ⟨other, waitsHere, same⟩ := Entry.mem_tokens.mp old
      exact apart (inv.apart j i packet other waits waitsHere same.symm)
    · have := (inv.waiting j packet waits).2
      omega
  have below : ∀ n ∈ more ++ entry.tokens, n < serial := by
    intro n member
    rcases known n member with old | ⟨-, new⟩
    · obtain ⟨packet, waits, rfl⟩ := Entry.mem_tokens.mp old
      exact Nat.lt_of_lt_of_le (inv.waiting i packet waits).2 grows
    · exact new
  have unsent : ∀ n ∈ more ++ entry.tokens, n ∉ s.sent := by
    intro n member sent
    rcases known n member with old | ⟨new, -⟩
    · obtain ⟨packet, waits, rfl⟩ := Entry.mem_tokens.mp old
      exact (inv.waiting i packet waits).1 sent
    · have := inv.bounded n sent
      omega
  refine ⟨?_, ?_, ?_, ?_, ?_, ?_⟩
  · intro j
    by_cases same : j = i
    · subst same
      simpa using sound
    · simpa [Function.update_of_ne same] using others j same
  · intro j k busyJ busyK sameAddr
    by_cases sameJ : j = i <;> by_cases sameK : k = i
    · rw [sameJ, sameK]
    · subst sameJ
      simp only [Function.update_self, Function.update_of_ne sameK] at busyJ busyK sameAddr
      exact absurd sameAddr.symm (alone busyJ k sameK busyK)
    · subst sameK
      simp only [Function.update_self, Function.update_of_ne sameJ] at busyJ busyK sameAddr
      exact absurd sameAddr (alone busyK j sameJ busyJ)
    · simp only [Function.update_of_ne sameJ, Function.update_of_ne sameK] at busyJ busyK sameAddr
      exact inv.unique j k busyJ busyK sameAddr
  · refine List.nodup_append.mpr ⟨inv.once, onceMore, ?_⟩
    rintro n sent _ member rfl
    exact unsent n (List.mem_append_left _ member) sent
  · intro j packet waits
    by_cases same : j = i
    · subst same
      simp only [Function.update_self] at waits
      have token : packet.serial ∈ entry.tokens := Entry.mem_tokens.mpr ⟨packet, waits, rfl⟩
      refine ⟨fun sent => ?_, below _ (List.mem_append_right _ token)⟩
      rcases List.mem_append.mp sent with sent | sent
      · exact unsent _ (List.mem_append_right _ token) sent
      · exact disjoint _ sent _ token rfl
    · simp only [Function.update_of_ne same] at waits
      obtain ⟨notSent, small⟩ := inv.waiting j packet waits
      refine ⟨fun sent => ?_, Nat.lt_of_lt_of_le small grows⟩
      rcases List.mem_append.mp sent with sent | sent
      · exact notSent sent
      · exact elsewhere j packet same waits (List.mem_append_left _ sent)
  · intro j k packet other waitsJ waitsK sameSerial
    by_cases sameJ : j = i <;> by_cases sameK : k = i
    · rw [sameJ, sameK]
    · subst sameJ
      simp only [Function.update_self, Function.update_of_ne sameK] at waitsJ waitsK
      refine absurd ?_ (elsewhere k other sameK waitsK)
      exact List.mem_append_right _ (Entry.mem_tokens.mpr ⟨packet, waitsJ, sameSerial⟩)
    · subst sameK
      simp only [Function.update_self, Function.update_of_ne sameJ] at waitsJ waitsK
      refine absurd ?_ (elsewhere j packet sameJ waitsJ)
      exact List.mem_append_right _ (Entry.mem_tokens.mpr ⟨other, waitsK, sameSerial.symm⟩)
    · simp only [Function.update_of_ne sameJ, Function.update_of_ne sameK] at waitsJ waitsK
      exact inv.apart j k packet other waitsJ waitsK sameSerial
  · intro n member
    rcases List.mem_append.mp member with sent | sent
    · exact Nat.lt_of_lt_of_le (inv.bounded n sent) grows
    · exact below n (List.mem_append_left _ sent)

/-- **Every entry changes by itself**, and nothing is sent. -/
theorem Inv.map (inv : Inv s) {change : Entry Packet → Entry Packet} {ticks : Nat}
    (sound : ∀ entry, Sound s.ticks s.heard entry → Sound ticks s.heard (change entry))
    (same : ∀ entry, (change entry).state ≠ .empty →
      entry.state ≠ .empty ∧ (change entry).ipaddr = entry.ipaddr)
    (waits : ∀ entry packet, (change entry).q = some packet → entry.q = some packet) :
    Inv { s with cache := { s.cache with table := fun i => change (s.cache.table i) }, ticks := ticks } := by
  refine ⟨fun i => sound _ (inv.sound i), ?_, inv.once, ?_, ?_, inv.bounded⟩
  · intro i j busyI busyJ sameAddr
    obtain ⟨busyI, addrI⟩ := same _ busyI
    obtain ⟨busyJ, addrJ⟩ := same _ busyJ
    exact inv.unique i j busyI busyJ (addrI.symm.trans (sameAddr.trans addrJ))
  · exact fun i packet held => inv.waiting i packet (waits _ _ held)
  · exact fun i j packet other heldI heldJ => inv.apart i j packet other (waits _ _ heldI) (waits _ _ heldJ)

end Put

/-! ### The calls -/

/-- All ten entries hold a packet that waits. -/
def State.AllWaiting (s : State) : Prop :=
  ∀ j, (s.cache.table j).state = .pending ∧ (s.cache.table j).q ≠ none

section Calls

variable {s : State}

/-- `etharp_find_entry` in a sound table: the entry that is emptied for the address had no packet, unless a
packet waits on every entry. -/
theorem Inv.find (inv : Inv s) (ipaddr : UInt32) (flags : Flags) :
    (∃ i, etharpFindEntry s.cache.table ipaddr flags = (some i, s.cache.table) ∧
      (s.cache.table i).state ≠ .empty ∧ ipaddr = (s.cache.table i).ipaddr) ∨
    ((∀ i, (s.cache.table i).state ≠ .empty → ipaddr ≠ (s.cache.table i).ipaddr) ∧
      ((flags = .findOnly ∧ etharpFindEntry s.cache.table ipaddr flags = (none, s.cache.table)) ∨
      ∃ i entry, etharpFindEntry s.cache.table ipaddr flags =
          (some i, Function.update s.cache.table i entry) ∧
        entry.q = none ∧ entry.state = .empty ∧ entry.ipaddr = ipaddr ∧ entry.ctime = 0 ∧
        ((s.cache.table i).q = none ∨ s.AllWaiting))) := by
  rcases etharpFindEntry_spec s.cache.table ipaddr flags with
    found | ⟨absent, nothing | ⟨-, i, empty, made⟩ | ⟨-, -, i, recyclable, made⟩⟩
  · exact .inl found
  · exact .inr ⟨absent, .inl nothing⟩
  · have idle := (inv.sound i).idle (by rw [empty]; simp)
    exact .inr ⟨absent, .inr ⟨i, _, made, idle, empty, rfl, rfl, .inl idle⟩⟩
  · refine .inr ⟨absent, .inr ⟨i, _, made, rfl, rfl, rfl, rfl, ?_⟩⟩
    rcases recyclable with ⟨stable, -⟩ | ⟨-, idle, -⟩ | ⟨-, waiting, -⟩
    · refine .inl ((inv.sound i).idle fun pending => ?_)
      rw [pending] at stable
      cases stable
    · exact .inl idle
    · exact .inr waiting

/-- **`etharp_update_arp_entry`**: nothing happens, or one entry is the address's from now on, and the packet
that waited for the address is sent to it. -/
theorem Inv.update (inv : Inv s) (ipaddr : UInt32) (ethaddr : EthAddr) (flags : Flags)
    (unicast : nonUnicast ipaddr s.netif = false) :
    ((∀ i, (s.cache.table i).state ≠ .empty → ipaddr ≠ (s.cache.table i).ipaddr) ∧
      etharpUpdateArpEntry s.netif s.cache.table ipaddr ethaddr flags = (s.cache.table, [])) ∨
    ∃ i frames, etharpUpdateArpEntry s.netif s.cache.table ipaddr ethaddr flags =
        (Function.update s.cache.table i ⟨none, ipaddr, true, ethaddr, .stable, 0⟩, frames) ∧
      (∀ j, j ≠ i → (s.cache.table j).state ≠ .empty → (s.cache.table j).ipaddr ≠ ipaddr) ∧
      ((frames = [] ∧ ((s.cache.table i).q = none ∨
          ((∀ j, (s.cache.table j).state ≠ .empty → (s.cache.table j).ipaddr ≠ ipaddr) ∧ s.AllWaiting))) ∨
        ∃ packet, (s.cache.table i).q = some packet ∧ packet.hop = ipaddr ∧
          frames = [.ip ethaddr s.netif.hwaddr packet]) := by
  rw [etharpUpdateArpEntry, if_neg (by simp [unicast])]
  rcases inv.find ipaddr flags with ⟨i, found, busy, rfl⟩ | ⟨absent, ⟨-, nothing⟩ | ⟨i, entry, made, idle, -, rfl, -, spared⟩⟩
  · rw [found]
    refine .inr ⟨i, _, rfl, ?_, ?_⟩
    · intro j apart busyJ sameAddr
      exact apart (inv.unique j i busyJ busy sameAddr)
    · cases waits : (s.cache.table i).q with
      | none => exact .inl ⟨by simp, .inl rfl⟩
      | some packet =>
        exact .inr ⟨packet, rfl, ((inv.sound i).waits waits).2.1, by simp⟩
  · rw [nothing]
    exact .inl ⟨absent, rfl⟩
  · rw [made]
    have alone : ∀ j, (s.cache.table j).state ≠ .empty → (s.cache.table j).ipaddr ≠ entry.ipaddr :=
      fun j busyJ sameAddr => absent j busyJ sameAddr.symm
    refine .inr ⟨i, [], ?_, fun j _ => alone j, .inl ⟨rfl, spared.imp_right fun all => ⟨alone, all⟩⟩⟩
    simp [idle]

/-- The frame goes where it should: to everybody, to the group, or to the hardware address its next hop
announced last, not long ago. -/
def Right (s : State) (heard : UInt32 → Option (EthAddr × Nat)) (dest src : EthAddr) (packet : Packet) :
    Prop :=
  src = s.netif.hwaddr ∧
    ((ip4AddrIsbroadcast packet.dst s.netif = true ∧ dest = ethbroadcast) ∨
      (ip4AddrIsbroadcast packet.dst s.netif = false ∧ ipAddrIsmulticast packet.dst = true ∧
        dest = mcastaddr packet.dst) ∨
      ∃ since, heard packet.hop = some (dest, since) ∧ s.ticks < since + arpMaxage)

/-- The packet still waits, or has been sent, or had to make room: for a later packet to the same hop, or
because all entries were taken. -/
def Spared (s next : State) (packet : Packet) : Prop :=
  (∃ j, (next.cache.table j).q = some packet) ∨ packet.serial ∈ next.sent ∨
    (∃ j later, (next.cache.table j).q = some later ∧ later.hop = packet.hop ∧ s.serial ≤ later.serial) ∨
    s.AllWaiting

/-- **What every call does**: the invariant stays, frames go where they should, waiting packets are spared. -/
structure Fine (s next : State) (frames : List (Frame Packet)) : Prop where
  inv : Inv next
  right : ∀ dest src packet, .ip dest src packet ∈ frames → Right s next.heard dest src packet
  spared : ∀ i packet, (s.cache.table i).q = some packet → Spared s next packet

/-- A packet on an entry that is not touched still waits. -/
theorem spared_other {s next : State} {i j : Index} {entry : Entry Packet} {packet : Packet}
    (waits : (s.cache.table j).q = some packet) (apart : j ≠ i)
    (table : next.cache.table = Function.update s.cache.table i entry) : Spared s next packet :=
  .inl ⟨j, by rw [table, Function.update_of_ne apart]; exact waits⟩

/-- Only ARP messages. -/
def Quiet (frames : List (Frame Packet)) : Prop := ∀ frame ∈ frames, frame.serial? = none

theorem Quiet.serials {frames : List (Frame Packet)} (quiet : Quiet frames) :
    frames.filterMap Frame.serial? = [] :=
  List.filterMap_eq_nil_iff.mpr quiet

theorem Quiet.noPacket {frames : List (Frame Packet)} (quiet : Quiet frames) {dest src : EthAddr}
    {packet : Packet} (member : .ip dest src packet ∈ frames) : False := by
  cases quiet _ member

theorem quiet_nil : Quiet [] := by simp [Quiet]

theorem quiet_request (env : Env) (netif : Netif) (hop : UInt32) : Quiet (etharpRequest env netif hop).1 := by
  unfold Quiet etharpRequest
  split <;> simp [Frame.serial?]

/-- The table stays, and nothing is sent but ARP messages. -/
theorem Inv.stay (inv : Inv s) {cached : Index} {serial : Nat} {asked : List (Frame Packet)}
    {heard : UInt32 → Option (EthAddr × Nat)} (sound : ∀ i, Sound s.ticks heard (s.cache.table i))
    (grows : s.serial ≤ serial) (quiet : Quiet asked) :
    Fine s ⟨⟨s.cache.table, cached⟩, s.netif, s.ticks, heard, serial,
      s.sent ++ asked.filterMap Frame.serial?⟩ asked := by
  refine ⟨?_, fun dest src packet member => (quiet.noPacket member).elim, fun i packet waits => .inl ⟨i, waits⟩⟩
  rw [quiet.serials, List.append_nil]
  refine ⟨sound, inv.unique, inv.once, ?_, inv.apart, ?_⟩
  · exact fun i packet waits => (inv.waiting i packet waits).imp_right fun below => below.trans_le grows
  · exact fun n member => (inv.bounded n member).trans_le grows

/-- A new packet is sent to the address of a stable entry. -/
theorem Inv.send (inv : Inv s) {i : Index} {cached : Index} {packet : Packet} {state : EntryState}
    {asked : List (Frame Packet)} (stable : (s.cache.table i).state.isStable = true)
    (stays : state.isStable = true) (hop : packet.hop = (s.cache.table i).ipaddr)
    (new : packet.serial = s.serial) (quiet : Quiet asked) :
    Fine s ⟨⟨Function.update s.cache.table i { s.cache.table i with state := state }, cached⟩, s.netif,
        s.ticks, s.heard, s.serial + 1,
        s.sent ++ (asked ++ [Frame.ip (s.cache.table i).ethaddr s.netif.hwaddr packet]).filterMap Frame.serial?⟩
      (asked ++ [.ip (s.cache.table i).ethaddr s.netif.hwaddr packet]) := by
  have sound := inv.sound i
  have idle : (s.cache.table i).q = none := sound.idle fun pending => by simp [pending, EntryState.isStable] at stable
  have busy : (s.cache.table i).state ≠ .empty := fun empty => by simp [empty, EntryState.isStable] at stable
  have serials : (asked ++ [Frame.ip (s.cache.table i).ethaddr s.netif.hwaddr packet]).filterMap Frame.serial? =
      [s.serial] := by
    rw [List.filterMap_append, quiet.serials, ← new]
    rfl
  refine ⟨?_, ?_, ?_⟩
  · rw [serials]
    refine inv.put i ?_ (fun j _ => inv.sound j) ?_ (Nat.le_succ _) ?_ ?_
    · unfold Sound at sound ⊢
      cases state <;> cases here : (s.cache.table i).state <;> simp_all [EntryState.isStable]
    · intro _ j apart busyJ same
      exact apart (inv.unique j i busyJ busy same)
    · simp [Entry.tokens, idle]
    · simp [Entry.tokens, idle]
  · intro dest src other member
    rcases List.mem_append.mp member with member | member
    · exact (quiet.noPacket member).elim
    · obtain ⟨rfl, rfl, rfl⟩ := Frame.ip.inj (List.mem_singleton.mp member)
      obtain ⟨since, announced, recent⟩ := sound.heard stable
      exact ⟨rfl, .inr (.inr ⟨since, by rw [hop]; exact announced, recent⟩)⟩
  · intro j other waits
    refine spared_other waits ?_ rfl
    rintro rfl
    rw [idle] at waits
    cases waits

/-- An entry is the address's from now on, and pending; a new packet may wait on it. -/
theorem Inv.wait (inv : Inv s) {i : Index} {cached : Index} {entry : Entry Packet} {serial : Nat}
    {asked : List (Frame Packet)} (pending : entry.state = .pending) (young : entry.ctime < arpMaxpending)
    (alone : ∀ j, j ≠ i → (s.cache.table j).state ≠ .empty → (s.cache.table j).ipaddr ≠ entry.ipaddr)
    (grows : s.serial ≤ serial) (quiet : Quiet asked)
    (q : (∃ packet, entry.q = some packet ∧ packet.serial = s.serial ∧ s.serial < serial ∧
        packet.hop = entry.ipaddr ∧ s.ticks ≤ packet.born) ∨
      entry.q = none ∨ entry = s.cache.table i)
    (room : entry = s.cache.table i ∨ (s.cache.table i).q = none ∨ s.AllWaiting ∨
      ((s.cache.table i).ipaddr = entry.ipaddr ∧ entry.q ≠ none)) :
    Fine s ⟨⟨Function.update s.cache.table i entry, cached⟩, s.netif, s.ticks, s.heard, serial,
        s.sent ++ asked.filterMap Frame.serial?⟩ asked := by
  refine ⟨?_, fun dest src packet member => (quiet.noPacket member).elim, ?_⟩
  · rw [quiet.serials]
    refine inv.put i ?_ (fun j _ => inv.sound j) (fun _ => alone) grows ?_ ?_
    · rcases q with ⟨packet, held, -, -, hop, born⟩ | none' | rfl
      · rw [Sound, pending]
        refine ⟨young, fun other same => ?_⟩
        obtain rfl : packet = other := Option.some.inj (held.symm.trans same)
        exact ⟨hop, by omega⟩
      · rw [Sound, pending]
        exact ⟨young, by simp [none']⟩
      · exact inv.sound i
    · rw [List.nil_append, Entry.tokens]
      cases entry.q <;> simp
    · intro n member
      rw [List.nil_append] at member
      rcases q with ⟨packet, held, new, below, -⟩ | none' | rfl
      · obtain ⟨other, same, rfl⟩ := Entry.mem_tokens.mp member
        obtain rfl : packet = other := Option.some.inj (held.symm.trans same)
        exact .inr ⟨new.ge, by omega⟩
      · rw [Entry.tokens, none'] at member
        cases member
      · exact .inl member
  · intro j packet waits
    by_cases same : j = i
    · subst same
      rcases room with rfl | none' | all | ⟨sameAddr, held⟩
      · exact .inl ⟨j, by simpa using waits⟩
      · rw [none'] at waits
        cases waits
      · exact .inr (.inr (.inr all))
      · rcases q with ⟨later, here, new, -, hop, -⟩ | none' | rfl
        · refine .inr (.inr (.inl ⟨j, later, by simpa using here, ?_, new.ge⟩))
          rw [hop, ← sameAddr]
          exact ((inv.sound j).waits waits).2.1.symm
        · exact absurd none' held
        · exact .inl ⟨j, by simpa using waits⟩
    · exact spared_other waits same rfl

/-- **`etharp_query`.** -/
theorem Inv.query (inv : Inv s) (env : Env) (ipaddr : UInt32) (q : Option Packet)
    (unicast : nonUnicast ipaddr s.netif = false)
    (new : ∀ packet, q = some packet →
      packet.serial = s.serial ∧ packet.hop = ipaddr ∧ packet.born = s.ticks) :
    Fine s ⟨(etharpQuery env s.netif s.cache ipaddr q).1, s.netif, s.ticks, s.heard,
        s.serial + q.toList.length,
        s.sent ++ (etharpQuery env s.netif s.cache ipaddr q).2.filterMap Frame.serial?⟩
      (etharpQuery env s.netif s.cache ipaddr q).2 := by
  have quiet := quiet_request env s.netif ipaddr
  rw [etharpQuery, if_neg (by simp [unicast])]
  rcases inv.find ipaddr .tryHard with
    ⟨i, found, busy, rfl⟩ | ⟨absent, ⟨wrong, -⟩ | ⟨i, entry, made, idle, empty, rfl, young, spared⟩⟩
  · have alone : ∀ j, j ≠ i → (s.cache.table j).state ≠ .empty →
        (s.cache.table j).ipaddr ≠ (s.cache.table i).ipaddr :=
      fun j apart busyJ same => apart (inv.unique j i busyJ busy same)
    simp only [found, if_neg busy]
    cases stable : (s.cache.table i).state.isStable with
    | true =>
      have notPending : (s.cache.table i).state ≠ .pending := fun pending => by
        simp [pending, EntryState.isStable] at stable
      cases q with
      | none => simpa using inv.stay inv.sound (Nat.le_refl _) quiet
      | some packet =>
        obtain ⟨serial, hop, -⟩ := new packet rfl
        simpa [notPending] using inv.send stable stable hop serial quiet_nil
    | false =>
      have pending : (s.cache.table i).state = .pending := by
        cases here : (s.cache.table i).state <;> simp_all [EntryState.isStable]
      have sound := inv.sound i
      rw [Sound, pending] at sound
      simp only [pending, true_or, if_true]
      cases q with
      | none => exact inv.wait pending sound.1 alone (Nat.le_refl _) quiet (.inr (.inr rfl)) (.inl rfl)
      | some packet =>
        obtain ⟨serial, hop, born⟩ := new packet rfl
        cases env.copy with
        | true =>
          refine inv.wait rfl sound.1 alone (Nat.le_succ _) quiet (.inl ⟨packet, rfl, serial, ?_, hop, ?_⟩) ?_
          · exact Nat.lt_succ_self _
          · exact born.ge
          · exact .inr (.inr (.inr ⟨rfl, by simp⟩))
        | false => exact inv.wait pending sound.1 alone (Nat.le_succ _) quiet (.inr (.inr rfl)) (.inl rfl)
  · cases wrong
  · have alone : ∀ j, j ≠ i → (s.cache.table j).state ≠ .empty →
        (s.cache.table j).ipaddr ≠ entry.ipaddr :=
      fun j _ busyJ same => absent j busyJ same.symm
    have fresh : entry.ctime < arpMaxpending := by
      rw [young]
      decide
    simp only [made, Function.update_self, if_pos empty, Function.update_idem, true_or, if_true]
    cases q with
    | none =>
      refine inv.wait rfl fresh alone (Nat.le_refl _) quiet (.inr (.inl idle)) ?_
      exact .inr (spared.imp_right .inl)
    | some packet =>
      obtain ⟨serial, hop, born⟩ := new packet rfl
      cases env.copy with
      | true =>
        refine inv.wait rfl fresh alone (Nat.le_succ _) quiet (.inl ⟨packet, rfl, serial, ?_, hop, ?_⟩) ?_
        · exact Nat.lt_succ_self _
        · exact born.ge
        · exact .inr (spared.imp_right .inl)
      | false =>
        refine inv.wait rfl fresh alone (Nat.le_succ _) quiet (.inr (.inl idle)) ?_
        exact .inr (spared.imp_right .inl)

/-- A new packet is sent, and the table is not needed. -/
theorem Inv.direct (inv : Inv s) {dest : EthAddr} {packet : Packet} (new : packet.serial = s.serial)
    (right : Right s s.heard dest s.netif.hwaddr packet) :
    Fine s ⟨s.cache, s.netif, s.ticks, s.heard, s.serial + 1,
        s.sent ++ [Frame.ip dest s.netif.hwaddr packet].filterMap Frame.serial?⟩
      [.ip dest s.netif.hwaddr packet] := by
  have serials : [Frame.ip dest s.netif.hwaddr packet].filterMap Frame.serial? = [s.serial] := by
    rw [← new]
    rfl
  refine ⟨?_, ?_, fun i packet waits => .inl ⟨i, waits⟩⟩
  · rw [serials]
    refine ⟨inv.sound, inv.unique, ?_, ?_, inv.apart, ?_⟩
    · refine List.nodup_append.mpr ⟨inv.once, List.nodup_singleton _, ?_⟩
      rintro n sent _ (_ | ⟨_, ⟨⟩⟩) rfl
      exact absurd (inv.bounded _ sent) (Nat.lt_irrefl _)
    · intro i other waits
      obtain ⟨notSent, below⟩ := inv.waiting i other waits
      refine ⟨fun sent => ?_, below.trans (Nat.lt_succ_self _)⟩
      rcases List.mem_append.mp sent with sent | sent
      · exact notSent sent
      · rw [List.mem_singleton.mp sent] at below
        exact absurd below (Nat.lt_irrefl _)
    · intro n sent
      rcases List.mem_append.mp sent with sent | sent
      · exact (inv.bounded n sent).trans (Nat.lt_succ_self _)
      · rw [List.mem_singleton.mp sent]
        exact Nat.lt_succ_self _
  · intro dest' src other member
    obtain ⟨rfl, rfl, rfl⟩ := Frame.ip.inj (List.mem_singleton.mp member)
    exact right

/-- `etharp_output_to_arp_index`. -/
theorem Inv.toIndex (inv : Inv s) (env : Env) {i : Index} {cached : Index} {packet : Packet}
    (answers : (s.cache.table i).answers packet.hop = true) (new : packet.serial = s.serial) :
    Fine s ⟨⟨(etharpOutputToArpIndex env s.netif s.cache.table packet i).1, cached⟩, s.netif, s.ticks, s.heard,
        s.serial + 1,
        s.sent ++ (etharpOutputToArpIndex env s.netif s.cache.table packet i).2.filterMap Frame.serial?⟩
      (etharpOutputToArpIndex env s.netif s.cache.table packet i).2 := by
  have quiet := quiet_request env s.netif (s.cache.table i).ipaddr
  obtain ⟨stable, hop⟩ : (s.cache.table i).state.isStable = true ∧ packet.hop = (s.cache.table i).ipaddr := by
    simpa [Entry.answers] using answers
  rw [etharpOutputToArpIndex]
  dsimp only
  split
  · split
    · exact inv.send stable rfl hop new quiet
    · simpa using inv.send stable stable hop new quiet
  · simpa using inv.send stable stable hop new quiet_nil

/-- **`etharp_output`.** -/
theorem Inv.output (inv : Inv s) (env : Env) (ipaddr : UInt32) :
    Fine s ⟨(etharpOutput env s.netif s.cache (s.packet ipaddr) ipaddr).1, s.netif, s.ticks, s.heard,
        s.serial + 1,
        s.sent ++ (etharpOutput env s.netif s.cache (s.packet ipaddr) ipaddr).2.filterMap Frame.serial?⟩
      (etharpOutput env s.netif s.cache (s.packet ipaddr) ipaddr).2 := by
  have nothing := @Inv.stay s inv s.cache.cached _ _ s.heard inv.sound (Nat.le_succ s.serial) quiet_nil
  rw [etharpOutput]
  cases env.room with
  | false => exact nothing
  | true =>
    rw [if_neg (by simp)]
    cases broadcast : ip4AddrIsbroadcast ipaddr s.netif with
    | true => exact inv.direct rfl ⟨rfl, .inl ⟨broadcast, rfl⟩⟩
    | false =>
      rw [if_neg (by simp)]
      cases multicast : ipAddrIsmulticast ipaddr with
      | true => exact inv.direct rfl ⟨rfl, .inr (.inl ⟨broadcast, multicast, rfl⟩)⟩
      | false =>
        rw [if_neg (by simp)]
        cases route : nextHop s.netif ipaddr with
        | none => exact nothing
        | some dstAddr =>
          have hop : (s.packet ipaddr).hop = dstAddr := by rw [State.packet, route]; rfl
          dsimp only
          split
          next cached => exact inv.toIndex env (hop ▸ cached) rfl
          next =>
            split
            next i found =>
              have answers : (s.cache.table i).answers dstAddr = true := by simpa using List.find?_some found
              exact inv.toIndex env (hop ▸ answers) rfl
            next =>
              cases refused : nonUnicast dstAddr s.netif with
              | true =>
                rw [etharpQuery, if_pos refused]
                exact nothing
              | false =>
                refine inv.query env dstAddr (some (s.packet ipaddr)) refused ?_
                rintro packet ⟨⟩
                exact ⟨rfl, hop, rfl⟩

/-- **`etharp_arp_input`.** -/
theorem Inv.arpInput (inv : Inv s) (hdr : ArpPacket) :
    Fine s ⟨{ s.cache with table := (etharpArpInput s.netif s.cache.table hdr).1 }, s.netif, s.ticks,
        announce s (.arp hdr), s.serial,
        s.sent ++ (etharpArpInput s.netif s.cache.table hdr).2.filterMap Frame.serial?⟩
      (etharpArpInput s.netif s.cache.table hdr).2 := by
  rw [etharpArpInput, announce]
  cases valid : hdr.valid with
  | false => exact inv.stay inv.sound (Nat.le_refl _) quiet_nil
  | true =>
    -- an answer to a request goes out last, and is no packet
    obtain ⟨reply, quiet, answered⟩ : ∃ reply, Quiet reply ∧ ∀ result : Table Packet × List (Frame Packet),
        (if hdr.opcode = 1 ∧ forUs s.netif hdr then (result.1, result.2 ++ [.arp hdr.shwaddr s.netif.hwaddr 2
          s.netif.hwaddr s.netif.ipAddr hdr.shwaddr hdr.sipaddr]) else result) =
          (result.1, result.2 ++ reply) := by
      by_cases asked : hdr.opcode = 1 ∧ forUs s.netif hdr
      · exact ⟨_, by simp [Quiet, Frame.serial?], fun result => if_pos asked⟩
      · exact ⟨[], quiet_nil, fun result => by rw [if_neg asked, List.append_nil]⟩
    dsimp only
    rw [if_pos rfl, answered]
    cases refused : nonUnicast hdr.sipaddr s.netif with
    | true =>
      rw [etharpUpdateArpEntry, if_pos refused]
      exact inv.stay inv.sound (Nat.le_refl _) quiet
    | false =>
      simp only [Bool.not_false, Bool.and_self, if_true]
      rcases inv.update hdr.sipaddr hdr.shwaddr (if forUs s.netif hdr then .tryHard else .findOnly) refused with
        ⟨absent, same⟩ | ⟨i, frames, changed, alone, sent⟩
      · rw [same]
        refine inv.stay (fun j => (inv.sound j).announce fun busy => ?_) (Nat.le_refl _) quiet
        exact (absent j busy).symm
      · rw [changed]
        obtain ⟨more, serials, known, right, spared⟩ : ∃ more, frames.filterMap Frame.serial? = more ∧
            (more.Nodup ∧ ∀ n ∈ more, n ∈ (s.cache.table i).tokens) ∧
            (∀ dest src packet, .ip dest src packet ∈ frames → dest = hdr.shwaddr ∧ src = s.netif.hwaddr ∧
              packet.hop = hdr.sipaddr) ∧
            ∀ packet, (s.cache.table i).q = some packet → packet.serial ∈ more ∨ s.AllWaiting := by
          rcases sent with ⟨rfl, spared⟩ | ⟨packet, held, hop, rfl⟩
          · refine ⟨[], rfl, by simp, by simp, fun packet held => .inr ?_⟩
            rcases spared with none' | ⟨-, all⟩
            · rw [none'] at held
              cases held
            · exact all
          · refine ⟨[packet.serial], rfl, ⟨by simp, ?_⟩, ?_, ?_⟩
            · simpa using Entry.mem_tokens.mpr ⟨packet, held, rfl⟩
            · intro dest src other member
              obtain ⟨rfl, rfl, rfl⟩ := Frame.ip.inj (List.mem_singleton.mp member)
              exact ⟨rfl, rfl, hop⟩
            · intro other waits
              rw [held] at waits
              cases waits
              exact .inl (by simp)
        refine ⟨?_, ?_, ?_⟩
        · simp only [List.filterMap_append, serials, quiet.serials, List.append_nil]
          refine inv.put i ?_ ?_ (fun _ => alone) (Nat.le_refl _) ?_ ?_
          · exact ⟨rfl, Nat.zero_lt_succ _, s.ticks, by simp, rfl⟩
          · exact fun j apart => (inv.sound j).announce (alone j apart)
          · simpa [Entry.tokens] using known.1
          · simpa [Entry.tokens] using fun n member => Or.inl (known.2 n member)
        · intro dest src packet member
          rcases List.mem_append.mp member with member | member
          · obtain ⟨rfl, rfl, hop⟩ := right dest src packet member
            refine ⟨rfl, .inr (.inr ⟨s.ticks, by simp [hop], ?_⟩)⟩
            rw [arpMaxage]
            omega
          · exact (quiet.noPacket member).elim
        · intro j packet waits
          by_cases here : j = i
          · subst here
            rcases spared packet waits with sent | all
            · refine .inr (.inl ?_)
              simp only [List.filterMap_append, serials]
              simp [sent]
            · exact .inr (.inr (.inr all))
          · exact spared_other waits here rfl

/-- **`etharp_tmr`**: every entry grows older, and leaves when it is too old. -/
theorem Inv.tmr (inv : Inv s) :
    Inv { s with cache := { s.cache with table := etharpTmr s.cache.table }, ticks := s.ticks + 1 } := by
  refine inv.map ?_ ?_ ?_
  · exact fun entry sound => sound.tick
  · intro entry
    rw [Entry.tick]
    split
    · exact fun busy => ⟨busy, rfl⟩
    · next busy =>
      dsimp only
      split
      · exact fun gone => absurd rfl gone
      · split <;> exact fun _ => ⟨busy, rfl⟩
  · intro entry packet
    rw [Entry.tick]
    split
    · exact id
    · dsimp only
      split
      · rintro ⟨⟩
      · split <;> exact id

/-- **`etharp_cleanup_netif`.** -/
theorem Inv.cleanup (inv : Inv s) :
    Inv { s with cache := { s.cache with table := etharpCleanupNetif s.cache.table } } := by
  refine @Inv.map s inv (fun entry => if entry.state ≠ .empty ∧ entry.netif then entry.free else entry)
    s.ticks ?_ ?_ ?_
  · intro entry sound
    split
    · rfl
    · exact sound
  · intro entry
    split
    · exact fun busy => absurd rfl busy
    · exact fun busy => ⟨busy, rfl⟩
  · intro entry packet
    split
    · rintro ⟨⟩
    · exact id

end Calls

/-! ### Runs -/

/-- **One step.** -/
theorem step_fine {s next : State} {event : Event} (inv : Inv s) (taken : step s event = some next) :
    Inv next ∧
      (∀ dest src packet, .ip dest src packet ∈ (emit s event).2 → Right s (announce s event) dest src packet) ∧
      (event ≠ .tmr → event ≠ .cleanup → ∀ i packet, (s.cache.table i).q = some packet →
        Spared s next packet) := by
  have quiet : ∀ {rest : Prop}, Inv next → (emit s event).2 = [] → rest → Inv next ∧
      (∀ dest src packet, .ip dest src packet ∈ (emit s event).2 →
        Right s (announce s event) dest src packet) ∧ rest := by
    intro rest inv silent holds
    refine ⟨inv, fun dest src packet member => ?_, holds⟩
    rw [silent] at member
    cases member
  cases event with
  | arp hdr =>
    cases taken
    have fine := inv.arpInput hdr
    exact ⟨fine.inv, fine.right, fun _ _ => fine.spared⟩
  | output ipaddr env =>
    cases taken
    have fine := inv.output env ipaddr
    exact ⟨fine.inv, fine.right, fun _ _ => fine.spared⟩
  | query ipaddr env =>
    cases taken
    have fine : Fine s ⟨(etharpQuery env s.netif s.cache ipaddr none).1, s.netif, s.ticks, s.heard, s.serial,
        s.sent ++ (etharpQuery env s.netif s.cache ipaddr none).2.filterMap Frame.serial?⟩
        (etharpQuery env s.netif s.cache ipaddr none).2 := by
      cases refused : nonUnicast ipaddr s.netif with
      | true =>
        rw [etharpQuery, if_pos refused]
        exact inv.stay inv.sound (Nat.le_refl _) quiet_nil
      | false => exact inv.query env ipaddr none refused (by simp)
    exact ⟨fine.inv, fine.right, fun _ _ => fine.spared⟩
  | tmr =>
    cases taken
    refine quiet ?_ rfl (fun wrong => absurd rfl wrong)
    simpa [emit, announce] using inv.tmr
  | cleanup =>
    cases taken
    refine quiet ?_ rfl (fun _ wrong => absurd rfl wrong)
    simpa [emit, announce] using inv.cleanup
  | configure ipAddr netmask gw =>
    cases taken
    refine quiet ?_ rfl (fun _ _ i packet waits => .inl ⟨i, waits⟩)
    refine ⟨inv.sound, inv.unique, ?_, ?_, inv.apart, ?_⟩
    · simpa [emit] using inv.once
    · simpa [emit] using inv.waiting
    · simpa [emit] using inv.bounded

theorem inv_initial (netif : Netif) : Inv (initial netif) := by
  refine ⟨fun i => rfl, fun i j busy => absurd rfl busy, List.nodup_nil, ?_, ?_, ?_⟩
  · rintro i packet ⟨⟩
  · rintro i j packet other ⟨⟩
  · rintro n ⟨⟩

theorem inv_always (netif : Netif) (events : List Event) : Always step Inv (initial netif) events :=
  always_of_invariant (fun _ _ _ inv taken => (step_fine inv taken).1) events _ (inv_initial netif)

/-- **Every packet goes to the right station**: to the broadcast address, to the address of its group, or to
the hardware address that its next hop announced last, less than `ARP_MAXAGE` ticks ago. -/
theorem addressed (netif : Netif) (events : List Event) :
    Along step (fun s event => ∀ dest src packet, .ip dest src packet ∈ (emit s event).2 →
      Right s (announce s event) dest src packet) (initial netif) events := by
  refine (inv_always netif events).along fun s event inv _ => ?_
  exact (step_fine inv rfl).2.1

/-- **No packet is sent twice, and none waits for long**: not beyond the next tick but one. An IP address has
at most one entry. -/
theorem sent_once (netif : Netif) (events : List Event) :
    Always step (fun s => s.sent.Nodup ∧
      (∀ i packet, (s.cache.table i).q = some packet → packet.serial ∉ s.sent ∧ s.ticks ≤ packet.born + 1) ∧
      ∀ i j, (s.cache.table i).state ≠ .empty → (s.cache.table j).state ≠ .empty →
        (s.cache.table i).ipaddr = (s.cache.table j).ipaddr → i = j) (initial netif) events := by
  refine (inv_always netif events).mono fun s inv => ⟨inv.once, fun i packet waits => ?_, inv.unique⟩
  exact ⟨(inv.waiting i packet waits).1, ((inv.sound i).waits waits).2.2⟩

/-- **An answer sends the packet**: when the next hop announces itself, the packet that waits for it goes out
in the same call, to the address announced. -/
theorem answered (netif : Netif) (events : List Event) :
    Along step (fun s event => ∀ hdr, event = .arp hdr → hdr.valid = true →
      nonUnicast hdr.sipaddr s.netif = false → ∀ i packet, (s.cache.table i).q = some packet →
      packet.hop = hdr.sipaddr → .ip hdr.shwaddr s.netif.hwaddr packet ∈ (emit s event).2)
      (initial netif) events := by
  refine (inv_always netif events).along fun s event inv _ hdr arrived valid unicast i packet waits hop => ?_
  subst arrived
  obtain ⟨pending, here, -⟩ := (inv.sound i).waits waits
  have busy : (s.cache.table i).state ≠ .empty := by simp [pending]
  have sent : .ip hdr.shwaddr s.netif.hwaddr packet ∈ (etharpUpdateArpEntry s.netif s.cache.table hdr.sipaddr
      hdr.shwaddr (if forUs s.netif hdr then .tryHard else .findOnly)).2 := by
    rcases inv.update hdr.sipaddr hdr.shwaddr (if forUs s.netif hdr then .tryHard else .findOnly) unicast with
      ⟨absent, -⟩ | ⟨j, frames, changed, alone, sent⟩
    · exact absurd (hop.symm.trans here) (absent i busy)
    · obtain rfl : i = j := by
        by_contra apart
        exact alone i apart busy (here.symm.trans hop)
      rw [changed]
      rcases sent with ⟨-, none' | ⟨absent, -⟩⟩ | ⟨other, held, -, rfl⟩
      · rw [none'] at waits
        cases waits
      · exact absurd (here.symm.trans hop) (absent i busy)
      · rw [held] at waits
        cases waits
        exact List.mem_singleton_self _
  simp only [emit, etharpArpInput, valid, if_true]
  split
  · exact List.mem_append_left _ sent
  · exact sent

/-- The board behind a gateway. -/
def boardNetif : Netif where
  ipAddr := ByteOrder.ip4Addr 192 168 0 100
  netmask := ByteOrder.ip4Addr 255 255 255 0
  gw := ByteOrder.ip4Addr 192 168 0 1
  hwaddr := #v[0x01, 0x23, 0x45, 0x67, 0x89, 0xab]

/-- The gateway's answer to the board. -/
def gatewayReply : ArpPacket where
  len := 60
  hwtype := 1
  proto := 0x0800
  hwlen := 6
  protolen := 4
  opcode := 2
  shwaddr := #v[2, 0, 0, 0, 0, 1]
  sipaddr := ByteOrder.ip4Addr 192 168 0 1
  dipaddr := ByteOrder.ip4Addr 192 168 0 100

/-- A packet for another network, and one for a station next to the board. -/
def twoOutputs : List Event :=
  [.output (ByteOrder.ip4Addr 10 0 0 7) ⟨true, true, true, true⟩,
    .output (ByteOrder.ip4Addr 192 168 0 7) ⟨true, true, true, true⟩]

/-- The first one of them: its next hop is the gateway. -/
def waitingPacket : Packet := ⟨0, ByteOrder.ip4Addr 10 0 0 7, ByteOrder.ip4Addr 192 168 0 1, 0⟩

/-- Both packets wait, neither has been sent, and the gateway's answer sends the first one. -/
theorem answered_gateway :
    ∃ s, ∃ i j : Index, run step (initial boardNetif) twoOutputs = some s ∧ i ≠ j ∧
      (s.cache.table i).q = some waitingPacket ∧ (s.cache.table j).q.isSome ∧ s.sent = [] ∧
      .ip gatewayReply.shwaddr boardNetif.hwaddr waitingPacket ∈ (emit s (.arp gatewayReply)).2 := by
  let first : Index := ⟨0, by decide⟩
  have waits : ((run step (initial boardNetif) twoOutputs).bind fun s => (s.cache.table first).q) =
      some waitingPacket := by decide +kernel
  refine ⟨_, first, ⟨1, by decide⟩, rfl, by decide, waits, by decide +kernel, by decide +kernel, ?_⟩
  exact (along_iff _ _).mp (answered boardNetif (twoOutputs ++ [.arp gatewayReply])) twoOutputs
    (.arp gatewayReply) [] _ rfl rfl rfl gatewayReply rfl (by decide) (by decide) first waitingPacket
    waits rfl

/-- **A waiting packet is not given up for another address** while an entry without one can be had. -/
theorem spared (netif : Netif) (events : List Event) :
    Along step (fun s event => event ≠ .tmr → event ≠ .cleanup → ∀ i packet,
      (s.cache.table i).q = some packet → ∀ next, step s event = some next → Spared s next packet)
      (initial netif) events := by
  refine (inv_always netif events).along fun s event inv _ noTick noCleanup i packet waits next taken => ?_
  exact (step_fine inv taken).2.2 noTick noCleanup i packet waits

end ULoader.Arp

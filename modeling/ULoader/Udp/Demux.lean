/-
**Whose a datagram is.**

* `demux_spec` — what the loop of `udp_input` finds along the list.
* `Pcb.Accepts` — a PCB's own binding and connection say that a datagram is for it; `Apart.accepts_unique` — of a
  datagram that is no broadcast, no two PCBs say so.
* **`udpInput_spec`** — a datagram that is no broadcast goes to the PCB that accepts it, wherever that PCB stands in
  the list; `udp_input` may move it to the front, and changes nothing else.
-/

import ULoader.Udp.Bindings

namespace ULoader.Udp

open Links ULoader.Arp

variable {C : Type}

/-! ### The search along the list -/

section Search

variable {items : List (Slot × Pcb C)} {netif : Netif} {d : Datagram}

/-- A PCB that is not connected and whose local address matches. -/
def Pcb.openMatch (pcb : Pcb C) (netif : Netif) (d : Datagram) : Bool := pcb.localMatch netif d && !pcb.connected

/-- A PCB that matches on both sides. -/
def Pcb.fullMatch (pcb : Pcb C) (netif : Netif) (d : Datagram) : Bool := pcb.localMatch netif d && pcb.remoteMatch d

/-- One turn of the loop. -/
theorem demux_some {mem : Slot → Option (Node Slot (Pcb C))} {p : Slot} {node : Node Slot (Pcb C)}
    (held : mem p = some node) (fuel : Nat) (prev uncon : Option Slot) :
    demux mem netif d (fuel + 1) prev uncon (some p) =
      if node.value.fullMatch netif d then
        some (uncon.or (if node.value.openMatch netif d then some p else none), some (prev, p, node))
      else demux mem netif d fuel (some p) (uncon.or (if node.value.openMatch netif d then some p else none))
        node.next := by
  have noted : (if node.value.localMatch netif d && uncon.isNone && !node.value.connected then some p else uncon) =
      uncon.or (if node.value.openMatch netif d then some p else none) := by
    cases uncon <;> simp [Pcb.openMatch]
  simp only [demux, held, Option.bind_eq_bind, Option.bind_some, noted]
  rfl

/-- The loop ends at the first PCB that matches fully; if there is none, it has the first open one. -/
theorem demux_spec {mem : Slot → Option (Node Slot (Pcb C))} {head : Option Slot}
    (segment : Segment mem head items none) : ∀ {fuel : Nat} (prev uncon : Option Slot), items.length < fuel →
      (∃ front p pcb back next found, items = front ++ (p, pcb) :: back ∧ pcb.fullMatch netif d = true ∧
        mem p = some ⟨next, pcb⟩ ∧
        demux mem netif d fuel prev uncon head = some (found, some (lastOf prev front, p, ⟨next, pcb⟩))) ∨
      ((∀ item ∈ items, item.2.fullMatch netif d = false) ∧
        demux mem netif d fuel prev uncon head =
          some (uncon.or ((items.find? (·.2.openMatch netif d)).map Prod.fst), none)) := by
  induction items generalizing head with
  | nil =>
    intro fuel prev uncon enough
    obtain ⟨fuel, rfl⟩ := Nat.exists_eq_add_of_lt enough
    rw [show head = none from segment]
    refine .inr ⟨nofun, ?_⟩
    simp [demux]
  | cons item rest ih =>
    intro fuel prev uncon enough
    obtain ⟨rfl, next, node, later⟩ := segment
    obtain ⟨fuel, rfl⟩ : ∃ more, fuel = more + 1 := ⟨fuel - 1, by omega⟩
    have enough : rest.length < fuel := by simpa using enough
    rw [demux_some node]
    by_cases full : item.2.fullMatch netif d = true
    · exact .inl ⟨[], item.1, item.2, rest, next, _, rfl, full, node, if_pos full⟩
    · rw [if_neg full]
      rcases @ih next later fuel (some item.1) (uncon.or (if item.2.openMatch netif d then some item.1 else none))
        enough with ⟨front, p, pcb, back, next, found, rfl, full, node, done⟩ | ⟨none, done⟩
      · exact .inl ⟨item :: front, p, pcb, back, next, found, rfl, full, node, done⟩
      · refine .inr ⟨List.forall_mem_cons.mpr ⟨Bool.eq_false_of_not_eq_true full, none⟩, ?_⟩
        rw [done, Option.or_assoc, List.find?_cons]
        cases item.2.openMatch netif d <;> simp

end Search

/-! ### Bindings and datagrams -/

section Accepts

variable {netif : Netif} {d : Datagram}

/-- The PCB is bound to where the datagram goes, and not connected to somewhere else than it comes from. -/
def Pcb.Accepts (pcb : Pcb C) (netif : Netif) (d : Datagram) : Prop :=
  pcb.localPort ≠ 0 ∧ pcb.localMatch netif d = true ∧ (pcb.connected = true → pcb.remoteMatch d = true)

theorem localMatch_iff {pcb : Pcb C} (unicast : ip4AddrIsbroadcast d.dest netif = false) :
    pcb.localMatch netif d = true ↔ pcb.localPort = d.destPort ∧ (pcb.localIp = 0 ∨ pcb.localIp = d.dest) := by
  simp [Pcb.localMatch, unicast]

/-- Two PCBs a datagram could go to would be in each other's way. -/
theorem Apart.accepts_unique {view : Slot → Option (Pcb C)} (apart : Apart view)
    (unicast : ip4AddrIsbroadcast d.dest netif = false) {p q : Slot} {one other : Pcb C} (isOne : view p = some one)
    (isOther : view q = some other) (isBound : one.localPort ≠ 0) (first : one.localMatch netif d = true)
    (second : other.localMatch netif d = true) : p = q := by
  by_contra differ
  have clear := apart p q one other differ isOne isOther isBound
  obtain ⟨port, ip⟩ := (localMatch_iff unicast).mp first
  obtain ⟨port', ip'⟩ := (localMatch_iff unicast).mp second
  have blocked : one.inTheWay other.localIp other.localPort = true := by
    rw [Pcb.inTheWay, port, port']
    rcases ip with ip | ip <;> rcases ip' with ip' | ip' <;> simp [ip, ip']
  rw [blocked] at clear
  cases clear

end Accepts

/-! ### One datagram -/

section Input

variable {s : Pcbs C} {items : List (Slot × Pcb C)} {netif : Netif} {dhcp : Option Slot} {d : Datagram}

/-- The same PCBs in another order. -/
theorem Sound.reorder (sound : Sound s items) {mem : Slot → Option (Node Slot (Pcb C))} {head : Option Slot}
    {items' : List (Slot × Pcb C)} (same : Option.map Node.value ∘ mem = s.view) (listed : Listed mem head items')
    (keys : (items'.map Prod.fst).Perm (items.map Prod.fst)) :
    Sound { s with mem := mem, udpPcbs := head } items' := by
  have view : Pcbs.view { s with mem := mem, udpPcbs := head } = s.view := same
  refine ⟨listed, fun q => ?_, view ▸ sound.apart, sound.once, fun q => ?_, sound.range⟩
  · rw [view, keys.mem_iff, sound.listing q]
  · have here := congrFun same q
    rw [Function.comp_apply, view_apply] at here
    rw [sound.unused q, ← Option.map_eq_none_iff, ← here, Option.map_eq_none_iff]

/-- What `udp_input`'s search comes to: the PCBs stay as they are, and one that matches is found if there is one. -/
structure Finds (s : Pcbs C) (netif : Netif) (d : Datagram) (s' : Pcbs C) (found : Option Slot) : Prop where
  sound : ∃ items, Sound s' items
  view : s'.view = s.view
  port : s'.udpPort = s.udpPort
  accepts : ∀ p, found = some p → ∃ pcb, s.view p = some pcb ∧ pcb.Accepts netif d
  missed : found = none → ∀ p pcb, s.view p = some pcb → ¬ pcb.Accepts netif d

theorem Pcb.fullMatch_accepts {pcb : Pcb C} (isBound : pcb.localPort ≠ 0) (full : pcb.fullMatch netif d = true) :
    pcb.Accepts netif d := by
  rw [Pcb.fullMatch, Bool.and_eq_true] at full
  exact ⟨isBound, full.1, fun _ => full.2⟩

theorem Pcb.openMatch_accepts {pcb : Pcb C} (isBound : pcb.localPort ≠ 0) (isOpen : pcb.openMatch netif d = true) :
    pcb.Accepts netif d := by
  rw [Pcb.openMatch, Bool.and_eq_true, Bool.not_eq_true'] at isOpen
  exact ⟨isBound, isOpen.1, fun connected => absurd (isOpen.2.symm.trans connected) Bool.false_ne_true⟩

theorem Pcb.Accepts.full_or_open {pcb : Pcb C} (accepts : pcb.Accepts netif d) :
    pcb.fullMatch netif d = true ∨ pcb.openMatch netif d = true := by
  obtain ⟨_, isLocal, isRemote⟩ := accepts
  rw [Pcb.fullMatch, Pcb.openMatch, isLocal]
  cases connected : pcb.connected with
  | false => exact .inr rfl
  | true => exact .inl (isRemote connected)

theorem pcbFor_spec (sound : Sound s items) (notDhcp : d.destPort ≠ 68) :
    ∃ s' found, pcbFor s netif dhcp d = some (s', found) ∧ Finds s netif d s' found := by
  have length := length_lt sound.listed
  rcases @demux_spec C items netif d s.mem s.udpPcbs sound.listed.segment bound none none length with
    ⟨front, p, pcb, back, next, uncon, rfl, full, node, done⟩ | ⟨noFull, done⟩
  · have member : (p, pcb) ∈ front ++ (p, pcb) :: back := by simp
    have accepts : ∃ pcb, s.view p = some pcb ∧ pcb.Accepts netif d :=
      ⟨pcb, view_of_mem sound.listed member, Pcb.fullMatch_accepts (sound.bound_of_mem member) full⟩
    rcases List.eq_nil_or_concat front with rfl | ⟨front, ⟨q, prior⟩, rfl⟩
    · refine ⟨s, some p, ?_, ⟨_, sound⟩, rfl, rfl, fun _ same => Option.some.inj same ▸ accepts, nofun⟩
      simp [pcbFor, notDhcp, done]
    · rw [List.concat_eq_append, List.append_assoc, List.singleton_append] at sound
      rw [List.concat_eq_append, lastOf_concat] at done
      obtain ⟨link, ahead, _⟩ := sound.listed.node
      obtain ⟨absent, perm⟩ := sound.listed.without
      have same : Option.map Node.value ∘ Function.update (Function.update s.mem q (some ⟨next, prior⟩)) p
          (some ⟨s.udpPcbs, pcb⟩) = s.view := by
        rw [Function.comp_update, Function.comp_update, Option.map_some, Option.map_some]
        rw [show some prior = s.view q by simp [ahead], show some pcb = s.view p by simp [node]]
        rw [show Option.map Node.value ∘ s.mem = s.view from rfl, Function.update_eq_self, Function.update_eq_self]
      have sound' := sound.reorder same (sound.listed.moveToFront node) (by simpa using perm)
      refine ⟨_, some p, ?_, ⟨_, sound'⟩, same, rfl, fun _ same => Option.some.inj same ▸ accepts, nofun⟩
      simp [pcbFor, notDhcp, done, ahead, Pcbs.push]
  · refine ⟨s, (items.find? (·.2.openMatch netif d)).map Prod.fst, ?_, ⟨items, sound⟩, rfl, rfl, fun p found => ?_,
      fun missed p pcb said accepts => ?_⟩
    · simp [pcbFor, notDhcp, done]
    · obtain ⟨item, first, rfl⟩ := Option.map_eq_some_iff.mp found
      have member := List.mem_of_find?_eq_some first
      have isOpen := List.find?_some first
      exact ⟨item.2, view_of_mem sound.listed member, Pcb.openMatch_accepts (sound.bound_of_mem member) isOpen⟩
    · have member := sound.mem_of_view said accepts.1
      rw [Option.map_eq_none_iff, List.find?_eq_none] at missed
      rcases accepts.full_or_open with full | isOpen
      · exact absurd full (Bool.eq_false_iff.mp (noFull _ member))
      · exact missed _ member isOpen

/-- The datagram is too short for its headers, or they are not in the first pbuf. -/
def Datagram.Short (d : Datagram) : Prop := d.totLen < d.hlen + 8 ∨ d.len < d.hlen + 8

/-- The PCB that was found gets the datagram, if it has a callback. -/
theorem outcomeFor_some {s' : Pcbs C} {p : Slot} {pcb : Pcb C} (inside : ¬ d.len < d.hlen + 8)
    (said : s'.view p = some pcb) : ∃ outcome, outcomeFor s' netif d (some p) = some outcome ∧
      outcome ≠ .unreachable ∧ ∀ q recv, outcome = .delivered q recv ↔ q = p ∧ pcb.recv = some recv := by
  obtain ⟨next, held⟩ := exists_node said
  cases recv : pcb.recv with
  | some recv' =>
    refine ⟨.delivered p recv', by simp [outcomeFor, inside, held, recv], nofun, fun q other => ?_⟩
    rw [Outcome.delivered.injEq, Option.some.injEq, eq_comm]
  | none => exact ⟨.discarded, by simp [outcomeFor, inside, held, recv], nofun, fun q other => ⟨nofun, nofun⟩⟩

/-- Nobody gets the datagram: its sender is told, unless the datagram is not for the interface. -/
theorem outcomeFor_none {s' : Pcbs C} (inside : ¬ d.len < d.hlen + 8)
    (unicast : ip4AddrIsbroadcast d.dest netif = false) : ∃ outcome, outcomeFor s' netif d none = some outcome ∧
      (∀ q recv, outcome ≠ .delivered q recv) ∧
      (outcome = .unreachable ↔ d.dest = netif.ipAddr ∧ ipAddrIsmulticast d.dest = false) := by
  by_cases ours : netif.ipAddr = d.dest
  · cases multicast : ipAddrIsmulticast d.dest with
    | false =>
      exact ⟨.unreachable, by simp [outcomeFor, inside, ours, unicast, multicast], nofun,
        fun _ => ⟨ours.symm, rfl⟩, fun _ => rfl⟩
    | true =>
      exact ⟨.discarded, by simp [outcomeFor, inside, ours, multicast], nofun, nofun, fun told => nomatch told.2⟩
  · exact ⟨.discarded, by simp [outcomeFor, ours], nofun, nofun, fun told => absurd told.1.symm ours⟩

/-- **A datagram that is no broadcast goes to the PCB that accepts it.** If there is none, its sender is told, unless
the datagram is not for the interface. -/
theorem udpInput_spec (sound : Sound s items) (notDhcp : d.destPort ≠ 68) (whole : ¬ d.Short)
    (unicast : ip4AddrIsbroadcast d.dest netif = false) :
    ∃ s' outcome, udpInput s netif dhcp d = some (s', outcome) ∧
      (∀ p recv, outcome = .delivered p recv ↔
        ∃ pcb, s.view p = some pcb ∧ pcb.Accepts netif d ∧ pcb.recv = some recv) ∧
      (outcome = .unreachable ↔ (∀ p pcb, s.view p = some pcb → ¬ pcb.Accepts netif d) ∧ d.dest = netif.ipAddr ∧
        ipAddrIsmulticast d.dest = false) := by
  rw [Datagram.Short, not_or] at whole
  have notShort : ¬ (d.totLen < d.hlen + 8 ∨ d.len < d.hlen) := by omega
  obtain ⟨s', found, done, finds⟩ := @pcbFor_spec C s items netif dhcp d sound notDhcp
  cases found with
  | some p =>
    obtain ⟨pcb, said, accepts⟩ := finds.accepts p rfl
    obtain ⟨outcome, isOutcome, told, delivered⟩ :=
      @outcomeFor_some C netif d s' p pcb whole.2 (by rw [finds.view, said])
    refine ⟨s', outcome, by simp [udpInput, notShort, done, isOutcome], fun q recv => ?_, ?_⟩
    · rw [delivered q recv]
      constructor
      · rintro ⟨rfl, heard⟩
        exact ⟨pcb, said, accepts, heard⟩
      · rintro ⟨other, isOther, otherAccepts, heard⟩
        have same : q = p :=
          sound.apart.accepts_unique unicast isOther said otherAccepts.1 otherAccepts.2.1 accepts.2.1
        subst same
        cases said.symm.trans isOther
        exact ⟨rfl, heard⟩
    · exact ⟨fun same => absurd same told, fun holds => absurd accepts (holds.1 p pcb said)⟩
  | none =>
    have nobody := finds.missed rfl
    obtain ⟨outcome, isOutcome, delivered, told⟩ := @outcomeFor_none C netif d s' whole.2 unicast
    refine ⟨s', outcome, by simp [udpInput, notShort, done, isOutcome], fun q recv => ?_, ?_⟩
    · refine ⟨fun same => absurd same (delivered q recv), ?_⟩
      rintro ⟨pcb, said, accepts, _⟩
      exact absurd accepts (nobody q pcb said)
    · rw [told]
      exact ⟨fun holds => ⟨nobody, holds⟩, fun holds => holds.2⟩

end Input

end ULoader.Udp

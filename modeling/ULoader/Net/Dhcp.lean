/-
**lwIP's network interface and DHCP client.**

`Netif` holds what `netconf.c` and the DHCP client read and write of `struct netif`, `Dhcp` what they
use of `struct dhcp`. Memory can run out: `Resources` says what `mem_malloc`, `udp_new` and
`dhcp_create_msg` return.

* `dhcpStart` — all exits of `dhcp_start`. It leaves a running client exactly when it gets all it asks
  for (`running_dhcpStart`).
* `dhcpStop` — leaves no running client (`running_dhcpStop`).
* `clientStep` — the client's own steps. Only a running client takes any; none of them stops it
  (`running_clientStep`).

The client's requests differ only in the state they enter (`Request`): each one counts a try, and
`dhcp_set_state` resets the count when the state changes. When a request is repeated is a matter of
`request_timeout`, which is not modelled: a step may come at any time.
-/

import Mathlib.Data.Option.Basic
import Mathlib.Tactic.SplitIfs

namespace ULoader.Net

/-! ### The records -/

/-- `dhcp->state`. -/
inductive ClientState where
  | off
  | requesting
  | rebooting
  | rebinding
  | renewing
  | selecting
  | checking
  | bound
  | backingOff
  deriving DecidableEq, Repr

/-- `struct dhcp`, as `memset` leaves it. -/
structure Dhcp where
  state : ClientState := .off
  tries : UInt8 := 0
  pcb : Option Nat := none
  deriving DecidableEq, Repr

/-- `struct netif`; the flags are one field each. -/
structure Netif where
  ipAddr : UInt32
  netmask : UInt32
  gw : UInt32
  isUp : Bool
  etharp : Bool
  dhcpFlag : Bool
  mtu : Nat
  dhcp : Option Dhcp
  deriving DecidableEq, Repr

/-- What the allocators return: a heap block, a UDP control block, a message buffer. -/
structure Resources where
  memMalloc : Bool
  udpNew : Option Nat
  createMsg : Bool
  deriving DecidableEq, Repr

/-- lwIP's `err_t`, as far as `dhcp_start` uses it. -/
inductive Err where
  | ok
  | mem
  | arg
  deriving DecidableEq, Repr

/-- A client is attached and not off. -/
def Netif.Running (n : Netif) : Prop := ∃ dhcp ∈ n.dhcp, dhcp.state ≠ .off

/-- `netif_set_ipaddr`. -/
def Netif.setIpaddr (n : Netif) (addr : UInt32) : Netif := { n with ipAddr := addr }

/-- `netif_set_addr`. -/
def Netif.setAddr (n : Netif) (addr netmask gw : UInt32) : Netif :=
  { n with ipAddr := addr, netmask := netmask, gw := gw }

/-! ### The client -/

/-- `dhcp_set_state`: a change of state resets the number of tries. -/
def dhcpSetState (dhcp : Dhcp) (state : ClientState) : Dhcp :=
  if state = dhcp.state then dhcp else { dhcp with state := state, tries := 0 }

/-- A request: enter its state and count a try, whether or not the message could be built. -/
def dhcpRequest (state : ClientState) (dhcp : Dhcp) : Dhcp :=
  let entered := dhcpSetState dhcp state
  { entered with tries := entered.tries + 1 }

/-- `dhcp_discover`. -/
def dhcpDiscover : Dhcp → Dhcp := dhcpRequest .selecting

/-- `dhcp_select`. -/
def dhcpSelect : Dhcp → Dhcp := dhcpRequest .requesting

/-- `dhcp_check`. -/
def dhcpCheck : Dhcp → Dhcp := dhcpRequest .checking

/-- `dhcp_renew`. -/
def dhcpRenew : Dhcp → Dhcp := dhcpRequest .renewing

/-- `dhcp_rebind`. -/
def dhcpRebind : Dhcp → Dhcp := dhcpRequest .rebinding

/-- `dhcp_reboot`. -/
def dhcpReboot : Dhcp → Dhcp := dhcpRequest .rebooting

/-- `dhcp_decline`. -/
def dhcpDecline : Dhcp → Dhcp := dhcpRequest .backingOff

/-- `dhcp_stop`. -/
def dhcpStop (n : Netif) : Netif :=
  { n with
    dhcpFlag := false
    dhcp := n.dhcp.map fun dhcp => dhcpSetState { dhcp with pcb := none } .off }

/-- `dhcp_start`. A client that is already attached is cleared and used again. -/
def dhcpStart (resources : Resources) (n : Netif) : Err × Netif :=
  let n := { n with dhcpFlag := false }
  if ¬ n.etharp then (.arg, n)
  else if n.mtu < 576 then (.mem, n)
  else if n.dhcp.isNone ∧ ¬ resources.memMalloc then (.mem, n)
  else
    let cleared : Dhcp := { pcb := resources.udpNew }
    if resources.udpNew.isNone then (.mem, { n with dhcp := some cleared })
    else
      let discovering := { n with dhcp := some (dhcpDiscover cleared) }
      if resources.createMsg then (.ok, { discovering with dhcpFlag := true })
      else (.mem, dhcpStop discovering)

/-- The lease of an acknowledgment: the address, the mask if one was given, and the gateway. -/
structure Offer where
  ipAddr : UInt32
  snMask : Option UInt32
  gwAddr : UInt32
  deriving DecidableEq, Repr

/-- The mask `dhcp_bind` uses: the one given, or that of the address's class. Addresses are in
network order on a little-endian machine. -/
def Offer.mask (offer : Offer) : UInt32 :=
  let firstOctet := offer.ipAddr &&& 0xff
  offer.snMask.getD
    (if firstOctet ≤ 127 then 0x000000ff else if firstOctet ≥ 192 then 0x00ffffff else 0x0000ffff)

/-- The gateway `dhcp_bind` uses: the one given, or the first host of the network. -/
def Offer.gateway (offer : Offer) : UInt32 :=
  if offer.gwAddr = 0 then (offer.ipAddr &&& offer.mask) ||| 0x01000000 else offer.gwAddr

/-- `dhcp_bind`. -/
def dhcpBind (offer : Offer) (n : Netif) (dhcp : Dhcp) : Netif :=
  { n.setAddr offer.ipAddr offer.mask offer.gateway with
    isUp := true
    dhcp := some (dhcpSetState dhcp .bound) }

/-- `dhcp_handle_nak`. -/
def dhcpHandleNak (n : Netif) (dhcp : Dhcp) : Netif :=
  { n.setAddr 0 0 0 with
    isUp := false
    dhcp := some (dhcpDiscover (dhcpSetState dhcp .backingOff)) }

/-- `dhcp_release`. -/
def dhcpRelease (n : Netif) (dhcp : Dhcp) : Netif :=
  { n.setAddr 0 0 0 with
    isUp := false
    dhcp := some (dhcpRequest .off dhcp) }

/-! ### The client's own steps -/

/-- The requests that a reply, a time-out or an ARP reply makes the client send. -/
inductive Request where
  | discover
  | select
  | check
  | renew
  | rebind
  | reboot
  | decline
  deriving DecidableEq, Repr

/-- The function that sends a request. -/
def Request.send : Request → Dhcp → Dhcp
  | .discover => dhcpDiscover
  | .select => dhcpSelect
  | .check => dhcpCheck
  | .renew => dhcpRenew
  | .rebind => dhcpRebind
  | .reboot => dhcpReboot
  | .decline => dhcpDecline

/-- A step of the client: the interface is bound to a lease, a NAK is handled, a request is sent
(again), or `dhcp_timeout` gives the requested lease up and starts over. -/
inductive ClientEvent where
  | bind (offer : Offer)
  | nak
  | retry (request : Request)
  | release
  deriving DecidableEq, Repr

/-- What a step does to the interface and its client. -/
def ClientEvent.apply (n : Netif) (dhcp : Dhcp) : ClientEvent → Netif
  | .bind offer => dhcpBind offer n dhcp
  | .nak => dhcpHandleNak n dhcp
  | .retry request => { n with dhcp := some (request.send dhcp) }
  | .release => { dhcpRelease n dhcp with dhcp := (dhcpRelease n dhcp).dhcp.map dhcpDiscover }

/-- A step of the client, which must be running. Leases are for a non-zero address. -/
def clientStep (n : Netif) (event : ClientEvent) : Option Netif :=
  match n.dhcp with
  | none => none
  | some dhcp =>
    if dhcp.state = .off then none
    else
      match event with
      | .bind offer => if offer.ipAddr = 0 then none else some ((ClientEvent.bind offer).apply n dhcp)
      | other => some (other.apply n dhcp)

/-! ### Running and stopped clients -/

theorem running_some {n : Netif} {dhcp : Dhcp} (attached : n.dhcp = some dhcp) :
    n.Running ↔ dhcp.state ≠ .off := by
  simp [Netif.Running, attached]

theorem not_running_none {n : Netif} (detached : n.dhcp = none) : ¬ n.Running := by
  simp [Netif.Running, detached]

instance (n : Netif) : Decidable n.Running :=
  match attached : n.dhcp with
  | none => .isFalse (not_running_none attached)
  | some _ => decidable_of_iff _ (running_some attached).symm

theorem dhcpSetState_state (dhcp : Dhcp) (state : ClientState) :
    (dhcpSetState dhcp state).state = state := by
  unfold dhcpSetState
  split
  · rename_i same
    exact same.symm
  · rfl

theorem dhcpRequest_state (state : ClientState) (dhcp : Dhcp) :
    (dhcpRequest state dhcp).state = state := dhcpSetState_state dhcp state

/-- A request counts one try more, from zero when it enters another state. -/
theorem dhcpRequest_tries (state : ClientState) (dhcp : Dhcp) :
    (dhcpRequest state dhcp).tries = if state = dhcp.state then dhcp.tries + 1 else 1 := by
  unfold dhcpRequest dhcpSetState
  split <;> rfl

theorem Request.send_state (request : Request) (dhcp : Dhcp) : (request.send dhcp).state ≠ .off := by
  cases request <;>
    simp [Request.send, dhcpDiscover, dhcpSelect, dhcpCheck, dhcpRenew, dhcpRebind, dhcpReboot,
      dhcpDecline, dhcpRequest_state]

/-- **`dhcp_stop` stops the client.** -/
theorem running_dhcpStop (n : Netif) : ¬ (dhcpStop n).Running := by
  rintro ⟨dhcp, attached, notOff⟩
  simp only [dhcpStop, Option.mem_def, Option.map_eq_some_iff] at attached
  obtain ⟨before, -, rfl⟩ := attached
  exact notOff (dhcpSetState_state _ _)

/-- What `dhcp_start` needs to succeed on an Ethernet interface. -/
def Resources.Suffice (resources : Resources) (n : Netif) : Prop :=
  (n.dhcp.isSome ∨ resources.memMalloc) ∧ resources.udpNew.isSome ∧ resources.createMsg

instance (resources : Resources) (n : Netif) : Decidable (resources.Suffice n) :=
  inferInstanceAs (Decidable (_ ∧ _))

/-- An interface on which `dhcp_start` does not give up at once. -/
structure Netif.Ethernet (n : Netif) : Prop where
  etharp : n.etharp = true
  mtu : 576 ≤ n.mtu

/-- Setting the address does not matter to `dhcp_start`. -/
theorem Netif.Ethernet.cleared {n : Netif} (ethernet : n.Ethernet) :
    ({ n with ipAddr := 0 } : Netif).Ethernet :=
  ⟨ethernet.etharp, ethernet.mtu⟩

/-- **`dhcp_start` leaves a running client exactly when it gets what it asks for.** -/
theorem running_dhcpStart {resources : Resources} {n : Netif} (ethernet : n.Ethernet) :
    (dhcpStart resources n).2.Running ↔ resources.Suffice n := by
  have large : ¬ n.mtu < 576 := Nat.not_lt.mpr ethernet.mtu
  simp only [dhcpStart, ethernet.etharp, large, Resources.Suffice, not_true_eq_false, if_false]
  by_cases attached : n.dhcp.isNone ∧ ¬ resources.memMalloc
  · obtain ⟨detached, noHeap⟩ := attached
    have none : n.dhcp = none := Option.isNone_iff_eq_none.mp detached
    simp [none, noHeap, Netif.Running]
  · have block : n.dhcp.isSome ∨ resources.memMalloc := by
      rcases h : n.dhcp with _ | dhcp <;> simp_all
    rw [if_neg attached]
    by_cases noPcb : resources.udpNew.isNone
    · have none : resources.udpNew = none := Option.isNone_iff_eq_none.mp noPcb
      simp [none, Netif.Running]
    · have pcb : resources.udpNew.isSome := by rcases h : resources.udpNew with _ | pcb <;> simp_all
      rw [if_neg noPcb]
      by_cases message : resources.createMsg
      · simp [message, block, pcb, Netif.Running, dhcpDiscover, dhcpRequest_state]
      · simp only [message, Bool.false_eq_true, if_false, and_false, iff_false]
        exact running_dhcpStop _

/-- What `dhcp_start` leaves alone. -/
theorem dhcpStart_frame (resources : Resources) (n : Netif) :
    (dhcpStart resources n).2.ipAddr = n.ipAddr ∧ (dhcpStart resources n).2.isUp = n.isUp ∧
      (dhcpStart resources n).2.etharp = n.etharp ∧ (dhcpStart resources n).2.mtu = n.mtu := by
  unfold dhcpStart
  dsimp only
  split_ifs <;> exact ⟨rfl, rfl, rfl, rfl⟩

theorem dhcpStart_ethernet {resources : Resources} {n : Netif} (ethernet : n.Ethernet) :
    (dhcpStart resources n).2.Ethernet := by
  obtain ⟨_, _, etharp, mtu⟩ := dhcpStart_frame resources n
  exact ⟨by rw [etharp]; exact ethernet.etharp, by rw [mtu]; exact ethernet.mtu⟩

/-- **The steps of the client**: only a running client takes one, and it does what it does. -/
theorem clientStep_eq_some {n next : Netif} {event : ClientEvent} :
    clientStep n event = some next ↔
      ∃ dhcp, n.dhcp = some dhcp ∧ dhcp.state ≠ .off ∧ next = event.apply n dhcp ∧
        ∀ offer, event = .bind offer → offer.ipAddr ≠ 0 := by
  unfold clientStep
  rcases attached : n.dhcp with _ | dhcp
  · simp
  · by_cases isOff : dhcp.state = .off
    · simp [isOff]
    · cases event with
      | bind offer =>
        by_cases zero : offer.ipAddr = 0
        · simp [isOff, zero]
        · simp [isOff, zero, @eq_comm _ next]
      | nak => simp [isOff, @eq_comm _ next]
      | retry request => simp [isOff, @eq_comm _ next]
      | release => simp [isOff, @eq_comm _ next]

/-- A step of the client keeps it running. -/
theorem running_apply (n : Netif) (dhcp : Dhcp) (event : ClientEvent) :
    (event.apply n dhcp).Running := by
  cases event with
  | bind offer => simp [Netif.Running, ClientEvent.apply, dhcpBind, dhcpSetState_state]
  | nak => simp [Netif.Running, ClientEvent.apply, dhcpHandleNak, dhcpDiscover, dhcpRequest_state]
  | retry request => simp [Netif.Running, ClientEvent.apply, request.send_state]
  | release =>
    simp [Netif.Running, ClientEvent.apply, dhcpRelease, dhcpDiscover, dhcpRequest_state]

theorem apply_ethernet {n : Netif} (dhcp : Dhcp) (event : ClientEvent) (ethernet : n.Ethernet) :
    (event.apply n dhcp).Ethernet := by
  cases event <;> exact ⟨ethernet.etharp, ethernet.mtu⟩

theorem running_clientStep {n next : Netif} {event : ClientEvent}
    (taken : clientStep n event = some next) : n.Running ∧ next.Running := by
  obtain ⟨dhcp, attached, notOff, rfl, -⟩ := clientStep_eq_some.mp taken
  exact ⟨(running_some attached).mpr notOff, running_apply n dhcp event⟩

end ULoader.Net

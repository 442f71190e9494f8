/-
**The DHCP client's own state machine.**

`clientStep` lets a running client bind, handle a NAK, send a request or start over at any time. Here
is when `dhcp.c` does so: `dhcp_timeout`, the two lease timers, the replies of a server (`dhcp_recv`)
and an ARP reply for the offered address, each by the client's state and its tries. `Lwip` adds to the
configuration the lease that was offered last, and `codeStep` its steps: a call of the periodic handler
now runs the client's timers in the places where the source calls them.

`code_refines` says that the abstract steps reach every configuration of a run of the code, so that what
holds in all reachable configurations holds for the code (`consistent_of_code`). The point of the
proof is `Leases`: whenever the client may bind, the offered address is not zero, because
a lease is asked for only after it was offered.
-/

import ULoader.Net.Waiting

namespace ULoader.Net

open StepSystem

/-! ### The client -/

/-- What the client reacts to: its request timer, the two timers of a lease, a reply of a server that
passes the checks of `dhcp_recv`, and an ARP reply. -/
inductive Input where
  | timeout
  | t1Timeout
  | t2Timeout
  | offer (serverId : Bool) (yiaddr : UInt32)
  | ack (lease : Offer)
  | nak
  | arpReply (addr : UInt32)
  deriving DecidableEq

/-- `REBOOT_TRIES`. -/
def rebootTries : UInt8 := 2

/-- The interface with the client in another state. -/
def Netif.attach (n : Netif) (dhcp : Dhcp) : Netif := { n with dhcp := some dhcp }

/-- `dhcp_discover` on the interface: the offered address is forgotten. -/
def discoverAgain (n : Netif) (dhcp : Dhcp) (offered : Offer) : Netif × Offer :=
  (n.attach (dhcpDiscover dhcp), { offered with ipAddr := 0 })

/-- `dhcp_release` and then `dhcp_discover`: the offered lease is cleared, but not the flag that a
mask was given. -/
def releaseAndDiscover (n : Netif) (dhcp : Dhcp) (offered : Offer) : Netif × Offer :=
  (ClientEvent.release.apply n dhcp, ⟨0, offered.snMask.map fun _ => 0, 0⟩)

/-- `dhcp_timeout`. -/
def dhcpTimeout (n : Netif) (dhcp : Dhcp) (offered : Offer) : Netif × Offer :=
  match dhcp.state with
  | .backingOff => discoverAgain n dhcp offered
  | .selecting => discoverAgain n dhcp offered
  | .requesting =>
    if dhcp.tries ≤ 5 then (n.attach (dhcpSelect dhcp), offered)
    else releaseAndDiscover n dhcp offered
  | .checking =>
    if dhcp.tries ≤ 1 then (n.attach (dhcpCheck dhcp), offered) else (dhcpBind offered n dhcp, offered)
  | .renewing => (n.attach (dhcpRenew dhcp), offered)
  | .rebinding =>
    if dhcp.tries ≤ 8 then (n.attach (dhcpRebind dhcp), offered)
    else releaseAndDiscover n dhcp offered
  | .rebooting =>
    if dhcp.tries < rebootTries then (n.attach (dhcpReboot dhcp), offered)
    else discoverAgain n dhcp offered
  | .off => (n, offered)
  | .bound => (n, offered)

/-- The states in which the lease timers act. -/
def ClientState.HasLease (state : ClientState) : Prop :=
  state = .requesting ∨ state = .bound ∨ state = .renewing

instance (state : ClientState) : Decidable state.HasLease := inferInstanceAs (Decidable (_ ∨ _))

/-- `dhcp_t1_timeout`. -/
def dhcpT1Timeout (n : Netif) (dhcp : Dhcp) (offered : Offer) : Netif × Offer :=
  if dhcp.state.HasLease then (n.attach (dhcpRenew dhcp), offered) else (n, offered)

/-- `dhcp_t2_timeout`. -/
def dhcpT2Timeout (n : Netif) (dhcp : Dhcp) (offered : Offer) : Netif × Offer :=
  if dhcp.state.HasLease then (n.attach (dhcpRebind dhcp), offered) else (n, offered)

/-- The states in which a lease that was held before is asked for again. -/
def ClientState.Extends (state : ClientState) : Prop :=
  state = .rebooting ∨ state = .rebinding ∨ state = .renewing

instance (state : ClientState) : Decidable state.Extends := inferInstanceAs (Decidable (_ ∨ _))

/-- `dhcp_recv` on an offer: without a server identifier it is not taken up. -/
def dhcpRecvOffer (serverId : Bool) (yiaddr : UInt32) (n : Netif) (dhcp : Dhcp) (offered : Offer) :
    Netif × Offer :=
  if dhcp.state = .selecting ∧ serverId then
    (n.attach (dhcpSelect dhcp), { offered with ipAddr := yiaddr })
  else (n, offered)

/-- `dhcp_recv` on an acknowledgment: a new lease is checked by ARP first, and a lease held before is
bound as it was offered then. -/
def dhcpRecvAck (lease : Offer) (n : Netif) (dhcp : Dhcp) (offered : Offer) : Netif × Offer :=
  if dhcp.state = .requesting then (n.attach (dhcpCheck dhcp), lease)
  else if dhcp.state.Extends then (dhcpBind offered n dhcp, offered)
  else (n, offered)

/-- `dhcp_recv` on a NAK. -/
def dhcpRecvNak (n : Netif) (dhcp : Dhcp) (offered : Offer) : Netif × Offer :=
  if dhcp.state = .requesting ∨ dhcp.state.Extends then
    (dhcpHandleNak n dhcp, { offered with ipAddr := 0 })
  else (n, offered)

/-- `dhcp_arp_reply`. -/
def dhcpArpReply (addr : UInt32) (n : Netif) (dhcp : Dhcp) (offered : Offer) : Netif × Offer :=
  if dhcp.state = .checking ∧ addr = offered.ipAddr then (n.attach (dhcpDecline dhcp), offered)
  else (n, offered)

/-- What the attached client does. -/
def Input.apply : Input → Netif → Dhcp → Offer → Netif × Offer
  | .timeout => dhcpTimeout
  | .t1Timeout => dhcpT1Timeout
  | .t2Timeout => dhcpT2Timeout
  | .offer serverId yiaddr => dhcpRecvOffer serverId yiaddr
  | .ack lease => dhcpRecvAck lease
  | .nak => dhcpRecvNak
  | .arpReply addr => dhcpArpReply addr

/-- Servers lease no zero address. -/
def Input.Nonzero : Input → Prop
  | .offer _ yiaddr => yiaddr ≠ 0
  | .ack lease => lease.ipAddr ≠ 0
  | _ => True

/-! ### A client that may bind knows its lease -/

/-- The states on the way to a lease and behind it. -/
def ClientState.Leasing (state : ClientState) : Prop :=
  state ≠ .off ∧ state ≠ .selecting ∧ state ≠ .backingOff

instance (state : ClientState) : Decidable state.Leasing := inferInstanceAs (Decidable (_ ∧ _))

/-- Whenever the client may bind, an address was offered. -/
def Leases (n : Netif) (offered : Offer) : Prop :=
  ∀ dhcp ∈ n.dhcp, dhcp.state.Leasing → offered.ipAddr ≠ 0

theorem leases_attach {n : Netif} {offered : Offer} {dhcp : Dhcp}
    (known : dhcp.state.Leasing → offered.ipAddr ≠ 0) : Leases (n.attach dhcp) offered := by
  rintro _ ⟨rfl⟩ leasing
  exact known leasing

theorem leases_discover (n : Netif) (dhcp : Dhcp) (offered : Offer) :
    Leases (n.attach (dhcpDiscover dhcp)) offered :=
  leases_attach fun leasing => absurd (dhcpRequest_state .selecting dhcp) leasing.2.1

/-- **One reaction** keeps the lease known, and is no step or one step of the abstract client. -/
structure Reacts (n : Netif) (reaction : Netif × Offer) : Prop where
  leases : Leases reaction.1 reaction.2
  steps : reaction.1 = n ∨ ∃ event, clientStep n event = some reaction.1

variable {n : Netif} {dhcp : Dhcp} {offered : Offer}

theorem reacts_stay (known : Leases n offered) : Reacts n (n, offered) := ⟨known, .inl rfl⟩

theorem reacts_request (attached : n.dhcp = some dhcp) (notOff : dhcp.state ≠ .off)
    (request : Request) (known : (request.send dhcp).state.Leasing → offered.ipAddr ≠ 0) :
    Reacts n (n.attach (request.send dhcp), offered) :=
  ⟨leases_attach known,
    .inr ⟨.retry request, clientStep_eq_some.mpr ⟨dhcp, attached, notOff, rfl, nofun⟩⟩⟩

theorem reacts_discover (attached : n.dhcp = some dhcp) (notOff : dhcp.state ≠ .off) :
    Reacts n (discoverAgain n dhcp offered) :=
  ⟨leases_discover n dhcp _,
    .inr ⟨.retry .discover, clientStep_eq_some.mpr ⟨dhcp, attached, notOff, rfl, nofun⟩⟩⟩

theorem reacts_release (attached : n.dhcp = some dhcp) (notOff : dhcp.state ≠ .off) :
    Reacts n (releaseAndDiscover n dhcp offered) := by
  refine ⟨?_, .inr ⟨.release, clientStep_eq_some.mpr ⟨dhcp, attached, notOff, rfl, nofun⟩⟩⟩
  rintro _ ⟨rfl⟩ leasing
  exact absurd (dhcpRequest_state .selecting _) leasing.2.1

theorem reacts_bind (attached : n.dhcp = some dhcp) (notOff : dhcp.state ≠ .off)
    (nonzero : offered.ipAddr ≠ 0) : Reacts n (dhcpBind offered n dhcp, offered) := by
  refine ⟨fun _ _ _ => nonzero,
    .inr ⟨.bind offered, clientStep_eq_some.mpr ⟨dhcp, attached, notOff, rfl, ?_⟩⟩⟩
  rintro _ ⟨rfl⟩
  exact nonzero

theorem reacts_nak (attached : n.dhcp = some dhcp) (notOff : dhcp.state ≠ .off) :
    Reacts n (dhcpHandleNak n dhcp, { offered with ipAddr := 0 }) := by
  refine ⟨?_, .inr ⟨.nak, clientStep_eq_some.mpr ⟨dhcp, attached, notOff, rfl, nofun⟩⟩⟩
  rintro _ ⟨rfl⟩ leasing
  exact absurd (dhcpRequest_state .selecting _) leasing.2.1

/-! ### Every reaction is a step -/

theorem Leases.nonzero (known : Leases n offered) (attached : n.dhcp = some dhcp)
    {state : ClientState} (isState : dhcp.state = state) (leasing : state.Leasing) :
    offered.ipAddr ≠ 0 :=
  known dhcp attached (isState ▸ leasing)

theorem reacts_timeout (attached : n.dhcp = some dhcp) (known : Leases n offered) :
    Reacts n (dhcpTimeout n dhcp offered) := by
  unfold dhcpTimeout
  cases state : dhcp.state with
  | off => exact reacts_stay known
  | bound => exact reacts_stay known
  | backingOff => exact reacts_discover attached (by simp [state])
  | selecting => exact reacts_discover attached (by simp [state])
  | requesting =>
    have nonzero := known.nonzero attached state (by decide)
    dsimp only
    split
    · exact reacts_request attached (by simp [state]) .select fun _ => nonzero
    · exact reacts_release attached (by simp [state])
  | checking =>
    have nonzero := known.nonzero attached state (by decide)
    dsimp only
    split
    · exact reacts_request attached (by simp [state]) .check fun _ => nonzero
    · exact reacts_bind attached (by simp [state]) nonzero
  | renewing =>
    have nonzero := known.nonzero attached state (by decide)
    exact reacts_request attached (by simp [state]) .renew fun _ => nonzero
  | rebinding =>
    have nonzero := known.nonzero attached state (by decide)
    dsimp only
    split
    · exact reacts_request attached (by simp [state]) .rebind fun _ => nonzero
    · exact reacts_release attached (by simp [state])
  | rebooting =>
    have nonzero := known.nonzero attached state (by decide)
    dsimp only
    split
    · exact reacts_request attached (by simp [state]) .reboot fun _ => nonzero
    · exact reacts_discover attached (by simp [state])

theorem ClientState.HasLease.leasing {state : ClientState} (hasLease : state.HasLease) :
    state.Leasing := by
  rcases hasLease with rfl | rfl | rfl <;> decide

theorem ClientState.Extends.leasing {state : ClientState} (extending : state.Extends) :
    state.Leasing := by
  rcases extending with rfl | rfl | rfl <;> decide

/-- **Every reaction of the client is a step of the abstract client, or none.** -/
theorem reacts_apply (input : Input) (attached : n.dhcp = some dhcp) (known : Leases n offered)
    (nonzero : input.Nonzero) : Reacts n (input.apply n dhcp offered) := by
  cases input with
  | timeout => exact reacts_timeout attached known
  | t1Timeout =>
    simp only [Input.apply, dhcpT1Timeout]
    split
    · rename_i hasLease
      exact reacts_request attached hasLease.leasing.1 .renew fun _ =>
        known dhcp attached hasLease.leasing
    · exact reacts_stay known
  | t2Timeout =>
    simp only [Input.apply, dhcpT2Timeout]
    split
    · rename_i hasLease
      exact reacts_request attached hasLease.leasing.1 .rebind fun _ =>
        known dhcp attached hasLease.leasing
    · exact reacts_stay known
  | offer serverId yiaddr =>
    simp only [Input.apply, dhcpRecvOffer]
    split
    · rename_i taken
      exact reacts_request attached (by simp [taken.1]) .select fun _ => nonzero
    · exact reacts_stay known
  | ack lease =>
    simp only [Input.apply, dhcpRecvAck]
    split
    · rename_i requesting
      exact reacts_request attached (by simp [requesting]) .check fun _ => nonzero
    · split
      · rename_i extending
        exact reacts_bind attached extending.leasing.1 (known dhcp attached extending.leasing)
      · exact reacts_stay known
  | nak =>
    simp only [Input.apply, dhcpRecvNak]
    split
    · rename_i refused
      have notOff : dhcp.state ≠ .off := by
        rcases refused with requesting | extending
        · simp [requesting]
        · exact extending.leasing.1
      exact reacts_nak attached notOff
    · exact reacts_stay known
  | arpReply addr =>
    simp only [Input.apply, dhcpArpReply]
    split
    · rename_i taken
      exact reacts_request attached (by simp [taken.1]) .decline fun leasing =>
        absurd (dhcpRequest_state .backingOff dhcp) leasing.2.2
    · exact reacts_stay known

/-! ### The configuration with its client -/

/-- The globals of `netconf.c` and the lease that was offered last. -/
structure Lwip where
  net : NetState
  offered : Offer

/-- The client reacts to an input. -/
def Lwip.react (c : Lwip) (input : Input) : Lwip :=
  match c.net.netif.dhcp with
  | none => c
  | some dhcp =>
    let reaction := input.apply c.net.netif dhcp c.offered
    ⟨{ c.net with netif := reaction.1 }, reaction.2⟩

/-- The offered lease after a call of the state machine: `dhcp_start` clears it. -/
def Lwip.offeredAfter (c : Lwip) (localtime : UInt32) : Offer :=
  if c.net.Due localtime ∧ c.net.dhcpState = .start then ⟨0, none, 0⟩ else c.offered

/-- The timers of a lease. -/
inductive LeaseTimer where
  | t1
  | t2
  deriving DecidableEq

/-- What a timer of a lease makes the client do. -/
def LeaseTimer.input : LeaseTimer → Input
  | .t1 => .t1Timeout
  | .t2 => .t2Timeout

/-- `LwIP_Periodic_Handle` with the timers of the client: `dhcp_fine_tmr` runs before the state machine
and `dhcp_coarse_tmr` at the end. `fires` says whether the request timer has run down, and `lease`
which timer of the lease has, if any. -/
def Lwip.tick (c : Lwip) (localtime : UInt32) (resources : Resources) (fires : Bool)
    (lease : Option LeaseTimer) : Option Lwip := do
  let c := if due localtime c.net.timers.dhcpFine 500 && fires then c.react .timeout else c
  let (tasks, net) ← lwipPeriodicHandle resources localtime c.net
  let next : Lwip := ⟨net, c.offeredAfter localtime⟩
  return if .dhcpCoarse ∈ tasks then lease.elim next fun timer => next.react timer.input else next

/-- The steps of the code. -/
inductive CodeEvent where
  | line (line : List UInt8)
  | tick (localtime : UInt32) (resources : Resources) (fires : Bool) (lease : Option LeaseTimer)
  | receive (input : Input)

/-- One step of the code. -/
def codeStep (c : Lwip) : CodeEvent → Option Lwip
  | .line line => some { c with net := console line c.net }
  | .tick localtime resources fires lease => c.tick localtime resources fires lease
  | .receive input => some (c.react input)

/-- No step leases a zero address. -/
def CodeEvent.Nonzero (event : CodeEvent) : Prop := ∀ input, event = .receive input → input.Nonzero

/-- The configuration after `LwIP_Init`, with nothing offered. -/
def Lwip.initial : Lwip := ⟨lwipInit, ⟨0, none, 0⟩⟩

/-! ### The refinement -/

/-- **The refinement.** The configuration is one that abstract steps reach, and the client knows its
lease. -/
structure Lwip.Good (c : Lwip) : Prop where
  reached : Reachable step lwipInit c.net
  leases : Leases c.net.netif c.offered

theorem good_initial : Lwip.initial.Good := ⟨.refl _, nofun⟩

theorem good_react {c : Lwip} (good : c.Good) {input : Input} (nonzero : input.Nonzero) :
    (c.react input).Good := by
  unfold Lwip.react
  rcases attached : c.net.netif.dhcp with _ | dhcp
  · exact good
  · obtain ⟨leases, steps⟩ := reacts_apply input attached good.leases nonzero
    refine ⟨?_, leases⟩
    rcases steps with same | ⟨event, stepped⟩
    · dsimp only
      rw [same]
      exact good.reached
    · have taken : run step c.net [.client event] =
          some { c.net with netif := (input.apply c.net.netif dhcp c.offered).1 } := by
        rw [run_singleton, step, stepped]
        rfl
      exact good.reached.run taken

theorem leases_dhcpStop (n : Netif) (offered : Offer) : Leases (dhcpStop n) offered := by
  intro dhcp attached leasing
  exact absurd ⟨dhcp, attached, leasing.1⟩ (running_dhcpStop n)

/-- A client that was just started is not on the way to a lease. -/
theorem leases_dhcpStart {resources : Resources} (ethernet : n.Ethernet) :
    Leases (dhcpStart resources n).2 offered := by
  have large : ¬ n.mtu < 576 := Nat.not_lt.mpr ethernet.mtu
  simp only [dhcpStart, ethernet.etharp, large, not_true_eq_false, if_false]
  split
  · rename_i detached
    intro dhcp attached
    have none : n.dhcp = none := Option.isNone_iff_eq_none.mp detached.1
    simp [none] at attached
  · split
    · rintro _ ⟨rfl⟩ leasing
      exact absurd rfl leasing.1
    · split
      · exact leases_discover { n with dhcpFlag := true } _ _
      · exact leases_dhcpStop _ _

/-- A call of the state machine leaves a client that knows its lease. -/
theorem good_periodic {c : Lwip} (good : c.Good) {localtime : UInt32} {resources : Resources}
    {net : NetState} (taken : step c.net (.tick localtime resources) = some net) :
    (⟨net, c.offeredAfter localtime⟩ : Lwip).Good := by
  refine ⟨good.reached.run ((run_singleton _ _).trans taken), ?_⟩
  have started : ¬ (c.net.Due localtime ∧ c.net.dhcpState = .start) →
      Leases c.net.netif (c.offeredAfter localtime) := by
    intro other
    rw [Lwip.offeredAfter, if_neg other]
    exact good.leases
  cases taken_of_step taken with
  | rest _ _ idle =>
    refine started fun both => ?_
    exact absurd idle (not_or.mpr ⟨not_not.mpr both.1, not_settled_of_start both.2⟩)
  | start => exact leases_dhcpStart (ethernet_of_reachable good.reached).cleared
  | assign => exact leases_dhcpStop _ _
  | fallBack => exact leases_dhcpStop c.net.netif _
  | wait _ _ _ waiting => exact started fun both => by simp [waiting] at both

theorem good_tick {c next : Lwip} (good : c.Good) {localtime : UInt32} {resources : Resources}
    {fires : Bool} {lease : Option LeaseTimer}
    (taken : c.tick localtime resources fires lease = some next) : next.Good := by
  have fine : (if due localtime c.net.timers.dhcpFine 500 && fires then c.react .timeout
      else c).Good := by
    split
    · exact good_react good trivial
    · exact good
  simp only [Lwip.tick] at taken
  generalize (if due localtime c.net.timers.dhcpFine 500 && fires then c.react .timeout else c) =
    mid at taken fine
  obtain ⟨⟨tasks, net⟩, handled, same⟩ := Option.bind_eq_some_iff.mp taken
  have settled : (⟨net, mid.offeredAfter localtime⟩ : Lwip).Good :=
    good_periodic fine (by rw [step, handled]; rfl)
  rw [← Option.some.inj same]
  split
  · cases lease with
    | none => exact settled
    | some timer => cases timer <;> exact good_react settled trivial
  · exact settled

theorem good_step (c : Lwip) (event : CodeEvent) (next : Lwip) (good : c.Good)
    (nonzero : event.Nonzero) (taken : codeStep c event = some next) : next.Good := by
  cases event with
  | line line =>
    rw [← Option.some.inj taken]
    have moved : run step c.net [.line line] = some (console line c.net) := run_singleton _ _
    refine ⟨good.reached.run moved, ?_⟩
    have same : (console line c.net).netif.dhcp = c.net.netif.dhcp := by
      have kinds := taken_line c.net line
      generalize console line c.net = after at kinds ⊢
      cases kinds <;> rfl
    intro dhcp attached
    exact good.leases dhcp (same ▸ attached)
  | tick localtime resources fires lease => exact good_tick good taken
  | receive input =>
    rw [← Option.some.inj taken]
    exact good_react good (nonzero input rfl)

/-- **The code refines the abstract steps.** In every run of the code in which no server leases the
zero address, every configuration is one that the abstract steps reach. -/
theorem code_refines (events : List CodeEvent) (nonzero : ∀ event ∈ events, event.Nonzero) :
    Always codeStep (fun c => Reachable step lwipInit c.net) Lwip.initial events :=
  (always_of_along good_step events Lwip.initial good_initial
    (along_of_forall events _ nonzero)).mono fun _ good => good.reached

/-- So in every run of the code a settled address is there, is shown, and stays. -/
theorem consistent_of_code (events : List CodeEvent) (nonzero : ∀ event ∈ events, event.Nonzero) :
    Always codeStep (fun c => Consistent c.net) Lwip.initial events :=
  (code_refines events nonzero).mono fun _ reached => consistent_of_reachable reached

/-- An offer is taken up, `static` is typed, and the server refuses the request: the address is gone. -/
example : (run codeStep Lwip.initial [.tick 500 plenty false none,
    .receive (.offer true lease.ipAddr), .line staticLine, .receive .nak]).map
    (fun c => c.net.netif.ipAddr) = some 0 := by decide +kernel

/-- The request is refused and four more time out: the fallback leaves the interface down. -/
example : (run codeStep Lwip.initial [.tick 500 plenty false none,
    .receive (.offer true lease.ipAddr), .receive .nak, .tick 1000 plenty true none,
    .tick 1500 plenty true none, .tick 2000 plenty true none, .tick 2500 plenty true none]).map
    (fun c => (c.net.dhcpState, c.net.netif.isUp)) = some (.timeout, false) := by decide +kernel

/-- A lease that is acknowledged between two calls is lost to a `static` with an argument. -/
example : (run codeStep Lwip.initial [.tick 500 plenty false none,
    .receive (.offer true lease.ipAddr), .tick 60000 plenty false (some .t2), .receive (.ack lease),
    .line staticArgument, .tick 60500 plenty false none]).map
    (fun c => (c.net.dhcpState, c.net.ipaddr)) = some (.waitAddress, 0) := by decide +kernel

end ULoader.Net

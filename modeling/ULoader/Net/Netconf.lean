/-
**The network configuration.**

The globals of `netconf.c` and the functions that change them: `lwip_dhcp_start` and `lwip_static`,
which the shell calls, and `LwIP_Periodic_Handle`, which the main loop calls with the current time and
which runs the DHCP state machine `LwIP_DHCP_Process_Handle`.

The state machine reads `netif.dhcp->tries` without a check, so its model is partial: `none` is a read
through a NULL pointer.
-/

import ULoader.Lib.ByteOrder
import ULoader.Net.Dhcp
import ULoader.Shell.Parser

namespace ULoader.Net

open ByteOrder Shell

/-! ### The globals -/

/-- `DHCP_state`. -/
inductive DhcpState where
  | start
  | waitAddress
  | addressAssigned
  | timeout
  deriving DecidableEq, Repr

/-- `TCPTimer`, `ARPTimer`, `DHCPfineTimer` and `DHCPcoarseTimer`. -/
structure Timers where
  tcp : UInt32 := 0
  arp : UInt32 := 0
  dhcpFine : UInt32 := 0
  dhcpCoarse : UInt32 := 0
  deriving DecidableEq, Repr

/-- The globals of `netconf.c`; `ipAddress` is `IPaddress`. -/
structure NetState where
  netif : Netif
  ipaddr : UInt32
  ipAddress : UInt32
  dhcpState : DhcpState
  timers : Timers
  deriving DecidableEq, Repr

/-- The periodic tasks of `LwIP_Periodic_Handle`. -/
inductive Task where
  | tcp
  | arp
  | dhcpFine
  | dhcpCoarse
  deriving DecidableEq, Repr

/-- `IP_ADDR0.IP_ADDR1.IP_ADDR2.IP_ADDR3`. -/
def staticAddr : UInt32 := ip4Addr 192 168 0 100

/-- `NETMASK_ADDR0.NETMASK_ADDR1.NETMASK_ADDR2.NETMASK_ADDR3`. -/
def staticNetmask : UInt32 := ip4Addr 255 255 255 0

/-- `GW_ADDR0.GW_ADDR1.GW_ADDR2.GW_ADDR3`. -/
def staticGw : UInt32 := ip4Addr 192 168 0 1

/-- `MAX_DHCP_TRIES`. -/
def maxDhcpTries : UInt8 := 4

/-- The globals after `LwIP_Init`: the interface is up and has no address and no DHCP client. -/
def lwipInit : NetState where
  netif :=
    { ipAddr := 0, netmask := 0, gw := 0, isUp := true, etharp := true, dhcpFlag := false,
      mtu := 1500, dhcp := none }
  ipaddr := 0
  ipAddress := 0
  dhcpState := .start
  timers := {}

/-! ### The commands -/

/-- `lwip_dhcp_start`. -/
def lwipDhcpStart (s : NetState) : NetState := { s with dhcpState := .start }

/-- `lwip_static` takes a line as one without an argument when it is no longer than `static` and two
more characters: `cmd_size <= sizeof("static") + 1`. -/
def NoArgument (line : List UInt8) : Prop := strlen line ≤ 7 + 1

instance (line : List UInt8) : Decidable (NoArgument line) := inferInstanceAs (Decidable (_ ≤ _))

/-- `lwip_static`. An argument is not looked at; the interface then gets the address that is already
in `ipaddr`. -/
def lwipStatic (line : List UInt8) (s : NetState) : NetState :=
  let s : NetState := if NoArgument line then { s with ipaddr := staticAddr } else s
  { s with netif := s.netif.setIpaddr s.ipaddr }

/-- What a command line does to the network configuration. -/
def console (line : List UInt8) (s : NetState) : NetState :=
  match parser line with
  | .dhcp => lwipDhcpStart s
  | .static => lwipStatic line s
  | _ => s

/-! ### The state machine -/

/-- `LwIP_DHCP_Process_Handle`. -/
def lwipDhcpProcessHandle (resources : Resources) (s : NetState) : Option NetState :=
  match s.dhcpState with
  | .start =>
    some { s with
      netif := (dhcpStart resources { s.netif with ipAddr := 0 }).2
      ipAddress := 0
      ipaddr := 0
      dhcpState := .waitAddress }
  | .waitAddress =>
    let s : NetState := { s with ipAddress := s.netif.ipAddr }
    if s.ipAddress ≠ 0 then
      some { s with
        ipaddr := s.netif.ipAddr
        dhcpState := .addressAssigned
        netif := dhcpStop s.netif }
    else
      s.netif.dhcp.map fun dhcp =>
        if dhcp.tries > maxDhcpTries then
          { s with
            dhcpState := .timeout
            ipaddr := staticAddr
            netif := (dhcpStop s.netif).setAddr staticAddr staticNetmask staticGw }
        else s
  | _ => some s

/-- The state machine has come to an end: `DHCP_ADDRESS_ASSIGNED` or `DHCP_TIMEOUT`. -/
def NetState.Settled (s : NetState) : Prop :=
  s.dhcpState = .addressAssigned ∨ s.dhcpState = .timeout

instance (s : NetState) : Decidable s.Settled := inferInstanceAs (Decidable (_ ∨ _))

/-- The test of a periodic task, in the wrapping arithmetic of `uint32_t`. -/
def due (localtime timer interval : UInt32) : Bool := interval ≤ localtime - timer

/-- `LwIP_Periodic_Handle`: the tasks it runs, and the globals after it. What `dhcp_fine_tmr` and
`dhcp_coarse_tmr` make the DHCP client do are steps of the client, right before the state machine
and at the end. -/
def lwipPeriodicHandle (resources : Resources) (localtime : UInt32) (s : NetState) :
    Option (List Task × NetState) := do
  let (tcp, s) :=
    if due localtime s.timers.tcp 250 then
      ([Task.tcp], { s with timers := { s.timers with tcp := localtime } })
    else ([], s)
  let (arp, s) :=
    if due localtime s.timers.arp 5000 then
      ([Task.arp], { s with timers := { s.timers with arp := localtime } })
    else ([], s)
  let (fine, s) ←
    if due localtime s.timers.dhcpFine 500 then
      let s : NetState := { s with timers := { s.timers with dhcpFine := localtime } }
      let s ← if ¬ s.Settled then lwipDhcpProcessHandle resources s else some s
      pure ([Task.dhcpFine], s)
    else pure ([], s)
  let (coarse, s) :=
    if due localtime s.timers.dhcpCoarse 60000 then
      ([Task.dhcpCoarse], { s with timers := { s.timers with dhcpCoarse := localtime } })
    else ([], s)
  return (tcp ++ arp ++ fine ++ coarse, s)

/-! ### One call of the periodic handler -/

/-- The timers after a call: those that were due are set to the time of the call. -/
def Timers.after (timers : Timers) (localtime : UInt32) : Timers where
  tcp := if due localtime timers.tcp 250 then localtime else timers.tcp
  arp := if due localtime timers.arp 5000 then localtime else timers.arp
  dhcpFine := if due localtime timers.dhcpFine 500 then localtime else timers.dhcpFine
  dhcpCoarse := if due localtime timers.dhcpCoarse 60000 then localtime else timers.dhcpCoarse

/-- The tasks a call runs. -/
def Timers.tasks (timers : Timers) (localtime : UInt32) : List Task :=
  (if due localtime timers.tcp 250 then [.tcp] else []) ++
    (if due localtime timers.arp 5000 then [.arp] else []) ++
    (if due localtime timers.dhcpFine 500 then [.dhcpFine] else []) ++
    if due localtime timers.dhcpCoarse 60000 then [.dhcpCoarse] else []

/-- The state machine does not look at the timers. -/
theorem lwipDhcpProcessHandle_timers (resources : Resources) (s : NetState) (timers : Timers) :
    lwipDhcpProcessHandle resources { s with timers := timers } =
      (lwipDhcpProcessHandle resources s).map fun next => { next with timers := timers } := by
  obtain ⟨netif, ipaddr, ipAddress, dhcpState, before⟩ := s
  unfold lwipDhcpProcessHandle
  cases dhcpState with
  | start => rfl
  | waitAddress =>
    dsimp only
    split
    · rfl
    · rw [Option.map_map]
      refine congrArg (Option.map · netif.dhcp) (funext fun dhcp => ?_)
      simp only [Function.comp_apply]
      split <;> rfl
  | addressAssigned => rfl
  | timeout => rfl

/-- **One call of `LwIP_Periodic_Handle`**: the timers and the tasks go by the time alone, and the state
machine runs when its timer is due and it has not come to an end. -/
theorem lwipPeriodicHandle_eq (resources : Resources) (localtime : UInt32) (s : NetState) :
    lwipPeriodicHandle resources localtime s =
      (if due localtime s.timers.dhcpFine 500 ∧ ¬ s.Settled then lwipDhcpProcessHandle resources s
        else some s).map fun next =>
          (s.timers.tasks localtime, { next with timers := s.timers.after localtime }) := by
  have settled (timers : Timers) : ({ s with timers := timers } : NetState).Settled ↔ s.Settled :=
    Iff.rfl
  unfold lwipPeriodicHandle Timers.tasks Timers.after
  by_cases fine : due localtime s.timers.dhcpFine 500
  · by_cases ended : s.Settled
    · by_cases tcp : due localtime s.timers.tcp 250 <;>
        by_cases arp : due localtime s.timers.arp 5000 <;>
        by_cases coarse : due localtime s.timers.dhcpCoarse 60000 <;>
        simp [tcp, arp, fine, coarse, ended, settled]
    -- Only here is the state machine called.
    · cases handled : lwipDhcpProcessHandle resources s <;>
        by_cases tcp : due localtime s.timers.tcp 250 <;>
        by_cases arp : due localtime s.timers.arp 5000 <;>
        by_cases coarse : due localtime s.timers.dhcpCoarse 60000 <;>
        simp [tcp, arp, fine, coarse, ended, settled, lwipDhcpProcessHandle_timers, handled]
  · by_cases tcp : due localtime s.timers.tcp 250 <;>
      by_cases arp : due localtime s.timers.arp 5000 <;>
      by_cases coarse : due localtime s.timers.dhcpCoarse 60000 <;>
      simp [tcp, arp, fine, coarse]

end ULoader.Net

/-
**The network configuration as a step system.**

The steps are a command line, a call of `LwIP_Periodic_Handle` at any time and with any outcome of
the allocators, and a step of the running DHCP client. They come in any order.

`Taken` says once what a step can do, one constructor for each way through the code; every invariant
of the configuration is a case analysis over it. A call at a time when the state machine is due always
exists (`due_soon`), so its branches can be taken from any state.
-/

import ULoader.Lib.StepSystem
import ULoader.Net.Netconf

namespace ULoader.Net

open Shell StepSystem

/-- The steps of the configuration. -/
inductive Event where
  | line (line : List UInt8)
  | tick (localtime : UInt32) (resources : Resources)
  | client (event : ClientEvent)
  deriving DecidableEq, Repr

/-- One step. `none`: a step of a client that does not run, or a read through a NULL pointer. -/
def step (s : NetState) : Event → Option NetState
  | .line line => some (console line s)
  | .tick localtime resources => (lwipPeriodicHandle resources localtime s).map Prod.snd
  | .client event => (clientStep s.netif event).map fun netif => { s with netif := netif }

/-- A call at this time runs the state machine. -/
def NetState.Due (s : NetState) (localtime : UInt32) : Prop :=
  due localtime s.timers.dhcpFine 500 = true

instance (s : NetState) (localtime : UInt32) : Decidable (s.Due localtime) :=
  inferInstanceAs (Decidable (_ = _))

/-- The state machine's next call falls back to the static address. -/
def NetState.OutOfTries (s : NetState) : Prop :=
  s.netif.ipAddr = 0 ∧ ∃ dhcp ∈ s.netif.dhcp, dhcp.tries > maxDhcpTries

instance (s : NetState) : Decidable s.OutOfTries :=
  inferInstanceAs (Decidable (_ ∧ ∃ dhcp ∈ s.netif.dhcp, _))

/-- What a step can do. -/
inductive Taken (s : NetState) : Event → NetState → Prop where
  | quiet (line : List UInt8) (notDhcp : parser line ≠ .dhcp) (notStatic : parser line ≠ .static) :
    Taken s (.line line) s
  | dhcp (line : List UInt8) (isDhcp : parser line = .dhcp) :
    Taken s (.line line) { s with dhcpState := .start }
  | static (line : List UInt8) (isStatic : parser line = .static) (bare : NoArgument line) :
    Taken s (.line line) { s with ipaddr := staticAddr, netif := s.netif.setIpaddr staticAddr }
  | stale (line : List UInt8) (isStatic : parser line = .static) (argument : ¬ NoArgument line) :
    Taken s (.line line) { s with netif := s.netif.setIpaddr s.ipaddr }
  | rest (localtime : UInt32) (resources : Resources) (idle : ¬ s.Due localtime ∨ s.Settled) :
    Taken s (.tick localtime resources) { s with timers := s.timers.after localtime }
  | start (localtime : UInt32) (resources : Resources) (isDue : s.Due localtime)
    (starting : s.dhcpState = .start) :
    Taken s (.tick localtime resources)
      { netif := (dhcpStart resources { s.netif with ipAddr := 0 }).2, ipaddr := 0, ipAddress := 0,
        dhcpState := .waitAddress, timers := s.timers.after localtime }
  | assign (localtime : UInt32) (resources : Resources) (isDue : s.Due localtime)
    (waiting : s.dhcpState = .waitAddress) (bound : s.netif.ipAddr ≠ 0) :
    Taken s (.tick localtime resources)
      { netif := dhcpStop s.netif, ipaddr := s.netif.ipAddr, ipAddress := s.netif.ipAddr,
        dhcpState := .addressAssigned, timers := s.timers.after localtime }
  | fallBack (localtime : UInt32) (resources : Resources) (isDue : s.Due localtime)
    (waiting : s.dhcpState = .waitAddress) (out : s.OutOfTries) :
    Taken s (.tick localtime resources)
      { netif := (dhcpStop s.netif).setAddr staticAddr staticNetmask staticGw, ipaddr := staticAddr,
        ipAddress := s.netif.ipAddr, dhcpState := .timeout, timers := s.timers.after localtime }
  | wait (localtime : UInt32) (resources : Resources) (isDue : s.Due localtime)
    (waiting : s.dhcpState = .waitAddress) (unbound : s.netif.ipAddr = 0) (notOut : ¬ s.OutOfTries) :
    Taken s (.tick localtime resources)
      { s with ipAddress := s.netif.ipAddr, timers := s.timers.after localtime }
  | client (event : ClientEvent) (netif : Netif) (stepped : clientStep s.netif event = some netif) :
    Taken s (.client event) { s with netif := netif }

theorem not_settled_of_start {s : NetState} (starting : s.dhcpState = .start) : ¬ s.Settled := by
  simp [NetState.Settled, starting]

theorem not_settled_of_waiting {s : NetState} (waiting : s.dhcpState = .waitAddress) :
    ¬ s.Settled := by
  simp [NetState.Settled, waiting]

/-! ### Every step is one of these -/

theorem taken_line (s : NetState) (line : List UInt8) : Taken s (.line line) (console line s) := by
  by_cases isDhcp : parser line = .dhcp
  · simpa only [console, isDhcp, lwipDhcpStart] using Taken.dhcp line isDhcp
  by_cases isStatic : parser line = .static
  · by_cases bare : NoArgument line
    · simpa only [console, isStatic, lwipStatic, bare, if_true] using Taken.static line isStatic bare
    · simpa only [console, isStatic, lwipStatic, bare, if_false] using
        Taken.stale line isStatic bare
  · have same : console line s = s := by
      unfold console
      split
      · contradiction
      · contradiction
      · rfl
    rw [same]
    exact .quiet line isDhcp isStatic

/-- What the state machine does when it is called. -/
theorem taken_handle {s next : NetState} {localtime : UInt32} {resources : Resources}
    (isDue : s.Due localtime) (ended : ¬ s.Settled)
    (handled : lwipDhcpProcessHandle resources s = some next) :
    Taken s (.tick localtime resources) { next with timers := s.timers.after localtime } := by
  cases stage : s.dhcpState with
  | start =>
    simp only [lwipDhcpProcessHandle, stage, Option.some.injEq] at handled
    rw [← handled]
    exact .start localtime resources isDue stage
  | waitAddress =>
    simp only [lwipDhcpProcessHandle, stage] at handled
    split at handled
    · rename_i bound
      rw [← Option.some.inj handled]
      exact .assign localtime resources isDue stage bound
    · rename_i unbound
      have zero : s.netif.ipAddr = 0 := not_not.mp unbound
      obtain ⟨dhcp, attached, same⟩ := Option.map_eq_some_iff.mp handled
      rw [← same]
      split
      · rename_i out
        exact .fallBack localtime resources isDue stage ⟨zero, dhcp, attached, out⟩
      · rename_i notOut
        have := Taken.wait localtime resources isDue stage zero fun ⟨_, other, isOther, out⟩ =>
          notOut (Option.some.inj (attached.symm.trans isOther) ▸ out)
        rwa [stage] at this
  | addressAssigned => exact absurd (.inl stage) ended
  | timeout => exact absurd (.inr stage) ended

/-- **What a step can do.** -/
theorem taken_of_step {s next : NetState} {event : Event} (taken : step s event = some next) :
    Taken s event next := by
  cases event with
  | line line =>
    rw [← Option.some.inj taken]
    exact taken_line s line
  | tick localtime resources =>
    simp only [step, lwipPeriodicHandle_eq, Option.map_map, Option.map_eq_some_iff] at taken
    obtain ⟨mid, handled, rfl⟩ := taken
    split at handled
    · rename_i called
      exact taken_handle called.1 called.2 handled
    · rename_i notCalled
      rw [← Option.some.inj handled]
      exact .rest localtime resources (not_and_or.mp notCalled |>.imp_right not_not.mp)
  | client event =>
    obtain ⟨netif, stepped, rfl⟩ := Option.map_eq_some_iff.mp taken
    exact .client event netif stepped

/-! ### Steps that can be taken -/

/-- There is always a time at which the state machine is due. -/
theorem due_soon (s : NetState) : s.Due (s.timers.dhcpFine + 500) := by
  have elapsed : s.timers.dhcpFine + 500 - s.timers.dhcpFine = 500 := by grind
  simp [NetState.Due, due, elapsed]

/-- A call that is due runs the state machine. -/
theorem step_tick {s next : NetState} {localtime : UInt32} {resources : Resources}
    (isDue : s.Due localtime) (ended : ¬ s.Settled)
    (handled : lwipDhcpProcessHandle resources s = some next) :
    step s (.tick localtime resources) =
      some { next with timers := s.timers.after localtime } := by
  have called : due localtime s.timers.dhcpFine 500 ∧ ¬ s.Settled := ⟨isDue, ended⟩
  simp only [step, lwipPeriodicHandle_eq, called, not_false_eq_true, and_self, if_true, handled,
    Option.map_some]

/-- No step changes what kind of interface it is. -/
theorem ethernet_step (s : NetState) (event : Event) (next : NetState) (ethernet : s.netif.Ethernet)
    (taken : step s event = some next) : next.netif.Ethernet := by
  cases taken_of_step taken with
  | start => exact dhcpStart_ethernet ethernet.cleared
  | client event netif stepped =>
    obtain ⟨dhcp, _, _, rfl, _⟩ := clientStep_eq_some.mp stepped
    exact apply_ethernet dhcp event ethernet
  | _ => exact ⟨ethernet.etharp, ethernet.mtu⟩

theorem ethernet_of_reachable {s : NetState} (reached : Reachable step lwipInit s) :
    s.netif.Ethernet :=
  reached.invariant ⟨by decide, by decide⟩ ethernet_step

end ULoader.Net

/-
**Waiting for an address.**

Two questions about `DHCP_WAIT_ADDRESS`.

* `waiting_served_iff` — does a DHCP client run while the state machine waits without an address?
  `LwIP_DHCP_Process_Handle` ignores what `dhcp_start` returns, so it does exactly when every
  `dhcp_start` gets what it asks for. Otherwise nobody counts tries, the fallback to the static
  address is out of reach, and without a heap block the state machine reads through a NULL pointer.
* `lease_kept_iff` — does a lease survive the commands typed before the next call? A `static` with an
  argument writes the old `ipaddr` over it, so it does exactly when there is no such command, or
  `ipaddr` was already the address of the lease.
-/

import ULoader.Net.Settled

namespace ULoader.Net

open Shell StepSystem

/-! ### The fallback -/

/-- The fallback to the static address can be reached without a command. -/
def CanFallBack (s : NetState) : Prop :=
  ∃ events final, (∀ line, .line line ∉ events) ∧ run step s events = some final ∧
    final.dhcpState = .timeout

/-- The configuration with another client attached to the interface. -/
def NetState.attach (s : NetState) (dhcp : Dhcp) : NetState :=
  { s with netif := { s.netif with dhcp := some dhcp } }

theorem run_retries (requests : List Request) : ∀ {s : NetState} {dhcp : Dhcp},
    s.netif.dhcp = some dhcp → dhcp.state ≠ .off →
    run step s (requests.map fun request => .client (.retry request)) =
      some (s.attach (requests.foldl (fun dhcp request => request.send dhcp) dhcp)) := by
  induction requests with
  | nil =>
    intro s dhcp attached _
    simp only [NetState.attach, List.map_nil, run_nil, List.foldl_nil, ← attached]
  | cons request rest ih =>
    intro s dhcp attached notOff
    have stepped : clientStep s.netif (.retry request) =
        some { s.netif with dhcp := some (request.send dhcp) } :=
      clientStep_eq_some.mpr ⟨dhcp, attached, notOff, rfl, nofun⟩
    rw [List.map_cons, run_cons, step, stepped, Option.map_some, Option.bind_some, List.foldl_cons]
    exact ih rfl (request.send_state dhcp)

/-- Requests that bring the number of tries to five, whatever it was. -/
def fiveTries : List Request := [.select, .discover, .discover, .discover, .discover, .discover]

theorem tries_fiveTries (dhcp : Dhcp) :
    (fiveTries.foldl (fun dhcp request => request.send dhcp) dhcp).tries = 5 := by
  simp [fiveTries, Request.send, dhcpDiscover, dhcpSelect, dhcpRequest_tries, dhcpRequest_state]

/-- **A running client can run out of tries.** -/
theorem canFallBack_of_running {s : NetState} (waiting : s.dhcpState = .waitAddress)
    (unbound : s.netif.ipAddr = 0) (running : s.netif.Running) : CanFallBack s := by
  obtain ⟨dhcp, attached, notOff⟩ := running
  let tried := s.attach (fiveTries.foldl (fun dhcp request => request.send dhcp) dhcp)
  have handled : ∃ next, lwipDhcpProcessHandle plenty tried = some next ∧
      next.dhcpState = .timeout := by
    simp [lwipDhcpProcessHandle, tried, NetState.attach, waiting, unbound, tries_fiveTries,
      maxDhcpTries]
  obtain ⟨next, handled, stage⟩ := handled
  have ticked := step_tick (due_soon tried) (not_settled_of_waiting (s := tried) waiting) handled
  refine ⟨fiveTries.map (fun request => .client (.retry request)) ++
    [.tick (tried.timers.dhcpFine + 500) plenty],
    { next with timers := tried.timers.after (tried.timers.dhcpFine + 500) }, by simp, ?_, stage⟩
  rw [run_append, run_retries fiveTries attached notOff, Option.bind_some, run_singleton]
  exact ticked

/-! ### Waiting with a client -/

/-- While the state machine waits without an address, a client runs; its tries can be read, and the
fallback is within reach. -/
def Served (s : NetState) : Prop :=
  s.dhcpState = .waitAddress → s.netif.ipAddr = 0 →
    s.netif.Running ∧ (∀ resources, (lwipDhcpProcessHandle resources s).isSome) ∧ CanFallBack s

/-- A call that starts the DHCP client gets what `dhcp_start` asks for. -/
def StartsSupplied (s : NetState) (event : Event) : Prop :=
  ∀ localtime resources, event = .tick localtime resources → s.Due localtime →
    s.dhcpState = .start → resources.Suffice s.netif

/-- The invariant of the runs in which `dhcp_start` succeeds. -/
structure WaitingRuns (s : NetState) : Prop where
  running : s.dhcpState = .waitAddress → s.netif.Running
  ethernet : s.netif.Ethernet

theorem served_of_running {s : NetState} (running : s.dhcpState = .waitAddress → s.netif.Running) :
    Served s := by
  intro waiting unbound
  refine ⟨running waiting, fun resources => ?_,
    canFallBack_of_running waiting unbound (running waiting)⟩
  obtain ⟨dhcp, attached, _⟩ := running waiting
  rw [Option.mem_def] at attached
  simp [lwipDhcpProcessHandle, waiting, unbound, attached]

theorem waitingRuns_step (s : NetState) (event : Event) (next : NetState) (holds : WaitingRuns s)
    (supplied : StartsSupplied s event) (taken : step s event = some next) : WaitingRuns next := by
  refine ⟨?_, ethernet_step s event next holds.ethernet taken⟩
  cases taken_of_step taken with
  | dhcp => exact nofun
  | start localtime resources isDue starting =>
    exact fun _ => (running_dhcpStart holds.ethernet.cleared).mpr
      (supplied localtime resources rfl isDue starting)
  | assign => exact nofun
  | fallBack => exact nofun
  | client event netif stepped => exact fun _ => (running_clientStep stepped).2
  | _ => exact holds.running

/-- A start that leaves a client running got what it asked for. -/
theorem supplied_of_served (s : NetState) (event : Event) (next : NetState) (holds : WaitingRuns s)
    (taken : step s event = some next) (served : Served next) : StartsSupplied s event := by
  rintro localtime resources rfl isDue starting
  cases taken_of_step taken with
  | rest _ _ idle =>
    exact absurd idle (not_or.mpr ⟨not_not.mpr isDue, not_settled_of_start starting⟩)
  | start =>
    exact (running_dhcpStart holds.ethernet.cleared).mp (served rfl (dhcpStart_frame _ _).1).1
  | assign _ _ _ waiting => rw [starting] at waiting; cases waiting
  | fallBack _ _ _ waiting => rw [starting] at waiting; cases waiting
  | wait _ _ _ waiting => rw [starting] at waiting; cases waiting

/-- **When waiting is served.** In a run from the start, a client runs in every state in which the
state machine waits without an address, with its tries readable and the fallback within reach, if
and only if every call that starts the client finds the heap block (unless a client is already
attached), the control block and the message buffer that `dhcp_start` asks for. -/
theorem waiting_served_iff (events : List Event) :
    Always step Served lwipInit events ↔ Along step StartsSupplied lwipInit events :=
  always_iff_along waitingRuns_step (fun s holds => served_of_running holds.running)
    supplied_of_served events lwipInit ⟨nofun, by decide, by decide⟩

/-- **A start without memory.** The first call finds no heap block: the state machine waits without a
client, and its next call reads `netif.dhcp->tries` through a NULL pointer. -/
theorem waiting_without_client :
    ∃ s, run step lwipInit [.tick 500 ⟨false, some 0, true⟩] = some s ∧
      s.dhcpState = .waitAddress ∧ s.netif.ipAddr = 0 ∧ s.netif.dhcp = none ∧
      lwipDhcpProcessHandle plenty s = none := by
  have started : (run step lwipInit [.tick 500 ⟨false, some 0, true⟩]).map
      (fun s => (s.dhcpState, s.netif.ipAddr, s.netif.dhcp, lwipDhcpProcessHandle plenty s)) =
      some (.waitAddress, 0, none, none) := by decide +kernel
  obtain ⟨s, reached, shown⟩ := Option.map_eq_some_iff.mp started
  simp only [Prod.mk.injEq] at shown
  exact ⟨s, reached, shown⟩

/-! ### A lease and the commands behind it -/

/-- The configuration after a sequence of command lines. -/
def consoleLines (lines : List (List UInt8)) (s : NetState) : NetState :=
  lines.foldl (fun s line => console line s) s

/-- Neither `dhcp` nor `static` without an argument. -/
def Harmless (line : List UInt8) : Prop :=
  parser line ≠ .dhcp ∧ (parser line = .static → ¬ NoArgument line)

theorem console_harmless {line : List UInt8} (harmless : Harmless line) (s : NetState) :
    console line s =
      if parser line = .static then { s with netif := s.netif.setIpaddr s.ipaddr } else s := by
  have same := taken_line s line
  generalize console line s = next at same ⊢
  cases same with
  | quiet _ notDhcp notStatic => rw [if_neg notStatic]
  | dhcp _ isDhcp => exact absurd isDhcp harmless.1
  | static _ isStatic bare => exact absurd bare (harmless.2 isStatic)
  | stale _ isStatic => rw [if_pos isStatic]

/-- Of such lines only a `static` has an effect: the interface gets the address in `ipaddr`. -/
theorem consoleLines_harmless (lines : List (List UInt8)) :
    ∀ s : NetState, (∀ line ∈ lines, Harmless line) →
      consoleLines lines s =
        if ∀ line ∈ lines, parser line ≠ .static then s
        else { s with netif := s.netif.setIpaddr s.ipaddr } := by
  induction lines with
  | nil => exact fun s _ => by simp [consoleLines]
  | cons line rest ih =>
    intro s harmless
    obtain ⟨first, others⟩ := List.forall_mem_cons.mp harmless
    have unrolled : consoleLines (line :: rest) s = consoleLines rest (console line s) := rfl
    rw [unrolled, ih _ others, console_harmless first]
    by_cases isStatic : parser line = .static
    · simp [isStatic, Netif.setIpaddr]
    · simp [isStatic]

/-- The next call of the state machine takes the address over that the interface has. -/
theorem takenOver_iff {s : NetState} (waiting : s.dhcpState = .waitAddress) (resources : Resources)
    {addr : UInt32} (nonzero : addr ≠ 0) :
    (∃ next, lwipDhcpProcessHandle resources s = some next ∧
        next.dhcpState = .addressAssigned ∧ next.ipaddr = addr) ↔ s.netif.ipAddr = addr := by
  by_cases bound : s.netif.ipAddr = 0
  · refine ⟨?_, fun same => absurd (same.symm.trans bound) nonzero⟩
    rintro ⟨next, handled, assigned, -⟩
    simp only [lwipDhcpProcessHandle, waiting, bound, ne_eq, not_true_eq_false, if_false] at handled
    obtain ⟨dhcp, -, rfl⟩ := Option.map_eq_some_iff.mp handled
    split at assigned
    · cases assigned
    · cases assigned
  · simp [lwipDhcpProcessHandle, waiting, bound]

/-- **When a lease is kept.** The state machine waits and the client binds the interface; then any
lines follow that are neither `dhcp` nor a `static` without an argument. The next call of the state
machine takes the leased address over if and only if none of the lines is a `static` at all, or
`ipaddr` was the leased address already. -/
theorem lease_kept_iff (s bound : NetState) (offer : Offer) (lines : List (List UInt8))
    (resources : Resources) (waiting : s.dhcpState = .waitAddress)
    (binds : step s (.client (.bind offer)) = some bound)
    (harmless : ∀ line ∈ lines, Harmless line) :
    (∃ next, lwipDhcpProcessHandle resources (consoleLines lines bound) = some next ∧
        next.dhcpState = .addressAssigned ∧ next.ipaddr = offer.ipAddr) ↔
      (∀ line ∈ lines, parser line ≠ .static) ∨ s.ipaddr = offer.ipAddr := by
  obtain ⟨netif, stepped, rfl⟩ := Option.map_eq_some_iff.mp binds
  obtain ⟨dhcp, -, -, rfl, nonzero⟩ := clientStep_eq_some.mp stepped
  rw [consoleLines_harmless lines _ harmless]
  by_cases noStatic : ∀ line ∈ lines, parser line ≠ .static
  · rw [if_pos noStatic]
    refine (takenOver_iff (by exact waiting) resources (nonzero offer rfl)).trans ?_
    exact ⟨fun _ => .inl noStatic, fun _ => rfl⟩
  · rw [if_neg noStatic]
    refine (takenOver_iff (by exact waiting) resources (nonzero offer rfl)).trans ?_
    exact ⟨.inr, fun kept => kept.resolve_left noStatic⟩

/-- The line `static 1.2.3.4`. -/
def staticArgument : List UInt8 :=
  ascii ['s', 't', 'a', 't', 'i', 'c', ' ', '1', '.', '2', '.', '3', '.', '4'] ++ [0x0a]

/-- The configuration after the first call of the state machine. -/
def waitingFirst : NetState where
  netif :=
    { ipAddr := 0, netmask := 0, gw := 0, isUp := true, etharp := true, dhcpFlag := true,
      mtu := 1500, dhcp := some ⟨.selecting, 1, some 0⟩ }
  ipaddr := 0
  ipAddress := 0
  dhcpState := .waitAddress
  timers := ⟨500, 0, 500, 0⟩

theorem lease_kept_waitingFirst :
    run step lwipInit [.tick 500 plenty] = some waitingFirst ∧
      ∃ next, lwipDhcpProcessHandle plenty (consoleLines [ascii ['e', 'n', 'v']]
          { waitingFirst with
            netif := dhcpBind lease waitingFirst.netif ⟨.selecting, 1, some 0⟩ }) = some next ∧
        next.dhcpState = .addressAssigned ∧ next.ipaddr = lease.ipAddr := by
  refine ⟨by decide +kernel, (lease_kept_iff waitingFirst _ lease [ascii ['e', 'n', 'v']] plenty rfl
    (by decide +kernel) ?_).mpr (.inl ?_)⟩
  · simp only [List.mem_singleton, forall_eq]
    exact ⟨by decide +kernel, fun isStatic => absurd isStatic (by decide +kernel)⟩
  · simp only [List.mem_singleton, forall_eq]
    decide +kernel

/-- **A lost lease.** The client asks for its lease again and the interface is bound to `10.0.0.7`; then
`static 1.2.3.4` is typed before the next call. The interface has no address again, and the state
machine goes on waiting. -/
theorem lease_lost_to_static :
    ∃ s bound next, run step lwipInit [.tick 500 plenty, .client (.retry .select),
        .client (.retry .rebind)] = some s ∧ s.dhcpState = .waitAddress ∧
      step s (.client (.bind lease)) = some bound ∧ Harmless staticArgument ∧
      lwipDhcpProcessHandle plenty (consoleLines [staticArgument] bound) = some next ∧
      next.dhcpState = .waitAddress ∧ next.ipaddr = 0 := by
  have lost : (run step lwipInit [.tick 500 plenty, .client (.retry .select),
      .client (.retry .rebind)]).bind (fun s => (step s (.client (.bind lease))).bind fun bound =>
        (lwipDhcpProcessHandle plenty (consoleLines [staticArgument] bound)).map fun next =>
          (s.dhcpState, next.dhcpState, next.ipaddr)) = some (.waitAddress, .waitAddress, 0) := by
    decide +kernel
  obtain ⟨s, reached, lost⟩ := Option.bind_eq_some_iff.mp lost
  obtain ⟨bound, binds, lost⟩ := Option.bind_eq_some_iff.mp lost
  obtain ⟨next, handled, shown⟩ := Option.map_eq_some_iff.mp lost
  simp only [Prod.mk.injEq] at shown
  exact ⟨s, bound, next, reached, shown.1, binds,
    ⟨by decide +kernel, fun _ => by decide +kernel⟩, handled, shown.2⟩

end ULoader.Net

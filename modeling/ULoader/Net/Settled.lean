/-
**The settled configuration.**

What holds once the state machine has come to an end, over every order of commands, calls of the
periodic handler and steps of the DHCP client.

* `settled_address` — the interface has an address, `printenv` shows that address, and the DHCP
  client is stopped. `Consistent` is the invariant: a stopped client takes no step, and the two
  commands change either both copies of the address or none.
* `static_kept_iff` — the command `static` is only kept when the state machine has settled, or is
  waiting with a client that is off. `lwip_static` does not touch `DHCP_state`, so otherwise the next
  call clears the address, or the client, still running, changes it.
* `settled_up_iff` — the interface is up once the state machine has settled exactly when it never
  settles with a NAK as the last word of the DHCP client. A NAK takes the interface down, and the
  fallback to the static address does not bring it up again, as `dhcp_bind` does.
-/

import ULoader.Net.System

namespace ULoader.Net

open Shell StepSystem

/-! ### The address -/

/-- The invariant of the configuration. -/
structure SettledAddress (s : NetState) : Prop where
  nonzero : s.netif.ipAddr ≠ 0
  shown : s.ipaddr = s.netif.ipAddr
  stopped : ¬ s.netif.Running

/-- Once settled, the address is there, is shown, and stays. -/
def Consistent (s : NetState) : Prop := s.Settled → SettledAddress s

theorem staticAddr_ne_zero : staticAddr ≠ 0 := by decide

theorem consistent_step (s : NetState) (event : Event) (next : NetState) (consistent : Consistent s)
    (taken : step s event = some next) : Consistent next := by
  intro settled
  cases taken_of_step taken with
  | quiet => exact consistent settled
  | dhcp => exact absurd settled (not_settled_of_start rfl)
  | static line isStatic bare =>
    exact ⟨staticAddr_ne_zero, rfl, (consistent settled).stopped⟩
  | stale line isStatic argument =>
    obtain ⟨nonzero, shown, stopped⟩ := consistent settled
    exact ⟨by rw [← shown] at nonzero; exact nonzero, rfl, stopped⟩
  | rest localtime resources idle =>
    obtain ⟨nonzero, shown, stopped⟩ := consistent settled
    exact ⟨nonzero, shown, stopped⟩
  | start => exact absurd settled (not_settled_of_waiting rfl)
  | assign localtime resources isDue waiting bound => exact ⟨bound, rfl, running_dhcpStop _⟩
  | fallBack => exact ⟨staticAddr_ne_zero, rfl, running_dhcpStop s.netif⟩
  | wait localtime resources isDue waiting => exact absurd settled (not_settled_of_waiting waiting)
  | client event netif stepped =>
    exact absurd (running_clientStep stepped).1 (consistent settled).stopped

theorem consistent_of_reachable {s : NetState} (reached : Reachable step lwipInit s) :
    Consistent s :=
  reached.invariant (fun settled => absurd settled (not_settled_of_start rfl)) consistent_step

/-- **The settled address.** In every reachable state in which the state machine has settled, the
interface has an address, the global `ipaddr` is that address, and the DHCP client is stopped. -/
theorem settled_address (s : NetState) (reached : Reachable step lwipInit s) (settled : s.Settled) :
    s.netif.ipAddr ≠ 0 ∧ s.ipaddr = s.netif.ipAddr ∧ ¬ s.netif.Running := by
  obtain ⟨nonzero, shown, stopped⟩ := consistent_of_reachable reached settled
  exact ⟨nonzero, shown, stopped⟩

/-- All allocations succeed. -/
def plenty : Resources := ⟨true, some 0, true⟩

/-- A lease of `10.0.0.7` without a mask and a gateway. -/
def lease : Offer := ⟨ByteOrder.ip4Addr 10 0 0 7, none, 0⟩

/-- The configuration after a start, a lease and the next two calls of the state machine. -/
def leased : NetState where
  netif :=
    { ipAddr := ByteOrder.ip4Addr 10 0 0 7, netmask := ByteOrder.ip4Addr 255 0 0 0,
      gw := ByteOrder.ip4Addr 10 0 0 1, isUp := true, etharp := true, dhcpFlag := false, mtu := 1500,
      dhcp := some ⟨.off, 0, none⟩ }
  ipaddr := ByteOrder.ip4Addr 10 0 0 7
  ipAddress := ByteOrder.ip4Addr 10 0 0 7
  dhcpState := .addressAssigned
  timers := ⟨1000, 0, 1000, 0⟩

theorem reachable_leased : Reachable step lwipInit leased :=
  ⟨[.tick 500 plenty, .client (.bind lease), .tick 1000 plenty], by decide +kernel⟩

theorem settled_address_leased :
    leased.netif.ipAddr ≠ 0 ∧ leased.ipaddr = leased.netif.ipAddr ∧ ¬ leased.netif.Running :=
  settled_address leased reachable_leased (by decide)

/-! ### The command `static` -/

/-- No command `dhcp` among the steps. -/
def NoDhcp (events : List Event) : Prop := ∀ line, .line line ∈ events → parser line ≠ .dhcp

/-- Both copies of the address are the static one, and nothing is left that would change them. -/
structure Pinned (s : NetState) : Prop where
  address : s.netif.ipAddr = staticAddr
  shown : s.ipaddr = staticAddr
  started : s.dhcpState ≠ .start
  stopped : ¬ s.netif.Running

theorem pinned_step (s : NetState) (event : Event) (next : NetState) (pinned : Pinned s)
    (noDhcp : ∀ line, event = .line line → parser line ≠ .dhcp) (taken : step s event = some next) :
    Pinned next := by
  obtain ⟨address, shown, started, stopped⟩ := pinned
  cases taken_of_step taken with
  | quiet => exact ⟨address, shown, started, stopped⟩
  | dhcp line isDhcp => exact absurd isDhcp (noDhcp line rfl)
  | static => exact ⟨rfl, rfl, started, stopped⟩
  | stale => exact ⟨shown, shown, started, stopped⟩
  | rest => exact ⟨address, shown, started, stopped⟩
  | start localtime resources isDue starting => exact absurd starting started
  | assign => exact ⟨address, address, nofun, running_dhcpStop s.netif⟩
  | fallBack => exact ⟨rfl, rfl, nofun, running_dhcpStop s.netif⟩
  | wait => exact ⟨address, shown, started, stopped⟩
  | client event netif stepped => exact absurd (running_clientStep stepped).1 stopped

theorem pinned_run (events : List Event) (s : NetState) (pinned : Pinned s)
    (noDhcp : NoDhcp events) :
    Always step (fun s => s.netif.ipAddr = staticAddr) s events := by
  have along : Along step (fun _ event => ∀ line, event = .line line → parser line ≠ .dhcp) s
      events :=
    along_of_forall events s fun event member line isLine => noDhcp line (isLine ▸ member)
  exact (always_of_along pinned_step events s pinned along).mono fun _ kept => kept.address

/-- What `static` without an argument does. -/
theorem console_static {line : List UInt8} (isStatic : parser line = .static)
    (bare : NoArgument line) (s : NetState) :
    console line s = { s with ipaddr := staticAddr, netif := s.netif.setIpaddr staticAddr } := by
  simp only [console, isStatic, lwipStatic, bare, if_true]

/-- The line `static`. -/
def staticLine : List UInt8 := ascii ['s', 't', 'a', 't', 'i', 'c'] ++ [0x0a]

/-- Before the first call of the state machine, `static` is undone by it. -/
theorem not_kept_of_start {s : NetState} (starting : s.dhcpState = .start) :
    ∃ events, NoDhcp events ∧
      ¬ Always step (fun s => s.netif.ipAddr = staticAddr) (console staticLine s) events := by
  refine ⟨[.tick (s.timers.dhcpFine + 500) plenty], by simp [NoDhcp], fun always => ?_⟩
  rw [console_static (by decide +kernel) (by decide +kernel)] at always
  have kept := (always.2 _ (step_tick (due_soon s) (not_settled_of_start starting)
    (by simp only [lwipDhcpProcessHandle, starting]; rfl))).head
  rw [(dhcpStart_frame _ _).1] at kept
  exact staticAddr_ne_zero kept.symm

/-- While the client runs, `static` is undone by a NAK. -/
theorem not_kept_of_running {s : NetState} (running : s.netif.Running) :
    ∃ events, NoDhcp events ∧
      ¬ Always step (fun s => s.netif.ipAddr = staticAddr) (console staticLine s) events := by
  obtain ⟨dhcp, attached, notOff⟩ := running
  refine ⟨[.client .nak], by simp [NoDhcp], fun always => ?_⟩
  rw [console_static (by decide +kernel) (by decide +kernel)] at always
  have stepped : clientStep (s.netif.setIpaddr staticAddr) .nak =
      some (dhcpHandleNak (s.netif.setIpaddr staticAddr) dhcp) :=
    clientStep_eq_some.mpr ⟨dhcp, attached, notOff, rfl, nofun⟩
  have kept := (always.2 _ (by simp only [step, stepped]; rfl)).head
  exact staticAddr_ne_zero kept.symm

/-- **When `static` is kept.** In a reachable state, the command `static` without an argument fixes
the address of the interface for every continuation without a command `dhcp` if and only if the
state machine has settled, or is waiting while the DHCP client is off. -/
theorem static_kept_iff (s : NetState) (reached : Reachable step lwipInit s) :
    (∀ line, parser line = .static → NoArgument line → ∀ events, NoDhcp events →
        Always step (fun s => s.netif.ipAddr = staticAddr) (console line s) events) ↔
      s.Settled ∨ (s.dhcpState = .waitAddress ∧ ¬ s.netif.Running) := by
  constructor
  · intro kept
    by_contra lost
    obtain ⟨notSettled, notOff⟩ := not_or.mp lost
    have undone : s.dhcpState = .start ∨ s.netif.Running := by
      cases stage : s.dhcpState with
      | start => exact .inl rfl
      | waitAddress => exact .inr (not_not.mp fun off => notOff ⟨stage, off⟩)
      | addressAssigned => exact absurd (.inl stage) notSettled
      | timeout => exact absurd (.inr stage) notSettled
    obtain ⟨events, noDhcp, changed⟩ := undone.elim not_kept_of_start not_kept_of_running
    exact changed (kept staticLine (by decide +kernel) (by decide +kernel) events noDhcp)
  · intro fixed line isStatic bare events noDhcp
    refine pinned_run events _ ?_ noDhcp
    rw [console_static isStatic bare]
    rcases fixed with settled | ⟨waiting, stopped⟩
    · exact ⟨rfl, rfl, fun starting => not_settled_of_start starting settled,
        (consistent_of_reachable reached settled).stopped⟩
    · exact ⟨rfl, rfl, by simp [waiting], stopped⟩

theorem static_kept_leased :
    (∀ line, parser line = .static → NoArgument line → ∀ events, NoDhcp events →
        Always step (fun s => s.netif.ipAddr = staticAddr) (console line leased) events) ↔
      leased.Settled ∨ (leased.dhcpState = .waitAddress ∧ ¬ leased.netif.Running) :=
  static_kept_iff leased reachable_leased

/-- **A lost `static`.** The client has sent its request; `static` is typed, and the server answers
with a NAK: the interface has no address. -/
theorem static_lost_to_nak :
    ∃ s final, run step lwipInit [.tick 500 plenty, .client (.retry .select)] = some s ∧
      run step s [.line staticLine, .client .nak] = some final ∧ final.netif.ipAddr = 0 := by
  have lost : (run step lwipInit ([.tick 500 plenty, .client (.retry .select)] ++
      [.line staticLine, .client .nak])).map (fun s => s.netif.ipAddr) = some 0 := by decide +kernel
  obtain ⟨final, reached, zero⟩ := Option.map_eq_some_iff.mp lost
  obtain ⟨s, before, after⟩ := run_append_eq_some.mp reached
  exact ⟨s, final, before, after, zero⟩

/-! ### The interface is up -/

/-- The call of the state machine at this time settles it. -/
def NetState.Settles (s : NetState) (localtime : UInt32) : Prop :=
  s.Due localtime ∧ s.dhcpState = .waitAddress ∧ (s.netif.ipAddr ≠ 0 ∨ s.OutOfTries)

/-- Whether a step leaves the interface up: a bind does, a NAK and a release do not, and the others
leave it as it was. -/
def upAfter (isUp : Bool) : Event → Bool
  | .client (.bind _) => true
  | .client .nak => false
  | .client .release => false
  | _ => isUp

/-- The last word of the DHCP client on the interface is not a NAK or a release. -/
def LastlyUp (events : List Event) : Prop := events.foldl upAfter true = true

instance (events : List Event) : Decidable (LastlyUp events) := inferInstanceAs (Decidable (_ = _))

/-- Only the DHCP client takes the interface up and down. -/
theorem isUp_step {s next : NetState} {event : Event} (taken : step s event = some next) :
    next.netif.isUp = upAfter s.netif.isUp event := by
  cases taken_of_step taken with
  | start => exact (dhcpStart_frame _ _).2.1
  | client event netif stepped =>
    obtain ⟨dhcp, -, -, rfl, -⟩ := clientStep_eq_some.mp stepped
    cases event <;> rfl
  | _ => rfl

theorem isUp_run (events : List Event) : ∀ {s final : NetState},
    run step s events = some final → final.netif.isUp = events.foldl upAfter s.netif.isUp := by
  induction events with
  | nil =>
    intro s final reached
    cases reached
    rfl
  | cons event rest ih =>
    intro s final reached
    obtain ⟨next, taken, reached⟩ := run_cons_eq_some.mp reached
    rw [ih reached, isUp_step taken, List.foldl_cons]

/-- A call that settles the state machine finds the interface up. -/
def SettlesUp (s : NetState) (event : Event) : Prop :=
  ∀ localtime resources, event = .tick localtime resources → s.Settles localtime → s.netif.isUp

/-- The invariant of the runs that settle only with the interface up. -/
def ConsistentUp (s : NetState) : Prop := Consistent s ∧ (s.Settled → s.netif.isUp)

theorem consistentUp_step (s : NetState) (event : Event) (next : NetState) (holds : ConsistentUp s)
    (settlesUp : SettlesUp s event) (taken : step s event = some next) : ConsistentUp next := by
  obtain ⟨consistent, up⟩ := holds
  refine ⟨consistent_step s event next consistent taken, fun settled => ?_⟩
  cases taken_of_step taken with
  | assign localtime resources isDue waiting bound =>
    exact settlesUp localtime resources rfl ⟨isDue, waiting, .inl bound⟩
  | fallBack localtime resources isDue waiting out =>
    exact settlesUp localtime resources rfl ⟨isDue, waiting, .inr out⟩
  | client event netif stepped =>
    exact absurd (running_clientStep stepped).1 (consistent settled).stopped
  | start => exact absurd settled (not_settled_of_waiting rfl)
  | dhcp => exact absurd settled (not_settled_of_start rfl)
  | _ => exact up settled

/-- A call that settles the state machine with the interface down leaves it down. -/
theorem settlesUp_of_up (s : NetState) (event : Event) (next : NetState)
    (taken : step s event = some next) (up : next.Settled → next.netif.isUp) : SettlesUp s event := by
  rintro localtime resources rfl ⟨isDue, waiting, ends⟩
  cases taken_of_step taken with
  | rest _ _ idle =>
    exact absurd idle (not_or.mpr ⟨not_not.mpr isDue, not_settled_of_waiting waiting⟩)
  | start _ _ _ starting => rw [waiting] at starting; cases starting
  | assign => exact up (.inl rfl)
  | fallBack => exact up (.inr rfl)
  | wait _ _ _ _ unbound notOut => exact absurd ends (not_or.mpr ⟨not_not.mpr unbound, notOut⟩)

/-- A call that settles the state machine is defined. -/
theorem isSome_of_settles {s : NetState} {localtime : UInt32} (settles : s.Settles localtime)
    (resources : Resources) : (step s (.tick localtime resources)).isSome := by
  obtain ⟨isDue, waiting, ends⟩ := settles
  have defined : (lwipDhcpProcessHandle resources s).isSome := by
    simp only [lwipDhcpProcessHandle, waiting]
    rcases ends with bound | ⟨zero, dhcp, attached, _⟩
    · simp [bound]
    · rw [Option.mem_def] at attached
      simp [zero, attached]
  obtain ⟨next, handled⟩ := Option.isSome_iff_exists.mp defined
  rw [step_tick isDue (not_settled_of_waiting waiting) handled]
  rfl

/-- **When the settled interface is up.** In a run from the start, the interface is up in every state
in which the state machine has settled if and only if no call settles it at a moment when the last
word of the DHCP client on the interface was a NAK or a release. -/
theorem settled_up_iff (events : List Event) :
    Always step (fun s => s.Settled → s.netif.isUp) lwipInit events ↔
      ∀ before localtime resources after s, events = before ++ .tick localtime resources :: after →
        run step lwipInit before = some s → s.Settles localtime → LastlyUp before := by
  have exactly : Always step (fun s => s.Settled → s.netif.isUp) lwipInit events ↔
      Along step SettlesUp lwipInit events :=
    always_iff_along consistentUp_step (fun s holds => holds.2)
      (fun s event next _ taken up => settlesUp_of_up s event next taken up) events lwipInit
      ⟨consistent_of_reachable (.refl _), fun _ => rfl⟩
  rw [exactly, along_iff]
  constructor
  · intro each before localtime resources after s cut reached settles
    have up := each before _ after s cut reached (isSome_of_settles settles resources)
      localtime resources rfl settles
    rwa [isUp_run before reached] at up
  · rintro lastly before _ after s cut reached _ localtime resources rfl settles
    rw [isUp_run before reached]
    exact lastly before localtime resources after s cut reached settles

/-- **An interface left down.** The request is answered with a NAK, four more tries go unanswered, and
the state machine falls back to the static address: the interface has it, but is down. -/
theorem static_fallback_down :
    ∃ final, Reachable step lwipInit final ∧ final.dhcpState = .timeout ∧
      final.netif.ipAddr = staticAddr ∧ final.netif.isUp = false := by
  have fallen : (run step lwipInit [.tick 500 plenty, .client (.retry .select), .client .nak,
      .client (.retry .discover), .client (.retry .discover), .client (.retry .discover),
      .client (.retry .discover), .tick 1000 plenty]).map
      (fun s => (s.dhcpState, s.netif.ipAddr, s.netif.isUp)) = some (.timeout, staticAddr, false) := by
    decide +kernel
  obtain ⟨final, reached, shown⟩ := Option.map_eq_some_iff.mp fallen
  obtain ⟨stage, rest⟩ := Prod.mk.inj shown
  exact ⟨final, ⟨_, reached⟩, stage, Prod.mk.inj rest⟩

end ULoader.Net

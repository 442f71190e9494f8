/-
**The command `static` against the DHCP timeout.**

Both lead to the static configuration. The fallback of the state machine sets the address, the netmask
and the gateway (`addressing_fallBack`); `lwip_static` sets the address alone, so netmask and gateway
are those that an earlier lease or timeout has left behind.

`static_agrees_iff` says when the two agree. Without a release of the lease in between, a settled run
ends in the configuration of the fallback exactly when netmask and gateway were right when the command
was typed; the address always is. With it, they have to be right and the client has to be off: a running
client may give its lease up, which clears all three, and a second `static` then brings back the address
alone.
-/

import ULoader.Net.Settled

namespace ULoader.Net

open Shell StepSystem

/-! ### The configuration of an interface -/

/-- The address, the netmask and the gateway. -/
def Netif.addressing (n : Netif) : UInt32 × UInt32 × UInt32 := (n.ipAddr, n.netmask, n.gw)

/-- The netmask and the gateway are the static ones. -/
def Netif.StaticRoute (n : Netif) : Prop := n.netmask = staticNetmask ∧ n.gw = staticGw

instance (n : Netif) : Decidable n.StaticRoute := inferInstanceAs (Decidable (_ ∧ _))

/-- The next call of the state machine falls back, because the client has used up its tries. -/
def NetState.FallsBack (s : NetState) : Prop := s.dhcpState = .waitAddress ∧ s.OutOfTries

instance (s : NetState) : Decidable s.FallsBack := inferInstanceAs (Decidable (_ ∧ _))

/-- Neither a command `dhcp` nor a bind nor a NAK among the steps. -/
structure Undisturbed (events : List Event) : Prop where
  noDhcp : NoDhcp events
  noBind : ∀ offer, .client (.bind offer) ∉ events
  noNak : .client .nak ∉ events

/-- **What the fallback installs.** -/
theorem addressing_fallBack {resources : Resources} {s next : NetState} (fallsBack : s.FallsBack)
    (handled : lwipDhcpProcessHandle resources s = some next) :
    next.netif.addressing = (staticAddr, staticNetmask, staticGw) := by
  obtain ⟨waiting, zero, dhcp, attached, out⟩ := fallsBack
  rw [Option.mem_def] at attached
  simp only [lwipDhcpProcessHandle, waiting, zero, attached, ne_eq, not_true_eq_false, if_false,
    Option.map_some, out, if_true] at handled
  rw [← Option.some.inj handled]
  rfl

/-! ### After `static` -/

/-- The static address is in place, with a netmask and a gateway. -/
structure Installed (netmask gw : UInt32) (s : NetState) : Prop where
  address : s.netif.ipAddr = staticAddr
  shown : s.ipaddr = staticAddr
  started : s.dhcpState ≠ .start
  netmask : s.netif.netmask = netmask
  gw : s.netif.gw = gw

/-- A step that is not a command `dhcp`, and only a request if it is one of the client. -/
def Calm : Event → Prop
  | .line line => parser line ≠ .dhcp
  | .tick _ _ => True
  | .client event => ∃ request, event = .retry request

/-- Only the client and the fallback change netmask and gateway, and the fallback needs a missing
address. -/
theorem installed_step {netmask gw : UInt32} (s : NetState) (event : Event) (next : NetState)
    (installed : Installed netmask gw s) (calm : Calm event) (taken : step s event = some next) :
    Installed netmask gw next := by
  obtain ⟨address, shown, started, rightMask, rightGw⟩ := installed
  have bound : s.netif.ipAddr ≠ 0 := address ▸ staticAddr_ne_zero
  cases taken_of_step taken with
  | quiet => exact ⟨address, shown, started, rightMask, rightGw⟩
  | dhcp line isDhcp => exact absurd isDhcp calm
  | static => exact ⟨rfl, rfl, started, rightMask, rightGw⟩
  | stale => exact ⟨shown, shown, started, rightMask, rightGw⟩
  | rest => exact ⟨address, shown, started, rightMask, rightGw⟩
  | start localtime resources isDue starting => exact absurd starting started
  | assign => exact ⟨address, address, nofun, rightMask, rightGw⟩
  | fallBack localtime resources isDue waiting out => exact absurd out.1 bound
  | wait localtime resources isDue waiting unbound => exact absurd unbound bound
  | client event netif stepped =>
    obtain ⟨request, rfl⟩ := calm
    obtain ⟨dhcp, -, -, rfl, -⟩ := clientStep_eq_some.mp stepped
    exact ⟨address, shown, started, rightMask, rightGw⟩

theorem installed_run {netmask gw : UInt32} {events : List Event} {s final : NetState}
    (installed : Installed netmask gw s) (calm : ∀ event ∈ events, Calm event)
    (reached : run step s events = some final) : Installed netmask gw final :=
  (always_of_along installed_step events s installed (along_of_forall events s calm)).last reached

theorem installed_static {s : NetState} (started : s.dhcpState ≠ .start) {line : List UInt8}
    (isStatic : parser line = .static) (bare : NoArgument line) :
    Installed s.netif.netmask s.netif.gw (console line s) := by
  rw [console_static isStatic bare]
  exact ⟨rfl, rfl, started, rfl, rfl⟩

theorem Installed.addressing {netmask gw : UInt32} {s : NetState} (installed : Installed netmask gw s) :
    s.netif.addressing = (staticAddr, netmask, gw) := by
  rw [Netif.addressing, installed.address, installed.netmask, installed.gw]

/-- The steps of an undisturbed run are calm, but for a release of the lease. -/
theorem Undisturbed.calm {events : List Event} (undisturbed : Undisturbed events)
    (noRelease : .client .release ∉ events) : ∀ event ∈ events, Calm event := by
  intro event member
  cases event with
  | line line => exact undisturbed.noDhcp line member
  | tick => trivial
  | client event =>
    cases event with
    | bind offer => exact absurd member (undisturbed.noBind offer)
    | nak => exact absurd member undisturbed.noNak
    | retry request => exact ⟨request, rfl⟩
    | release => exact absurd member noRelease

/-! ### While the client is off -/

/-- With the client off there is no release. -/
theorem installed_pinned_step {netmask gw : UInt32} (s : NetState) (event : Event) (next : NetState)
    (holds : Installed netmask gw s ∧ Pinned s)
    (noDhcp : ∀ line, event = .line line → parser line ≠ .dhcp) (taken : step s event = some next) :
    Installed netmask gw next ∧ Pinned next := by
  obtain ⟨installed, pinned⟩ := holds
  refine ⟨?_, pinned_step s event next pinned noDhcp taken⟩
  cases event with
  | line line =>
    have calm : Calm (.line line) := noDhcp line rfl
    exact installed_step s _ next installed calm taken
  | tick localtime resources =>
    have calm : Calm (.tick localtime resources) := trivial
    exact installed_step s _ next installed calm taken
  | client event =>
    obtain ⟨netif, stepped, -⟩ := Option.map_eq_some_iff.mp taken
    exact absurd (running_clientStep stepped).1 pinned.stopped

theorem installed_of_stopped {netmask gw : UInt32} {events : List Event} {s final : NetState}
    (installed : Installed netmask gw s) (stopped : ¬ s.netif.Running) (noDhcp : NoDhcp events)
    (reached : run step s events = some final) : Installed netmask gw final := by
  have pinned : Pinned s := ⟨installed.address, installed.shown, installed.started, stopped⟩
  have along : Along step (fun _ event => ∀ line, event = .line line → parser line ≠ .dhcp) s
      events :=
    along_of_forall events s fun event member line isLine => noDhcp line (isLine ▸ member)
  exact ((always_of_along installed_pinned_step events s ⟨installed, pinned⟩ along).last reached).1

/-! ### Runs that settle -/

/-- With an address the waiting state machine settles at the next call. -/
theorem step_assign {s : NetState} (waiting : s.dhcpState = .waitAddress)
    (bound : s.netif.ipAddr ≠ 0) (resources : Resources) :
    ∃ final, step s (.tick (s.timers.dhcpFine + 500) resources) = some final ∧ final.Settled ∧
      final.netif.netmask = s.netif.netmask := by
  have handled : lwipDhcpProcessHandle resources s =
      some { s with
        ipAddress := s.netif.ipAddr
        ipaddr := s.netif.ipAddr
        dhcpState := .addressAssigned
        netif := dhcpStop s.netif } := by
    simp only [lwipDhcpProcessHandle, waiting, bound, ne_eq, not_false_eq_true, if_true]
  exact ⟨_, step_tick (due_soon s) (not_settled_of_waiting waiting) handled, .inl rfl, rfl⟩

/-- After `static` some undisturbed run without a release settles. -/
theorem exists_settled {s : NetState} (started : s.dhcpState ≠ .start) {line : List UInt8}
    (isStatic : parser line = .static) (bare : NoArgument line) :
    ∃ events final, Undisturbed events ∧ .client .release ∉ events ∧
      run step (console line s) events = some final ∧ final.Settled := by
  have installed := installed_static started isStatic bare
  have stage : (console line s).dhcpState = s.dhcpState := by rw [console_static isStatic bare]
  by_cases settled : (console line s).Settled
  · exact ⟨[], _, ⟨nofun, nofun, nofun⟩, nofun, rfl, settled⟩
  · have waiting : (console line s).dhcpState = .waitAddress := by
      cases reached : (console line s).dhcpState with
      | start => exact absurd reached installed.started
      | waitAddress => rfl
      | addressAssigned => exact absurd (.inl reached) settled
      | timeout => exact absurd (.inr reached) settled
    obtain ⟨final, taken, settles, -⟩ :=
      step_assign waiting (installed.address ▸ staticAddr_ne_zero) plenty
    refine ⟨[.tick ((console line s).timers.dhcpFine + 500) plenty], final,
      ⟨by simp [NoDhcp], by simp, by simp⟩, by simp, ?_, settles⟩
    exact (run_singleton _ _).trans taken

/-- While the client runs, a release followed by another `static` settles without a netmask. -/
theorem exists_settled_unmasked {s : NetState} (waiting : s.dhcpState = .waitAddress)
    (running : s.netif.Running) {line : List UInt8} (isStatic : parser line = .static)
    (bare : NoArgument line) :
    ∃ events final, Undisturbed events ∧ run step (console line s) events = some final ∧
      final.Settled ∧ final.netif.netmask = 0 := by
  obtain ⟨dhcp, attached, notOff⟩ := running
  have stepped : clientStep (s.netif.setIpaddr staticAddr) .release =
      some (ClientEvent.release.apply (s.netif.setIpaddr staticAddr) dhcp) :=
    clientStep_eq_some.mpr ⟨dhcp, attached, notOff, rfl, by simp⟩
  let released : NetState :=
    { s with
      ipaddr := staticAddr
      netif := ClientEvent.release.apply (s.netif.setIpaddr staticAddr) dhcp }
  have releases : step (console line s) (.client .release) = some released := by
    rw [console_static isStatic bare]
    simp only [step, stepped]
    rfl
  have again := console_static isStatic bare released
  obtain ⟨final, taken, settles, netmask⟩ := step_assign (s := console line released)
    (by rw [again]; exact waiting) (by rw [again]; exact staticAddr_ne_zero) plenty
  refine ⟨[.client .release, .line line,
    .tick ((console line released).timers.dhcpFine + 500) plenty], final, ⟨?_, by simp, by simp⟩, ?_,
    settles, ?_⟩
  · intro other member
    have same : other = line := by simpa using member
    rw [same, isStatic]
    decide
  · exact run_cons_eq_some.mpr ⟨released, releases, run_cons_eq_some.mpr
      ⟨console line released, rfl, (run_singleton _ _).trans taken⟩⟩
  · rw [netmask, again]
    rfl

/-! ### The two ways to the static configuration -/

/-- **When `static` agrees with the fallback.** In a reachable state past the start, `static` without
an argument is typed, and a run without a command `dhcp`, a bind and a NAK follows, up to a settled
state. Without a release of the lease, the run ends in the configuration that the fallback installs if
and only if the netmask and the gateway were the static ones already. All runs do, those with a release
included, if and only if moreover the client was off. `dhcp_timeout` releases the lease after more tries
than the state machine waits for, so in the code a release comes in a settled state. -/
theorem static_agrees_iff (s : NetState) (reached : Reachable step lwipInit s)
    (started : s.dhcpState ≠ .start) (line : List UInt8) (isStatic : parser line = .static)
    (bare : NoArgument line) (timedOut fallback : NetState) (resources : Resources)
    (fallsBack : timedOut.FallsBack)
    (handled : lwipDhcpProcessHandle resources timedOut = some fallback) :
    (∀ events final, Undisturbed events → .client .release ∉ events →
        run step (console line s) events = some final → final.Settled →
          (final.netif.addressing = fallback.netif.addressing ↔ s.netif.StaticRoute)) ∧
      ((∀ events final, Undisturbed events → run step (console line s) events = some final →
          final.Settled → final.netif.addressing = fallback.netif.addressing) ↔
        s.netif.StaticRoute ∧ ¬ s.netif.Running) := by
  have installed := installed_static started isStatic bare
  have agrees {final : NetState} (kept : Installed s.netif.netmask s.netif.gw final) :
      final.netif.addressing = fallback.netif.addressing ↔ s.netif.StaticRoute := by
    rw [kept.addressing, addressing_fallBack fallsBack handled]
    simp [Netif.StaticRoute]
  have perRun : ∀ events final, Undisturbed events → .client .release ∉ events →
      run step (console line s) events = some final → final.Settled →
        (final.netif.addressing = fallback.netif.addressing ↔ s.netif.StaticRoute) :=
    fun events final undisturbed noRelease ends _ =>
      agrees (installed_run installed (undisturbed.calm noRelease) ends)
  refine ⟨perRun, fun same => ?_, ?_⟩
  · obtain ⟨events, final, undisturbed, noRelease, ends, settled⟩ :=
      exists_settled started isStatic bare
    refine ⟨(perRun events final undisturbed noRelease ends settled).mp
      (same events final undisturbed ends settled), fun running => ?_⟩
    have waiting : s.dhcpState = .waitAddress := by
      cases stage : s.dhcpState with
      | start => exact absurd stage started
      | waitAddress => rfl
      | addressAssigned => exact absurd running (consistent_of_reachable reached (.inl stage)).stopped
      | timeout => exact absurd running (consistent_of_reachable reached (.inr stage)).stopped
    obtain ⟨events, final, undisturbed, ends, settled, unmasked⟩ :=
      exists_settled_unmasked waiting running isStatic bare
    have triple := same events final undisturbed ends settled
    rw [addressing_fallBack fallsBack handled, Netif.addressing, unmasked] at triple
    simp only [Prod.mk.injEq] at triple
    exact absurd triple.2.1 (by decide)
  · rintro ⟨route, stopped⟩ events final undisturbed ends -
    have off : ¬ (console line s).netif.Running := by
      rw [console_static isStatic bare]
      exact stopped
    exact (agrees (installed_of_stopped installed off undisturbed.noDhcp ends)).mpr route

/-- The configuration when the client has sent five requests in vain. -/
def outOfTries : NetState where
  netif :=
    { ipAddr := 0, netmask := 0, gw := 0, isUp := true, etharp := true, dhcpFlag := true,
      mtu := 1500, dhcp := some ⟨.selecting, 5, some 0⟩ }
  ipaddr := 0
  ipAddress := 0
  dhcpState := .waitAddress
  timers := ⟨500, 0, 500, 0⟩

/-- The configuration after the fallback. -/
def fallenBack : NetState where
  netif :=
    { ipAddr := staticAddr, netmask := staticNetmask, gw := staticGw, isUp := true, etharp := true,
      dhcpFlag := false, mtu := 1500, dhcp := some ⟨.off, 0, none⟩ }
  ipaddr := staticAddr
  ipAddress := 0
  dhcpState := .timeout
  timers := ⟨500, 0, 500, 0⟩

theorem reachable_outOfTries : Reachable step lwipInit outOfTries :=
  ⟨[.tick 500 plenty, .client (.retry .discover), .client (.retry .discover),
    .client (.retry .discover), .client (.retry .discover)], by decide +kernel⟩

theorem handled_outOfTries : lwipDhcpProcessHandle plenty outOfTries = some fallenBack := by
  decide +kernel

/-- After the fallback, which leaves netmask and gateway right, `static` agrees with it. -/
theorem static_agrees_fallenBack :
    ∃ s, Reachable step lwipInit s ∧ ∀ events final, Undisturbed events →
      run step (console staticLine s) events = some final → final.Settled →
        final.netif.addressing = fallenBack.netif.addressing := by
  have ticked : run step outOfTries [.tick 1000 plenty] =
      some { fallenBack with timers := ⟨1000, 0, 1000, 0⟩ } := by
    decide +kernel
  have reached := reachable_outOfTries.run ticked
  exact ⟨_, reached, (static_agrees_iff _ reached (by decide) staticLine (by decide +kernel)
    (by decide +kernel) outOfTries fallenBack plenty (by decide) handled_outOfTries).2.mpr
    (by decide)⟩

/-- **A foreign netmask.** The interface holds a lease of `10.0.0.7` and `static` is typed: it has the
static address with the netmask and the gateway of the lease, not those of the fallback. -/
theorem static_keeps_route_of_lease :
    Reachable step lwipInit leased ∧ leased.dhcpState ≠ .start ∧ parser staticLine = .static ∧
      NoArgument staticLine ∧ Undisturbed [] ∧
      run step (console staticLine leased) [] = some (console staticLine leased) ∧
      (console staticLine leased).Settled ∧
      lwipDhcpProcessHandle plenty outOfTries = some fallenBack ∧ outOfTries.FallsBack ∧
      (console staticLine leased).netif.addressing ≠ fallenBack.netif.addressing :=
  ⟨reachable_leased, by decide, by decide +kernel, by decide +kernel, ⟨nofun, nofun, nofun⟩, rfl,
    by decide +kernel, handled_outOfTries, by decide, by decide +kernel⟩

end ULoader.Net

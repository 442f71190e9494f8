/-
**Calls and datagrams in any order.**

* **`pcbs_kept`** — in every run the list has exactly the bound PCBs, no two of them are in each other's way, and no
  PCB is lost; a run goes through exactly when no call uses a PCB that was removed.
* **`demultiplexed`** — after any run, a datagram that is no broadcast is delivered to the PCB whose own binding and
  connection accept it, whatever came before.
* **`reply_returned`** — the answer to a datagram, long enough, no broadcast and not for the DHCP client, comes back
  to the PCB that sent it, whatever the other PCBs do.
* **`port_not_reused`** — an automatic port is not given out again for 2340 automatic ports.
-/

import ULoader.Udp.Demux

namespace ULoader.Udp

open Links ULoader.Arp StepSystem ByteOrder

variable {C : Type}

/-! ### What a call may do -/

/-- The PCB a call dereferences. -/
def Dereferences (s : Pcbs C) : Event C → Slot → Prop
  | .new, _ => False
  | .bind pcb ipaddr port, p => pcb = p ∧ ¬ Taken s p ipaddr port
  | .connect pcb _ _, p => pcb = p
  | .recv pcb _, p => pcb = p
  | .sendto pcb _ _ _ _ _, p => pcb = p
  | .remove pcb, p => pcb = p
  | .input _ dhcp d, p =>
    dhcp = some p ∧ d.destPort = 68 ∧ d.srcPort = 67 ∧ ¬ (d.totLen < d.hlen + 8 ∨ d.len < d.hlen)

/-- The call uses no PCB that was removed. -/
def Safe (s : Pcbs C) (event : Event C) : Prop := ∀ p, Dereferences s event p → s.view p ≠ none

/-- The call is to change what this PCB says. -/
def Event.Sets : Event C → Slot → Prop
  | .bind pcb _ _, p => pcb = p
  | .connect pcb _ _, p => pcb = p
  | .recv pcb _, p => pcb = p
  | .remove pcb, p => pcb = p
  | .new, _ | .sendto .., _ | .input .., _ => False

/-- The PCB the call takes an automatic port for. -/
def automatic (s : Pcbs C) : Event C → Option Slot
  | .bind pcb _ port => if port = 0 then some pcb else none
  | .connect pcb _ _ | .sendto pcb _ _ _ _ _ => if (s.view pcb).any (·.localPort == 0) then some pcb else none
  | .new | .recv .. | .remove _ | .input .. => none

/-- What a call leads to. -/
structure Leads (s : Pcbs C) (event : Event C) (s' : Pcbs C) : Prop where
  sound : ∃ items, Sound s' items
  kept : ∀ p pcb, s.view p = some pcb → pcb.localPort ≠ 0 → ¬ event.Sets p → s'.view p = some pcb
  quiet : automatic s event = none → s'.udpPort = s.udpPort
  takes : ∀ p, automatic s event = some p → (∃ pcb, s'.view p = some pcb ∧ pcb.localPort = s'.udpPort) ∧
    ∃ k, 1 ≤ k ∧ k ≤ 7 ∧ s'.udpPort = nextPort^[k] s.udpPort

section Step

variable {s : Pcbs C} {items : List (Slot × Pcb C)}

theorem exists_view {p : Slot} (held : s.view p ≠ none) : ∃ pcb, s.view p = some pcb :=
  Option.ne_none_iff_exists'.mp held

theorem mem_none {p : Slot} (gone : s.view p = none) : s.mem p = none := Option.map_eq_none_iff.mp gone

/-- A call that changes one PCB leaves the others alone. -/
theorem Changes.kept {p q : Slot} {value : Option (Pcb C)} {s' : Pcbs C} {pcb : Pcb C}
    (changes : Changes s p value s') (said : s.view q = some pcb) (other : p ≠ q) : s'.view q = some pcb := by
  rw [changes.view, Function.update_of_ne (Ne.symm other), said]

theorem step_new (sound : Sound s items) : ∃ s', step s .new = some s' ∧ Leads s .new s' := by
  rcases udpNew_spec sound with ⟨_, done⟩ | ⟨s', p, done, gone, changes, port⟩
  · exact ⟨s, by rw [step, done], ⟨items, sound⟩, fun _ _ said _ _ => said, fun _ => rfl, nofun⟩
  · refine ⟨s', by rw [step, done], changes.sound, fun q pcb said _ _ => changes.kept said ?_, fun _ => port, nofun⟩
    rintro rfl
    simp [gone] at said

theorem step_bind (sound : Sound s items) (p : Slot) (ipaddr : UInt32) (port : UInt16)
    (safe : Safe s (.bind p ipaddr port)) :
    ∃ s', step s (.bind p ipaddr port) = some s' ∧ Leads s (.bind p ipaddr port) s' := by
  by_cases taken : Taken s p ipaddr port
  · have nonzero : port ≠ 0 := by
      rintro rfl
      exact not_taken_zero taken
    refine ⟨s, by rw [step, udpBind_taken sound taken]; rfl, ⟨items, sound⟩, fun _ _ said _ _ => said,
      fun _ => rfl, ?_⟩
    simp [automatic, nonzero]
  · obtain ⟨pcb, said⟩ := exists_view (safe p ⟨rfl, taken⟩)
    obtain ⟨s', made, sound', port', nonzero, view, manual, next⟩ := udpBind_free sound said taken
    refine ⟨s', by rw [step, made]; rfl, sound', fun q other said' _ free => ?_, fun quiet => ?_, fun q takes => ?_⟩
    · rw [view, Function.update_of_ne (fun same => free same.symm), said']
    · exact (manual fun zero => by simp [automatic, zero] at quiet).2
    · obtain ⟨zero, rfl⟩ : port = 0 ∧ p = q := by simpa [automatic] using takes
      obtain ⟨last, ⟨k, low, high, isPort⟩, _⟩ := next zero
      refine ⟨⟨{ pcb with localIp := ipaddr, localPort := port' }, ?_, last.symm⟩, k, low, high, last.trans isPort⟩
      rw [view, Function.update_self]

theorem step_connect (sound : Sound s items) (p : Slot) (ipaddr : UInt32) (port : UInt16)
    (safe : Safe s (.connect p ipaddr port)) :
    ∃ s', step s (.connect p ipaddr port) = some s' ∧ Leads s (.connect p ipaddr port) s' := by
  obtain ⟨pcb, said⟩ := exists_view (safe p rfl)
  obtain ⟨s', pcb', done, isBounded, changes⟩ := udpConnect_spec sound said ipaddr port
  refine ⟨s', by rw [step, done]; rfl, changes.sound, fun q other said' _ free => changes.kept said' free,
    fun quiet => ?_, fun q takes => ?_⟩
  · exact (isBounded.before fun zero => by simp [automatic, said, zero, -view_apply] at quiet).2
  · obtain ⟨zero, rfl⟩ : pcb.localPort = 0 ∧ p = q := by simpa [automatic, said, -view_apply] using takes
    obtain ⟨isPort, takes⟩ := isBounded.automatic zero
    exact ⟨⟨pcb'.connectTo ipaddr port, by rw [changes.view, Function.update_self], isPort⟩, takes⟩

theorem step_recv (sound : Sound s items) (p : Slot) (recv : C) (safe : Safe s (.recv p recv)) :
    ∃ s', step s (.recv p recv) = some s' ∧ Leads s (.recv p recv) s' := by
  obtain ⟨pcb, said⟩ := exists_view (safe p rfl)
  obtain ⟨s', done, changes, port⟩ := udpRecv_spec sound said recv
  exact ⟨s', done, changes.sound, fun q other said' _ free => changes.kept said' free, fun _ => port, nofun⟩

theorem step_sendto (sound : Sound s items) (p : Slot) (len : Nat) (header : Bool) (dstIp : UInt32)
    (dstPort : UInt16) (netif : Netif) (safe : Safe s (.sendto p len header dstIp dstPort netif)) :
    ∃ s', step s (.sendto p len header dstIp dstPort netif) = some s' ∧
      Leads s (.sendto p len header dstIp dstPort netif) s' := by
  obtain ⟨pcb, said⟩ := exists_view (safe p rfl)
  obtain ⟨s', pcb', result, done, changes, isBounded, _⟩ := udpSendtoIf_spec sound said len header dstIp dstPort netif
  refine ⟨s', by rw [step, done]; rfl, changes.sound, fun q other said' isBound _ => ?_, fun quiet => ?_,
    fun q takes => ?_⟩
  · by_cases here : p = q
    · subst here
      cases said.symm.trans said'
      rw [changes.view, Function.update_self, (isBounded.before isBound).1]
    · exact changes.kept said' here
  · exact (isBounded.before fun zero => by simp [automatic, said, zero, -view_apply] at quiet).2
  · obtain ⟨zero, rfl⟩ : pcb.localPort = 0 ∧ p = q := by simpa [automatic, said, -view_apply] using takes
    obtain ⟨isPort, takes⟩ := isBounded.automatic zero
    exact ⟨⟨pcb', by rw [changes.view, Function.update_self], isPort⟩, takes⟩

theorem step_remove (sound : Sound s items) (p : Slot) (safe : Safe s (.remove p)) :
    ∃ s', step s (.remove p) = some s' ∧ Leads s (.remove p) s' := by
  obtain ⟨pcb, said⟩ := exists_view (safe p rfl)
  obtain ⟨s', done, changes, port⟩ := udpRemove_spec sound said
  exact ⟨s', done, changes.sound, fun q other said' _ free => changes.kept said' free, fun _ => port, nofun⟩

/-- After the search, `udp_input` changes nothing any more. -/
theorem step_input_of_pcbFor {s' : Pcbs C} {netif : Netif} {dhcp found : Option Slot} {d : Datagram}
    (notShort : ¬ (d.totLen < d.hlen + 8 ∨ d.len < d.hlen)) (done : pcbFor s netif dhcp d = some (s', found))
    (held : ∀ p, found = some p → s'.view p ≠ none) : step s (.input netif dhcp d) = some s' := by
  have outcome : ∃ outcome, outcomeFor s' netif d found = some outcome := by
    cases found with
    | none =>
      rw [outcomeFor]
      split_ifs <;> exact ⟨_, rfl⟩
    | some p =>
      obtain ⟨pcb, said⟩ := exists_view (held p rfl)
      obtain ⟨next, node⟩ := exists_node said
      rw [outcomeFor]
      cases recv : pcb.recv <;> split_ifs <;> simp [node, recv]
  obtain ⟨outcome, isOutcome⟩ := outcome
  simp [step, udpInput, notShort, done, isOutcome]

/-- What comes to the DHCP client's port. -/
theorem pcbFor_dhcp {netif : Netif} {dhcp : Option Slot} {d : Datagram} (isDhcp : d.destPort = 68)
    (safe : ∀ p, dhcp = some p → d.srcPort = 67 → s.view p ≠ none) :
    ∃ found, pcbFor s netif dhcp d = some (s, found) ∧ ∀ p, found = some p → s.view p ≠ none := by
  cases dhcp with
  | none => exact ⟨none, by simp [pcbFor, isDhcp], nofun⟩
  | some p =>
    by_cases fromServer : d.srcPort = 67
    · have held := safe p rfl fromServer
      obtain ⟨pcb, said⟩ := exists_view held
      obtain ⟨next, node⟩ := exists_node said
      by_cases remote : pcb.remoteIp = 0 ∨ pcb.remoteIp = d.src
      · exact ⟨some p, by simp [pcbFor, isDhcp, fromServer, node, remote], fun q same => Option.some.inj same ▸ held⟩
      · exact ⟨none, by simp [pcbFor, isDhcp, fromServer, node, remote], nofun⟩
    · exact ⟨none, by simp [pcbFor, isDhcp, fromServer], nofun⟩

theorem step_input (sound : Sound s items) (netif : Netif) (dhcp : Option Slot) (d : Datagram)
    (safe : Safe s (.input netif dhcp d)) :
    ∃ s', step s (.input netif dhcp d) = some s' ∧ Leads s (.input netif dhcp d) s' := by
  by_cases isShort : d.totLen < d.hlen + 8 ∨ d.len < d.hlen
  · exact ⟨s, by simp [step, udpInput, isShort], ⟨items, sound⟩, fun _ _ said _ _ => said, fun _ => rfl, nofun⟩
  · by_cases isDhcp : d.destPort = 68
    · obtain ⟨found, done, held⟩ := @pcbFor_dhcp C s netif dhcp d isDhcp fun p isPcb fromServer =>
        safe p ⟨isPcb, isDhcp, fromServer, isShort⟩
      exact ⟨s, step_input_of_pcbFor isShort done held, ⟨items, sound⟩, fun _ _ said _ _ => said, fun _ => rfl, nofun⟩
    · obtain ⟨s', found, done, finds⟩ := @pcbFor_spec C s items netif dhcp d sound isDhcp
      refine ⟨s', step_input_of_pcbFor isShort done fun p isFound => ?_, finds.sound, fun _ _ said _ _ => ?_,
        fun _ => finds.port, nofun⟩
      · obtain ⟨pcb, said, _⟩ := finds.accepts p isFound
        rw [finds.view, said]
        exact Option.some_ne_none _
      · rw [finds.view, said]

/-- **Every safe call returns**, and keeps the PCBs in order. -/
theorem step_safe (sound : Sound s items) {event : Event C} (safe : Safe s event) :
    ∃ s', step s event = some s' ∧ Leads s event s' := by
  cases event with
  | new => exact step_new sound
  | bind p ipaddr port => exact step_bind sound p ipaddr port safe
  | connect p ipaddr port => exact step_connect sound p ipaddr port safe
  | recv p recv => exact step_recv sound p recv safe
  | sendto p len header dstIp dstPort netif => exact step_sendto sound p len header dstIp dstPort netif safe
  | remove p => exact step_remove sound p safe
  | input netif dhcp d => exact step_input sound netif dhcp d safe

/-- A call on a PCB that was removed reads freed memory. -/
theorem step_freed (sound : Sound s items) {event : Event C} (notSafe : ¬ Safe s event) : step s event = none := by
  simp only [Safe, not_forall, not_not] at notSafe
  obtain ⟨p, uses, gone⟩ := notSafe
  have free := mem_none gone
  cases event with
  | new => exact uses.elim
  | bind pcb ipaddr port =>
    obtain ⟨rfl, clear⟩ := uses
    simp [step, udpBind, checkBind_clear sound clear, free]
  | connect pcb ipaddr port =>
    cases uses
    simp [step, udpConnect, ensureBound, free]
  | recv pcb recv =>
    cases uses
    simp [step, udpRecv, free]
  | sendto pcb len header dstIp dstPort netif =>
    cases uses
    simp [step, udpSendtoIf, ensureBound, free]
  | remove pcb =>
    cases uses
    simp [step, udpRemove, free]
  | input netif dhcp d =>
    obtain ⟨rfl, isDhcp, fromServer, notShort⟩ := uses
    simp [step, udpInput, notShort, pcbFor, isDhcp, fromServer, free]

end Step

/-! ### The PCBs over whole runs -/

/-- The PCBs on the list. -/
def Pcbs.entries (s : Pcbs C) : List (Slot × Pcb C) := contents s.mem 6 s.udpPcbs

theorem Sound.entries {s : Pcbs C} {items : List (Slot × Pcb C)} (sound : Sound s items) : Sound s s.entries := by
  rw [Pcbs.entries, sound.listed.segment.contents (Nat.le_of_lt_succ (length_lt sound.listed))]
  exact sound

theorem step_sound (s : Pcbs C) (event : Event C) (s' : Pcbs C) (sound : Sound s s.entries)
    (taken : step s event = some s') : Safe s event ∧ Leads s event s' := by
  by_cases safe : Safe s event
  · obtain ⟨s'', done, leads⟩ := step_safe sound safe
    cases taken.symm.trans done
    exact ⟨safe, leads⟩
  · rw [step_freed sound safe] at taken
    cases taken

theorem sound_step (s : Pcbs C) (event : Event C) (s' : Pcbs C) (sound : Sound s s.entries)
    (taken : step s event = some s') : Sound s' s'.entries := by
  obtain ⟨_, leads⟩ := step_sound s event s' sound taken
  obtain ⟨items, sound'⟩ := leads.sound
  exact sound'.entries

theorem sound_run {events : List (Event C)} {s : Pcbs C} (reached : run step Pcbs.init events = some s) :
    Sound s s.entries :=
  run_invariant sound_step events Pcbs.init s Sound.init.entries reached

/-- **The PCBs are kept in order**: in every state of every run the list has each PCB that is bound to a port once and
no other, no two of them are in each other's way, and the pool has the PCBs that are not allocated (one that is
allocated but not bound is in neither); and a run goes through exactly when no call uses a PCB that was removed. -/
theorem pcbs_kept (events : List (Event C)) :
    Always step (fun s => Sound s s.entries) Pcbs.init events ∧
      ((run step Pcbs.init events).isSome = true ↔ Throughout step Safe Pcbs.init events) := by
  have start : Sound (Pcbs.init : Pcbs C) Pcbs.init.entries := Sound.init.entries
  refine ⟨always_of_invariant sound_step events Pcbs.init start,
    run_isSome_iff sound_step (fun s event sound => ?_) events Pcbs.init start⟩
  constructor
  · intro taken
    obtain ⟨s', taken⟩ := Option.isSome_iff_exists.mp taken
    exact (step_sound s event s' sound taken).1
  · intro safe
    obtain ⟨s', done, _⟩ := step_safe sound safe
    rw [done]
    rfl

/-- **A datagram goes where the bindings say.** After any run, a datagram that is no broadcast, and not for the DHCP
client's port, is delivered to a PCB exactly when that PCB's own binding and connection accept it; its sender is told
that the port is unreachable exactly when no PCB's do. -/
theorem demultiplexed (events : List (Event C)) :
    Always step (fun s => ∀ (netif : Netif) (dhcp : Option Slot) (d : Datagram), d.destPort ≠ 68 → ¬ d.Short →
      ip4AddrIsbroadcast d.dest netif = false →
      ∃ s' outcome, udpInput s netif dhcp d = some (s', outcome) ∧
        (∀ p recv, outcome = .delivered p recv ↔
          ∃ pcb, s.view p = some pcb ∧ pcb.Accepts netif d ∧ pcb.recv = some recv) ∧
        (outcome = .unreachable ↔ (∀ p pcb, s.view p = some pcb → ¬ pcb.Accepts netif d) ∧ d.dest = netif.ipAddr ∧
          ipAddrIsmulticast d.dest = false)) Pcbs.init events := by
  refine (always_of_invariant sound_step events Pcbs.init Sound.init.entries).mono fun s sound => ?_
  intro netif dhcp d notDhcp whole unicast
  exact udpInput_spec sound notDhcp whole unicast

/-! ### Answers -/

/-- The datagram comes from where the other one was sent, to where it came from. -/
def Datagram.Answers (d : Datagram) (sent : Sent) : Prop :=
  d.src = sent.dstIp ∧ d.srcPort = sent.dstPort ∧ d.dest = sent.srcIp ∧ d.destPort = sent.srcPort

/-- A bound PCB says the same after a run in which no call sets it. -/
theorem kept_run {p : Slot} {pcb : Pcb C} (isBound : pcb.localPort ≠ 0) :
    ∀ (events : List (Event C)) (s final : Pcbs C), Sound s s.entries → (∀ event ∈ events, ¬ event.Sets p) →
      s.view p = some pcb → run step s events = some final → final.view p = some pcb := by
  intro events
  induction events with
  | nil =>
    intro s final _ _ said reached
    cases reached
    exact said
  | cons event rest ih =>
    intro s final sound free said reached
    obtain ⟨freeNow, freeLater⟩ := List.forall_mem_cons.mp free
    obtain ⟨next, taken, reached⟩ := run_cons_eq_some.mp reached
    obtain ⟨_, leads⟩ := step_sound s event next sound taken
    have said' := leads.kept p pcb said isBound freeNow
    exact ih next final (sound_step s event next sound taken) freeLater said' reached

/-- **The answer comes back to the PCB that asked.** A PCB with a callback, not connected or connected to where it
sends, sends a datagram, with or without a port of its own. Whatever is called for other PCBs and whatever arrives
before the answer, the callback gets the answer, if that is long enough, no broadcast and not for the DHCP client's
port. -/
theorem reply_returned {before later : List (Event C)} {s s₁ s₂ : Pcbs C} {p : Slot} {pcb : Pcb C} {recv : C}
    {len : Nat} {header : Bool} {dstIp : UInt32} {dstPort : UInt16} {netif netif' : Netif} {sent : Sent}
    {d : Datagram} {dhcp : Option Slot}
    (reached : run step Pcbs.init before = some s) (said : s.view p = some pcb) (heard : pcb.recv = some recv)
    (toward : pcb.connected = true → pcb.remotePort = dstPort ∧ (pcb.remoteIp = 0 ∨ pcb.remoteIp = dstIp))
    (sends : udpSendtoIf s p len header dstIp dstPort netif = some (s₁, .ok sent))
    (reached' : run step s₁ later = some s₂) (free : ∀ event ∈ later, ¬ event.Sets p) (answers : d.Answers sent)
    (whole : ¬ d.Short) (notDhcp : d.destPort ≠ 68) (unicast : ip4AddrIsbroadcast d.dest netif' = false) :
    ∃ s₃, udpInput s₂ netif' dhcp d = some (s₃, .delivered p recv) := by
  have sound := sound_run reached
  obtain ⟨_, pcb', result, done, changes, isBounded, spec⟩ :=
    udpSendtoIf_spec sound said len header dstIp dstPort netif
  cases sends.symm.trans done
  obtain ⟨srcPort, srcIp, toIp, toPort⟩ := spec sent rfl
  obtain ⟨items₁, sound₁⟩ := changes.sound
  have said₁ : s₁.view p = some pcb' := by rw [changes.view, Function.update_self]
  have said₂ : s₂.view p = some pcb' :=
    kept_run isBounded.isBound later s₁ s₂ sound₁.entries free said₁ reached'
  have sound₂ := run_invariant sound_step later s₁ s₂ sound₁.entries reached'
  obtain ⟨src, fromPort, dest, destPort⟩ := answers
  have accepts : pcb'.Accepts netif' d := by
    refine ⟨isBounded.isBound, (localMatch_iff unicast).mpr ⟨by rw [destPort, srcPort], by rwa [dest]⟩, ?_⟩
    intro connected
    rw [isBounded.others] at connected ⊢
    obtain ⟨port, ip⟩ := toward connected
    rw [Pcb.remoteMatch, Bool.and_eq_true, Bool.or_eq_true, beq_iff_eq, beq_iff_eq, beq_iff_eq, fromPort, src, toIp,
      toPort]
    exact ⟨port, ip⟩
  obtain ⟨s₃, outcome, input, delivered, _⟩ := @udpInput_spec C s₂ _ netif' dhcp d sound₂ notDhcp whole unicast
  have same : outcome = .delivered p recv :=
    (delivered p recv).mpr ⟨pcb', said₂, accepts, by rw [isBounded.others, heard]⟩
  exact ⟨s₃, same ▸ input⟩

/-- The interface of the board. -/
def board : Netif := ⟨ip4Addr 192 168 1 10, ip4Addr 255 255 255 0, ip4Addr 192 168 1 1, ethzero⟩

/-- A PCB without a port gets a callback. -/
def asking : List (Event Unit) := [.new, .recv (Fin.last 5) ()]

/-- A DHCP client starts, and a datagram arrives that nobody waits for. -/
def meanwhile : List (Event Unit) :=
  let client : Slot := (Fin.last 4).castSucc
  [.new, .bind client 0 68, .connect client 0 67,
    .input board (some client) ⟨20, 60, 60, ip4Addr 192 168 1 1, ip4Addr 192 168 1 10, 69, 4000⟩]

theorem reply_returned_tftp : ∃ s s₁ s₂ s₃, run step Pcbs.init asking = some s ∧
    udpSendtoIf s (Fin.last 5) 20 true (ip4Addr 192 168 1 1) 69 board =
      some (s₁, .ok ⟨ip4Addr 192 168 1 10, ip4Addr 192 168 1 1, 0xc001, 69, 28⟩) ∧
    run step s₁ meanwhile = some s₂ ∧
    udpInput s₂ board none ⟨20, 60, 60, ip4Addr 192 168 1 1, ip4Addr 192 168 1 10, 69, 0xc001⟩ =
      some (s₃, .delivered (Fin.last 5) ()) := by
  obtain ⟨s₃, done⟩ := @reply_returned Unit asking meanwhile _ _ _ (Fin.last 5) _ () 20 true
    (ip4Addr 192 168 1 1) 69 board board ⟨ip4Addr 192 168 1 10, ip4Addr 192 168 1 1, 0xc001, 69, 28⟩
    ⟨20, 60, 60, ip4Addr 192 168 1 1, ip4Addr 192 168 1 10, 69, 0xc001⟩ none
    rfl rfl rfl nofun rfl rfl (by simp [meanwhile, Event.Sets]) ⟨rfl, rfl, rfl, rfl⟩ (by simp [Datagram.Short])
    (by decide) (by decide)
  exact ⟨_, _, _, s₃, rfl, rfl, rfl, done⟩

/-! ### Automatic ports -/

/-- The ports a run gives out automatically, in their order. -/
def givenOut : Pcbs C → List (Event C) → List UInt16
  | _, [] => []
  | s, event :: rest =>
    match step s event with
    | none => []
    | some s' =>
      match automatic s event with
      | some p => ((s'.view p).map Pcb.localPort).toList ++ givenOut s' rest
      | none => givenOut s' rest

/-- Each port is one to seven steps behind the one before. -/
def Advances : UInt16 → List UInt16 → Prop
  | _, [] => True
  | last, port :: rest => (∃ k, 1 ≤ k ∧ k ≤ 7 ∧ port = nextPort^[k] last) ∧ Advances port rest

theorem advances_givenOut : ∀ (events : List (Event C)) (s : Pcbs C), Sound s s.entries →
    Advances s.udpPort (givenOut s events) := by
  intro events
  induction events with
  | nil => exact fun _ _ => trivial
  | cons event rest ih =>
    intro s sound
    rw [givenOut]
    cases taken : step s event with
    | none => trivial
    | some s' =>
      obtain ⟨_, leads⟩ := step_sound s event s' sound taken
      have later := ih s' (sound_step s event s' sound taken)
      cases takes : automatic s event with
      | none =>
        rw [leads.quiet takes] at later
        simpa [takes] using later
      | some p =>
        obtain ⟨⟨pcb, said, port⟩, step⟩ := leads.takes p takes
        simp only [said, Option.map_some, Option.toList_some, List.singleton_append, port]
        exact ⟨step, later⟩

section Ports

variable {last : UInt16} {ports : List UInt16}

/-- After `n` more ports, between `n + 1` and `7 (n + 1)` steps have been made. -/
theorem Advances.steps (advances : Advances last ports) {n : Nat} (inside : n < ports.length) :
    ∃ k, n + 1 ≤ k ∧ k ≤ 7 * (n + 1) ∧ ports[n] = nextPort^[k] last := by
  induction ports generalizing last n with
  | nil => cases inside
  | cons port rest ih =>
    obtain ⟨⟨k, low, high, rfl⟩, later⟩ := advances
    cases n with
    | zero => exact ⟨k, low, high, rfl⟩
    | succ n =>
      obtain ⟨more, low', high', same⟩ := ih later (Nat.lt_of_succ_lt_succ inside)
      refine ⟨more + k, by omega, by omega, ?_⟩
      rw [List.getElem_cons_succ, same, Function.iterate_add_apply]

theorem Advances.range (range : 0xc000 ≤ last.toNat) (advances : Advances last ports) :
    ∀ port ∈ ports, 0xc000 ≤ port.toNat := by
  intro port member
  obtain ⟨n, inside, rfl⟩ := List.getElem_of_mem member
  obtain ⟨k, _, _, same⟩ := advances.steps inside
  rw [same, iterate_nextPort_toNat range]
  omega

theorem Advances.drop (range : 0xc000 ≤ last.toNat) (advances : Advances last ports) (n : Nat) :
    ∃ last', 0xc000 ≤ last'.toNat ∧ Advances last' (ports.drop n) := by
  induction ports generalizing last n with
  | nil => exact ⟨last, range, by simp [Advances]⟩
  | cons port rest ih =>
    cases n with
    | zero => exact ⟨last, range, advances⟩
    | succ n => exact ih (advances.range range port List.mem_cons_self) advances.2 n

theorem Advances.nodup (range : 0xc000 ≤ last.toNat) (advances : Advances last ports) (n : Nat) (few : n ≤ 2341) :
    (ports.take n).Nodup := by
  induction ports generalizing last n with
  | nil => simp
  | cons port rest ih =>
    cases n with
    | zero => simp
    | succ n =>
      have here := advances.range range port List.mem_cons_self
      rw [List.take_succ_cons, List.nodup_cons]
      refine ⟨fun again => ?_, ih here advances.2 n (by omega)⟩
      obtain ⟨i, inside, same⟩ := List.getElem_of_mem again
      rw [List.length_take] at inside
      obtain ⟨k, low, high, isPort⟩ := advances.2.steps (n := i) (by omega)
      rw [List.getElem_take, isPort] at same
      have value := iterate_nextPort_toNat here k
      rw [same] at value
      have below := port.toNat_lt
      omega

end Ports

/-- **An automatic port is not given out again soon**: of the ports a run gives out automatically, any 2341 in a row
are different, and all are in the range of the dynamic ports. -/
theorem port_not_reused (events : List (Event C)) (n : Nat) :
    (((givenOut Pcbs.init events).drop n).take 2341).Nodup ∧
      ∀ port ∈ givenOut (Pcbs.init : Pcbs C) events, 0xc000 ≤ port.toNat := by
  have advances := advances_givenOut events (Pcbs.init : Pcbs C) Sound.init.entries
  have range : 0xc000 ≤ (Pcbs.init : Pcbs C).udpPort.toNat := Sound.init.range
  obtain ⟨last, range', later⟩ := advances.drop range n
  exact ⟨later.nodup range' 2341 le_rfl, advances.range range⟩

end ULoader.Udp

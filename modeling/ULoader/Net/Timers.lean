/-
**The periodic tasks.**

`LwIP_Periodic_Handle` is called with the clock `LocalTime`, a `uint32_t` that wraps, and compares it by
wrapped subtraction with the four times at which it last ran each task. `periodic_ideal` compares it
with the scheduler on the unbounded clock: as long as the polls come no further apart than
`2^32 - 60000` milliseconds, it runs the same tasks at the same polls.

Between polls anything may happen: lines and steps of the DHCP client do not touch the timers. What the
tasks themselves do does not matter either (`tasks_log`), and a poll is only cut short by a read through
a NULL pointer of the DHCP client, which needs `mem_malloc` to have failed (`isSome_log`).
-/

import ULoader.Lib.Timer
import ULoader.Net.System

namespace ULoader.Net

open Shell StepSystem

/-! ### The ideal scheduler -/

/-- The tasks, in the order in which `LwIP_Periodic_Handle` tests them. -/
def Task.all : List Task := [.tcp, .arp, .dhcpFine, .dhcpCoarse]

/-- `TCP_TMR_INTERVAL`, `ARP_TMR_INTERVAL`, `DHCP_FINE_TIMER_MSECS` and `DHCP_COARSE_TIMER_MSECS`. -/
def Task.interval : Task → Nat
  | .tcp => 250
  | .arp => 5000
  | .dhcpFine => 500
  | .dhcpCoarse => 60000

/-- The ideal scheduler polled at the times of a list: each poll with the tasks it runs. -/
def idealLog : (Task → Nat) → List Nat → List (Nat × List Task)
  | _, [] => []
  | last, now :: rest =>
    (now, Task.all.filter fun task => Timer.due task.interval now (last task)) ::
      idealLog (fun task => Timer.after task.interval now (last task)) rest

/-- The polls of a log at which a task was run. -/
def runsOf (task : Task) (log : List (Nat × List Task)) : List Nat :=
  (log.filter fun entry => task ∈ entry.2).map Prod.fst

/-! ### The polls of the program -/

/-- What happens: a poll at a time of the unbounded clock, a command line, or a step of the client. -/
inductive Activity where
  | poll (time : Nat) (resources : Resources)
  | line (line : List UInt8)
  | client (event : ClientEvent)

/-- The times of the polls. -/
def polls (activities : List Activity) : List Nat :=
  activities.filterMap fun
    | .poll time _ => some time
    | _ => none

/-- The polls of a run, each with the tasks that `LwIP_Periodic_Handle` runs. The handler sees the time
modulo `2^32`. -/
def log : NetState → List Activity → Option (List (Nat × List Task))
  | _, [] => some []
  | s, .poll time resources :: rest => do
    let (tasks, next) ← lwipPeriodicHandle resources (UInt32.ofNat time) s
    let later ← log next rest
    return (time, tasks) :: later
  | s, .line line :: rest => do
    let next ← step s (.line line)
    log next rest
  | s, .client event :: rest => do
    let next ← step s (.client event)
    log next rest

/-- The tests of `LwIP_Periodic_Handle` alone, over a list of polls. -/
def timersLog : Timers → List Nat → List (Nat × List Task)
  | _, [] => []
  | timers, now :: rest =>
    (now, timers.tasks (UInt32.ofNat now)) :: timersLog (timers.after (UInt32.ofNat now)) rest

/-! ### The timers follow the ideal scheduler -/

/-- The timer of a task. -/
def Timers.last (timers : Timers) : Task → UInt32
  | .tcp => timers.tcp
  | .arp => timers.arp
  | .dhcpFine => timers.dhcpFine
  | .dhcpCoarse => timers.dhcpCoarse

/-- The timers are the ideal last runs modulo `2^32`, and these are less than an interval back. -/
structure Tracks (timers : Timers) (now : Nat) (last : Task → Nat) : Prop where
  wrapped : ∀ task, timers.last task = UInt32.ofNat (last task)
  fresh : ∀ task, Timer.Fresh (Task.interval task) now (last task)

theorem Task.interval_bounds (task : Task) : 0 < task.interval ∧ task.interval ≤ 60000 := by
  cases task <;> decide

theorem due_eq_dueMod (localtime timer interval : UInt32) :
    due localtime timer interval =
      Timer.dueMod interval.toBitVec localtime.toBitVec timer.toBitVec := by
  refine decide_eq_decide.mpr ?_
  rw [UInt32.le_iff_toBitVec_le, UInt32.toBitVec_sub]

/-- The tasks of a poll, task by task. -/
theorem Timers.tasks_eq (timers : Timers) (localtime : UInt32) :
    timers.tasks localtime = Task.all.filter fun task =>
      due localtime (timers.last task) (UInt32.ofNat task.interval) := by
  simp only [Timers.tasks, Task.all, List.filter_cons, List.filter_nil, Timers.last, Task.interval]
  cases due localtime timers.tcp 250 <;> cases due localtime timers.arp 5000 <;>
    cases due localtime timers.dhcpFine 500 <;> cases due localtime timers.dhcpCoarse 60000 <;> rfl

theorem Timers.last_after (timers : Timers) (localtime : UInt32) (task : Task) :
    (timers.after localtime).last task =
      if due localtime (timers.last task) (UInt32.ofNat task.interval) then localtime
      else timers.last task := by
  cases task <;> rfl

/-- **One poll.** The pace is kept, so each test comes out as on the unbounded clock. -/
theorem Tracks.due_eq {timers : Timers} {start now : Nat} {last : Task → Nat}
    (tracks : Tracks timers start last) (ordered : start ≤ now)
    (paced : now - start ≤ 2 ^ 32 - 60000) (task : Task) :
    due (UInt32.ofNat now) (timers.last task) (UInt32.ofNat task.interval) =
      Timer.due task.interval now (last task) := by
  obtain ⟨_, small⟩ := task.interval_bounds
  obtain ⟨behind, near⟩ := (tracks.fresh task).near ordered paced
    (show 2 ^ 32 - 60000 + task.interval ≤ 2 ^ 32 by omega)
  rw [due_eq_dueMod, tracks.wrapped task]
  exact Timer.dueMod_eq behind near (by omega)

theorem Tracks.poll {timers : Timers} {start now : Nat} {last : Task → Nat}
    (tracks : Tracks timers start last) (ordered : start ≤ now)
    (paced : now - start ≤ 2 ^ 32 - 60000) :
    Tracks (timers.after (UInt32.ofNat now)) now
      (fun task => Timer.after task.interval now (last task)) where
  wrapped task := by
    rw [Timers.last_after, tracks.due_eq ordered paced, Timer.after]
    split
    · rfl
    · exact tracks.wrapped task
  fresh task :=
    Timer.fresh_after task.interval_bounds.1 ((tracks.fresh task).ordered.trans ordered)

theorem Tracks.tasks {timers : Timers} {start now : Nat} {last : Task → Nat}
    (tracks : Tracks timers start last) (ordered : start ≤ now)
    (paced : now - start ≤ 2 ^ 32 - 60000) :
    timers.tasks (UInt32.ofNat now) =
      Task.all.filter fun task => Timer.due task.interval now (last task) := by
  rw [Timers.tasks_eq]
  exact List.filter_congr fun task _ => tracks.due_eq ordered paced task

theorem tracks_zero : Tracks {} 0 fun _ => 0 where
  wrapped task := by cases task <;> rfl
  fresh task := ⟨Nat.le_refl 0, task.interval_bounds.1⟩

/-- **The tests follow the ideal scheduler**, over any list of polls at that pace. -/
theorem timersLog_eq (times : List Nat) : ∀ (timers : Timers) (start : Nat) (last : Task → Nat),
    Tracks timers start last → Timer.Paced (2 ^ 32 - 60000) start times →
    timersLog timers times = idealLog last times := by
  induction times with
  | nil => exact fun _ _ _ _ _ => rfl
  | cons now rest ih =>
    rintro timers start last tracks ⟨ordered, paced, later⟩
    rw [timersLog, idealLog, tracks.tasks ordered paced, ih _ now _ (tracks.poll ordered paced) later]

/-! ### The program's log -/

/-- A poll runs the tasks its tests say, and leaves the timers they say. -/
theorem tasks_handle {resources : Resources} {localtime : UInt32} {s next : NetState}
    {tasks : List Task} (handled : lwipPeriodicHandle resources localtime s = some (tasks, next)) :
    tasks = s.timers.tasks localtime ∧ next.timers = s.timers.after localtime := by
  rw [lwipPeriodicHandle_eq] at handled
  obtain ⟨_, -, same⟩ := Option.map_eq_some_iff.mp handled
  simp only [Prod.mk.injEq] at same
  obtain ⟨rfl, rfl⟩ := same
  exact ⟨rfl, rfl⟩

theorem timers_line (line : List UInt8) (s : NetState) : (console line s).timers = s.timers := by
  have taken := taken_line s line
  generalize console line s = next at taken
  cases taken <;> rfl

theorem timers_client {event : ClientEvent} {s next : NetState}
    (taken : step s (.client event) = some next) : next.timers = s.timers := by
  obtain ⟨netif, -, rfl⟩ := Option.map_eq_some_iff.mp taken
  rfl

/-- What happens between the polls, and what the tasks do, does not change which tasks are run. -/
theorem tasks_log (activities : List Activity) : ∀ {s : NetState} {entries : List (Nat × List Task)},
    log s activities = some entries → entries = timersLog s.timers (polls activities) := by
  induction activities with
  | nil =>
    intro s entries logged
    exact (Option.some.inj logged).symm
  | cons activity rest ih =>
    intro s entries logged
    cases activity with
    | poll time resources =>
      simp only [log, Option.bind_eq_bind, Option.bind_eq_some_iff] at logged
      obtain ⟨⟨tasks, next⟩, handled, later, logged, same⟩ := logged
      obtain ⟨rfl, timers⟩ := tasks_handle handled
      rw [← Option.some.inj same, ih logged, timers]
      rfl
    | line line =>
      have kept := timers_line line s
      rw [ih (s := console line s) logged, kept]
      rfl
    | client event =>
      simp only [log, Option.bind_eq_bind, Option.bind_eq_some_iff] at logged
      obtain ⟨next, taken, logged⟩ := logged
      rw [ih logged, timers_client taken]
      rfl

/-- The runs of a task in the ideal log. -/
theorem runsOf_idealLog (task : Task) (times : List Nat) : ∀ last : Task → Nat,
    runsOf task (idealLog last times) = Timer.runs task.interval (last task) times := by
  induction times with
  | nil => exact fun _ => rfl
  | cons now rest ih =>
    intro last
    have listed : task ∈ Task.all := by cases task <;> decide
    have later := ih fun task => Timer.after task.interval now (last task)
    unfold runsOf at later ⊢
    rw [idealLog, List.filter_cons, Timer.runs]
    by_cases elapsed : Timer.due task.interval now (last task)
    · have member : decide (task ∈ Task.all.filter fun task =>
          Timer.due task.interval now (last task)) = true :=
        decide_eq_true (List.mem_filter.mpr ⟨listed, elapsed⟩)
      rw [if_pos member, if_pos elapsed, List.map_cons, later, Timer.after, if_pos elapsed]
    · have missing : ¬ decide (task ∈ Task.all.filter fun task =>
          Timer.due task.interval now (last task)) = true := by
        simp [List.mem_filter, elapsed]
      rw [if_neg missing, if_neg elapsed, later, Timer.after, if_neg elapsed]

/-! ### The polls are defined -/

/-- The state machine can read `netif.dhcp->tries` when it will. -/
structure Attached (s : NetState) : Prop where
  ethernet : s.netif.Ethernet
  attached : s.dhcpState = .waitAddress → s.netif.dhcp.isSome

theorem attached_lwipInit : Attached lwipInit := ⟨⟨by decide, by decide⟩, nofun⟩

/-- `dhcp_start` attaches a client when there is memory for one. -/
theorem isSome_dhcpStart {resources : Resources} {n : Netif} (ethernet : n.Ethernet)
    (memory : resources.memMalloc = true) : (dhcpStart resources n).2.dhcp.isSome := by
  have large : ¬ n.mtu < 576 := Nat.not_lt.mpr ethernet.mtu
  simp only [dhcpStart, ethernet.etharp, large, memory, not_true_eq_false, and_false, if_false]
  split_ifs <;> rfl

/-- A poll of an attached client is defined, and keeps it attached. -/
theorem Attached.poll {s : NetState} (attached : Attached s) {resources : Resources}
    (memory : resources.memMalloc = true) (localtime : UInt32) :
    ∃ tasks next, lwipPeriodicHandle resources localtime s = some (tasks, next) ∧ Attached next := by
  have defined : (step s (.tick localtime resources)).isSome := by
    simp only [step, lwipPeriodicHandle_eq, Option.isSome_map]
    split
    · cases stage : s.dhcpState with
      | start => simp [lwipDhcpProcessHandle, stage]
      | waitAddress =>
        simp only [lwipDhcpProcessHandle, stage]
        split
        · rfl
        · rw [Option.isSome_map]
          exact attached.attached stage
      | addressAssigned => simp [lwipDhcpProcessHandle, stage]
      | timeout => simp [lwipDhcpProcessHandle, stage]
    · rfl
  obtain ⟨next, taken⟩ := Option.isSome_iff_exists.mp defined
  obtain ⟨⟨tasks, _⟩, handled, rfl⟩ := Option.map_eq_some_iff.mp taken
  refine ⟨tasks, _, handled, ethernet_step s _ _ attached.ethernet taken, fun waiting => ?_⟩
  cases taken_of_step taken with
  | rest => exact attached.attached waiting
  | start => exact isSome_dhcpStart attached.ethernet.cleared memory
  | assign => cases waiting
  | fallBack => cases waiting
  | wait localtime resources isDue before => exact attached.attached before

theorem Attached.line {s : NetState} (attached : Attached s) (line : List UInt8) :
    Attached (console line s) := by
  refine ⟨ethernet_step s (.line line) _ attached.ethernet rfl, fun waiting => ?_⟩
  have taken := taken_line s line
  generalize console line s = next at taken waiting
  cases taken with
  | dhcp => cases waiting
  | quiet => exact attached.attached waiting
  | static => exact attached.attached waiting
  | stale => exact attached.attached waiting

/-- With memory for the DHCP client every poll is defined. -/
theorem isSome_log (activities : List Activity) : ∀ {s : NetState}, Attached s →
    (∀ time resources, .poll time resources ∈ activities → resources.memMalloc = true) →
    (∀ event, .client event ∉ activities) → (log s activities).isSome := by
  induction activities with
  | nil => exact fun _ _ _ => rfl
  | cons activity rest ih =>
    intro s attached memory noClient
    have memoryLater : ∀ time resources, .poll time resources ∈ rest → resources.memMalloc = true :=
      fun time resources member => memory time resources (List.mem_cons_of_mem _ member)
    have noClientLater : ∀ event, .client event ∉ rest :=
      fun event member => noClient event (List.mem_cons_of_mem _ member)
    cases activity with
    | poll time resources =>
      obtain ⟨tasks, next, handled, after⟩ :=
        attached.poll (memory time resources List.mem_cons_self) (UInt32.ofNat time)
      obtain ⟨later, logged⟩ :=
        Option.isSome_iff_exists.mp (ih after memoryLater noClientLater)
      simp only [log, handled, logged, Option.bind_eq_bind, Option.bind_some]
      rfl
    | line line => exact ih (s := console line s) (attached.line line) memoryLater noClientLater
    | client event => exact absurd List.mem_cons_self (noClient event)

/-! ### The wrap of the clock -/

/-- **The periodic tasks survive the wrap of the clock.** The timers start at zero, and the polls come
at times of the unbounded clock of which the first and every gap are at most `2^32 - 60000`; lines and
steps of the DHCP client come in between. Then `LwIP_Periodic_Handle`, called with the times modulo
`2^32`, runs the tasks at exactly the polls at which the ideal scheduler runs them; so do its tests by
themselves; two runs of a task are at least its interval apart; and no poll is cut short as long as
there is memory for the DHCP client. -/
theorem periodic_ideal (s : NetState) (zero : s.timers = {}) (activities : List Activity)
    (paced : Timer.Paced (2 ^ 32 - 60000) 0 (polls activities)) :
    (∀ entries, log s activities = some entries →
        entries = idealLog (fun _ => 0) (polls activities)) ∧
      timersLog {} (polls activities) = idealLog (fun _ => 0) (polls activities) ∧
      (∀ task, (runsOf task (idealLog (fun _ => 0) (polls activities))).Pairwise
        fun earlier later => earlier + Task.interval task ≤ later) ∧
      (Attached s →
        (∀ time resources, .poll time resources ∈ activities → resources.memMalloc = true) →
        (∀ event, .client event ∉ activities) → (log s activities).isSome) := by
  have ideal := timersLog_eq (polls activities) {} 0 (fun _ => 0) tracks_zero paced
  refine ⟨fun entries logged => ?_, ideal, fun task => ?_, isSome_log activities⟩
  · rw [tasks_log activities logged, zero, ideal]
  · rw [runsOf_idealLog]
    exact (Timer.spaced_runs (polls activities) 0 0 (Nat.le_refl 0) paced).2

/-- Polls at the start of the clock, right before its wrap, and after it. -/
def overTheWrap : List Activity :=
  [.poll 300 ⟨true, some 0, true⟩, .poll (2 ^ 32 - 60000) ⟨true, some 0, true⟩,
    .line [0x65], .poll (2 ^ 32 - 100) ⟨true, some 0, true⟩, .poll (2 ^ 32 + 100) ⟨true, some 0, true⟩,
    .poll (2 ^ 32 + 150) ⟨true, some 0, true⟩]

theorem periodic_ideal_overTheWrap :
    log lwipInit overTheWrap =
      some [(300, [.tcp]), (2 ^ 32 - 60000, [.tcp, .arp, .dhcpFine, .dhcpCoarse]),
        (2 ^ 32 - 100, [.tcp, .arp, .dhcpFine]), (2 ^ 32 + 100, [.dhcpCoarse]),
        (2 ^ 32 + 150, [.tcp])] := by
  obtain ⟨follows, -, -, defined⟩ := periodic_ideal lwipInit rfl overTheWrap (by decide +kernel)
  have memory : ∀ time resources, .poll time resources ∈ overTheWrap →
      resources.memMalloc = true := by
    intro time resources member
    simp only [overTheWrap, List.mem_cons, Activity.poll.injEq, List.not_mem_nil] at member
    rcases member with ⟨-, rfl⟩ | ⟨-, rfl⟩ | member | ⟨-, rfl⟩ | ⟨-, rfl⟩ | ⟨-, rfl⟩ | member
    all_goals first | rfl | cases member
  obtain ⟨entries, logged⟩ := Option.isSome_iff_exists.mp
    (defined attached_lwipInit memory (by simp [overTheWrap]))
  rw [logged, follows entries logged]
  decide +kernel

end ULoader.Net

/-
**Runs of a partial step function.**

A system is a partial step `step : S → E → Option S`: `none` says that the environment cannot take
the step, or that the program leaves its effect undefined. Events are resolved choices, so a list of
events is one interleaving, and "for every interleaving" is "for every list".

* `run` — the state after a list of events.
* `Always P` — `P` holds in every state the run goes through, the first one included.
* `Along C` — `C` holds of every step the run takes, of the state before it and its event.
* `always_of_along` — **the invariant rule**: what every `C`-step preserves holds throughout a run
  whose steps all meet `C`.
* `always_iff_along` — **the exactness rule**: when moreover a step that leaves `P` standing meets
  `C`, the runs that keep `P` are exactly the runs that keep to `C`.
* `last_iff_along` — the same for a property at the end of the run, when what is lost stays lost.
* `Throughout C` — every event of the run meets `C` in the state it comes to, also where no step follows;
  **`run_isSome_iff`** — when a step out of the invariant is possible exactly under `C`, a whole run is
  possible exactly when all its events meet `C`.
* `Refines` — every step is, through a map of the states, a step of a coarser system; then runs are
  runs, and conditions that only look through the map can be checked on the coarser system.
-/

import Mathlib.Data.Option.Basic

namespace StepSystem

variable {S E : Type*} {step : S → E → Option S}

/-- The state after a list of events; `none` as soon as one step is not possible. -/
def run (step : S → E → Option S) : S → List E → Option S
  | s, [] => some s
  | s, event :: rest => (step s event).bind fun next => run step next rest

/-- `P` holds in every state of the run. -/
def Always (step : S → E → Option S) (P : S → Prop) : S → List E → Prop
  | s, [] => P s
  | s, event :: rest => P s ∧ ∀ next, step s event = some next → Always step P next rest

/-- `C` holds of every step of the run. -/
def Along (step : S → E → Option S) (C : S → E → Prop) : S → List E → Prop
  | _, [] => True
  | s, event :: rest => ∀ next, step s event = some next → C s event ∧ Along step C next rest

instance decidableAlong {C : S → E → Prop} [∀ s event, Decidable (C s event)] :
    (s : S) → (events : List E) → Decidable (Along step C s events)
  | _, [] => .isTrue trivial
  | s, event :: rest =>
    match taken : step s event with
    | none => .isTrue fun next other => by rw [taken] at other; cases other
    | some next =>
      have := decidableAlong (C := C) next rest
      decidable_of_iff (C s event ∧ Along step C next rest)
        ⟨fun holds other same => Option.some.inj (taken.symm.trans same) ▸ holds,
          fun along => along next taken⟩

/-- The states some run reaches. -/
def Reachable (step : S → E → Option S) (initial s : S) : Prop :=
  ∃ events, run step initial events = some s

/-! ### Composing runs -/

@[simp] theorem run_nil (s : S) : run step s [] = some s := rfl

theorem run_cons (s : S) (event : E) (rest : List E) :
    run step s (event :: rest) = (step s event).bind fun next => run step next rest := rfl

theorem run_cons_eq_some {s final : S} {event : E} {rest : List E} :
    run step s (event :: rest) = some final ↔
      ∃ next, step s event = some next ∧ run step next rest = some final := by
  rw [run_cons, Option.bind_eq_some_iff]

theorem run_append (first second : List E) :
    ∀ s : S, run step s (first ++ second) = (run step s first).bind fun mid => run step mid second := by
  induction first with
  | nil => exact fun s => rfl
  | cons event rest ih =>
    intro s
    rw [List.cons_append, run_cons, run_cons, Option.bind_assoc]
    exact congrArg _ (funext fun next => ih next)

theorem run_append_eq_some {first second : List E} {s final : S} :
    run step s (first ++ second) = some final ↔
      ∃ mid, run step s first = some mid ∧ run step mid second = some final := by
  rw [run_append, Option.bind_eq_some_iff]

theorem run_singleton (s : S) (event : E) : run step s [event] = step s event := by
  rw [run_cons]
  exact Option.bind_fun_some _

theorem Reachable.refl (s : S) : Reachable step s s := ⟨[], rfl⟩

/-- A run out of a reachable state ends in one. -/
theorem Reachable.run {initial s final : S} (reached : Reachable step initial s) {events : List E}
    (later : run step s events = some final) : Reachable step initial final := by
  obtain ⟨before, reached⟩ := reached
  exact ⟨before ++ events, run_append_eq_some.mpr ⟨s, reached, later⟩⟩

/-! ### Invariants -/

/-- An invariant of every step is an invariant of every run. -/
theorem run_invariant {I : S → Prop}
    (preserved : ∀ s event next, I s → step s event = some next → I next) :
    ∀ (events : List E) (s final : S), I s → run step s events = some final → I final := by
  intro events
  induction events with
  | nil =>
    intro s final holds reached
    cases reached
    exact holds
  | cons event rest ih =>
    intro s final holds reached
    obtain ⟨next, taken, reached⟩ := run_cons_eq_some.mp reached
    exact ih next final (preserved s event next holds taken) reached

theorem Reachable.invariant {I : S → Prop} {initial s : S} (reached : Reachable step initial s)
    (start : I initial) (preserved : ∀ s event next, I s → step s event = some next → I next) :
    I s := by
  obtain ⟨events, reached⟩ := reached
  exact run_invariant preserved events initial s start reached

/-- What holds throughout a run holds where it starts. -/
theorem Always.head {P : S → Prop} {s : S} {events : List E} (always : Always step P s events) :
    P s := by
  cases events with
  | nil => exact always
  | cons event rest => exact always.1

/-- What holds throughout a run holds where it ends. -/
theorem Always.last {P : S → Prop} : ∀ {events : List E} {s final : S}, Always step P s events →
    run step s events = some final → P final := by
  intro events
  induction events with
  | nil =>
    intro s final always reached
    cases reached
    exact always
  | cons event rest ih =>
    intro s final always reached
    obtain ⟨next, taken, reached⟩ := run_cons_eq_some.mp reached
    exact ih (always.2 next taken) reached

/-- **The invariant rule**, for runs whose steps all meet a condition. -/
theorem always_of_along {I : S → Prop} {C : S → E → Prop}
    (preserved : ∀ s event next, I s → C s event → step s event = some next → I next) :
    ∀ (events : List E) (s : S), I s → Along step C s events → Always step I s events := by
  intro events
  induction events with
  | nil => exact fun s holds _ => holds
  | cons event rest ih =>
    intro s holds along
    refine ⟨holds, fun next taken => ?_⟩
    obtain ⟨meets, along⟩ := along next taken
    exact ih next (preserved s event next holds meets taken) along

theorem Always.mono {P Q : S → Prop} (weaker : ∀ s, P s → Q s) :
    ∀ {events : List E} {s : S}, Always step P s events → Always step Q s events := by
  intro events
  induction events with
  | nil => exact fun always => weaker _ always
  | cons event rest ih =>
    intro s always
    exact ⟨weaker s always.1, fun next taken => ih (always.2 next taken)⟩

/-- What a state property gives for every step out of the state holds along the run. -/
theorem Always.along {P : S → Prop} {C : S → E → Prop}
    (each : ∀ s event, P s → (step s event).isSome → C s event) :
    ∀ {events : List E} {s : S}, Always step P s events → Along step C s events := by
  intro events
  induction events with
  | nil => exact fun _ => trivial
  | cons event rest ih =>
    intro s always next taken
    exact ⟨each s event always.1 (by rw [taken]; rfl), ih (always.2 next taken)⟩

/-- A condition on the steps may be replaced by one that an invariant of all steps derives from it. -/
theorem Along.mono_of_invariant {I : S → Prop} {C D : S → E → Prop}
    (preserved : ∀ s event next, I s → step s event = some next → I next)
    (derives : ∀ s event, I s → (step s event).isSome → C s event → D s event) :
    ∀ {events : List E} {s : S}, I s → Along step C s events → Along step D s events := by
  intro events
  induction events with
  | nil => exact fun _ _ => trivial
  | cons event rest ih =>
    intro s holds along next taken
    obtain ⟨meets, along⟩ := along next taken
    exact ⟨derives s event holds (by rw [taken]; rfl) meets,
      ih (preserved s event next holds taken) along⟩

/-- What holds along a run is what holds of each of its steps. -/
theorem along_iff {C : S → E → Prop} : ∀ (events : List E) (s : S), Along step C s events ↔
    ∀ before event after mid, events = before ++ event :: after → run step s before = some mid →
      (step mid event).isSome → C mid event := by
  intro events
  induction events with
  | nil => exact fun s => ⟨fun _ before event after mid cut => by simp at cut, fun _ => trivial⟩
  | cons first rest ih =>
    intro s
    constructor
    · intro along before event after mid cut reached taken
      cases before with
      | nil =>
        obtain ⟨rfl, rfl⟩ := List.cons.inj cut
        cases reached
        obtain ⟨next, taken⟩ := Option.isSome_iff_exists.mp taken
        exact (along next taken).1
      | cons _ before =>
        obtain ⟨rfl, rfl⟩ := List.cons.inj cut
        obtain ⟨next, firstTaken, reached⟩ := run_cons_eq_some.mp reached
        exact (ih next).mp (along next firstTaken).2 before event after mid rfl reached taken
    · intro each next taken
      refine ⟨each [] first rest s rfl rfl (by rw [taken]; rfl), (ih next).mpr ?_⟩
      rintro before event after mid rfl reached
      exact each (first :: before) event after mid rfl (run_cons_eq_some.mpr ⟨next, taken, reached⟩)

/-- What holds of every event of a run holds along it. -/
theorem along_of_forall {C : E → Prop} : ∀ (events : List E) (s : S), (∀ event ∈ events, C event) →
    Along step (fun _ event => C event) s events := by
  intro events
  induction events with
  | nil => exact fun _ _ => trivial
  | cons event rest ih =>
    intro s all next _
    exact ⟨all event List.mem_cons_self, ih next fun later member =>
      all later (List.mem_cons_of_mem _ member)⟩

/-- What every step preserves holds throughout every run. -/
theorem always_of_invariant {I : S → Prop}
    (preserved : ∀ s event next, I s → step s event = some next → I next) (events : List E) (s : S)
    (start : I s) : Always step I s events :=
  always_of_along (fun s event next holds _ taken => preserved s event next holds taken) events s
    start (along_of_forall events s fun _ _ => trivial)

/-- **The exactness rule.** `I` carries `P` along the `C`-steps, and a step out of `I` after which
`P` still holds met `C`: then a run keeps `P` throughout exactly when all its steps meet `C`. -/
theorem always_iff_along {I P : S → Prop} {C : S → E → Prop}
    (preserved : ∀ s event next, I s → C s event → step s event = some next → I next)
    (carries : ∀ s, I s → P s)
    (needed : ∀ s event next, I s → step s event = some next → P next → C s event)
    (events : List E) (s : S) (start : I s) :
    Always step P s events ↔ Along step C s events := by
  refine ⟨?_, fun along => (always_of_along preserved events s start along).mono carries⟩
  induction events generalizing s with
  | nil => exact fun _ => trivial
  | cons event rest ih =>
    intro always next taken
    have meets : C s event := needed s event next start taken (always.2 next taken).head
    exact ⟨meets, ih next (preserved s event next start meets taken) (always.2 next taken)⟩

/-- **Exactness at the end of a run.** A `C`-step out of `I` keeps `I`, any other step out of it leads
to `B`, which every step keeps: then `P`, which `I` implies and `B` excludes, holds at the end exactly
when all steps met `C`. The events may be restricted to those that meet `D`. -/
theorem last_iff_along {I B P : S → Prop} {C : S → E → Prop} {D : E → Prop}
    (kept : ∀ s event next, I s → D event → C s event → step s event = some next → I next)
    (lost : ∀ s event next, I s → D event → ¬ C s event → step s event = some next → B next)
    (stays : ∀ s event next, B s → D event → step s event = some next → B next)
    (carries : ∀ s, I s → P s) (excludes : ∀ s, B s → ¬ P s) :
    ∀ (events : List E) (s final : S), (∀ event ∈ events, D event) → I s →
      run step s events = some final → (P final ↔ Along step C s events) := by
  intro events
  induction events with
  | nil =>
    intro s final _ holds reached
    cases reached
    exact ⟨fun _ => trivial, fun _ => carries s holds⟩
  | cons event rest ih =>
    intro s final allowed holds reached
    obtain ⟨allowedNow, allowedLater⟩ := List.forall_mem_cons.mp allowed
    obtain ⟨next, taken, reached⟩ := run_cons_eq_some.mp reached
    by_cases meets : C s event
    · have later := ih next final allowedLater (kept s event next holds allowedNow meets taken) reached
      rw [later]
      exact ⟨fun along other same => Option.some.inj (taken.symm.trans same) ▸ ⟨meets, along⟩,
        fun along => (along next taken).2⟩
    · have leaves : B next := lost s event next holds allowedNow meets taken
      have bad : B final :=
        (always_of_along stays rest next leaves (along_of_forall rest next allowedLater)).last reached
      exact ⟨fun holdsFinal => absurd holdsFinal (excludes final bad),
        fun along => absurd (along next taken).1 meets⟩

/-! ### Runs that go through -/

/-- `C` holds of every event, in the state it comes to. -/
def Throughout (step : S → E → Option S) (C : S → E → Prop) : S → List E → Prop
  | _, [] => True
  | s, event :: rest => C s event ∧ ∀ next, step s event = some next → Throughout step C next rest

/-- **A run goes through exactly when every step of it is possible.** -/
theorem run_isSome_iff {I : S → Prop} {C : S → E → Prop}
    (preserved : ∀ s event next, I s → step s event = some next → I next)
    (possible : ∀ s event, I s → ((step s event).isSome = true ↔ C s event)) :
    ∀ (events : List E) (s : S), I s → ((run step s events).isSome = true ↔ Throughout step C s events) := by
  intro events
  induction events with
  | nil => exact fun s _ => ⟨fun _ => trivial, fun _ => rfl⟩
  | cons event rest ih =>
    intro s holds
    rw [run_cons, Throughout, ← possible s event holds]
    cases taken : step s event with
    | none => simp
    | some next =>
      simp only [Option.bind_some, Option.isSome_some, true_and, Option.some.injEq, forall_eq']
      exact ih next (preserved s event next holds taken)

/-- What every event leads to from an invariant that it meets `C` in. -/
theorem run_of_throughout {I : S → Prop} {C : S → E → Prop}
    (onward : ∀ s event, I s → C s event → ∃ next, step s event = some next ∧ I next) :
    ∀ (events : List E) (s : S), I s → Throughout step C s events →
      ∃ final, run step s events = some final ∧ I final := by
  intro events
  induction events with
  | nil => exact fun s holds _ => ⟨s, rfl, holds⟩
  | cons event rest ih =>
    intro s holds meets
    obtain ⟨next, taken, holds'⟩ := onward s event holds meets.1
    obtain ⟨final, reached, last⟩ := ih next holds' (meets.2 next taken)
    exact ⟨final, run_cons_eq_some.mpr ⟨next, taken, reached⟩, last⟩

/-! ### Refinement by a map -/

section Map

variable {T : Type*} {coarse : T → E → Option T} {abs : S → T} {I : S → Prop}

/-- Under an invariant, every step is through `abs` a step of the coarser system, and it is possible
exactly when that one is. -/
structure Refines (step : S → E → Option S) (coarse : T → E → Option T) (abs : S → T)
    (I : S → Prop) : Prop where
  preserved : ∀ s event next, I s → step s event = some next → I next
  commutes : ∀ s event, I s → (step s event).map abs = coarse (abs s) event

/-- **Runs of the finer system are runs of the coarser one.** -/
theorem Refines.run (refines : Refines step coarse abs I) : ∀ (events : List E) (s : S), I s →
    (run step s events).map abs = StepSystem.run coarse (abs s) events := by
  intro events
  induction events with
  | nil => exact fun _ _ => rfl
  | cons event rest ih =>
    intro s holds
    rw [run_cons, run_cons, ← refines.commutes s event holds]
    cases taken : step s event with
    | none => rfl
    | some next => exact ih next (refines.preserved s event next holds taken)

/-- A condition on the steps that only looks through `abs` may be checked on the coarser system. -/
theorem Refines.along_iff (refines : Refines step coarse abs I) {C : T → E → Prop} :
    ∀ (events : List E) (s : S), I s →
      (Along step (fun s event => C (abs s) event) s events ↔ Along coarse C (abs s) events) := by
  intro events
  induction events with
  | nil => exact fun _ _ => Iff.rfl
  | cons event rest ih =>
    intro s holds
    have commutes := refines.commutes s event holds
    cases taken : step s event with
    | none =>
      rw [taken] at commutes
      simp [Along, taken, ← commutes]
    | some next =>
      rw [taken, Option.map_some] at commutes
      simp only [Along, taken, ← commutes, Option.some.injEq, forall_eq']
      rw [ih next (refines.preserved s event next holds taken)]

end Map

end StepSystem

/-
**Bytes that disappear.**

The loop of `TM_USART_Gets` is bounded by the buffer of `main`, which is longer than the ring. When a full
ring without a newline is drained, `TM_USART_Getc` soon finds it empty and returns 0; a byte that arrives
then is read into the buffer behind that NUL, and `parser` does not see it.

`no_byte_lost_iff` says that this is the only way to lose an accepted byte. `QueueState.seen` is what has been
seen or can still be: the strings passed on, the part of the buffer before its first NUL, and the queue.
A step either keeps it in line with the accepted bytes or makes it shorter, for good.
-/

import Mathlib.Data.List.TakeWhile
import ULoader.Console.MainLoop

namespace ULoader.Console

open StepSystem

/-! ### The condition -/

/-- No byte is read after `TM_USART_Getc` has found the ring empty in the same call. -/
def InTime (s : State) (event : Event) : Prop :=
  ∀ i, event = .main → s.phase = .drain i → i < bufsize - 1 → s.usart.contents ≠ [] →
    0 ∉ s.buffer.take i

/-- The condition over the queue. -/
def QueueState.InTime (q : QueueState) (event : Event) : Prop :=
  ∀ i, event = .main → q.phase = .drain i → i < bufsize - 1 → q.queue ≠ [] → 0 ∉ q.buffer.take i

/-- The strings that `parser` saw, and the bytes in the ring. -/
def State.seen (s : State) : List UInt8 :=
  (s.calls.map Call.string).flatten ++ s.usart.contents

/-- The strings that `parser` saw or will see, and the bytes in the queue. -/
def QueueState.seen (q : QueueState) : List UInt8 :=
  (q.calls.map Call.string).flatten ++ cString q.inFlight ++ q.queue

/-! ### What a step does to the bytes seen -/

/-- The buffer has room for the terminator, and the queue holds no NUL. -/
structure QueueState.Sound (q : QueueState) : Prop where
  buffer : q.buffer.length = bufsize
  noNul : 0 ∉ q.queue
  draining : ∀ i, q.phase = .drain i → i < bufsize
  finishing : ∀ i, q.phase = .finish i → i < bufsize

theorem sound_initial : initial.abs.Sound := ⟨by decide, by decide, nofun, nofun⟩

theorem cString_of_plain {bytes : List UInt8} (plain : 0 ∉ bytes) : cString bytes = bytes := by
  refine List.takeWhile_eq_self_iff.mpr fun c member => decide_eq_true ?_
  rintro rfl
  exact plain member

/-- What is behind a NUL is not part of the string. -/
theorem cString_append_of_nul {bytes : List UInt8} (nul : 0 ∈ bytes) (rest : List UInt8) :
    cString (bytes ++ rest) = cString bytes := by
  rw [cString, List.takeWhile_append, if_neg]
  · rfl
  · intro whole
    have same : bytes.takeWhile (· ≠ 0) = bytes := (List.takeWhile_prefix _).eq_of_length whole
    exact of_decide_eq_true (List.takeWhile_eq_self_iff.mp same 0 nul) rfl

/-- A NUL and what is behind it are not part of the string. -/
theorem cString_append_nul (bytes rest : List UInt8) : cString (bytes ++ 0 :: rest) = cString bytes := by
  by_cases nul : 0 ∈ bytes
  · exact cString_append_of_nul nul _
  · rw [cString_of_plain nul, cString, List.takeWhile_append_of_pos,
      List.takeWhile_cons_of_neg (by decide), List.append_nil]
    intro c member
    refine decide_eq_true ?_
    rintro rfl
    exact nul member

/-- The string in the buffer ends at the terminator. -/
theorem cString_set_zero {buffer : List UInt8} {i : Nat} (inside : i < buffer.length) :
    cString (buffer.set i 0) = cString (buffer.take i) := by
  have cut : buffer.set i 0 = buffer.take i ++ 0 :: buffer.drop (i + 1) :=
    List.set_eq_take_append_cons_drop.trans (if_pos inside)
  rw [cut, cString_append_nul]

/-- The bytes seen over a step: in line with the accepted bytes when the step was in time, and one byte
short otherwise. -/
structure Balance (q next : QueueState) (inTime : Prop) (added : List UInt8) : Prop where
  accepted : next.accepted = q.accepted ++ added
  kept : inTime → next.seen = q.seen ++ added
  lost : ¬ inTime → next.seen.length + 1 = q.seen.length + added.length

/-- A step that changes neither what is seen nor what is accepted. -/
theorem Balance.same {q next : QueueState} {inTime : Prop} (accepted : next.accepted = q.accepted)
    (seen : next.seen = q.seen) (always : inTime) : Balance q next inTime [] where
  accepted := accepted.trans (List.append_nil _).symm
  kept _ := seen.trans (List.append_nil _).symm
  lost late := absurd always late

/-- A byte is read from the queue: it is part of the string when the step is in time, and lost when it
is not. -/
theorem balance_read {q next : QueueState} (sound : q.Sound) {i : Nat} (draining : q.phase = .drain i)
    (more : i < bufsize - 1) (accepted : next.accepted = q.accepted)
    (seen : next.seen = (q.calls.map Call.string).flatten ++
      cString (q.buffer.take i ++ [q.queue.headD 0]) ++ q.queue.tail) :
    Balance q next (q.InTime .main) [] := by
  have before : q.seen =
      (q.calls.map Call.string).flatten ++ cString (q.buffer.take i) ++ q.queue := by
    simp only [QueueState.seen, QueueState.inFlight, draining]
  have inTime_iff : q.InTime .main ↔ (q.queue ≠ [] → 0 ∉ q.buffer.take i) := by
    refine ⟨fun inTime => inTime i rfl draining more, fun plain j _ other _ => ?_⟩
    rw [draining] at other
    cases other
    exact plain
  rw [inTime_iff]
  refine ⟨accepted.trans (List.append_nil _).symm, fun inTime => ?_, fun late => ?_⟩
  · rw [seen, before, List.append_nil]
    cases queue : q.queue with
    | nil => rw [List.headD_nil, cString_append_nul, List.tail_nil]
    | cons c rest =>
      have plain : 0 ∉ q.buffer.take i := inTime (by rw [queue]; exact List.cons_ne_nil c rest)
      have nonzero : 0 ≠ c := fun zero => sound.noNul (by rw [queue, zero]; exact List.mem_cons_self)
      have plainNext : 0 ∉ q.buffer.take i ++ [c] := by
        rw [List.mem_append, List.mem_singleton]
        exact not_or.mpr ⟨plain, nonzero⟩
      rw [List.headD_cons, cString_of_plain plainNext, cString_of_plain plain, List.tail_cons,
        List.append_assoc, List.append_assoc, List.append_assoc, List.singleton_append]
  · rw [Classical.not_imp, not_not] at late
    obtain ⟨nonempty, nul⟩ := late
    have front := List.length_pos_iff.mpr nonempty
    rw [seen, before, cString_append_of_nul nul]
    simp only [List.length_append, List.length_tail, List.length_nil]
    omega

/-- **The bytes seen over a step.** -/
theorem balance_step {q next : QueueState} {event : Event} (sound : q.Sound)
    (taken : queueStep q event = some next) : ∃ added, Balance q next (q.InTime event) added := by
  have buffer := sound.buffer
  have inTime (notReading : ∀ i, q.phase = .drain i → ¬ i < bufsize - 1) : q.InTime .main :=
    fun i _ draining more => absurd more (notReading i draining)
  have elsewhere {phase : Phase} (isPhase : q.phase = phase) (notDrain : ∀ i, phase ≠ .drain i) :
      q.InTime .main :=
    inTime fun i draining => absurd (isPhase.symm.trans draining) (notDrain i)
  have moves {phase : Phase} (flight : ({ q with phase := phase } : QueueState).inFlight = q.inFlight)
      (always : q.InTime .main) : Balance q { q with phase := phase } (q.InTime .main) [] :=
    .same rfl (by rw [QueueState.seen, flight]; rfl) always
  cases taken_of_step taken with
  | accept byte =>
    refine ⟨[byte], rfl, fun _ => ?_, fun late => absurd nofun late⟩
    simp only [QueueState.seen, QueueState.inFlight, List.append_assoc]
  | drop => exact ⟨[], .same rfl rfl nofun⟩
  | rest boundary => exact ⟨[], .same rfl rfl (elsewhere boundary nofun)⟩
  | call boundary =>
    exact ⟨[], moves (by simp only [QueueState.inFlight, boundary]) (elsewhere boundary nofun)⟩
  | found finding =>
    exact ⟨[], moves (by simp only [QueueState.inFlight, finding, List.take_zero])
      (elsewhere finding nofun)⟩
  | notFound finding =>
    exact ⟨[], moves (by simp only [QueueState.inFlight, finding]) (elsewhere finding nofun)⟩
  | overflow checking =>
    exact ⟨[], moves (by simp only [QueueState.inFlight, checking, List.take_zero])
      (elsewhere checking nofun)⟩
  | leave checking =>
    exact ⟨[], moves (by simp only [QueueState.inFlight, checking]) (elsewhere checking nofun)⟩
  | readLast i draining more ends =>
    have inside : i < q.buffer.length := by rw [buffer]; omega
    refine ⟨[], balance_read sound draining more rfl ?_⟩
    rw [ends, ← take_set_succ inside]
    rfl
  | read i draining more =>
    have inside : i < q.buffer.length := by rw [buffer]; omega
    refine ⟨[], balance_read sound draining more rfl ?_⟩
    rw [← take_set_succ inside]
    rfl
  | stop i draining enough =>
    refine ⟨[], moves (by simp only [QueueState.inFlight, draining]) (inTime fun j other => ?_)⟩
    rw [draining] at other
    cases other
    exact enough
  | pass i finishing =>
    have inside : i < q.buffer.length := by rw [buffer]; exact sound.finishing i finishing
    have string : (Call.mk (q.buffer.set i 0) i).string = cString (q.buffer.take i) :=
      cString_set_zero inside
    have none : cString [] = [] := rfl
    refine ⟨[], .same rfl ?_ (elsewhere finishing nofun)⟩
    simp [QueueState.seen, QueueState.inFlight, finishing, string, none]
  | passNothing finishing =>
    refine ⟨[], .same rfl ?_ (elsewhere finishing nofun)⟩
    simp only [QueueState.seen, QueueState.inFlight, finishing, List.take_zero]

/-- Bytes other than NUL. -/
def Event.Plain (event : Event) : Prop := event ≠ .rx 0

instance (event : Event) : Decidable event.Plain := inferInstanceAs (Decidable (_ ≠ _))

theorem sound_step (q : QueueState) (event : Event) (next : QueueState) (sound : q.Sound)
    (plain : event.Plain) (taken : queueStep q event = some next) : next.Sound := by
  obtain ⟨buffer, noNul, draining, finishing⟩ := sound
  have entered : ∀ i, Phase.drain 0 = .drain i → i < bufsize := by
    rintro i ⟨⟩
    decide
  cases taken_of_step taken with
  | accept byte =>
    refine ⟨buffer, ?_, draining, finishing⟩
    rw [List.mem_append, List.mem_singleton]
    exact not_or.mpr ⟨noNul, fun zero => plain (by rw [zero])⟩
  | drop => exact ⟨buffer, noNul, draining, finishing⟩
  | rest => exact ⟨buffer, noNul, draining, finishing⟩
  | found => exact ⟨buffer, noNul, entered, nofun⟩
  | overflow => exact ⟨buffer, noNul, entered, nofun⟩
  | call => exact ⟨buffer, noNul, nofun, nofun⟩
  | notFound => exact ⟨buffer, noNul, nofun, nofun⟩
  | leave => exact ⟨buffer, noNul, nofun, nofun⟩
  | readLast i _ more =>
    refine ⟨by rw [List.length_set, buffer], fun nul => noNul (List.mem_of_mem_tail nul), nofun, ?_⟩
    rintro j ⟨⟩
    omega
  | read i _ more =>
    refine ⟨by rw [List.length_set, buffer], fun nul => noNul (List.mem_of_mem_tail nul), ?_, nofun⟩
    rintro j ⟨⟩
    omega
  | stop i isDrain =>
    refine ⟨buffer, noNul, nofun, ?_⟩
    rintro j ⟨⟩
    exact draining i isDrain
  | pass => exact ⟨by rw [List.length_set, buffer], noNul, nofun, nofun⟩
  | passNothing => exact ⟨by rw [List.length_set, buffer], noNul, nofun, nofun⟩

/-! ### Runs -/

/-- Everything accepted has been seen, or can still be. -/
structure QueueState.Whole (q : QueueState) : Prop where
  sound : q.Sound
  whole : q.seen = q.accepted

/-- Something accepted is lost. -/
structure QueueState.Behind (q : QueueState) : Prop where
  sound : q.Sound
  behind : q.seen.length < q.accepted.length

theorem whole_step (q : QueueState) (event : Event) (next : QueueState) (holds : q.Whole)
    (plain : event.Plain) (inTime : q.InTime event) (taken : queueStep q event = some next) :
    next.Whole := by
  obtain ⟨added, accepted, kept, -⟩ := balance_step holds.sound taken
  exact ⟨sound_step q event next holds.sound plain taken, by rw [kept inTime, accepted, holds.whole]⟩

theorem behind_of_late (q : QueueState) (event : Event) (next : QueueState) (holds : q.Whole)
    (plain : event.Plain) (late : ¬ q.InTime event) (taken : queueStep q event = some next) :
    next.Behind := by
  obtain ⟨added, accepted, -, lost⟩ := balance_step holds.sound taken
  have shorter := lost late
  refine ⟨sound_step q event next holds.sound plain taken, ?_⟩
  rw [accepted, ← holds.whole, List.length_append]
  omega

/-- What is lost stays lost. -/
theorem behind_step (q : QueueState) (event : Event) (next : QueueState) (holds : q.Behind)
    (plain : event.Plain) (taken : queueStep q event = some next) : next.Behind := by
  obtain ⟨added, accepted, kept, lost⟩ := balance_step holds.sound taken
  have behind := holds.behind
  refine ⟨sound_step q event next holds.sound plain taken, ?_⟩
  rw [accepted, List.length_append]
  by_cases inTime : q.InTime event
  · rw [kept inTime, List.length_append]
    omega
  · have shorter := lost inTime
    omega

/-- **When no accepted byte disappears.** In a run over bytes other than NUL that ends at a poll
boundary, the strings that `parser` saw and the bytes in the ring make up the accepted bytes if and only
if no byte was read in a call of `TM_USART_Gets` after `TM_USART_Getc` had found the ring empty in it. -/
theorem no_byte_lost_iff (events : List Event) (s : State) (plain : ∀ event ∈ events, event.Plain)
    (reached : run step initial events = some s) (boundary : s.phase = .idle) :
    s.seen = s.accepted ↔ Along step InTime initial events := by
  have seen : s.abs.seen = s.seen := by
    have phase : s.abs.phase = .idle := boundary
    have none : cString [] = [] := rfl
    simp only [QueueState.seen, QueueState.inFlight, phase, none, List.append_nil]
    rfl
  have abstractly : run queueStep initial.abs events = some s.abs := by
    rw [← refines.run events initial valid_initial, reached, Option.map_some]
  have iff : s.abs.seen = s.abs.accepted ↔ Along queueStep QueueState.InTime initial.abs events :=
    last_iff_along (P := fun q => q.seen = q.accepted) whole_step behind_of_late behind_step
      (fun _ holds => holds.whole)
      (fun _ holds same => absurd (congrArg List.length same) (Nat.ne_of_lt holds.behind))
      events initial.abs s.abs plain ⟨sound_initial, rfl⟩ abstractly
  rw [← seen]
  exact iff.trans (refines.along_iff events initial valid_initial).symm

/-- A line of 32 bytes without a newline is drained, and nothing arrives. -/
def overlong : List Event := List.replicate 32 (.rx 0x61) ++ List.replicate 68 .main

theorem no_byte_lost_overlong : Along step InTime initial overlong := by
  have observed : (run step initial overlong).map (fun s => (s.phase, s.seen, s.accepted)) =
      some (.idle, List.replicate 32 0x61, List.replicate 32 0x61) := by
    decide +kernel
  obtain ⟨s, reached, same⟩ := Option.map_eq_some_iff.mp observed
  simp only [Prod.mk.injEq] at same
  obtain ⟨boundary, seen, accepted⟩ := same
  exact (no_byte_lost_iff overlong s (by decide +kernel) reached boundary).mp
    (seen.trans accepted.symm)

/-- A line of 32 bytes without a newline is drained, and a byte arrives when the ring has just been
found empty. -/
def lateByte : List Event :=
  List.replicate 32 (.rx 0x61) ++ List.replicate 36 .main ++ [.rx 0x62] ++ List.replicate 32 .main

/-- **A lost byte.** The last byte was accepted; it is neither in a string that `parser` saw nor in the
ring. -/
theorem late_byte_lost :
    (∀ event ∈ lateByte, event.Plain) ∧
      ∃ s, run step initial lateByte = some s ∧ s.phase = .idle ∧
        s.accepted = List.replicate 32 0x61 ++ [0x62] ∧ s.seen = List.replicate 32 0x61 ∧
        s.seen ≠ s.accepted := by
  have observed : (run step initial lateByte).map (fun s => (s.phase, s.accepted, s.seen)) =
      some (.idle, List.replicate 32 0x61 ++ [0x62], List.replicate 32 0x61) := by
    decide +kernel
  obtain ⟨s, reached, same⟩ := Option.map_eq_some_iff.mp observed
  simp only [Prod.mk.injEq] at same
  obtain ⟨boundary, accepted, seen⟩ := same
  refine ⟨by decide +kernel, s, reached, boundary, accepted, seen, ?_⟩
  rw [accepted, seen]
  decide

end ULoader.Console

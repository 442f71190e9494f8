/-
**The console: the main loop and the receive interrupt.**

A poll of the main loop is one call of `TM_USART_Gets` and, when it returns something, one call of
`parser`. The receive interrupt may come between any two of its accesses to the ring, so `Gets` is a
little machine: `Phase` says how far the current call has come, and `mainStep` does one access. A list
of events is one interleaving; the poll boundaries are the states in phase `idle`.

`QueueState` is the same machine over a plain queue of at most 32 bytes. The ring refines it
(`refines`), so what follows is proved about the queue, by cases over what a step can do (`Taken`).
-/

import ULoader.Console.Usart
import ULoader.Lib.StepSystem

namespace ULoader.Console

open StepSystem

/-! ### The machine -/

/-- `TM_USART6_BUFFER_SIZE`. -/
def usart6BufferSize : Nat := 32

/-- `sizeof(buffer)` in `main`. -/
def bufsize : Nat := 64

/-- `'\n'`. -/
def newline : UInt8 := 0x0a

/-- How far a call of `TM_USART_Gets` has come: not yet called; the ring was not empty; no newline was
found in it; `i` bytes were read; the loop has ended after `i` bytes. -/
inductive Phase where
  | idle
  | find
  | full
  | drain (i : Nat)
  | finish (i : Nat)
  deriving DecidableEq, Repr

/-- A call of `parser`: the whole buffer, and what `TM_USART_Gets` returned. -/
structure Call where
  buffer : List UInt8
  ret : Nat
  deriving DecidableEq, Repr

/-- `buffer[0..ret)`. -/
def Call.line (call : Call) : List UInt8 := call.buffer.take call.ret

/-- The bytes up to the first NUL. -/
def cString (bytes : List UInt8) : List UInt8 := bytes.takeWhile (· ≠ 0)

/-- The C string `parser` sees. -/
def Call.string (call : Call) : List UInt8 := cString call.buffer

/-- The ring, the buffer of `main`, the calls of `parser` so far, and the bytes that have arrived and
that the ring has accepted. -/
structure State where
  usart : Usart
  buffer : List UInt8
  phase : Phase
  calls : List Call
  received : List UInt8
  accepted : List UInt8

/-- The steps: a byte arrives, or the main loop goes on. -/
inductive Event where
  | rx (byte : UInt8)
  | main
  deriving DecidableEq, Repr

/-- `USART6_IRQHandler`. -/
def interrupt (byte : UInt8) (s : State) : State :=
  { s with
    usart := insertToBuffer s.usart byte
    received := s.received ++ [byte]
    accepted := if s.usart.num < s.usart.size then s.accepted ++ [byte] else s.accepted }

/-- The main loop up to the next access to the ring: `TM_USART_Gets` and `parser`. -/
def mainStep (s : State) : State :=
  match s.phase with
  | .idle => if bufferEmpty s.usart then s else { s with phase := .find }
  | .find => { s with phase := if findCharacter s.usart newline then .drain 0 else .full }
  | .full => { s with phase := if bufferFull s.usart then .drain 0 else .idle }
  | .drain i =>
    if i < bufsize - 1 then
      let (c, usart) := getc s.usart
      { s with
        usart := usart
        buffer := s.buffer.set i c
        phase := if c = newline then .finish (i + 1) else .drain (i + 1) }
    else { s with phase := .finish i }
  | .finish i =>
    let buffer := s.buffer.set i 0
    { s with
      buffer := buffer
      phase := .idle
      calls := if i ≠ 0 then s.calls ++ [⟨buffer, i⟩] else s.calls }

/-- One step; every step is possible. -/
def step (s : State) : Event → Option State
  | .rx byte => some (interrupt byte s)
  | .main => some (mainStep s)

/-- The state in which the main loop starts. -/
def initial : State where
  usart := ⟨fun _ => 0, usart6BufferSize, 0, 0, 0⟩
  buffer := List.replicate bufsize 0
  phase := .idle
  calls := []
  received := []
  accepted := []

/-! ### The machine over a queue -/

/-- The state with the ring replaced by the queue it holds. -/
structure QueueState where
  queue : List UInt8
  buffer : List UInt8
  phase : Phase
  calls : List Call
  received : List UInt8
  accepted : List UInt8

/-- A byte arrives. -/
def QueueState.interrupt (byte : UInt8) (q : QueueState) : QueueState :=
  if q.queue.length < usart6BufferSize then
    { q with
      queue := q.queue ++ [byte]
      received := q.received ++ [byte]
      accepted := q.accepted ++ [byte] }
  else { q with received := q.received ++ [byte] }

/-- A byte is taken from the queue, or 0 when there is none. -/
def QueueState.read (i : Nat) (q : QueueState) : QueueState :=
  { q with
    queue := q.queue.tail
    buffer := q.buffer.set i (q.queue.headD 0)
    phase := if q.queue.headD 0 = newline then .finish (i + 1) else .drain (i + 1) }

/-- The line is terminated and passed on. -/
def QueueState.pass (i : Nat) (q : QueueState) : QueueState :=
  { q with
    buffer := q.buffer.set i 0
    phase := .idle
    calls := if i ≠ 0 then q.calls ++ [⟨q.buffer.set i 0, i⟩] else q.calls }

/-- The main loop goes on. -/
def QueueState.mainStep (q : QueueState) : QueueState :=
  match q.phase with
  | .idle => if q.queue = [] then q else { q with phase := .find }
  | .find => { q with phase := if newline ∈ q.queue then .drain 0 else .full }
  | .full => { q with phase := if q.queue.length = usart6BufferSize then .drain 0 else .idle }
  | .drain i => if i < bufsize - 1 then q.read i else { q with phase := .finish i }
  | .finish i => q.pass i

/-- One step over the queue. -/
def queueStep (q : QueueState) : Event → Option QueueState
  | .rx byte => some (q.interrupt byte)
  | .main => some q.mainStep

/-- What a step can do. -/
inductive Taken (q : QueueState) : Event → QueueState → Prop where
  | accept (byte : UInt8) (room : q.queue.length < usart6BufferSize) :
    Taken q (.rx byte)
      { q with
        queue := q.queue ++ [byte], received := q.received ++ [byte],
        accepted := q.accepted ++ [byte] }
  | drop (byte : UInt8) (isFull : ¬ q.queue.length < usart6BufferSize) :
    Taken q (.rx byte) { q with received := q.received ++ [byte] }
  | rest (boundary : q.phase = .idle) (empty : q.queue = []) : Taken q .main q
  | call (boundary : q.phase = .idle) (nonempty : q.queue ≠ []) :
    Taken q .main { q with phase := .find }
  | found (finding : q.phase = .find) (hasLine : newline ∈ q.queue) :
    Taken q .main { q with phase := .drain 0 }
  | notFound (finding : q.phase = .find) (noLine : newline ∉ q.queue) :
    Taken q .main { q with phase := .full }
  | overflow (checking : q.phase = .full) (isFull : q.queue.length = usart6BufferSize) :
    Taken q .main { q with phase := .drain 0 }
  | leave (checking : q.phase = .full) (notFull : q.queue.length ≠ usart6BufferSize) :
    Taken q .main { q with phase := .idle }
  | readLast (i : Nat) (draining : q.phase = .drain i) (more : i < bufsize - 1)
    (ends : q.queue.headD 0 = newline) :
    Taken q .main
      { q with
        queue := q.queue.tail, buffer := q.buffer.set i newline, phase := .finish (i + 1) }
  | read (i : Nat) (draining : q.phase = .drain i) (more : i < bufsize - 1)
    (goesOn : q.queue.headD 0 ≠ newline) :
    Taken q .main
      { q with
        queue := q.queue.tail, buffer := q.buffer.set i (q.queue.headD 0),
        phase := .drain (i + 1) }
  | stop (i : Nat) (draining : q.phase = .drain i) (enough : ¬ i < bufsize - 1) :
    Taken q .main { q with phase := .finish i }
  | pass (i : Nat) (finishing : q.phase = .finish i) (nonzero : i ≠ 0) :
    Taken q .main
      { q with
        buffer := q.buffer.set i 0, phase := .idle, calls := q.calls ++ [⟨q.buffer.set i 0, i⟩] }
  | passNothing (finishing : q.phase = .finish 0) :
    Taken q .main { q with buffer := q.buffer.set 0 0, phase := .idle }

/-- **What a step can do.** -/
theorem taken_of_step {q next : QueueState} {event : Event} (taken : queueStep q event = some next) :
    Taken q event next := by
  cases event with
  | rx byte =>
    rw [← Option.some.inj taken]
    by_cases room : q.queue.length < usart6BufferSize
    · simpa only [QueueState.interrupt, room, if_true] using Taken.accept byte room
    · simpa only [QueueState.interrupt, room, if_false] using Taken.drop byte room
  | main =>
    rw [← Option.some.inj taken]
    cases phase : q.phase with
    | idle =>
      by_cases empty : q.queue = []
      · simpa only [QueueState.mainStep, phase, empty, if_true] using Taken.rest phase empty
      · simpa only [QueueState.mainStep, phase, empty, if_false] using Taken.call phase empty
    | find =>
      by_cases hasLine : newline ∈ q.queue
      · simpa only [QueueState.mainStep, phase, hasLine, if_true] using Taken.found phase hasLine
      · simpa only [QueueState.mainStep, phase, hasLine, if_false] using Taken.notFound phase hasLine
    | full =>
      by_cases isFull : q.queue.length = usart6BufferSize
      · simpa only [QueueState.mainStep, phase, isFull, if_true] using Taken.overflow phase isFull
      · simpa only [QueueState.mainStep, phase, isFull, if_false] using Taken.leave phase isFull
    | drain i =>
      by_cases more : i < bufsize - 1
      · by_cases ends : q.queue.headD 0 = newline
        · simpa only [QueueState.mainStep, phase, more, if_true, QueueState.read, ends] using
            Taken.readLast i phase more ends
        · simpa only [QueueState.mainStep, phase, more, if_true, QueueState.read, ends,
            if_false] using Taken.read i phase more ends
      · simpa only [QueueState.mainStep, phase, more, if_false] using Taken.stop i phase more
    | finish i =>
      by_cases zero : i = 0
      · subst zero
        simpa only [QueueState.mainStep, phase, QueueState.pass, ne_eq, not_true_eq_false,
          if_false] using Taken.passNothing phase
      · simpa only [QueueState.mainStep, phase, QueueState.pass, ne_eq, zero, not_false_eq_true,
          if_true] using Taken.pass i phase zero

/-- The bytes read by the current call of `TM_USART_Gets`. -/
def QueueState.inFlight (q : QueueState) : List UInt8 :=
  match q.phase with
  | .drain i => q.buffer.take i
  | .finish i => q.buffer.take i
  | _ => []

/-- A byte more in the buffer. -/
theorem take_set_succ {buffer : List UInt8} {i : Nat} (inside : i < buffer.length) (c : UInt8) :
    (buffer.set i c).take (i + 1) = buffer.take i ++ [c] := by
  rw [List.take_add_one, List.take_set_of_le (Nat.le_refl i), List.getElem?_set_self inside]
  rfl

/-! ### The ring refines the queue -/

/-- The state with its queue. -/
def State.abs (s : State) : QueueState :=
  ⟨s.usart.contents, s.buffer, s.phase, s.calls, s.received, s.accepted⟩

/-- The ring is valid and of its size. -/
structure State.Valid (s : State) : Prop where
  usart : s.usart.Valid
  size : s.usart.size = usart6BufferSize

theorem valid_initial : initial.Valid :=
  ⟨⟨by decide, by decide, by decide, by decide, rfl⟩, rfl⟩

theorem interrupt_abs {s : State} (valid : s.Valid) (byte : UInt8) :
    (interrupt byte s).Valid ∧ (interrupt byte s).abs = s.abs.interrupt byte := by
  obtain ⟨usart, size⟩ := valid
  by_cases room : s.usart.num < s.usart.size
  · obtain ⟨contents, valid, same⟩ := insertToBuffer_of_room usart room byte
    refine ⟨⟨valid, same.trans size⟩, ?_⟩
    have fits : s.abs.queue.length < usart6BufferSize := by
      rw [← size]
      simpa [State.abs] using room
    rw [QueueState.interrupt, if_pos fits]
    simp [interrupt, State.abs, contents, room]
  · have same := insertToBuffer_of_full room byte
    refine ⟨⟨by rw [interrupt, same]; exact usart, by rw [interrupt, same]; exact size⟩, ?_⟩
    have full : ¬ s.abs.queue.length < usart6BufferSize := by
      rw [← size]
      simpa [State.abs] using room
    rw [QueueState.interrupt, if_neg full]
    simp [interrupt, State.abs, same, room]

/-- `TM_USART_Getc` takes from the queue. -/
theorem getc_abs {u : Usart} (valid : u.Valid) :
    (getc u).1 = u.contents.headD 0 ∧ (getc u).2.contents = u.contents.tail ∧ (getc u).2.Valid ∧
      (getc u).2.size = u.size := by
  cases queue : u.contents with
  | nil => rw [getc_nil queue]; exact ⟨rfl, queue, valid, rfl⟩
  | cons front rest => exact getc_cons valid queue

theorem mainStep_abs {s : State} (valid : s.Valid) :
    (mainStep s).Valid ∧ (mainStep s).abs = s.abs.mainStep := by
  obtain ⟨usart, size⟩ := valid
  have length : s.usart.contents.length = s.usart.num := length_contents s.usart
  cases phase : s.phase with
  | idle =>
    have empty : bufferEmpty s.usart = true ↔ s.usart.contents = [] := by
      rw [bufferEmpty, decide_eq_true_iff, ← length, List.length_eq_zero_iff]
    by_cases none : s.usart.contents = []
    · simp only [mainStep, phase, empty.mpr none, if_true, QueueState.mainStep, State.abs, none]
      exact ⟨⟨usart, size⟩, trivial⟩
    · simp only [mainStep, phase, mt empty.mp none, if_false, QueueState.mainStep, State.abs, none]
      exact ⟨⟨usart, size⟩, rfl⟩
  | find =>
    simp only [mainStep, phase, QueueState.mainStep, State.abs, findCharacter_iff usart]
    exact ⟨⟨usart, size⟩, trivial⟩
  | full =>
    simp only [mainStep, phase, QueueState.mainStep, State.abs, bufferFull, decide_eq_true_iff,
      length, size]
    exact ⟨⟨usart, size⟩, trivial⟩
  | drain i =>
    by_cases more : i < bufsize - 1
    · obtain ⟨front, rest, valid, same⟩ := getc_abs usart
      simp only [mainStep, phase, more, if_true, QueueState.mainStep, State.abs, QueueState.read,
        front, rest]
      exact ⟨⟨valid, same.trans size⟩, trivial⟩
    · simp only [mainStep, phase, more, if_false, QueueState.mainStep, State.abs]
      exact ⟨⟨usart, size⟩, trivial⟩
  | finish i =>
    simp only [mainStep, phase, QueueState.mainStep, State.abs, QueueState.pass]
    exact ⟨⟨usart, size⟩, trivial⟩

/-- **The ring refines the queue.** -/
theorem refines : Refines step queueStep State.abs State.Valid where
  preserved s event next valid taken := by
    cases event with
    | rx byte =>
      rw [← Option.some.inj taken]
      exact (interrupt_abs valid byte).1
    | main =>
      rw [← Option.some.inj taken]
      exact (mainStep_abs valid).1
  commutes s event valid := by
    cases event with
    | rx byte => exact congrArg some (interrupt_abs valid byte).2
    | main => exact congrArg some (mainStep_abs valid).2

end ULoader.Console

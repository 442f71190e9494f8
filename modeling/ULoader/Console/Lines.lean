/-
**The line discipline of the console.**

As long as no byte arrives at a full ring and the ring is never full without a newline in it, the calls
of `parser` are the lines of the received stream, in order and unchanged (`line_discipline`): at every
poll boundary the lines passed on and the bytes in the ring make up the stream.

`InOrder` is the invariant over the queue. While a line is drained, the newline that ends it is in the
queue all the time, at most 32 bytes after the start of the line; bytes that arrive in between go behind
it. A poll that finds a newline passes a line on whatever arrives (`committed_step`), after at most 68
steps of its own (`poll_ends`).
-/

import ULoader.Console.MainLoop
import ULoader.Lib.Lines

namespace ULoader.Console

open StepSystem Lines

/-! ### What is to be shown -/

/-- The bytes that arrive in a run. -/
def arrivals (events : List Event) : List UInt8 :=
  events.filterMap fun
    | .rx byte => some byte
    | .main => none

/-- No byte arrives at a full ring, and a full ring has a newline in it. -/
structure Clear (s : State) (event : Event) : Prop where
  room : ∀ byte, event = .rx byte → bufferFull s.usart = false
  hasLine : bufferFull s.usart = true → newline ∈ s.usart.contents

instance (s : State) : (event : Event) → Decidable (Clear s event)
  | .rx _ =>
    decidable_of_iff
      (bufferFull s.usart = false ∧ (bufferFull s.usart = true → newline ∈ s.usart.contents))
      ⟨fun ⟨room, hasLine⟩ => ⟨fun _ _ => room, hasLine⟩,
        fun clear => ⟨clear.room _ rfl, clear.hasLine⟩⟩
  | .main =>
    decidable_of_iff (bufferFull s.usart = true → newline ∈ s.usart.contents)
      ⟨fun hasLine => ⟨nofun, hasLine⟩, fun clear => clear.hasLine⟩

/-- The calls of `parser` are the first lines of the stream, each terminated in the buffer, and the
ring holds the rest of what has arrived. -/
structure InLines (stream : List UInt8) (s : State) : Prop where
  passed : s.calls.map Call.line <+: cut newline stream
  terminated : ∀ call ∈ s.calls, call.buffer.length = bufsize ∧ call.buffer[call.ret]? = some 0
  held : (s.calls.map Call.line).flatten ++ s.usart.contents = stream

/-! ### The invariant -/

/-- What the current call has come to: the line it reads has no newline yet and the queue has one soon
enough, or the line is complete. -/
def QueueState.Underway (q : QueueState) : Prop :=
  match q.phase with
  | .drain i => newline ∉ q.buffer.take i ∧ ∃ body rest, q.queue = body ++ newline :: rest ∧
      newline ∉ body ∧ i + body.length < usart6BufferSize
  | .finish i => IsLine newline (q.buffer.take i) ∧ i ≤ usart6BufferSize
  | _ => True

/-- A call of `parser` with one line, terminated. -/
structure Call.Terminated (call : Call) : Prop where
  isLine : IsLine newline call.line
  length : call.buffer.length = bufsize
  nul : call.buffer[call.ret]? = some 0

/-- The invariant over the queue. -/
structure InOrder (q : QueueState) : Prop where
  buffer : q.buffer.length = bufsize
  fits : q.queue.length ≤ usart6BufferSize
  calls : ∀ call ∈ q.calls, call.Terminated
  bytes : (q.calls.map Call.line).flatten ++ q.inFlight ++ q.queue = q.received
  underway : q.Underway

/-- The conditions on a step, over the queue. -/
structure QueueState.Clear (q : QueueState) (event : Event) : Prop where
  room : ∀ byte, event = .rx byte → q.queue.length < usart6BufferSize
  hasLine : q.queue.length = usart6BufferSize → newline ∈ q.queue

/-- Outside the loop only the phase changes. -/
theorem inOrder_move {q : QueueState} (inOrder : InOrder q) (noBytes : q.inFlight = []) {phase : Phase}
    (stillNone : ({ q with phase := phase } : QueueState).inFlight = [])
    (underway : ({ q with phase := phase } : QueueState).Underway) :
    InOrder { q with phase := phase } := by
  refine ⟨inOrder.buffer, inOrder.fits, inOrder.calls, ?_, underway⟩
  rw [stillNone, ← noBytes]
  exact inOrder.bytes

/-- The loop is entered with a newline in the queue. -/
theorem inOrder_enter {q : QueueState} (inOrder : InOrder q) (noBytes : q.inFlight = [])
    (hasLine : newline ∈ q.queue) : InOrder { q with phase := .drain 0 } := by
  obtain ⟨body, rest, queue, plain⟩ := List.eq_append_cons_of_mem hasLine
  refine inOrder_move inOrder noBytes rfl ⟨List.not_mem_nil, body, rest, queue, plain, ?_⟩
  have fits := inOrder.fits
  rw [queue, List.length_append, List.length_cons] at fits
  omega

/-- A byte that arrives goes behind the newline of the line that is drained. -/
theorem underway_accept {q : QueueState} (underway : q.Underway) (byte : UInt8)
    (received accepted : List UInt8) :
    ({ q with queue := q.queue ++ [byte], received := received, accepted := accepted } :
      QueueState).Underway := by
  cases phase : q.phase with
  | drain i =>
    simp only [QueueState.Underway, phase] at underway ⊢
    obtain ⟨plain, body, rest, queue, plainBody, soon⟩ := underway
    exact ⟨plain, body, rest ++ [byte], by rw [queue, List.append_assoc]; rfl, plainBody, soon⟩
  | finish i =>
    simp only [QueueState.Underway, phase] at underway ⊢
    exact underway
  | idle => simp only [QueueState.Underway]
  | find => simp only [QueueState.Underway]
  | full => simp only [QueueState.Underway]

/-- While a line is drained, the next byte is its newline or one of the bytes before it. -/
theorem InOrder.next_byte {q : QueueState} (inOrder : InOrder q) {i : Nat}
    (draining : q.phase = .drain i) :
    newline ∉ q.buffer.take i ∧ i < usart6BufferSize ∧ ∃ c queue, q.queue = c :: queue ∧
      (c ≠ newline → ∃ body rest, queue = body ++ newline :: rest ∧ newline ∉ body ∧
        i + 1 + body.length < usart6BufferSize) := by
  have underway := inOrder.underway
  simp only [QueueState.Underway, draining] at underway
  obtain ⟨plain, body, rest, queue, plainBody, soon⟩ := underway
  refine ⟨plain, by omega, ?_⟩
  cases body with
  | nil => exact ⟨newline, rest, queue, fun other => absurd rfl other⟩
  | cons c body =>
    rw [List.mem_cons, not_or] at plainBody
    rw [List.length_cons] at soon
    exact ⟨c, body ++ newline :: rest, queue, fun _ => ⟨body, rest, rfl, plainBody.2, by omega⟩⟩

/-- A byte goes from the queue to the end of the line. -/
theorem inOrder_read {q : QueueState} (inOrder : InOrder q) {i : Nat} (draining : q.phase = .drain i)
    {c : UInt8} {queue : List UInt8} (isQueue : q.queue = c :: queue) {phase : Phase}
    (ahead : phase = .drain (i + 1) ∨ phase = .finish (i + 1))
    (underway : ({ q with queue := queue, buffer := q.buffer.set i c, phase := phase } :
      QueueState).Underway) :
    InOrder { q with queue := queue, buffer := q.buffer.set i c, phase := phase } := by
  have buffer := inOrder.buffer
  have fits := inOrder.fits
  have bytes := inOrder.bytes
  obtain ⟨-, small, -⟩ := inOrder.next_byte draining
  have inside : i < q.buffer.length := by
    rw [buffer]
    exact small.trans (by decide)
  have flight : ({ q with queue := queue, buffer := q.buffer.set i c, phase := phase } :
      QueueState).inFlight = q.buffer.take i ++ [c] := by
    rw [← take_set_succ inside]
    rcases ahead with rfl | rfl <;> rfl
  refine ⟨by rw [List.length_set, buffer], ?_, inOrder.calls, ?_, underway⟩
  · rw [isQueue, List.length_cons] at fits
    exact Nat.le_of_succ_le fits
  · simp only [QueueState.inFlight, draining, isQueue] at bytes
    rw [flight]
    refine Eq.trans ?_ bytes
    simp

/-- The line goes from the buffer to `parser`. -/
theorem inOrder_pass {q : QueueState} (inOrder : InOrder q) {i : Nat} (finishing : q.phase = .finish i) :
    InOrder { q with
      buffer := q.buffer.set i 0, phase := .idle, calls := q.calls ++ [⟨q.buffer.set i 0, i⟩] } := by
  have buffer := inOrder.buffer
  have bytes := inOrder.bytes
  have underway := inOrder.underway
  simp only [QueueState.Underway, finishing] at underway
  obtain ⟨isLine, small⟩ := underway
  simp only [QueueState.inFlight, finishing] at bytes
  have inside : i < q.buffer.length := by
    rw [buffer, bufsize]
    rw [usart6BufferSize] at small
    omega
  have kept : (Call.mk (q.buffer.set i 0) i).line = q.buffer.take i :=
    List.take_set_of_le (Nat.le_refl i)
  refine ⟨by rw [List.length_set, buffer], inOrder.fits, fun call member => ?_, ?_, trivial⟩
  · rcases List.mem_append.mp member with old | new
    · exact inOrder.calls call old
    · rw [List.mem_singleton.mp new]
      exact ⟨kept ▸ isLine, by rw [List.length_set, buffer], List.getElem?_set_self inside⟩
  · rw [← bytes]
    simp [QueueState.inFlight, kept]

/-- **One step keeps the order.** -/
theorem inOrder_step (q : QueueState) (event : Event) (next : QueueState) (inOrder : InOrder q)
    (clear : q.Clear event) (taken : queueStep q event = some next) : InOrder next := by
  have noBytes : q.phase = .idle ∨ q.phase = .find ∨ q.phase = .full → q.inFlight = [] := by
    rintro (phase | phase | phase) <;> simp only [QueueState.inFlight, phase]
  have buffer := inOrder.buffer
  have bytes := inOrder.bytes
  cases taken_of_step taken with
  | accept byte room =>
    refine ⟨buffer, by rw [List.length_append]; exact room, inOrder.calls, ?_,
      underway_accept inOrder.underway byte _ _⟩
    rw [← bytes, ← List.append_assoc]
    rfl
  | drop byte isFull => exact absurd (clear.room byte rfl) isFull
  | rest => exact inOrder
  | call boundary => exact inOrder_move inOrder (noBytes (.inl boundary)) rfl trivial
  | found finding hasLine => exact inOrder_enter inOrder (noBytes (.inr (.inl finding))) hasLine
  | notFound finding => exact inOrder_move inOrder (noBytes (.inr (.inl finding))) rfl trivial
  | overflow checking isFull =>
    exact inOrder_enter inOrder (noBytes (.inr (.inr checking))) (clear.hasLine isFull)
  | leave checking => exact inOrder_move inOrder (noBytes (.inr (.inr checking))) rfl trivial
  | readLast i draining more ends =>
    obtain ⟨plain, small, c, queue, isQueue, -⟩ := inOrder.next_byte draining
    rw [isQueue, List.headD_cons] at ends
    subst ends
    have line := take_set_succ (by rw [buffer]; omega : i < q.buffer.length) newline
    rw [isQueue, List.tail_cons]
    exact inOrder_read inOrder draining isQueue (.inr rfl)
      ⟨line ▸ ⟨q.buffer.take i, rfl, plain⟩, small⟩
  | read i draining more goesOn =>
    obtain ⟨plain, small, c, queue, isQueue, soon⟩ := inOrder.next_byte draining
    rw [isQueue, List.headD_cons] at goesOn
    obtain ⟨body, rest, isRest, plainBody, soon⟩ := soon goesOn
    have line := take_set_succ (by rw [buffer]; omega : i < q.buffer.length) c
    rw [isQueue, List.headD_cons, List.tail_cons]
    refine inOrder_read inOrder draining isQueue (.inl rfl) ⟨?_, body, rest, isRest, plainBody, soon⟩
    rw [line, List.mem_append, List.mem_singleton]
    exact not_or.mpr ⟨plain, Ne.symm goesOn⟩
  | stop i draining enough =>
    obtain ⟨-, small, -⟩ := inOrder.next_byte draining
    rw [usart6BufferSize] at small
    rw [bufsize] at enough
    omega
  | pass i finishing => exact inOrder_pass inOrder finishing
  | passNothing finishing =>
    have underway := inOrder.underway
    simp only [QueueState.Underway, finishing] at underway
    obtain ⟨⟨body, empty, -⟩, -⟩ := underway
    simp at empty

theorem inOrder_initial : InOrder initial.abs :=
  ⟨by decide, by decide, nofun, by rfl, trivial⟩

/-! ### A poll that finds a line -/

/-- The current call will pass a line on. -/
def Phase.Passing (queue : List UInt8) : Phase → Prop
  | .idle => False
  | .find => newline ∈ queue
  | .full => False
  | .drain _ => True
  | .finish i => i ≠ 0

/-- More than `count` lines were passed on, or the current call will pass one on. -/
def QueueState.Committed (count : Nat) (q : QueueState) : Prop :=
  count < q.calls.length ∨ q.calls.length = count ∧ q.phase.Passing q.queue

/-- **A poll that finds a newline passes a line on**, whatever arrives in the meantime. -/
theorem committed_step {count : Nat} (q : QueueState) (event : Event) (next : QueueState)
    (committed : q.Committed count) (taken : queueStep q event = some next) :
    next.Committed count := by
  have moves {phase : Phase} (passing : q.phase.Passing q.queue → phase.Passing q.queue) :
      ({ q with phase := phase } : QueueState).Committed count :=
    committed.imp_right fun ⟨same, before⟩ => ⟨same, passing before⟩
  cases taken_of_step taken with
  | accept byte =>
    refine committed.imp_right fun ⟨same, passing⟩ => ⟨same, ?_⟩
    cases phase : q.phase with
    | find =>
      rw [phase] at passing
      exact List.mem_append_left _ passing
    | _ => rw [phase] at passing; exact passing
  | drop => exact committed
  | rest => exact committed
  | call boundary => exact moves fun passing => by rw [boundary] at passing; exact passing.elim
  | found => exact moves fun _ => trivial
  | notFound finding noLine =>
    exact moves fun passing => by rw [finding] at passing; exact absurd passing noLine
  | overflow => exact moves fun _ => trivial
  | leave checking => exact moves fun passing => by rw [checking] at passing; exact passing
  | readLast i => exact committed.imp_right fun ⟨same, _⟩ => ⟨same, Nat.succ_ne_zero i⟩
  | read => exact committed.imp_right fun ⟨same, _⟩ => ⟨same, trivial⟩
  | stop i draining enough =>
    refine moves fun _ => ?_
    rintro rfl
    exact enough (by decide)
  | pass =>
    left
    rw [List.length_append, List.length_singleton]
    rcases committed with more | ⟨same, -⟩
    · omega
    · omega
  | passNothing finishing =>
    refine committed.imp_right fun ⟨same, passing⟩ => ⟨same, ?_⟩
    rw [finishing] at passing
    exact absurd rfl passing

/-- A bound on the steps the main loop still needs for the current call. -/
def Phase.left : Phase → Nat
  | .idle => 0
  | .find => bufsize + 3
  | .full => bufsize + 2
  | .drain i => bufsize - 1 - i + 2
  | .finish _ => 1

/-- A step of the main loop within a call brings its end nearer, and an arriving byte does not put it
off. -/
theorem left_step {q next : QueueState} {event : Event} (busy : q.phase ≠ .idle)
    (taken : queueStep q event = some next) :
    next.phase.left + (if event = .main then 1 else 0) ≤ q.phase.left := by
  cases taken_of_step taken with
  | accept => exact Nat.le_refl _
  | drop => exact Nat.le_refl _
  | rest boundary => exact absurd boundary busy
  | call boundary => exact absurd boundary busy
  | found finding =>
    rw [finding]
    show (Phase.drain 0).left + 1 ≤ Phase.find.left
    decide
  | notFound finding =>
    rw [finding]
    show Phase.full.left + 1 ≤ Phase.find.left
    decide
  | overflow checking =>
    rw [checking]
    show (Phase.drain 0).left + 1 ≤ Phase.full.left
    decide
  | leave checking =>
    rw [checking]
    show Phase.idle.left + 1 ≤ Phase.full.left
    decide
  | readLast i draining more =>
    rw [draining, if_pos rfl]
    show 1 + 1 ≤ bufsize - 1 - i + 2
    omega
  | read i draining more =>
    rw [draining, if_pos rfl]
    show bufsize - 1 - (i + 1) + 2 + 1 ≤ bufsize - 1 - i + 2
    omega
  | stop i draining =>
    rw [draining, if_pos rfl]
    show 1 + 1 ≤ bufsize - 1 - i + 2
    omega
  | pass i finishing => rw [finishing]; exact Nat.le_refl 1
  | passNothing finishing => rw [finishing]; exact Nat.le_refl 1

/-- **Every poll ends**: enough steps of the main loop lead to a poll boundary. -/
theorem poll_ends (events : List Event) : ∀ q : QueueState, q.phase.left ≤ events.count .main →
    ∃ first second mid, events = first ++ second ∧ run queueStep q first = some mid ∧
      mid.phase = .idle := by
  induction events with
  | nil =>
    intro q enough
    cases phase : q.phase with
    | idle => exact ⟨[], [], q, rfl, rfl, phase⟩
    | _ => simp [phase, Phase.left] at enough
  | cons event rest ih =>
    intro q enough
    by_cases boundary : q.phase = .idle
    · exact ⟨[], event :: rest, q, rfl, rfl, boundary⟩
    · obtain ⟨next, taken⟩ : ∃ next, queueStep q event = some next := by
        cases event with
        | rx byte => exact ⟨_, rfl⟩
        | main => exact ⟨_, rfl⟩
      have less := left_step boundary taken
      rw [List.count_cons] at enough
      have enough : next.phase.left ≤ rest.count .main := by
        cases event with
        | rx byte => simp at enough less; omega
        | main => simp at enough less; omega
      obtain ⟨first, second, mid, cut, reached, ends⟩ := ih next enough
      exact ⟨event :: first, second, mid, by rw [cut, List.cons_append],
        run_cons_eq_some.mpr ⟨next, taken, reached⟩, ends⟩

/-! ### The stream -/

theorem received_mainStep (s : State) : (mainStep s).received = s.received := by
  unfold mainStep
  split
  · split <;> rfl
  · rfl
  · rfl
  · split <;> rfl
  · rfl

theorem received_run (events : List Event) : ∀ {s final : State}, run step s events = some final →
    final.received = s.received ++ arrivals events := by
  induction events with
  | nil =>
    intro s final reached
    cases reached
    exact (List.append_nil _).symm
  | cons event rest ih =>
    intro s final reached
    obtain ⟨next, taken, reached⟩ := run_cons_eq_some.mp reached
    rw [ih reached]
    cases event with
    | rx byte =>
      rw [← Option.some.inj taken]
      exact List.append_assoc _ _ _
    | main =>
      rw [← Option.some.inj taken, received_mainStep]
      rfl

/-- The conditions, seen over the queue. -/
theorem Clear.abs {s : State} {event : Event} (valid : s.Valid) (clear : Clear s event) :
    s.abs.Clear event := by
  have length : s.abs.queue.length = s.usart.num := length_contents s.usart
  have fits := valid.usart.fits
  rw [valid.size] at fits
  refine ⟨fun byte arrives => ?_, fun isFull => ?_⟩
  · have notFull := clear.room byte arrives
    rw [bufferFull, decide_eq_false_iff_not, valid.size] at notFull
    omega
  · refine clear.hasLine (decide_eq_true ?_)
    rw [valid.size, ← isFull, length]

theorem inOrder_run {events : List Event} {s : State} (clear : Along step Clear initial events)
    (reached : run step initial events = some s) : InOrder s.abs := by
  have along : Along queueStep QueueState.Clear initial.abs events :=
    (refines.along_iff events initial valid_initial).mp
      (Along.mono_of_invariant refines.preserved (fun _ _ valid _ => Clear.abs valid) valid_initial
        clear)
  have abstractly : run queueStep initial.abs events = some s.abs := by
    rw [← refines.run events initial valid_initial, reached, Option.map_some]
  exact (always_of_along inOrder_step events _ inOrder_initial along).last abstractly

theorem valid_run {events : List Event} {s : State} (reached : run step initial events = some s) :
    s.Valid :=
  run_invariant refines.preserved events initial s valid_initial reached

/-- The main loop, at a poll boundary with a newline in the ring, begins a call that will pass a line
on. -/
theorem committed_start {s : State} (boundary : s.phase = .idle)
    (hasLine : newline ∈ s.usart.contents) :
    queueStep s.abs .main = some { s.abs with phase := .find } ∧
      ({ s.abs with phase := .find } : QueueState).Committed s.calls.length := by
  have queue : s.abs.queue ≠ [] := List.ne_nil_of_mem hasLine
  have phase : s.abs.phase = .idle := boundary
  refine ⟨?_, .inr ⟨rfl, hasLine⟩⟩
  simp only [queueStep, QueueState.mainStep, phase, queue, if_false]

/-- At a poll boundary, what the invariant says of the calls and the ring. -/
theorem inLines_of_inOrder {s : State} (inOrder : InOrder s.abs) (boundary : s.phase = .idle)
    {stream : List UInt8} (received : s.received = stream) : InLines stream s := by
  have held : (s.calls.map Call.line).flatten ++ s.usart.contents = stream := by
    have none : s.abs.inFlight = [] := by
      have phase : s.abs.phase = .idle := boundary
      simp only [QueueState.inFlight, phase]
    have bytes := inOrder.bytes
    rw [none, List.append_nil] at bytes
    rw [← received]
    exact bytes
  have lines : ∀ line ∈ s.calls.map Call.line, IsLine newline line := by
    intro line member
    obtain ⟨call, isCall, rfl⟩ := List.mem_map.mp member
    exact (inOrder.calls call isCall).isLine
  refine ⟨?_, fun call member => ⟨(inOrder.calls call member).length,
    (inOrder.calls call member).nul⟩, held⟩
  rw [← held, cut_flatten_append _ lines]
  exact List.prefix_append _ _

/-- **The line discipline of the console.** In every interleaving of arriving bytes and steps of the
main loop in which no byte arrives at a full ring and the ring is never full without a newline, at
every poll boundary: the calls of `parser` are the first lines of the stream, unchanged and terminated
in the buffer; the ring holds the bytes not passed on; and when it holds a newline, the next poll ends,
and has passed a line on. -/
theorem line_discipline (events : List Event) (s : State) (clear : Along step Clear initial events)
    (reached : run step initial events = some s) (boundary : s.phase = .idle) :
    InLines (arrivals events) s ∧
      (newline ∈ s.usart.contents → ∀ later t, run step s (.main :: later) = some t →
        (t.phase = .idle → s.calls.length < t.calls.length) ∧
        (bufsize + 3 ≤ later.count .main → ∃ first second mid, later = first ++ second ∧
          run step s (.main :: first) = some mid ∧ mid.phase = .idle)) := by
  have valid := valid_run reached
  have inOrder := inOrder_run clear reached
  constructor
  · exact inLines_of_inOrder inOrder boundary (received_run events reached)
  · intro hasLine later t reachedLater
    obtain ⟨begins, committed⟩ := committed_start boundary hasLine
    have abstractly : run queueStep s.abs (.main :: later) = some t.abs := by
      rw [← refines.run (.main :: later) s valid, reachedLater, Option.map_some]
    obtain ⟨start, taken, abstractly⟩ := run_cons_eq_some.mp abstractly
    have isStart : start = { s.abs with phase := .find } := Option.some.inj (taken.symm.trans begins)
    rw [isStart] at abstractly
    refine ⟨fun ends => ?_, fun enough => ?_⟩
    · have kept := run_invariant committed_step later _ _ committed abstractly
      rcases kept with more | ⟨-, passing⟩
      · exact more
      · have phase : t.abs.phase = .idle := ends
        rw [phase] at passing
        exact passing.elim
    · obtain ⟨first, second, mid, cut, reachedMid, ends⟩ :=
        poll_ends later { s.abs with phase := .find } enough
      have wholePoll : (run step s (.main :: first)).map State.abs = some mid := by
        rw [refines.run (.main :: first) s valid]
        exact run_cons_eq_some.mpr ⟨_, begins, reachedMid⟩
      obtain ⟨boundaryState, reachedBoundary, same⟩ := Option.map_eq_some_iff.mp wholePoll
      refine ⟨first, second, boundaryState, cut, reachedBoundary, ?_⟩
      rw [← ends, ← same]
      rfl

/-- A newline arrives while the ring is searched, and a byte of the next line while the first line is
drained. -/
def twoLines : List Event :=
  [.rx 0x61, .main, .rx newline, .main, .main, .rx 0x62, .main, .main, .rx newline]

theorem line_discipline_twoLines :
    ∃ s, run step initial twoLines = some s ∧ s.phase = .idle ∧
      s.calls.map Call.line = [[0x61, newline]] ∧ s.usart.contents = [0x62, newline] ∧
      InLines [0x61, newline, 0x62, newline] s := by
  have observed : (run step initial twoLines).map
      (fun s => (s.phase, s.calls.map Call.line, s.usart.contents)) =
        some (.idle, [[0x61, newline]], [0x62, newline]) := by
    decide +kernel
  obtain ⟨s, reached, same⟩ := Option.map_eq_some_iff.mp observed
  simp only [Prod.mk.injEq] at same
  obtain ⟨boundary, lines, contents⟩ := same
  exact ⟨s, reached, boundary, lines, contents,
    (line_discipline twoLines s (by decide +kernel) reached boundary).1⟩

end ULoader.Console

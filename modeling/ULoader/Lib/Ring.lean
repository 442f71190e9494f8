/-
**A ring of cells as a queue.**

A producer fills the cells of a ring in order, a consumer empties them in order, and the only thing
they share is whether a cell is full. `Holds` says that the cells between the consumer's position
`head` and the producer's position `tail` hold a queue, and that the others are empty. It is kept by
filling the empty cell at `tail` (`Holds.push`) and by emptying the cell at `head` (`Holds.pop`).

When `head` and `tail` meet, the ring is empty or full, and only the cells tell which. So `push` asks
for an empty cell, not for a distance.

Where the parties share a count of the full cells instead, the queue is a `window` of the memory: the
front leaves it by moving its start (`window_succ`), and a write right behind it makes it longer
(`window_update`).
-/

import Mathlib.Data.Fin.Basic
import Mathlib.Data.List.Basic
import Mathlib.Data.Nat.ModEq
import Mathlib.Logic.Function.Basic

namespace Ring

variable {N : Nat} {α : Type*}

/-! ### Positions -/

/-- The position `offset` steps behind `start`. -/
def slot (start : Fin N) (offset : Nat) : Fin N :=
  ⟨(start.val + offset) % N, Nat.mod_lt _ start.pos⟩

/-- The next position. -/
def next (position : Fin N) : Fin N := slot position 1

@[simp] theorem slot_zero (start : Fin N) : slot start 0 = start :=
  Fin.ext (Nat.mod_eq_of_lt start.isLt)

theorem slot_slot (start : Fin N) (first second : Nat) :
    slot (slot start first) second = slot start (first + second) := by
  apply Fin.ext
  simp only [slot, Nat.mod_add_mod, Nat.add_assoc]

/-- Once round the ring. -/
theorem slot_self (start : Fin N) : slot start N = start := by
  apply Fin.ext
  simp only [slot, Nat.add_mod_right]
  exact Nat.mod_eq_of_lt start.isLt

theorem next_slot (start : Fin N) (offset : Nat) : next (slot start offset) = slot start (offset + 1) :=
  slot_slot start offset 1

theorem slot_next (start : Fin N) (offset : Nat) : slot (next start) offset = slot start (offset + 1) := by
  rw [next, slot_slot, Nat.add_comm]

theorem slot_inj {start : Fin N} {first second : Nat} (firstInside : first < N)
    (secondInside : second < N) (same : slot start first = slot start second) : first = second := by
  have values : (start.val + first) % N = (start.val + second) % N := congrArg Fin.val same
  have congruent : first % N = second % N := Nat.ModEq.add_left_cancel' start.val values
  rwa [Nat.mod_eq_of_lt firstInside, Nat.mod_eq_of_lt secondInside] at congruent

/-- Every position is less than once round the ring away. -/
theorem exists_slot (start target : Fin N) : ∃ offset < N, slot start offset = target := by
  by_cases behind : start.val ≤ target.val
  · refine ⟨target - start, by omega, Fin.ext ?_⟩
    simp only [slot, Nat.add_sub_cancel' behind]
    exact Nat.mod_eq_of_lt target.isLt
  · refine ⟨target + N - start, by omega, Fin.ext ?_⟩
    have sum : start.val + (target + N - start) = target + N := by omega
    simp only [slot, sum, Nat.add_mod_right]
    exact Nat.mod_eq_of_lt target.isLt

/-! ### The queue -/

/-- The cells from `head` on hold the queue, and the others are empty. -/
structure Holds (cell : Fin N → Option α) (head tail : Fin N) (queue : List α) : Prop where
  fits : queue.length ≤ N
  ends : tail = slot head queue.length
  cells : ∀ offset < N, cell (slot head offset) = queue[offset]?

variable {cell : Fin N → Option α} {head tail : Fin N} {queue : List α} {a : α}

theorem Holds.empty (start : Fin N) (allEmpty : ∀ i, cell i = none) : Holds cell start start [] where
  fits := Nat.zero_le _
  ends := (slot_zero start).symm
  cells _ _ := allEmpty _

/-- The cell at `head` is the front of the queue. -/
theorem Holds.front (holds : Holds cell head tail queue) : cell head = queue[0]? := by
  simpa using holds.cells 0 head.pos

/-- A full cell is one of the queue. -/
theorem Holds.mem (holds : Holds cell head tail queue) {i : Fin N} (full : cell i = some a) :
    a ∈ queue := by
  obtain ⟨offset, inside, rfl⟩ := exists_slot head i
  rw [holds.cells offset inside] at full
  exact List.mem_of_getElem? full

/-- A cell is full exactly when it is one of those from `head` up to `tail`. -/
theorem Holds.isSome_iff (holds : Holds cell head tail queue) {offset : Nat} (inside : offset < N) :
    (cell (slot head offset)).isSome ↔ offset < queue.length := by
  rw [holds.cells offset inside, isSome_getElem?]

/-- The ring has room when the cell at `tail` is empty. -/
theorem Holds.room (holds : Holds cell head tail queue) (free : cell tail = none) :
    queue.length < N := by
  rcases Nat.lt_or_eq_of_le holds.fits with room | full
  · exact room
  · have nonempty : 0 < queue.length := full ▸ head.pos
    have same : tail = head := by rw [holds.ends, full, slot_self]
    rw [same, holds.front, List.getElem?_eq_getElem nonempty] at free
    cases free

/-- **The producer's step.** -/
theorem Holds.push (holds : Holds cell head tail queue) (free : cell tail = none) :
    Holds (Function.update cell tail (some a)) head (next tail) (queue ++ [a]) := by
  have room := holds.room free
  refine ⟨by rw [List.length_append]; exact room, ?_, fun offset inside => ?_⟩
  · rw [holds.ends, next_slot, List.length_append, List.length_singleton]
  · by_cases last : offset = queue.length
    · rw [last, ← holds.ends, Function.update_self, List.getElem?_concat_length]
    · have other : slot head offset ≠ tail := by
        rw [holds.ends]
        exact fun same => last (slot_inj inside room same)
      rw [Function.update_of_ne other, holds.cells offset inside, List.getElem?_append]
      split
      · rfl
      · rename_i beyond
        rw [List.getElem?_eq_none (by omega), List.getElem?_eq_none (by simp; omega)]

/-- **The consumer's step.** -/
theorem Holds.pop (holds : Holds cell head tail (a :: queue)) :
    Holds (Function.update cell head none) (next head) tail queue := by
  have fits : queue.length + 1 ≤ N := holds.fits
  refine ⟨by omega, ?_, fun offset inside => ?_⟩
  · rw [holds.ends, slot_next, List.length_cons]
  · rw [slot_next]
    by_cases last : offset + 1 = N
    · rw [last, slot_self, Function.update_self, List.getElem?_eq_none (by omega)]
    · have other : slot head (offset + 1) ≠ head := by
        intro same
        have := slot_inj (by omega) head.pos (same.trans (slot_zero head).symm)
        omega
      rw [Function.update_of_ne other, holds.cells (offset + 1) (by omega), List.getElem?_cons_succ]

/-- **The producer fills several cells at once**, all of them empty; how is left to `filled`. -/
theorem Holds.append (holds : Holds cell head tail queue) {after : Fin N → Option α} {items : List α}
    (fits : items.length ≤ N) (free : ∀ j < items.length, cell (slot tail j) = none)
    (filled : ∀ j < items.length, after (slot tail j) = items[j]?)
    (others : ∀ i, (∀ j < items.length, i ≠ slot tail j) → after i = cell i) :
    Holds after head (slot tail items.length) (queue ++ items) := by
  have room : queue.length + items.length ≤ N := by
    by_contra beyond
    -- The cells would go once round the ring, and the front of the queue is not empty.
    have meets : slot tail (N - queue.length) = head := by
      rw [holds.ends, slot_slot, Nat.add_sub_cancel' holds.fits, slot_self]
    have full := holds.fits
    have front := free (N - queue.length) (by omega)
    rw [meets, holds.front, List.getElem?_eq_none_iff] at front
    omega
  have behind (j : Nat) : slot tail j = slot head (queue.length + j) := by
    rw [holds.ends, slot_slot]
  refine ⟨by rw [List.length_append]; exact room, ?_, fun offset inside => ?_⟩
  · rw [behind, List.length_append]
  · by_cases old : offset < queue.length
    · rw [List.getElem?_append_left old, ← holds.cells offset inside]
      refine others _ fun j less same => ?_
      rw [behind] at same
      have := slot_inj inside (by omega) same
      omega
    · obtain ⟨j, rfl⟩ := Nat.exists_eq_add_of_le (Nat.le_of_not_lt old)
      rw [List.getElem?_append_right (Nat.le_add_right _ _), Nat.add_sub_cancel_left, ← behind]
      by_cases new : j < items.length
      · exact filled j new
      · have other (k : Nat) (less : k < items.length) : slot tail j ≠ slot tail k := by
          rw [behind, behind]
          intro same
          have := slot_inj inside (by omega) same
          omega
        rw [others _ other, behind, holds.cells _ inside, List.getElem?_eq_none (by omega),
          List.getElem?_eq_none (by omega)]

theorem filterMap_getElem?_range (items : List α) (count : Nat) :
    ((List.range count).filterMap fun offset => items[offset]?) = items.take count := by
  induction count with
  | zero => rfl
  | succ count ih =>
    rw [List.range_succ, List.filterMap_append, ih, List.take_add_one]
    cases item : items[count]? <;> simp [item]

/-- What the cells hold, read from `head` on, is the queue. -/
theorem Holds.filterMap (holds : Holds cell head tail queue) :
    ((List.range N).filterMap fun offset => cell (slot head offset)) = queue := by
  rw [List.filterMap_congr fun offset member => holds.cells offset (List.mem_range.mp member),
    filterMap_getElem?_range, List.take_of_length_le holds.fits]

/-! ### A memory read in circles -/

/-- The `count` values from `start` on of a memory that is `size` long and read in circles. -/
def window (memory : Nat → α) (size start count : Nat) : List α :=
  (List.range count).map fun offset => memory ((start + offset) % size)

variable {memory : Nat → α} {size start count : Nat}

@[simp] theorem length_window (memory : Nat → α) (size start count : Nat) :
    (window memory size start count).length = count := by
  rw [window, List.length_map, List.length_range]

theorem window_mod (memory : Nat → α) (size start count : Nat) :
    window memory size (start % size) count = window memory size start count := by
  simp only [window, Nat.mod_add_mod]

/-- The front of a window. -/
theorem window_succ (memory : Nat → α) (size start count : Nat) :
    window memory size start (count + 1) =
      memory (start % size) :: window memory size (start + 1) count := by
  simp only [window, List.range_succ_eq_map, List.map_cons, List.map_map, Nat.add_zero]
  refine congrArg _ (List.map_congr_left fun offset _ => ?_)
  simp only [Function.comp_apply]
  congr 2
  omega

/-- A write right behind a window that is not all of the memory makes it longer. -/
theorem window_update (room : count < size) (a : α) :
    window (Function.update memory ((start + count) % size) a) size start (count + 1) =
      window memory size start count ++ [a] := by
  simp only [window, List.range_succ, List.map_append, List.map_cons, List.map_nil,
    Function.update_self]
  refine congrArg (· ++ [a]) (List.map_congr_left fun offset member => ?_)
  have less : offset < count := List.mem_range.mp member
  refine Function.update_of_ne (fun same => ?_) a memory
  have congruent : offset % size = count % size := Nat.ModEq.add_left_cancel' start same
  rw [Nat.mod_eq_of_lt room, Nat.mod_eq_of_lt (less.trans room)] at congruent
  omega

end Ring

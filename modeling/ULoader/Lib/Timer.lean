/-
**Periodic tasks on a clock that wraps.**

A scheduler is polled at times of its caller's choosing. The ideal one keeps, for each task, the time of
its last run on the unbounded clock and runs the task when at least its interval has gone by
(`due`, `after`). The other one sees clock and last run modulo `2^w` and subtracts with wrap-around
(`dueMod`).

* `dueMod_eq` — while less than `2^w` has gone by since the last run, the two decide alike.
* `Fresh` — after a poll the last run is less than an interval back. So a pace of at most
  `2^w - interval` between polls keeps the distance below `2^w` at the next one (`Fresh.near`).
* `spaced_runs` — two runs of a task are at least its interval apart.
-/

import Mathlib.Data.List.Basic
import Mathlib.Data.BitVec

namespace Timer

/-! ### The ideal scheduler -/

/-- A task runs when its interval has gone by since its last run. -/
def due (interval now last : Nat) : Bool := interval ≤ now - last

/-- The time of the last run after a poll. -/
def after (interval now last : Nat) : Nat := if due interval now last then now else last

/-- The polls come in order and no further apart than `pace`, the first one counted from `start`. -/
def Paced (pace : Nat) : Nat → List Nat → Prop
  | _, [] => True
  | start, now :: rest => start ≤ now ∧ now - start ≤ pace ∧ Paced pace now rest

instance (pace : Nat) : (start : Nat) → (polls : List Nat) → Decidable (Paced pace start polls)
  | _, [] => .isTrue trivial
  | start, now :: rest =>
    have := instDecidablePaced pace now rest
    inferInstanceAs (Decidable (start ≤ now ∧ now - start ≤ pace ∧ Paced pace now rest))

/-- The polls at which a task runs. -/
def runs (interval : Nat) : Nat → List Nat → List Nat
  | _, [] => []
  | last, now :: rest =>
    if due interval now last then now :: runs interval now rest else runs interval last rest

/-- At the time `now`, the last run is less than an interval back. -/
structure Fresh (interval now last : Nat) : Prop where
  ordered : last ≤ now
  recent : now - last < interval

/-- A poll leaves the task fresh. -/
theorem fresh_after {interval now last : Nat} (positive : 0 < interval) (ordered : last ≤ now) :
    Fresh interval now (after interval now last) := by
  unfold after due
  by_cases elapsed : interval ≤ now - last
  · rw [if_pos (decide_eq_true elapsed)]
    exact ⟨Nat.le_refl now, by omega⟩
  · rw [if_neg (by simpa using elapsed)]
    exact ⟨ordered, by omega⟩

/-- With the pace kept, the next poll comes less than once round the clock after the last run. -/
theorem Fresh.near {interval start last now pace size : Nat} (fresh : Fresh interval start last)
    (ordered : start ≤ now) (paced : now - start ≤ pace) (fits : pace + interval ≤ size) :
    last ≤ now ∧ now - last < size := by
  obtain ⟨before, recent⟩ := fresh
  omega

/-- **No two runs of a task are closer than its interval.** -/
theorem spaced_runs {interval pace : Nat} (polls : List Nat) : ∀ start last : Nat, last ≤ start →
    Paced pace start polls →
    (∀ now ∈ runs interval last polls, last + interval ≤ now) ∧
      (runs interval last polls).Pairwise fun earlier later => earlier + interval ≤ later := by
  induction polls with
  | nil => exact fun _ _ _ _ => ⟨nofun, .nil⟩
  | cons now rest ih =>
    rintro start last behind ⟨ordered, -, paced⟩
    by_cases elapsed : interval ≤ now - last
    · have runsNow : runs interval last (now :: rest) = now :: runs interval now rest := by
        rw [runs, due, if_pos (decide_eq_true elapsed)]
      obtain ⟨later, spaced⟩ := ih now now (Nat.le_refl now) paced
      rw [runsNow]
      refine ⟨fun time member => ?_, spaced.cons later⟩
      rcases List.mem_cons.mp member with rfl | further
      · omega
      · have := later time further
        omega
    · have skips : runs interval last (now :: rest) = runs interval last rest := by
        rw [runs, due, if_neg (by simpa using elapsed)]
      rw [skips]
      exact ih now last (behind.trans ordered) paced

/-! ### The clock modulo `2^w` -/

variable {w : Nat}

/-- The test on the wrapping clock. -/
def dueMod (interval now last : BitVec w) : Bool := interval ≤ now - last

theorem toNat_sub_ofNat {now last : Nat} (ordered : last ≤ now) (near : now - last < 2 ^ w) :
    (BitVec.ofNat w now - BitVec.ofNat w last).toNat = now - last := by
  obtain ⟨elapsed, rfl⟩ := Nat.exists_eq_add_of_le ordered
  rw [Nat.add_sub_cancel_left] at near ⊢
  rw [BitVec.ofNat_add, BitVec.add_comm, BitVec.add_sub_cancel, BitVec.toNat_ofNat,
    Nat.mod_eq_of_lt near]

/-- **The wrap does not matter** while less than once round the clock has gone by. -/
theorem dueMod_eq {interval now last : Nat} (ordered : last ≤ now) (near : now - last < 2 ^ w)
    (small : interval < 2 ^ w) :
    dueMod (BitVec.ofNat w interval) (BitVec.ofNat w now) (BitVec.ofNat w last) =
      due interval now last := by
  refine decide_eq_decide.mpr ?_
  rw [BitVec.le_def, toNat_sub_ofNat ordered near, BitVec.toNat_ofNat, Nat.mod_eq_of_lt small]

end Timer

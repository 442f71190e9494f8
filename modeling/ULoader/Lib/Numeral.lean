/-
**Numerals in ASCII.**

`text b n` is the number `n` written to the base `b`, up to sixteen, with its most significant digit
first; `read b` reads a text of digits. Whatever zeros stand in front, a text is read as the number it was
written for (`read_padded`).
-/

import Mathlib.Data.Nat.Digits.Lemmas

namespace Numeral

/-- The character of a digit. -/
def digitChar (d : Nat) : UInt8 := if d < 10 then UInt8.ofNat (0x30 + d) else UInt8.ofNat (0x57 + d)

/-- The digit of a character. -/
def digit (c : UInt8) : Option Nat :=
  if 0x30 ≤ c ∧ c ≤ 0x39 then some (c.toNat - 0x30)
  else if 0x61 ≤ c ∧ c ≤ 0x66 then some (c.toNat - 0x57)
  else none

/-- The digits of a number, the most significant one first. -/
def digits (b n : Nat) : List Nat := if n = 0 then [0] else (Nat.digits b n).reverse

/-- The number that digits stand for. -/
def value (b : Nat) (ds : List Nat) : Nat := ds.foldl (fun v d => v * b + d) 0

/-- A number in a base. -/
def text (b n : Nat) : List UInt8 := (digits b n).map digitChar

/-- A number in a base, with zeros in front up to a width. -/
def padded (b width n : Nat) : List UInt8 := List.leftpad width 0x30 (text b n)

/-- The number that a text of digits stands for. -/
def read (b : Nat) (chars : List UInt8) : Option Nat := (chars.mapM digit).map (value b)

theorem digit_digitChar {d : Nat} (small : d < 16) : digit (digitChar d) = some d := by
  interval_cases d <;> rfl

theorem digits_lt {b : Nat} (base : 2 ≤ b) {n d : Nat} (member : d ∈ digits b n) : d < b := by
  unfold digits at member
  split at member
  · rw [List.mem_singleton] at member
    omega
  · exact Nat.digits_lt_base base (List.mem_reverse.mp member)

theorem text_ne_nil (b n : Nat) : text b n ≠ [] := by
  unfold text digits
  split
  · exact List.cons_ne_nil _ _
  · rename_i positive
    simpa [Nat.digits_eq_nil_iff_eq_zero] using positive

theorem value_reverse (b : Nat) (ds : List Nat) : value b ds.reverse = Nat.ofDigits b ds := by
  induction ds with
  | nil => rfl
  | cons d ds ih =>
    rw [Nat.ofDigits_cons, ← ih, List.reverse_cons, value, List.foldl_append]
    show value b ds.reverse * b + d = _
    rw [Nat.mul_comm, Nat.add_comm]

theorem value_digits (b n : Nat) : value b (digits b n) = n := by
  unfold digits
  split
  · rename_i zero
    simp [value, zero]
  · rw [value_reverse, Nat.ofDigits_digits]

theorem value_leftpad (b width : Nat) (ds : List Nat) : value b (List.leftpad width 0 ds) = value b ds := by
  have zeros (count : Nat) : value b (List.replicate count 0) = 0 := by
    induction count with
    | zero => rfl
    | succ count ih => simpa [value, List.replicate_succ] using ih
  rw [List.leftpad, value, List.foldl_append]
  exact congrArg (fun start => ds.foldl (fun v d => v * b + d) start) (zeros _)

theorem length_digits_le {b n width : Nat} (base : 2 ≤ b) (small : n < b ^ width) (some : 1 ≤ width) :
    (digits b n).length ≤ width := by
  unfold digits
  split
  · exact some
  · rw [List.length_reverse]
    exact (Nat.digits_length_le_iff base n).mpr small

theorem padded_eq (b width n : Nat) :
    padded b width n = (List.leftpad width 0 (digits b n)).map digitChar := by
  simp [padded, text, List.leftpad, digitChar]

/-- A number that is not too large fills the width exactly. -/
theorem length_padded {b width n : Nat} (base : 2 ≤ b) (small : n < b ^ width) (some : 1 ≤ width) :
    (padded b width n).length = width := by
  have short := length_digits_le base small some
  rw [padded_eq, List.length_map, List.length_leftpad]
  omega

/-- A list that was written element by element is read element by element. -/
theorem mapM_map_eq_some {α β γ : Type*} {write : α → β} {read : β → Option γ} {result : α → γ}
    {as : List α} (each : ∀ a ∈ as, read (write a) = some (result a)) :
    (as.map write).mapM read = some (as.map result) := by
  induction as with
  | nil => rfl
  | cons a as ih =>
    rw [List.forall_mem_cons] at each
    simp [each.1, ih each.2]

theorem leftpad_digits_lt {b : Nat} (base : 2 ≤ b) {width n d : Nat}
    (member : d ∈ List.leftpad width 0 (digits b n)) : d < b := by
  rcases List.mem_append.mp member with zero | digit
  · rw [List.eq_of_mem_replicate zero]
    omega
  · exact digits_lt base digit

/-- **A number reads back as itself.** -/
theorem read_padded {b : Nat} (base : 2 ≤ b) (small : b ≤ 16) (width n : Nat) :
    read b (padded b width n) = some n := by
  have digits (d : Nat) (member : d ∈ List.leftpad width 0 (digits b n)) : d < 16 :=
    (leftpad_digits_lt base member).trans_le small
  rw [read, padded_eq, mapM_map_eq_some fun d member => digit_digitChar (digits d member),
    List.map_id', Option.map_some, value_leftpad, value_digits]

/-- Its characters are digits. -/
theorem isDigit_of_mem {b : Nat} (base : 2 ≤ b) (small : b ≤ 16) {width n : Nat} {c : UInt8}
    (member : c ∈ padded b width n) : ∃ d < b, digit c = some d := by
  rw [padded_eq] at member
  obtain ⟨d, isDigit, rfl⟩ := List.mem_map.mp member
  have less := leftpad_digits_lt base isDigit
  exact ⟨d, less, digit_digitChar (less.trans_le small)⟩

end Numeral

/-
**Cutting a sequence.**

`cut` cuts a sequence after each separator and gives the complete lines. A sequence that starts with
lines one after the other is cut into these and what the rest is cut into (`cut_flatten_append`).
`splitFirst` cuts once, and `splitFirst_eq_some` says what that means. `words` are the pieces between
separators, however many of these stand in a row. Pieces of one size give the sequence back
(`flatten_pieces`).
-/

import Mathlib.Data.List.Basic

namespace Lines

variable {α : Type*} [DecidableEq α]

/-- The complete lines, where `pending` has been read of the first one. -/
def cutFrom (separator : α) : List α → List α → List (List α)
  | _, [] => []
  | pending, a :: rest =>
    if a = separator then (pending ++ [a]) :: cutFrom separator [] rest
    else cutFrom separator (pending ++ [a]) rest

/-- The complete lines of a sequence, each with its separator. -/
def cut (separator : α) (stream : List α) : List (List α) := cutFrom separator [] stream

/-- A single complete line. -/
def IsLine (separator : α) (line : List α) : Prop :=
  ∃ body, line = body ++ [separator] ∧ separator ∉ body

theorem cutFrom_body (separator : α) (body rest : List α) (plain : separator ∉ body) :
    ∀ pending, cutFrom separator pending (body ++ separator :: rest) =
      (pending ++ body ++ [separator]) :: cut separator rest := by
  induction body with
  | nil =>
    intro pending
    rw [List.nil_append, cutFrom, if_pos rfl, List.append_nil]
    rfl
  | cons a body ih =>
    intro pending
    rw [List.mem_cons, not_or] at plain
    rw [List.cons_append, cutFrom, if_neg (Ne.symm plain.1), ih plain.2, List.append_assoc pending [a]]
    rfl

/-- A line is cut off as it is. -/
theorem cut_line {separator : α} {line : List α} (isLine : IsLine separator line) (rest : List α) :
    cut separator (line ++ rest) = line :: cut separator rest := by
  obtain ⟨body, rfl, plain⟩ := isLine
  rw [List.append_assoc, List.singleton_append]
  exact cutFrom_body separator body rest plain []

theorem cut_flatten_append {separator : α} (lines : List (List α))
    (all : ∀ line ∈ lines, IsLine separator line) (rest : List α) :
    cut separator (lines.flatten ++ rest) = lines ++ cut separator rest := by
  induction lines with
  | nil => rfl
  | cons line lines ih =>
    rw [List.flatten_cons, List.append_assoc, cut_line (all line List.mem_cons_self),
      ih fun other member => all other (List.mem_cons_of_mem _ member), List.cons_append]

/-- What stands before the first separator, and what behind it. -/
def splitFirst (separator : α) : List α → Option (List α × List α)
  | [] => none
  | a :: rest =>
    if a = separator then some ([], rest)
    else (splitFirst separator rest).map fun split => (a :: split.1, split.2)

theorem splitFirst_eq_some {separator : α} {stream : List α} : ∀ {body rest : List α},
    splitFirst separator stream = some (body, rest) ↔
      stream = body ++ separator :: rest ∧ separator ∉ body := by
  induction stream with
  | nil => simp [splitFirst]
  | cons a stream ih =>
    intro body rest
    rw [splitFirst]
    by_cases found : a = separator
    · subst found
      rw [if_pos rfl]
      cases body with
      | nil => simp
      | cons b body =>
        simp only [Option.some.injEq, Prod.mk.injEq, List.nil_eq, reduceCtorEq, false_and,
          List.cons_append, List.cons.injEq, List.mem_cons, not_or, false_iff, not_and]
        exact fun same other => absurd same.1 other
    · rw [if_neg found]
      cases body with
      | nil =>
        simp only [Option.map_eq_some_iff, Prod.mk.injEq, reduceCtorEq, false_and, and_false,
          exists_false, List.nil_append, List.cons.injEq, false_iff, not_and]
        exact fun same => absurd same.1 found
      | cons b body =>
        simp only [Option.map_eq_some_iff, Prod.exists, Prod.mk.injEq, List.cons.injEq,
          List.cons_append, List.mem_cons, not_or]
        constructor
        · rintro ⟨body', rest', split, ⟨rfl, rfl⟩, rfl⟩
          obtain ⟨whole, plain⟩ := ih.mp split
          exact ⟨⟨rfl, whole⟩, Ne.symm found, plain⟩
        · rintro ⟨⟨rfl, whole⟩, _, plain⟩
          exact ⟨body, rest, ih.mpr ⟨whole, plain⟩, ⟨rfl, rfl⟩, rfl⟩

/-- The non-empty pieces between separators. -/
def words (separator : α) (stream : List α) : List (List α) :=
  (stream.splitOn separator).filter (· ≠ [])

@[simp] theorem words_nil (separator : α) : words separator [] = [] := by
  simp [words]

theorem words_append_cons (separator : α) (front rest : List α) :
    words separator (front ++ separator :: rest) = words separator front ++ words separator rest := by
  rw [words, List.splitOn_append_cons_self, List.filter_append]
  rfl

theorem words_of_plain {separator : α} {word : List α} (nonempty : word ≠ []) (plain : separator ∉ word) :
    words separator word = [word] := by
  rw [words, List.splitOn_eq_singleton plain]
  simp [nonempty]

theorem words_replicate (separator : α) (count : Nat) :
    words separator (List.replicate count separator) = [] := by
  induction count with
  | zero => exact words_nil separator
  | succ count ih =>
    rw [List.replicate_succ, ← List.nil_append (separator :: _), words_append_cons, ih, words_nil]
    rfl

/-- Pieces of one size, one after the other. -/
theorem flatten_pieces {α : Type*} (size : Nat) (stream : List α) (count : Nat) :
    ((List.range count).map fun j => (stream.drop (j * size)).take size).flatten =
      stream.take (count * size) := by
  induction count with
  | zero => simp
  | succ count ih =>
    rw [List.range_succ, List.map_append, List.flatten_append, ih, Nat.succ_mul, List.take_add]
    simp

end Lines

/-
**A whole cut into pieces, and some of the pieces.**

A piece is a stretch of a whole with its contents. `cut` cuts a list of chunks end to end; whoever collects the
pieces in order of their position holds a sublist of it.

* `Runs first pieces last` — the pieces follow each other from `first` to `last` without a gap.
* **`Runs.initial`** — collected pieces that run from where the cut starts are an initial segment of it;
  `Runs.final` — a piece and what runs from it to the end are a final segment.
* `sublist_insert` — between what lies in front of it and what lies behind it, a piece of the cut can be inserted.
-/

import Mathlib.Data.List.Basic

namespace Pieces

variable {α : Type*}

/-- The positions from `start` to `stop` of a whole, and what is there. -/
structure Piece (α : Type*) where
  start : Nat
  stop : Nat
  data : List α
  deriving DecidableEq

/-- The pieces run from `first` to `last`, each starting where the one in front of it stops. -/
def Runs : Nat → List (Piece α) → Nat → Prop
  | first, [], last => first = last
  | first, piece :: rest, last => piece.start = first ∧ first < piece.stop ∧ Runs piece.stop rest last

/-- The chunks, end to end from position `first`. -/
def cut : Nat → List (List α) → List (Piece α)
  | _, [] => []
  | first, chunk :: rest => ⟨first, first + chunk.length, chunk⟩ :: cut (first + chunk.length) rest

theorem cut_data (chunks : List (List α)) : ∀ first, (cut first chunks).flatMap Piece.data = chunks.flatten := by
  induction chunks with
  | nil => exact fun _ => rfl
  | cons chunk rest ih =>
    intro first
    rw [cut, List.flatMap_cons, ih, List.flatten_cons]

/-- A piece is as long as what is in it. -/
theorem cut_length {chunks : List (List α)} : ∀ {first : Nat} {piece : Piece α}, piece ∈ cut first chunks →
    piece.stop = piece.start + piece.data.length := by
  induction chunks with
  | nil => simp [cut]
  | cons chunk rest ih =>
    intro first piece member
    rcases List.mem_cons.mp member with rfl | member
    · rfl
    · exact ih member

/-- Where all chunks but the last are multiples of a unit, all pieces start at one. -/
theorem cut_dvd {unit : Nat} {chunks : List (List α)} (units : ∀ chunk ∈ chunks.dropLast, unit ∣ chunk.length) :
    ∀ {first : Nat}, unit ∣ first → ∀ piece ∈ cut first chunks, unit ∣ piece.start := by
  induction chunks with
  | nil => simp [cut]
  | cons chunk rest ih =>
    intro first aligned piece member
    rcases List.mem_cons.mp member with rfl | member
    · exact aligned
    · cases rest with
      | nil => cases member
      | cons next rest =>
        rw [List.dropLast_cons_cons, List.forall_mem_cons] at units
        exact ih units.2 (Nat.dvd_add aligned units.1) piece member

theorem cut_runs {chunks : List (List α)} (nonempty : ∀ chunk ∈ chunks, chunk ≠ []) :
    ∀ first, Runs first (cut first chunks) (first + chunks.flatten.length) := by
  induction chunks with
  | nil => exact fun _ => rfl
  | cons chunk rest ih =>
    intro first
    have positive : 0 < chunk.length := List.length_pos_iff.mpr (nonempty chunk List.mem_cons_self)
    have later := ih (fun other member => nonempty other (List.mem_cons_of_mem _ member)) (first + chunk.length)
    rw [Nat.add_assoc, ← List.length_append, ← List.flatten_cons] at later
    exact ⟨rfl, by simpa using positive, later⟩

/-! ### Runs -/

theorem runs_append {front back : List (Piece α)} {first last : Nat} :
    Runs first (front ++ back) last ↔ ∃ middle, Runs first front middle ∧ Runs middle back last := by
  induction front generalizing first with
  | nil => simp [Runs]
  | cons piece rest ih =>
    simp only [List.cons_append, Runs, ih]
    constructor
    · rintro ⟨starts, ahead, middle, front, back⟩
      exact ⟨middle, ⟨starts, ahead, front⟩, back⟩
    · rintro ⟨middle, ⟨starts, ahead, front⟩, back⟩
      exact ⟨starts, ahead, middle, front, back⟩

/-- The pieces of a run lie between its ends. -/
theorem Runs.bounds {pieces : List (Piece α)} {first last : Nat} (runs : Runs first pieces last) :
    first ≤ last ∧ ∀ piece ∈ pieces, first ≤ piece.start ∧ piece.start < piece.stop ∧ piece.stop ≤ last := by
  induction pieces generalizing first with
  | nil => exact ⟨Nat.le_of_eq runs, by simp⟩
  | cons piece rest ih =>
    obtain ⟨starts, ahead, later⟩ := runs
    obtain ⟨within, each⟩ := ih later
    refine ⟨by omega, fun other member => ?_⟩
    rcases List.mem_cons.mp member with rfl | member
    · exact ⟨by omega, by omega, within⟩
    · have bounds := each other member
      exact ⟨by omega, bounds.2⟩

/-- A run ends where one of its pieces stops. -/
theorem Runs.exists_stop {pieces : List (Piece α)} {first last : Nat} (runs : Runs first pieces last)
    (nonempty : pieces ≠ []) : ∃ piece ∈ pieces, piece.stop = last := by
  induction pieces generalizing first with
  | nil => exact absurd rfl nonempty
  | cons piece rest ih =>
    by_cases alone : rest = []
    · subst alone
      exact ⟨piece, List.mem_cons_self, runs.2.2⟩
    · obtain ⟨other, member, stops⟩ := ih runs.2.2 alone
      exact ⟨other, List.mem_cons_of_mem _ member, stops⟩

/-- A run that ends where it starts has no pieces. -/
theorem Runs.eq_nil {pieces : List (Piece α)} {first : Nat} (runs : Runs first pieces first) : pieces = [] := by
  cases pieces with
  | nil => rfl
  | cons piece rest =>
    have within := runs.2.2.bounds.1
    have ahead := runs.2.1
    omega

/-- The pieces of a run are in order, and do not overlap. -/
theorem Runs.pairwise {pieces : List (Piece α)} {first last : Nat} (runs : Runs first pieces last) :
    pieces.Pairwise fun one other => one.stop ≤ other.start := by
  induction pieces generalizing first with
  | nil => exact List.Pairwise.nil
  | cons piece rest ih =>
    exact List.pairwise_cons.mpr ⟨fun other member => (runs.2.2.bounds.2 other member).1, ih runs.2.2⟩

/-- Two pieces of a run are the same one, or apart. -/
theorem Runs.apart {pieces : List (Piece α)} {first last : Nat} (runs : Runs first pieces last)
    {one other : Piece α} (oneMember : one ∈ pieces) (otherMember : other ∈ pieces) :
    one = other ∨ one.stop ≤ other.start ∨ other.stop ≤ one.start := by
  induction pieces generalizing first with
  | nil => cases oneMember
  | cons piece rest ih =>
    have later := runs.2.2.bounds.2
    rcases List.mem_cons.mp oneMember with rfl | oneLater <;>
      rcases List.mem_cons.mp otherMember with rfl | otherLater
    · exact .inl rfl
    · exact .inr (.inl (later other otherLater).1)
    · exact .inr (.inr (later one oneLater).1)
    · exact ih runs.2.2 oneLater otherLater

/-! ### Some of the pieces -/

/-- **Pieces that run from where the cut starts are an initial segment of it.** -/
theorem Runs.initial {whole some : List (Piece α)} {first last middle : Nat} (runs : Runs first whole last)
    (collected : some.Sublist whole) (running : Runs first some middle) :
    ∃ rest, whole = some ++ rest ∧ Runs middle rest last := by
  induction some generalizing first whole with
  | nil => exact ⟨whole, rfl, running ▸ runs⟩
  | cons piece pieces ih =>
    obtain ⟨starts, ahead, later⟩ := running
    cases whole with
    | nil => cases collected
    | cons head whole =>
      obtain ⟨headStarts, headAhead, headLater⟩ := runs
      -- the head of the cut cannot be passed over: nothing behind it starts at `first`
      cases collected with
      | cons _ collected =>
        have beyond := (headLater.bounds.2 piece (collected.subset List.mem_cons_self)).1
        omega
      | cons_cons _ collected =>
        obtain ⟨rest, rfl, onward⟩ := ih headLater collected later
        exact ⟨rest, rfl, onward⟩

/-- **A piece, and what runs from it to the end, are a final segment of the cut.** -/
theorem Runs.final {whole rest : List (Piece α)} {piece : Piece α} {first last : Nat}
    (runs : Runs first whole last) (collected : (piece :: rest).Sublist whole)
    (running : Runs piece.stop rest last) : ∃ front, whole = front ++ piece :: rest := by
  induction whole generalizing first with
  | nil => cases collected
  | cons head whole ih =>
    cases collected with
    | cons _ collected =>
      obtain ⟨front, rfl⟩ := ih runs.2.2 collected
      exact ⟨head :: front, rfl⟩
    | cons_cons _ collected =>
      obtain ⟨more, rfl, none⟩ := runs.2.2.initial collected running
      exact ⟨[], by rw [none.eq_nil, List.append_nil]; rfl⟩

/-- There is one way to part pieces into those in front of a position and those behind it. -/
theorem split_unique {front back passed behind : List (Piece α)} {position : Nat}
    (same : passed ++ behind = front ++ back) (before : ∀ piece ∈ front, piece.start < position)
    (after : ∀ piece ∈ back, position ≤ piece.start) (passes : ∀ piece ∈ passed, piece.start < position)
    (follows : ∀ piece ∈ behind, position ≤ piece.start) : passed = front ∧ behind = back := by
  have parts : ∀ {left right : List (Piece α)}, (∀ piece ∈ left, piece.start < position) →
      (∀ piece ∈ right, position ≤ piece.start) → (left ++ right).filter (·.start < position) = left := by
    intro left right inFront behind
    rw [List.filter_append, List.filter_eq_self.mpr (by simpa using inFront),
      List.filter_eq_nil_iff.mpr (by simpa using behind), List.append_nil]
  have first : passed = front := by
    rw [← parts passes follows, same, parts before after]
  exact ⟨first, List.append_cancel_left (first ▸ same)⟩

/-- A piece of the cut fits between what starts in front of it and what starts behind it. -/
theorem sublist_insert {whole front back : List (Piece α)} {piece : Piece α} {first last : Nat}
    (runs : Runs first whole last) (collected : (front ++ back).Sublist whole) (member : piece ∈ whole)
    (before : ∀ other ∈ front, other.start < piece.start) (after : ∀ other ∈ back, piece.start < other.start) :
    (front ++ piece :: back).Sublist whole := by
  induction whole generalizing first front with
  | nil => cases member
  | cons head whole ih =>
    obtain ⟨starts, ahead, later⟩ := runs
    rcases List.mem_cons.mp member with rfl | member
    · cases front with
      | nil =>
        rw [List.nil_append] at collected
        cases collected with
        | cons _ collected => exact collected.cons_cons piece
        | cons_cons _ _ => exact absurd (after piece List.mem_cons_self) (Nat.lt_irrefl _)
      | cons other front =>
        have inside : other ∈ piece :: whole := collected.subset List.mem_cons_self
        have earlier := before other List.mem_cons_self
        rcases List.mem_cons.mp inside with rfl | inside
        · omega
        · have beyond := (later.bounds.2 other inside).1
          omega
    · have beyond := (later.bounds.2 piece member).1
      cases front with
      | nil =>
        rw [List.nil_append] at collected
        cases collected with
        | cons _ collected =>
          have inserted := ih later (List.nil_append back ▸ collected) member before
          exact inserted.cons head
        | cons_cons _ _ =>
          have := after head List.mem_cons_self
          omega
      | cons other front =>
        cases collected with
        | cons _ collected =>
          have inserted := ih later collected member before
          exact inserted.cons head
        | cons_cons _ collected =>
          have inserted := ih later collected member fun piece member => before piece (List.mem_cons_of_mem _ member)
          exact inserted.cons_cons head

end Pieces

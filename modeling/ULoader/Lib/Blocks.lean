/-
**Memory cut into blocks.**

A stretch of memory is cut end to end into blocks, each in use or free: a list of blocks, where the
address of a block follows from the sizes before it.

* `placed`, `inUse` — the blocks with their addresses, and those of them that are in use.
* `mem_placed_iff` — a placed block is a cut of the list; `placed_apart` — different blocks do not
  overlap.
* `firstFree` — the address of the lowest free block, the end if there is none.
* `Coalesced` — no two free blocks in a row; then **a stretch that meets no used block lies in one
  free block** (`hole_inside`), and a list without used blocks is a single one (`coalesced_idle`).
* `Linked` — the blocks as a doubly linked list through headers: `linked_append` cuts it,
  `Linked.congr` carries it over to headers that read the same.
-/

import Mathlib.Data.List.Chain
import Mathlib.Algebra.BigOperators.Group.List.Basic
import Mathlib.Algebra.GroupWithZero.Nat

namespace Blocks

/-- A block of memory: its size, header included, and whether somebody uses it. -/
structure Block where
  size : Nat
  used : Bool
  deriving DecidableEq, Repr

/-- The bytes the blocks take together. -/
def total (blocks : List Block) : Nat := (blocks.map Block.size).sum

@[simp] theorem total_nil : total [] = 0 := rfl

@[simp] theorem total_cons (block : Block) (rest : List Block) :
    total (block :: rest) = block.size + total rest := by
  simp [total]

@[simp] theorem total_append (front back : List Block) :
    total (front ++ back) = total front + total back := by
  simp [total]

theorem dvd_total {k : Nat} {blocks : List Block} (each : ∀ block ∈ blocks, k ∣ block.size) :
    k ∣ total blocks := by
  induction blocks with
  | nil => exact Nat.dvd_zero k
  | cons block rest ih =>
    rw [total_cons]
    exact Nat.dvd_add (each block List.mem_cons_self)
      (ih fun other member => each other (List.mem_cons_of_mem _ member))

/-! ### Where the blocks lie -/

/-- The blocks with their addresses, the first one at `p`. -/
def placed : Nat → List Block → List (Nat × Block)
  | _, [] => []
  | p, block :: rest => (p, block) :: placed (p + block.size) rest

/-- The blocks in use, with their addresses. -/
def inUse (p : Nat) (blocks : List Block) : List (Nat × Block) :=
  (placed p blocks).filter (·.2.used)

theorem placed_append (front back : List Block) :
    ∀ p, placed p (front ++ back) = placed p front ++ placed (p + total front) back := by
  induction front with
  | nil => exact fun p => rfl
  | cons block rest ih =>
    intro p
    rw [List.cons_append, placed, ih, placed, total_cons, List.cons_append, Nat.add_assoc]

@[simp] theorem inUse_nil (p : Nat) : inUse p [] = [] := rfl

@[simp] theorem inUse_append (p : Nat) (front back : List Block) :
    inUse p (front ++ back) = inUse p front ++ inUse (p + total front) back := by
  rw [inUse, placed_append, List.filter_append]
  rfl

theorem inUse_cons (p : Nat) (block : Block) (rest : List Block) :
    inUse p (block :: rest) =
      if block.used then (p, block) :: inUse (p + block.size) rest else inUse (p + block.size) rest := by
  rw [inUse, placed, List.filter_cons]
  rfl

theorem mem_inUse {p a : Nat} {block : Block} {blocks : List Block} :
    (a, block) ∈ inUse p blocks ↔ (a, block) ∈ placed p blocks ∧ block.used = true :=
  List.mem_filter

theorem inUse_free {blocks : List Block} (free : ∀ block ∈ blocks, block.used = false) :
    ∀ p, inUse p blocks = [] := by
  induction blocks with
  | nil => exact fun p => rfl
  | cons block rest ih =>
    intro p
    rw [inUse_cons, free block List.mem_cons_self, if_neg (by simp)]
    exact ih (fun other member => free other (List.mem_cons_of_mem _ member)) _

/-- A placed block is a cut of the list. -/
theorem mem_placed_iff {a : Nat} {block : Block} {blocks : List Block} :
    ∀ {p : Nat}, (a, block) ∈ placed p blocks ↔
      ∃ front back, blocks = front ++ block :: back ∧ a = p + total front := by
  induction blocks with
  | nil => simp [placed]
  | cons first rest ih =>
    intro p
    rw [placed, List.mem_cons, ih]
    constructor
    · rintro (same | ⟨front, back, rfl, rfl⟩)
      · obtain ⟨rfl, rfl⟩ := Prod.mk.inj same
        exact ⟨[], rest, rfl, rfl⟩
      · exact ⟨first :: front, back, rfl, by rw [total_cons, Nat.add_assoc]⟩
    · rintro ⟨front, back, cut, rfl⟩
      cases front with
      | nil =>
        obtain ⟨rfl, rfl⟩ := List.cons.inj cut
        exact .inl rfl
      | cons head front =>
        obtain ⟨rfl, rfl⟩ := List.cons.inj cut
        exact .inr ⟨front, back, rfl, by rw [total_cons, Nat.add_assoc]⟩

/-- A block lies inside the stretch the blocks cover. -/
theorem placed_bounds {p a : Nat} {block : Block} {blocks : List Block}
    (member : (a, block) ∈ placed p blocks) : p ≤ a ∧ a + block.size ≤ p + total blocks := by
  obtain ⟨front, back, rfl, rfl⟩ := mem_placed_iff.mp member
  rw [total_append, total_cons]
  omega

/-- Two placed blocks are the same one, or apart. -/
theorem placed_apart {p a c : Nat} {block other : Block} {blocks : List Block}
    (first : (a, block) ∈ placed p blocks) (second : (c, other) ∈ placed p blocks) :
    (a = c ∧ block = other) ∨ a + block.size ≤ c ∨ c + other.size ≤ a := by
  induction blocks generalizing p with
  | nil => cases first
  | cons head rest ih =>
    rw [placed, List.mem_cons] at first second
    rcases first with first | first <;> rcases second with second | second
    · cases first
      cases second
      exact .inl ⟨rfl, rfl⟩
    · cases first
      exact .inr (.inl (placed_bounds second).1)
    · cases second
      exact .inr (.inr (placed_bounds first).1)
    · exact ih first second

/-- The addresses of blocks that are not empty are all different. -/
theorem placed_nodup {blocks : List Block} (positive : ∀ block ∈ blocks, 0 < block.size) :
    ∀ p, ((placed p blocks).map Prod.fst).Nodup := by
  induction blocks with
  | nil => exact fun p => List.nodup_nil
  | cons head rest ih =>
    intro p
    rw [placed, List.map_cons, List.nodup_cons]
    refine ⟨?_, ih (fun block member => positive block (List.mem_cons_of_mem _ member)) _⟩
    intro member
    obtain ⟨⟨a, block⟩, member, rfl⟩ := List.mem_map.mp member
    have beyond := (placed_bounds member).1
    have room := positive head List.mem_cons_self
    simp only at beyond
    omega

theorem inUse_nodup {blocks : List Block} (positive : ∀ block ∈ blocks, 0 < block.size) (p : Nat) :
    ((inUse p blocks).map Prod.fst).Nodup :=
  (placed_nodup positive p).sublist (List.filter_sublist.map _)

/-! ### The lowest free block -/

/-- The address of the lowest free block; the end if every block is in use. -/
def firstFree : Nat → List Block → Nat
  | p, [] => p
  | p, block :: rest => if block.used then firstFree (p + block.size) rest else p

theorem firstFree_le (blocks : List Block) : ∀ p, p ≤ firstFree p blocks := by
  induction blocks with
  | nil => exact fun p => Nat.le_refl p
  | cons block rest ih =>
    intro p
    rw [firstFree]
    split
    · exact Nat.le_trans (Nat.le_add_right _ _) (ih _)
    · exact Nat.le_refl p

/-- Either all of a front is in use, and the search goes on behind it, or it ends in the front,
whatever follows. -/
theorem firstFree_front {front : List Block} (positive : ∀ block ∈ front, 0 < block.size) :
    ∀ p, (∀ tail, firstFree p (front ++ tail) = firstFree (p + total front) tail) ∨
      ∃ a, a < p + total front ∧ ∀ tail, firstFree p (front ++ tail) = a := by
  induction front with
  | nil => exact fun p => .inl fun tail => rfl
  | cons block rest ih =>
    intro p
    have nonempty := positive block List.mem_cons_self
    have onward := ih (fun other member => positive other (List.mem_cons_of_mem _ member)) (p + block.size)
    simp only [List.cons_append, firstFree, total_cons, ← Nat.add_assoc]
    cases block.used with
    | true => simpa using onward
    | false => exact .inr ⟨p, by omega, by simp⟩

theorem firstFree_le_free {block : Block} (free : block.used = false) (front back : List Block) :
    ∀ p, firstFree p (front ++ block :: back) ≤ p + total front := by
  induction front with
  | nil => simp [firstFree, free]
  | cons head front ih =>
    intro p
    have onward := ih (p + head.size)
    rw [List.cons_append, firstFree, total_cons]
    split <;> omega

/-- What lies behind a free block, and how large it is, does not matter. -/
theorem firstFree_free {block other : Block} (free : block.used = false) (freeOther : other.used = false)
    (front back rest : List Block) :
    ∀ p, firstFree p (front ++ block :: back) = firstFree p (front ++ other :: rest) := by
  induction front with
  | nil => simp [firstFree, free, freeOther]
  | cons head front ih =>
    intro p
    rw [List.cons_append, firstFree, List.cons_append, firstFree, ih]

/-- A block that is released is the lowest free one, unless there is a lower one. -/
theorem firstFree_release {front back : List Block} {block other : Block} (busy : block.used = true)
    (free : other.used = false) (positive : ∀ block ∈ front, 0 < block.size) (p : Nat) :
    firstFree p (front ++ other :: back) =
      if p + total front < firstFree p (front ++ block :: back) then p + total front
      else firstFree p (front ++ block :: back) := by
  rcases firstFree_front positive p with onward | ⟨a, below, same⟩
  · have beyond := firstFree_le back (p + total front + block.size)
    rw [onward, onward, firstFree, firstFree, if_pos busy, if_neg (by simp [free])]
    split <;> omega
  · rw [same, same, if_neg (by omega)]

/-- Up to the lowest free block everything is in use. -/
theorem firstFree_cut (blocks : List Block) : ∀ p, ∃ front back, blocks = front ++ back ∧
    (∀ block ∈ front, block.used = true) ∧ firstFree p blocks = p + total front ∧
    ∀ block ∈ back.head?, block.used = false := by
  induction blocks with
  | nil => exact fun p => ⟨[], [], rfl, by simp, rfl, by simp⟩
  | cons block rest ih =>
    intro p
    cases busy : block.used with
    | true =>
      obtain ⟨front, back, rfl, full, here, head⟩ := ih (p + block.size)
      refine ⟨block :: front, back, rfl, ?_, ?_, head⟩
      · rintro other (_ | ⟨_, member⟩)
        · exact busy
        · exact full other member
      · rw [firstFree, if_pos busy, here, total_cons, Nat.add_assoc]
    | false => exact ⟨[], block :: rest, rfl, by simp, by simp [firstFree, busy], by simpa using busy⟩

/-! ### No two free blocks in a row -/

/-- No two free blocks in a row. -/
def Coalesced (blocks : List Block) : Prop :=
  blocks.IsChain fun block next => block.used = true ∨ next.used = true

theorem Coalesced.tail {block : Block} {rest : List Block} (apart : Coalesced (block :: rest)) :
    Coalesced rest :=
  List.IsChain.tail apart

/-- Around a used block the two sides do not matter to each other. -/
theorem coalesced_used {front back : List Block} {block : Block} (busy : block.used = true) :
    Coalesced (front ++ block :: back) ↔ Coalesced front ∧ Coalesced back := by
  rw [Coalesced, List.isChain_append, List.isChain_cons]
  simp [Coalesced, busy]

/-- Around a free block both neighbours are used. -/
theorem coalesced_free {front back : List Block} {block : Block} (free : block.used = false) :
    Coalesced (front ++ block :: back) ↔ Coalesced front ∧ Coalesced back ∧
      (∀ before ∈ front.getLast?, before.used = true) ∧ ∀ next ∈ back.head?, next.used = true := by
  rw [Coalesced, List.isChain_append, List.isChain_cons]
  simp only [Coalesced, List.head?_cons, Option.mem_def, Option.some.injEq, forall_eq', free,
    Bool.false_eq_true, or_false, false_or]
  tauto

/-- **A stretch that meets no used block lies in one free block.** -/
theorem hole_inside {blocks : List Block} : ∀ {p a n : Nat}, Coalesced blocks →
    (∀ block ∈ blocks, 0 < block.size) → 0 < n → p ≤ a → a + n ≤ p + total blocks →
    (∀ c block, (c, block) ∈ inUse p blocks → a + n ≤ c ∨ c + block.size ≤ a) →
    ∃ c block, (c, block) ∈ placed p blocks ∧ block.used = false ∧ c ≤ a ∧ a + n ≤ c + block.size := by
  induction blocks with
  | nil =>
    intro p a n _ _ some above below
    rw [total_nil] at below
    omega
  | cons block rest ih =>
    intro p a n apart positive some above below clear
    rw [total_cons] at below
    by_cases beyond : p + block.size ≤ a
    -- the stretch starts behind the first block
    · have clear' : ∀ c other, (c, other) ∈ inUse (p + block.size) rest →
          a + n ≤ c ∨ c + other.size ≤ a := by
        intro c other member
        refine clear c other ?_
        rw [inUse_cons]
        split
        · exact List.mem_cons_of_mem _ member
        · exact member
      obtain ⟨c, other, member, found⟩ := ih apart.tail
        (fun other member => positive other (List.mem_cons_of_mem _ member)) some beyond (by omega) clear'
      exact ⟨c, other, List.mem_cons_of_mem _ member, found⟩
    -- it starts inside: the first block is free, and the next one, being used, ends the stretch
    · have free : block.used = false := by
        by_contra busy
        have met := clear p block (by rw [inUse_cons, if_pos (by simpa using busy)]; simp)
        omega
      refine ⟨p, block, List.mem_cons_self, free, above, ?_⟩
      cases rest with
      | nil =>
        rw [total_nil] at below
        omega
      | cons next rest =>
        have busy : next.used = true := by
          rcases List.isChain_cons_cons.mp apart with ⟨this | this, _⟩
          · rw [free] at this
            cases this
          · exact this
        have met := clear (p + block.size) next (by simp [inUse_cons, free, busy])
        have nonempty := positive next (by simp)
        omega

/-- Without a used block, blocks of which no two free ones touch are a single block. -/
theorem coalesced_idle {p : Nat} {blocks : List Block} (apart : Coalesced blocks)
    (idle : inUse p blocks = []) (some : blocks ≠ []) : blocks = [⟨total blocks, false⟩] := by
  match blocks with
  | [] => exact absurd rfl some
  | [⟨size, used⟩] =>
    cases used with
    | true => simp [inUse_cons] at idle
    | false => simp
  | first :: second :: rest =>
    exfalso
    rw [inUse_cons] at idle
    split at idle
    · cases idle
    · next free =>
      rw [inUse_cons] at idle
      split at idle
      · cases idle
      · next alsoFree =>
        rcases (List.isChain_cons_cons.mp apart).1 with busy | busy
        · exact free busy
        · exact alsoFree busy

/-! ### The linked list -/

/-- What the headers say, by address: the address of the next block, of the one before, and whether
the block is in use. -/
structure Headers where
  next : Nat → Nat
  prev : Nat → Nat
  used : Nat → Bool

/-- The headers link the blocks from `p` on; `before` is the address of the block in front. -/
def Linked (headers : Headers) : Nat → Nat → List Block → Prop
  | _, _, [] => True
  | before, p, block :: rest => headers.next p = p + block.size ∧ headers.prev p = before ∧
      headers.used p = block.used ∧ Linked headers p (p + block.size) rest

/-- The address of the last of the blocks from `p` on. -/
def lastAddr : Nat → Nat → List Block → Nat
  | before, _, [] => before
  | _, p, block :: rest => lastAddr p (p + block.size) rest

theorem linked_append {headers : Headers} (front : List Block) {back : List Block} :
    ∀ {before p : Nat}, Linked headers before p (front ++ back) ↔ Linked headers before p front ∧
      Linked headers (lastAddr before p front) (p + total front) back := by
  induction front with
  | nil => simp [Linked, lastAddr]
  | cons block rest ih =>
    intro before p
    rw [List.cons_append, Linked, ih, Linked, lastAddr, total_cons, Nat.add_assoc]
    simp only [and_assoc]

@[simp] theorem lastAddr_concat (front : List Block) (block : Block) :
    ∀ before p, lastAddr before p (front ++ [block]) = p + total front := by
  induction front with
  | nil => exact fun before p => rfl
  | cons head rest ih =>
    intro before p
    rw [List.cons_append, lastAddr, ih, total_cons, Nat.add_assoc]

/-- Headers that read the same at every block link the same blocks. -/
theorem Linked.congr {headers other : Headers} {blocks : List Block} : ∀ {before p : Nat},
    Linked headers before p blocks →
    (∀ a block, (a, block) ∈ placed p blocks → other.next a = headers.next a ∧
      other.prev a = headers.prev a ∧ other.used a = headers.used a) →
    Linked other before p blocks := by
  induction blocks with
  | nil => exact fun _ _ => trivial
  | cons block rest ih =>
    intro before p linked same
    obtain ⟨next, prev, used, linked⟩ := linked
    obtain ⟨sameNext, samePrev, sameUsed⟩ := same p block List.mem_cons_self
    refine ⟨sameNext.trans next, samePrev.trans prev, sameUsed.trans used, ?_⟩
    exact ih linked fun a other member => same a other (List.mem_cons_of_mem _ member)

end Blocks

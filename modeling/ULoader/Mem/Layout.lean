/-
**The heap as a list of blocks.**

What `mem.c` keeps true of the bytes: the headers link blocks that fill the heap (`Chained`), no two free
ones in a row, and `lfree` is the lowest free one (`Laid`).

* `Chained.relink` — the one argument about links: a call rewrites the headers of a few neighbouring
  blocks, and of the block behind them only the link back (`Local`); what links the new blocks links the
  whole heap.
* **`memMalloc_spec`**, **`memFree_spec`**, **`memTrim_spec`** — every call on a heap laid out as blocks
  ends, and leaves a heap laid out as blocks; which blocks, and which bytes it may have changed.
-/

import ULoader.Lib.Blocks
import ULoader.Mem.Heap

namespace ULoader.Mem

open Blocks

/-- What the headers in memory say, as addresses. -/
def headers (m : Memory) (ram : Nat) : Headers :=
  ⟨fun mem => ram + next m mem, fun mem => ram + prev m mem, fun mem => decide (used m mem ≠ 0)⟩

/-- **The headers link the blocks, and the blocks fill the heap.** -/
structure Chained (m : Memory) (ram : Nat) (blocks : List Block) : Prop where
  linked : Linked (headers m ram) ram ram blocks
  sized : ∀ block ∈ blocks, 20 ≤ block.size ∧ 4 ∣ block.size
  whole : total blocks = memSizeAligned
  stopped : used m (ram + memSizeAligned) ≠ 0

/-- **The layout between two calls.** -/
structure Laid (h : Heap) (blocks : List Block) : Prop where
  chained : Chained h.mem h.ram blocks
  coalesced : Coalesced blocks
  lowest : h.lfree = firstFree h.ram blocks

/-- Outside the blocks from `p` to `q` only the link back at `q` may have changed. -/
def Local (m other : Memory) (p q : Nat) : Prop :=
  ∀ a, a < p ∨ q ≤ a → a ≠ q + 2 → a ≠ q + 3 → other a = m a

/-! ### Rewriting neighbouring blocks -/

section Relink

variable {m other third : Memory} {ram p q : Nat} {front old new back blocks : List Block}

theorem Local.trans (first : Local m other p q) (second : Local other third p q) :
    Local m third p q := by
  intro a outside notLow notHigh
  rw [second a outside notLow notHigh, first a outside notLow notHigh]

theorem Local.mono {p' q' : Nat} (loc : Local m other p q) (below : p' ≤ p) (ordered : p ≤ q)
    (above : q = q' ∨ q + 4 ≤ q') : Local m other p' q' := by
  intro a outside notLow notHigh
  exact loc a (by omega) (by omega) (by omega)

theorem Local.refl (m : Memory) (p q : Nat) : Local m m p q := fun _ _ _ _ => rfl

/-- Blocks whose bytes are as before are linked as before. -/
theorem linked_frame {before : Nat} (linked : Linked (headers m ram) before p blocks)
    (sized : ∀ block ∈ blocks, 20 ≤ block.size)
    (same : ∀ a, p ≤ a → a < p + total blocks → other a = m a) :
    Linked (headers other ram) before p blocks := by
  refine linked.congr fun a block member => ?_
  have inside := placed_bounds member
  obtain ⟨front, back, rfl, -⟩ := mem_placed_iff.mp member
  have size := sized block (by simp)
  have here : ∀ c, a ≤ c → c < a + 5 → other c = m c := fun c low high => same c (by omega) (by omega)
  simp only [headers, next_congr here, prev_congr here, used_congr here, and_self]

/-- **Rewriting neighbouring blocks.** Blocks `old` make room for blocks `new` of the same extent: when
the new headers are linked, and the block behind links back to the last of them, everything is. -/
theorem Chained.relink (chained : Chained m ram (front ++ old ++ back))
    (loc : Local m other (ram + total front) (ram + total front + total old))
    (linked : Linked (headers other ram) (lastAddr ram ram front) (ram + total front) new)
    (sized : ∀ block ∈ new, 20 ≤ block.size ∧ 4 ∣ block.size) (same : total new = total old)
    (linkedBack : back ≠ [] → ram + prev other (ram + total front + total old) =
      lastAddr (lastAddr ram ram front) (ram + total front) new) :
    Chained other ram (front ++ new ++ back) := by
  have whole := chained.whole
  rw [total_append, total_append] at whole
  obtain ⟨linkedFront, linkedRest⟩ := (linked_append _).mp (List.append_assoc _ _ _ ▸ chained.linked)
  obtain ⟨linkedOld, linkedTail⟩ := (linked_append _).mp linkedRest
  have sizedFront : ∀ block ∈ front, 20 ≤ block.size :=
    fun block member => (chained.sized block (by simp [member])).1
  have sizedBack : ∀ block ∈ back, 20 ≤ block.size :=
    fun block member => (chained.sized block (by simp [member])).1
  refine ⟨?_, ?_, ?_, ?_⟩
  · rw [List.append_assoc, linked_append, linked_append]
    refine ⟨linked_frame linkedFront sizedFront fun a _ below => ?_, linked, ?_⟩
    · exact loc a (by omega) (by omega) (by omega)
    · rw [same]
      cases back with
      | nil => exact trivial
      | cons block rest =>
        obtain ⟨nextHere, -, usedHere, linkedRest⟩ := linkedTail
        have size := sizedBack block List.mem_cons_self
        have sameNext : next other (ram + total front + total old) =
            next m (ram + total front + total old) := by
          rw [next, next, loc _ (by omega) (by omega) (by omega), loc _ (by omega) (by omega) (by omega)]
        have sameUsed : used other (ram + total front + total old) =
            used m (ram + total front + total old) := loc _ (by omega) (by omega) (by omega)
        refine ⟨?_, linkedBack (List.cons_ne_nil _ _), ?_, ?_⟩
        · simpa only [headers, sameNext] using nextHere
        · simpa only [headers, sameUsed] using usedHere
        · refine linked_frame linkedRest (fun block member => sizedBack block (List.mem_cons_of_mem _ member)) ?_
          intro a above _
          exact loc a (by omega) (by omega) (by omega)
  · intro block member
    rcases List.mem_append.mp member with member | member
    · rcases List.mem_append.mp member with member | member
      · exact chained.sized block (by simp [member])
      · exact sized block member
    · exact chained.sized block (by simp [member])
  · rw [total_append, total_append, same]
    exact whole
  · have end' : used other (ram + memSizeAligned) = used m (ram + memSizeAligned) := by
      refine loc _ (by omega) ?_ ?_ <;>
      · cases back with
        | nil => rw [total_nil] at whole; omega
        | cons block rest =>
          have size := sizedBack block List.mem_cons_self
          rw [total_cons] at whole
          omega
    rw [end']
    exact chained.stopped

end Relink

/-! ### Reading the list -/

section Walk

variable {m : Memory} {ram : Nat} {front back : List Block} {block : Block}

/-- What the header of a block says. -/
theorem Chained.header (chained : Chained m ram (front ++ block :: back)) :
    next m (ram + total front) = total front + block.size ∧
      ram + prev m (ram + total front) = lastAddr ram ram front ∧
      (used m (ram + total front) = 0 ↔ block.used = false) ∧
      total front + block.size + total back = memSizeAligned := by
  obtain ⟨nextHere, prevHere, usedHere, -⟩ := ((linked_append _).mp chained.linked).2
  have whole := chained.whole
  simp only [total_append, total_cons] at whole
  simp only [headers] at nextHere prevHere usedHere
  refine ⟨by omega, prevHere, ?_, by omega⟩
  rw [← usedHere]
  simp

theorem Chained.size (chained : Chained m ram (front ++ block :: back)) :
    20 ≤ block.size ∧ 4 ∣ block.size :=
  chained.sized block (by simp)

/-- What the header of the next block says. -/
theorem Chained.usedBehind {other : Block} (chained : Chained m ram (front ++ block :: other :: back)) :
    used m (ram + (total front + block.size)) = 0 ↔ other.used = false := by
  have cut : Chained m ram ((front ++ [block]) ++ other :: back) := by simpa using chained
  simpa using cut.header.2.2.1

theorem Chained.positive {rest : List Block} (chained : Chained m ram (front ++ rest)) :
    ∀ other ∈ front, 0 < other.size := by
  intro other member
  have := (chained.sized other (by simp [member])).1
  omega

theorem Chained.length_le {blocks : List Block} (chained : Chained m ram blocks) :
    blocks.length < rounds := by
  have small : ∀ list : List Block, (∀ block ∈ list, 20 ≤ block.size) → 20 * list.length ≤ total list := by
    intro list
    induction list with
    | nil => simp
    | cons head rest ih =>
      intro sized
      have here := sized head List.mem_cons_self
      have later := ih fun block member => sized block (List.mem_cons_of_mem _ member)
      rw [List.length_cons, total_cons]
      omega
  have fewer := small blocks fun block member => (chained.sized block member).1
  rw [chained.whole, memSizeAligned] at fewer
  rw [rounds]
  omega

/-- The block is free and has room for `size` bytes behind its header. -/
def Fits (size : Nat) (block : Block) : Prop := block.used = false ∧ size + sizeofStructMem ≤ block.size

/-- `userData` is what the block has behind its header. -/
theorem Chained.userData {h : Heap} (chained : Chained h.mem h.ram (front ++ block :: back)) :
    userData h (total front) = block.size - sizeofStructMem := by
  obtain ⟨nextHere, -, -, whole⟩ := chained.header
  have size := chained.size.1
  rw [Mem.userData, nextHere, sub32, sizeofStructMem]
  rw [memSizeAligned] at whole
  omega

/-- **The search finds the lowest block that is big enough**, if there is one. -/
theorem scan_spec {h : Heap} {size : Nat} {rest : List Block} : ∀ {front : List Block} {fuel : Nat},
    Chained h.mem h.ram (front ++ rest) → rest.length < fuel →
    (scan h size fuel (total front) = some none ∧ ∀ block ∈ rest, ¬ Fits size block) ∨
    ∃ before block after, rest = before ++ block :: after ∧ Fits size block ∧
      (∀ other ∈ before, ¬ Fits size other) ∧
      scan h size fuel (total front) = some (some (total front + total before)) := by
  induction rest with
  | nil =>
    intro front fuel chained enough
    have whole := chained.whole
    rw [List.append_nil] at whole
    obtain ⟨fuel, rfl⟩ := Nat.exists_eq_add_one_of_ne_zero (Nat.ne_of_gt enough)
    refine .inl ⟨?_, by simp⟩
    rw [scan, if_neg (by omega)]
  | cons block rest ih =>
    intro front fuel chained enough
    obtain ⟨nextHere, -, usedHere, whole⟩ := chained.header
    obtain ⟨fuel, rfl⟩ := Nat.exists_eq_add_one_of_ne_zero (Nat.ne_of_gt (Nat.zero_lt_of_lt enough))
    have least := chained.size.1
    have test : used h.mem (h.ram + total front) = 0 ∧ size ≤ userData h (total front) ↔
        Fits size block := by
      rw [usedHere, chained.userData, Fits, sizeofStructMem]
      exact and_congr_right fun _ => by omega
    rw [scan]
    by_cases inside : total front < memSizeAligned - size
    · rw [if_pos inside]
      by_cases fits : Fits size block
      · rw [if_pos (test.mpr fits)]
        exact .inr ⟨[], block, rest, rfl, fits, by simp, rfl⟩
      · rw [if_neg (test.not.mpr fits), nextHere]
        have onward := @ih (front ++ [block]) fuel (by simpa using chained)
          (by simpa using enough)
        simp only [total_append, total_cons, total_nil, Nat.add_zero] at onward
        rcases onward with ⟨scanned, none'⟩ | ⟨before, found, after, rfl, fitsFound, lower, scanned⟩
        · refine .inl ⟨scanned, ?_⟩
          rintro other (_ | ⟨_, member⟩)
          · exact fits
          · exact none' other member
        · refine .inr ⟨block :: before, found, after, rfl, fitsFound, ?_, ?_⟩
          · rintro other (_ | ⟨_, member⟩)
            · exact fits
            · exact lower other member
          · rw [scanned, total_cons, Nat.add_assoc]
    -- the search stops: what is left of the heap is smaller than the request
    · rw [if_neg inside]
      refine .inl ⟨rfl, fun other member fits => ?_⟩
      have part : other.size ≤ block.size + total rest := by
        obtain ⟨before, after, cut⟩ := List.append_of_mem member
        have := congrArg total cut
        simp only [total_append, total_cons] at this
        omega
      have room := fits.2
      rw [sizeofStructMem] at room
      omega

/-- The next free block, and the end when there is none. -/
theorem nextFree_spec {rest : List Block} : ∀ {front : List Block} {fuel : Nat},
    Chained m ram (front ++ rest) → rest.length < fuel →
    nextFree m ram fuel (ram + total front) = some (firstFree (ram + total front) rest) := by
  induction rest with
  | nil =>
    intro front fuel chained enough
    have whole := chained.whole
    rw [List.append_nil] at whole
    obtain ⟨fuel, rfl⟩ := Nat.exists_eq_add_one_of_ne_zero (Nat.ne_of_gt enough)
    rw [nextFree, if_neg (by simp [whole]), firstFree]
  | cons block rest ih =>
    intro front fuel chained enough
    obtain ⟨nextHere, -, usedHere, whole⟩ := chained.header
    obtain ⟨fuel, rfl⟩ := Nat.exists_eq_add_one_of_ne_zero (Nat.ne_of_gt (Nat.zero_lt_of_lt enough))
    have least := chained.size.1
    rw [nextFree, firstFree]
    cases busy : block.used with
    | false => simp [usedHere.mpr busy]
    | true =>
      have notFree : used m (ram + total front) ≠ 0 := fun free => by simp [usedHere.mp free] at busy
      rw [if_pos ⟨notFree, by omega⟩, if_pos rfl, nextHere]
      have onward := @ih (front ++ [block]) fuel (by simpa using chained)
        (by simpa using enough)
      simpa only [total_append, total_cons, total_nil, Nat.add_zero, Nat.add_assoc] using onward

end Walk

/-! ### A new block behind another -/

/-- Neighbouring blocks are rewritten as a block of `n` bytes and a free one behind it: once the block
behind links back, the heap is chained again. -/
theorem linkBack_chained {m other : Memory} {ram n : Nat} {busy : Bool} {front old back : List Block}
    (chained : Chained m ram (front ++ old ++ back)) (aligned : 4 ∣ n) (least : 20 ≤ n)
    (room : n + 20 ≤ total old) (extent : 4 ∣ total old)
    (same : ∀ a, a < ram + total front ∨ ram + total front + total old ≤ a → other a = m a)
    (nextHere : next other (ram + total front) = total front + n)
    (prevHere : ram + prev other (ram + total front) = lastAddr ram ram front)
    (usedHere : used other (ram + total front) = 0 ↔ busy = false)
    (nextTwo : next other (ram + (total front + n)) = total front + total old)
    (prevTwo : prev other (ram + (total front + n)) = total front)
    (usedTwo : used other (ram + (total front + n)) = 0) :
    Chained (linkBack other ram (ram + (total front + n)) (total front + n)) ram
        (front ++ [⟨n, busy⟩, ⟨total old - n, false⟩] ++ back) ∧
      Local m (linkBack other ram (ram + (total front + n)) (total front + n)) (ram + total front)
        (ram + total front + total old) := by
  have whole := chained.whole
  simp only [total_append, memSizeAligned] at whole
  have sized : ∀ block ∈ ([⟨n, busy⟩, ⟨total old - n, false⟩] : List Block),
      20 ≤ block.size ∧ 4 ∣ block.size := by
    simp only [List.mem_cons, List.not_mem_nil, or_false, forall_eq_or_imp, forall_eq]
    omega
  have rejoined : total [⟨n, busy⟩, ⟨total old - n, false⟩] = total old := by
    simp only [total_cons, total_nil]
    omega
  have linked : Linked (headers other ram) (lastAddr ram ram front) (ram + total front)
      [⟨n, busy⟩, ⟨total old - n, false⟩] := by
    simp only [Linked, headers, nextHere, prevHere, Nat.add_assoc, nextTwo, prevTwo, usedTwo]
    cases busy <;> simp [usedHere] <;> omega
  rw [linkBack, nextTwo, memSizeAligned]
  split
  next inner =>
    have loc : Local m (setPrev other (ram + (total front + total old)) (total front + n))
        (ram + total front) (ram + total front + total old) := by
      intro a outside notLow notHigh
      rw [setPrev_outside (by omega), same a outside]
    refine ⟨chained.relink loc ?_ sized rejoined fun _ => ?_, loc⟩
    · refine linked_frame linked (fun block member => (sized block member).1) fun a _ below => ?_
      exact setPrev_outside (by omega)
    · rw [prev_setPrev (by omega) (by omega)]
      simp only [lastAddr, Nat.add_assoc]
  next outer =>
    have loc : Local m other (ram + total front) (ram + total front + total old) :=
      fun a outside _ _ => same a outside
    refine ⟨chained.relink loc linked sized rejoined fun more => ?_, loc⟩
    obtain ⟨block, rest, rfl⟩ := List.exists_cons_of_ne_nil more
    have size := (chained.sized block (by simp)).1
    rw [total_cons] at whole
    omega

/-- A block changes hands, and nothing else. -/
theorem setUsed_chained {m : Memory} {ram : Nat} {front back : List Block} {block : Block}
    (chained : Chained m ram (front ++ block :: back)) (busy : Bool) :
    Chained (setUsed m (ram + total front) (if busy then 1 else 0)) ram
        (front ++ ⟨block.size, busy⟩ :: back) ∧
      Local m (setUsed m (ram + total front) (if busy then 1 else 0)) (ram + total front)
        (ram + total front + block.size) := by
  obtain ⟨nextHere, prevHere, -, -⟩ := chained.header
  have size := chained.size
  have chained' : Chained m ram (front ++ [block] ++ back) := by simpa using chained
  have extent : total [block] = block.size := by simp
  have loc : Local m (setUsed m (ram + total front) (if busy then 1 else 0)) (ram + total front)
      (ram + total front + block.size) := by
    intro a outside notLow notHigh
    exact setUsed_outside (by omega)
  refine ⟨List.append_cons _ _ _ ▸ chained'.relink (extent ▸ loc) ?_ ?_ (by simp) ?_, loc⟩
  · simp (disch := omega) only [Linked, headers, next_setUsed, prev_setUsed, used_setUsed, nextHere,
      prevHere]
    cases busy <;> simp [Nat.add_assoc]
  · simpa using size
  · intro more
    obtain ⟨behind, rest, rfl⟩ := List.exists_cons_of_ne_nil more
    obtain ⟨-, prevBehind, -⟩ := chained'.header
    rw [lastAddr_concat, total_append, extent] at prevBehind
    simp (disch := omega) only [lastAddr, extent, prev_setUsed]
    rw [Nat.add_assoc]
    exact prevBehind

/-! ### What a call does to the layout -/

/-- **What a call does to the layout**: neighbouring blocks make room for others; `gone` are the blocks
in use among the old ones, `come` those among the new. -/
structure Edit (h h' : Heap) (blocks blocks' : List Block) (gone come : List (Nat × Block)) : Prop where
  ram : h'.ram = h.ram
  laid : Laid h' blocks'
  cut : ∃ front old new back, blocks = front ++ old ++ back ∧ blocks' = front ++ new ++ back ∧
    total new = total old ∧ inUse (h.ram + total front) old = gone ∧
    inUse (h.ram + total front) new = come ∧
    Local h.mem h'.mem (h.ram + total front) (h.ram + total front + total old)

/-- **The other blocks in use stay, and so do the bytes behind their headers.** -/
theorem Edit.inUse {h h' : Heap} {blocks blocks' : List Block} {gone come : List (Nat × Block)}
    (edit : Edit h h' blocks blocks' gone come) :
    ∃ low high, inUse h.ram blocks = low ++ gone ++ high ∧ inUse h'.ram blocks' = low ++ come ++ high ∧
      ∀ a block, (a, block) ∈ low ++ high →
        ∀ i, a + sizeofStructMem ≤ i → i < a + block.size → h'.mem i = h.mem i := by
  obtain ⟨front, old, new, back, rfl, rfl, same, goneOld, comeNew, loc⟩ := edit.cut
  refine ⟨Blocks.inUse h.ram front, Blocks.inUse (h.ram + (total front + total old)) back, ?_, ?_, ?_⟩
  · rw [inUse_append, inUse_append, total_append, goneOld]
  · rw [edit.ram, inUse_append, inUse_append, total_append, comeNew, same]
  · intro a block member i above below
    rw [sizeofStructMem] at above
    rcases List.mem_append.mp member with member | member
    · have inside := placed_bounds (mem_inUse.mp member).1
      exact loc i (by omega) (by omega) (by omega)
    · have inside := placed_bounds (mem_inUse.mp member).1
      exact loc i (by omega) (by omega) (by omega)

/-! ### `mem_malloc` -/

section Malloc

variable {h : Heap} {front back blocks : List Block} {block : Block} {size : Nat}

/-- What becomes of a block that is handed out: the rest of it is a block of its own, if it can be. -/
def carved (size : Nat) (block : Block) : List Block :=
  if size + sizeofStructMem + minSizeAligned ≤ block.size - sizeofStructMem then
    [⟨size + sizeofStructMem, true⟩, ⟨block.size - (size + sizeofStructMem), false⟩]
  else [⟨block.size, true⟩]

theorem carve_chained (chained : Chained h.mem h.ram (front ++ block :: back)) (fits : Fits size block)
    (aligned : 4 ∣ size) (least : minSizeAligned ≤ size) :
    Chained (carve h (total front) size) h.ram (front ++ carved size block ++ back) ∧
      Local h.mem (carve h (total front) size) (h.ram + total front)
        (h.ram + total front + block.size) := by
  obtain ⟨nextHere, prevHere, -, whole⟩ := chained.header
  obtain ⟨sizeLeast, sizeAligned⟩ := chained.size
  have room := fits.2
  have chained' : Chained h.mem h.ram (front ++ [block] ++ back) := by simpa using chained
  have extent : total [block] = block.size := by simp
  simp only [memSizeAligned, sizeofStructMem, minSizeAligned] at whole room least
  rw [carve, carved, chained.userData]
  by_cases roomy : size + sizeofStructMem + minSizeAligned ≤ block.size - sizeofStructMem
  · have ptr2 : u16 (total front + sizeofStructMem + size) = total front + (size + sizeofStructMem) := by
      rw [u16, sizeofStructMem]
      omega
    simp only [if_pos roomy, ptr2]
    rw [sizeofStructMem, minSizeAligned] at roomy
    rw [sizeofStructMem, ← extent]
    refine linkBack_chained chained' (by omega) (by omega) (by omega) (by omega) (fun a outside => ?_)
      ?_ ?_ ?_ ?_ ?_ ?_
    · rw [extent] at outside
      rw [setUsed_outside (by omega), setNext_outside (by omega), setPrev_outside (by omega),
        setNext_outside (by omega), setUsed_outside (by omega)]
    · simp (disch := omega) only [next_setUsed, next_setNext]
    · simp (disch := omega) only [prev_setUsed, prev_setNext, prev_setPrev_apart]
      exact prevHere
    · simp (disch := omega) only [used_setUsed]
      simp
    · simp (disch := omega) only [next_setUsed, next_setNext_apart, next_setPrev, next_setNext, nextHere,
        extent]
    · simp (disch := omega) only [prev_setUsed, prev_setNext, prev_setPrev]
    · simp (disch := omega) only [used_setUsed_apart, used_setNext, used_setPrev, used_setUsed]
  · simp only [if_neg roomy]
    obtain ⟨chained, loc⟩ := setUsed_chained chained true
    exact ⟨by simpa using chained, loc⟩

theorem dataSize_spec (size : Nat) : 4 ∣ dataSize size ∧ minSizeAligned ≤ dataSize size := by
  rw [dataSize, minSizeAligned, u16, alignSize]
  split <;> omega

/-- A carved block is in use, and its neighbours are as before. -/
theorem carved_coalesced (apart : Coalesced (front ++ block :: back)) (free : block.used = false) :
    Coalesced (front ++ carved size block ++ back) := by
  obtain ⟨apartFront, apartBack, -, usedBehind⟩ := (coalesced_free free).mp apart
  rw [carved, List.append_assoc]
  split
  · refine (coalesced_used rfl).mpr ⟨apartFront, ?_⟩
    exact (@coalesced_free [] _ _ rfl).mpr ⟨List.isChain_nil, apartBack, by simp, usedBehind⟩
  · exact (coalesced_used rfl).mpr ⟨apartFront, apartBack⟩

/-- The block found is handed out, and `lfree` is the lowest free block again. -/
theorem grant_spec (laid : Laid h (front ++ block :: back)) (fits : Fits size block)
    (aligned : 4 ∣ size) (least : minSizeAligned ≤ size) :
    ∃ h', grant h (total front) size = some (h', h.ram + total front + sizeofStructMem) ∧
      h'.ram = h.ram ∧ Laid h' (front ++ carved size block ++ back) ∧
      Local h.mem h'.mem (h.ram + total front) (h.ram + total front + block.size) := by
  obtain ⟨chained, loc⟩ := carve_chained laid.chained fits aligned least
  have coalesced : Coalesced (front ++ carved size block ++ back) := carved_coalesced laid.coalesced fits.1
  rcases firstFree_front laid.chained.positive h.ram with onward | ⟨a, below, same⟩
  · have here : h.ram + total front = h.lfree := by
      rw [laid.lowest, onward, firstFree, if_neg (by simp [fits.1])]
    have chained' := chained
    rw [List.append_assoc] at chained'
    have shorter : (carved size block ++ back).length < rounds := by
      have := chained'.length_le
      rw [List.length_append] at this
      omega
    have found := nextFree_spec chained' shorter
    refine ⟨⟨carve h (total front) size, h.ram, firstFree (h.ram + total front) (carved size block ++ back)⟩,
      ?_, rfl, ⟨chained, coalesced, ?_⟩, loc⟩
    · rw [grant, if_pos here, ← here, found]
    · rw [List.append_assoc, onward]
  · have notHere : h.ram + total front ≠ h.lfree := by
      rw [laid.lowest, same]
      omega
    refine ⟨⟨carve h (total front) size, h.ram, h.lfree⟩, ?_, rfl, ⟨chained, coalesced, ?_⟩, loc⟩
    · rw [grant, if_neg notHere]
    · rw [laid.lowest, List.append_assoc, same, same]

theorem carved_inUse (size : Nat) (block : Block) (p : Nat) (room : size + sizeofStructMem ≤ block.size) :
    total (carved size block) = block.size ∧
      ∃ taken, size + sizeofStructMem ≤ taken ∧ inUse p (carved size block) = [(p, ⟨taken, true⟩)] := by
  rw [carved]
  split
  · refine ⟨?_, size + sizeofStructMem, le_refl _, by simp [inUse_cons]⟩
    simp only [total_cons, total_nil]
    omega
  · exact ⟨by simp, block.size, room, by simp [inUse_cons]⟩

/-- **`mem_malloc` on a heap laid out as blocks**: it takes the lowest free block that is big enough, and
fails when there is none. -/
theorem memMalloc_spec (laid : Laid h blocks) (size : Nat) :
    (memMalloc h size = some (h, 0) ∧ (size = 0 ∨ ∀ block ∈ blocks, ¬ Fits (dataSize size) block)) ∨
    (size ≠ 0 ∧ ∃ h' mem taken blocks', memMalloc h size = some (h', mem + sizeofStructMem) ∧
      Edit h h' blocks blocks' [] [(mem, ⟨taken, true⟩)] ∧ dataSize size + sizeofStructMem ≤ taken ∧
      (∃ block, (mem, block) ∈ placed h.ram blocks ∧ Fits (dataSize size) block) ∧
      ∀ a block, (a, block) ∈ placed h.ram blocks → Fits (dataSize size) block → mem ≤ a) := by
  by_cases nothing : size = 0
  · exact .inl ⟨by rw [memMalloc, if_pos nothing], .inl nothing⟩
  obtain ⟨aligned, least⟩ := dataSize_spec size
  by_cases huge : memSizeAligned < dataSize size
  · refine .inl ⟨by rw [memMalloc, if_neg nothing, if_pos huge], .inr fun block member fits => ?_⟩
    obtain ⟨front, back, rfl⟩ := List.append_of_mem member
    have whole := laid.chained.header.2.2.2
    have room := fits.2
    omega
  -- the search starts at the lowest free block; below it nothing fits
  obtain ⟨low, rest, rfl, full, lowest, -⟩ := firstFree_cut blocks h.ram
  have start : u16 (h.lfree - h.ram) = total low := by
    have whole := laid.chained.whole
    rw [total_append, memSizeAligned] at whole
    rw [laid.lowest, lowest, u16]
    omega
  have shorter : rest.length < rounds := by
    have := laid.chained.length_le
    rw [List.length_append] at this
    omega
  have fullFits : ∀ block ∈ low, ¬ Fits (dataSize size) block := by
    intro block member fits
    have busy := full block member
    rw [fits.1] at busy
    cases busy
  rcases @scan_spec h (dataSize size) rest low rounds laid.chained shorter with
    ⟨scanned, unfit⟩ | ⟨before, block, back, rfl, fits, lower, scanned⟩
  · refine .inl ⟨?_, .inr fun block member => ?_⟩
    · rw [memMalloc, if_neg nothing, if_neg huge, start, scanned]
    · rcases List.mem_append.mp member with member | member
      · exact fullFits block member
      · exact unfit block member
  · obtain ⟨total', taken, enough, taking⟩ :=
      carved_inUse (dataSize size) block (h.ram + total (low ++ before)) fits.2
    rw [← List.append_assoc] at laid ⊢
    obtain ⟨h', granted, sameRam, laid', loc⟩ := grant_spec laid fits aligned least
    refine .inr ⟨nothing, h', h.ram + total (low ++ before), taken, _, ?_, ⟨sameRam, laid', ?_⟩, enough,
      ⟨block, mem_placed_iff.mpr ⟨_, _, rfl, rfl⟩, fits⟩, ?_⟩
    · rw [← granted, memMalloc, if_neg nothing, if_neg huge, start, scanned, total_append]
    · exact ⟨low ++ before, [block], carved (dataSize size) block, back, by simp, rfl, by simp [total'],
        by simp [inUse_cons, fits.1], taking, by simpa using loc⟩
    · intro a other member fitsOther
      rw [placed_append] at member
      rcases List.mem_append.mp member with member | member
      · obtain ⟨_, _, cut, -⟩ := mem_placed_iff.mp member
        have inFront : other ∈ low ++ before := by rw [cut]; simp
        rcases List.mem_append.mp inFront with inLow | inBefore
        · exact absurd fitsOther (fullFits other inLow)
        · exact absurd fitsOther (lower other inBefore)
      · exact (placed_bounds member).1

end Malloc

/-! ### `mem_free` -/

section Free

variable {h : Heap} {front back : List Block} {block other : Block}

/-- Two neighbouring blocks, the first one free, become one. -/
theorem merge_chained {m : Memory} {ram : Nat} (chained : Chained m ram (front ++ [block, other] ++ back))
    (free : block.used = false) :
    Chained (setPrev (setNext m (ram + total front) (total front + block.size + other.size))
        (ram + (total front + block.size + other.size)) (total front)) ram
        (front ++ [⟨block.size + other.size, false⟩] ++ back) ∧
      Local m (setPrev (setNext m (ram + total front) (total front + block.size + other.size))
        (ram + (total front + block.size + other.size)) (total front)) (ram + total front)
        (ram + total front + (block.size + other.size)) := by
  have chained' : Chained m ram (front ++ block :: (other :: back)) := by simpa using chained
  obtain ⟨-, prevHere, usedHere, whole⟩ := chained'.header
  have size := chained'.size
  have sizeOther := chained.sized other (by simp)
  have extent : total [block, other] = block.size + other.size := by simp
  rw [total_cons, memSizeAligned] at whole
  have loc : Local m (setPrev (setNext m (ram + total front) (total front + block.size + other.size))
      (ram + (total front + block.size + other.size)) (total front)) (ram + total front)
      (ram + total front + (block.size + other.size)) := by
    intro a outside notLow notHigh
    rw [setPrev_outside (by omega), setNext_outside (by omega)]
  refine ⟨chained.relink (extent ▸ loc) ?_ ?_ (by simp) fun _ => ?_, loc⟩
  · simp (disch := omega) only [Linked, headers, next_setPrev, next_setNext, prev_setPrev_apart,
      prev_setNext, used_setPrev, used_setNext, prevHere, usedHere.mpr free]
    simp [Nat.add_assoc]
  · simp only [List.mem_singleton, forall_eq]
    omega
  · rw [prev_setPrev (by omega) (by omega), lastAddr, lastAddr]

/-- The next block is taken in when it is free. -/
theorem plugForward_spec (chained : Chained h.mem h.ram (front ++ block :: back))
    (free : block.used = false) (lowest : h.lfree = firstFree h.ram (front ++ block :: back))
    (apart : Coalesced back) :
    ∃ m taken rest, back = taken ++ rest ∧ (∀ other ∈ taken, other.used = false) ∧
      (∀ next ∈ rest.head?, next.used = true) ∧
      plugForward h (h.ram + total front) = ⟨m, h.ram, h.lfree⟩ ∧
      Chained m h.ram (front ++ ⟨block.size + total taken, false⟩ :: rest) ∧
      Local h.mem m (h.ram + total front) (h.ram + total front + (block.size + total taken)) := by
  obtain ⟨nextHere, -, -, whole⟩ := chained.header
  have size := chained.size.1
  have here : (⟨block.size, false⟩ : Block) = block := by rw [← free]
  cases back with
  | nil =>
    refine ⟨h.mem, [], [], rfl, by simp, by simp, ?_, by simpa [here] using chained, Local.refl _ _ _⟩
    rw [plugForward, nextHere, if_neg]
    rintro ⟨-, -, inner⟩
    rw [total_nil] at whole
    exact inner (by rw [Heap.ramEnd]; omega)
  | cons other rest =>
    have chainedNext : Chained h.mem h.ram ((front ++ [block]) ++ other :: rest) := by simpa using chained
    obtain ⟨nextTwo, -, usedTwo, wholeTwo⟩ := chainedNext.header
    have sizeOther := chainedNext.size.1
    simp only [total_append, total_cons, total_nil, Nat.add_zero, memSizeAligned] at nextTwo usedTwo wholeTwo
    cases busy : other.used with
    | true =>
      refine ⟨h.mem, [], other :: rest, rfl, by simp, by simpa using busy, ?_,
        by simpa [here] using chained, Local.refl _ _ _⟩
      rw [plugForward, nextHere, if_neg]
      rintro ⟨-, freeNext, -⟩
      rw [usedTwo.mp freeNext] at busy
      cases busy
    | false =>
      have chained' : Chained h.mem h.ram (front ++ [block, other] ++ rest) := by simpa using chained
      obtain ⟨merged, loc⟩ := merge_chained chained' free
      refine ⟨_, [other], rest, rfl, by simpa using busy, fun next first => ?_, ?_, by simpa using merged,
        by simpa using loc⟩
      · simpa [busy] using (List.isChain_cons.mp apart).1 next first
      -- a free block lies in front, so `lfree` is not the one that is taken in
      · have below := firstFree_le_free free front (other :: rest) h.ram
        rw [← lowest] at below
        rw [plugForward, nextHere, if_pos ⟨by omega, usedTwo.mpr busy, by
          rw [Heap.ramEnd, memSizeAligned]; omega⟩, if_neg (by omega)]
        simp (disch := omega) only [nextTwo, next_setNext_apart]
        rw [Nat.add_sub_cancel_left, u16, Nat.mod_eq_of_lt (by omega)]

/-- A free block is taken in by the one before, when that is free. -/
theorem plugBackward_spec (chained : Chained h.mem h.ram (front ++ block :: back))
    (free : block.used = false) (lowest : h.lfree = firstFree h.ram (front ++ block :: back))
    (apart : Coalesced front) :
    ∃ m rest taken, front = rest ++ taken ∧ (∀ other ∈ taken, other.used = false) ∧
      (∀ before ∈ rest.getLast?, before.used = true) ∧
      plugBackward h (h.ram + total front) = ⟨m, h.ram, h.lfree⟩ ∧
      Chained m h.ram (rest ++ ⟨total taken + block.size, false⟩ :: back) ∧
      Local h.mem m (h.ram + total rest) (h.ram + total rest + (total taken + block.size)) := by
  obtain ⟨nextHere, prevHere, -, whole⟩ := chained.header
  have size := chained.size.1
  have here : (⟨block.size, false⟩ : Block) = block := by rw [← free]
  rcases List.eq_nil_or_concat front with rfl | ⟨rest, other, rfl⟩
  · refine ⟨h.mem, [], [], rfl, by simp, by simp, ?_, by simpa [here] using chained, Local.refl _ _ _⟩
    rw [plugBackward, prevHere, if_neg]
    rintro ⟨different, -⟩
    exact different rfl
  · rw [List.concat_eq_append] at *
    have chainedPrev : Chained h.mem h.ram (rest ++ other :: (block :: back)) := by simpa using chained
    obtain ⟨-, -, usedPrev, wholePrev⟩ := chainedPrev.header
    have sizeOther := chainedPrev.size.1
    rw [lastAddr_concat] at prevHere
    simp only [total_append, total_cons, total_nil, Nat.add_zero, memSizeAligned] at nextHere prevHere wholePrev ⊢
    cases busy : other.used with
    | true =>
      refine ⟨h.mem, rest ++ [other], [], by simp, by simp, by simpa using busy, ?_,
        by simpa [here] using chained, Local.refl _ _ _⟩
      rw [plugBackward, prevHere, if_neg]
      rintro ⟨-, freePrev⟩
      rw [usedPrev.mp freePrev] at busy
      cases busy
    | false =>
      have chained' : Chained h.mem h.ram (rest ++ [other, block] ++ back) := by simpa using chained
      obtain ⟨merged, loc⟩ := merge_chained chained' busy
      refine ⟨_, rest, [other], rfl, by simpa using busy, ?_, ?_, by simpa using merged,
        by simpa using loc⟩
      · exact ((coalesced_free busy).mp apart).2.2.1
      · have below := firstFree_le_free busy rest (block :: back) h.ram
        rw [List.append_assoc, List.cons_append, List.nil_append] at lowest
        rw [← lowest] at below
        rw [plugBackward, prevHere, if_pos ⟨by omega, usedPrev.mpr busy⟩, if_neg (by omega)]
        simp (disch := omega) only [nextHere, next_setNext_apart]
        rw [Nat.add_sub_cancel_left, u16, Nat.mod_eq_of_lt (by omega)]

/-- `plug_holes` joins a block that has just been freed with its free neighbours. -/
theorem plugHoles_spec (chained : Chained h.mem h.ram (front ++ block :: back))
    (free : block.used = false) (lowest : h.lfree = firstFree h.ram (front ++ block :: back))
    (apartFront : Coalesced front) (apartBack : Coalesced back) :
    ∃ m start joined taken rest, front = start ++ joined ∧ back = taken ++ rest ∧
      (∀ other ∈ joined ++ taken, other.used = false) ∧
      plugHoles h (h.ram + total front) = ⟨m, h.ram, h.lfree⟩ ∧
      Laid ⟨m, h.ram, h.lfree⟩ (start ++ ⟨total joined + (block.size + total taken), false⟩ :: rest) ∧
      Local h.mem m (h.ram + total start)
        (h.ram + total start + (total joined + (block.size + total taken))) := by
  have size := chained.size.1
  have sizedBack : ∀ other ∈ back, 20 ≤ other.size :=
    fun other member => (chained.sized other (by simp [member])).1
  obtain ⟨m, taken, rest, rfl, freeTaken, usedBehind, plugged, chained, locForward⟩ :=
    plugForward_spec chained free lowest apartBack
  have lowest' : h.lfree = firstFree h.ram (front ++ ⟨block.size + total taken, false⟩ :: rest) :=
    lowest.trans (firstFree_free free rfl _ _ _ _)
  obtain ⟨m', start, joined, rfl, freeJoined, usedBefore, plugged', chained, locBackward⟩ :=
    plugBackward_spec (h := ⟨m, h.ram, h.lfree⟩) chained rfl lowest' apartFront
  refine ⟨m', start, joined, taken, rest, rfl, rfl, ?_, ?_, ⟨chained, ?_, ?_⟩, ?_⟩
  · intro other member
    rcases List.mem_append.mp member with member | member
    · exact freeJoined other member
    · exact freeTaken other member
  · rw [plugHoles, plugged]
    exact plugged'
  · exact (coalesced_free rfl).mpr ⟨List.IsChain.left_of_append apartFront,
      List.IsChain.right_of_append apartBack, usedBefore, usedBehind⟩
  · refine lowest'.trans ?_
    rw [List.append_assoc]
    cases joined with
    | nil => exact firstFree_free rfl rfl _ _ _ _
    | cons other _ => exact firstFree_free (freeJoined other List.mem_cons_self) rfl _ _ _ _
  · rw [total_append] at locForward
    refine (locForward.mono ?_ ?_ ?_).trans locBackward <;> omega

/-- **`mem_free` on a heap laid out as blocks**: the block joins its free neighbours. -/
theorem memFree_spec {blocks : List Block} {mem : Nat} (laid : Laid h blocks)
    (member : (mem, block) ∈ inUse h.ram blocks) :
    ∃ blocks', Edit h (memFree h (mem + sizeofStructMem)) blocks blocks' [(mem, block)] [] := by
  obtain ⟨placedHere, busy⟩ := mem_inUse.mp member
  obtain ⟨front, back, rfl, rfl⟩ := mem_placed_iff.mp placedHere
  obtain ⟨apartFront, apartBack⟩ := (coalesced_used busy).mp laid.coalesced
  have whole := laid.chained.header.2.2.2
  have size := laid.chained.size.1
  have sizedBack : ∀ other ∈ back, 20 ≤ other.size :=
    fun other member => (laid.chained.sized other (by simp [member])).1
  -- the block is marked free, and then joined with its neighbours
  obtain ⟨chained, loc⟩ := setUsed_chained laid.chained false
  obtain ⟨lfree, lower⟩ : ∃ lfree, lfree = if h.ram + total front < h.lfree then h.ram + total front
      else h.lfree := ⟨_, rfl⟩
  have lowest : lfree = firstFree h.ram (front ++ ⟨block.size, false⟩ :: back) := by
    rw [lower, laid.lowest]
    exact (@firstFree_release front back block ⟨block.size, false⟩ busy rfl laid.chained.positive
      h.ram).symm
  obtain ⟨m, start, joined, taken, rest, rfl, rfl, free, plugged, laid', locPlug⟩ :=
    plugHoles_spec (h := ⟨setUsed h.mem (h.ram + total front) 0, h.ram, lfree⟩) chained rfl lowest
      apartFront apartBack
  have freed : memFree h (h.ram + total (start ++ joined) + sizeofStructMem) = ⟨m, h.ram, lfree⟩ := by
    rw [memFree, if_neg (by rw [sizeofStructMem]; omega),
      if_neg (by rw [Heap.ramEnd, sizeofStructMem]; omega), Nat.add_sub_cancel]
    simp only [← lower]
    exact plugged
  have takenSize : total taken = 0 ∨ 4 ≤ total taken := by
    cases taken with
    | nil => exact .inl rfl
    | cons other _ =>
      have := sizedBack other (by simp)
      rw [total_cons]
      omega
  refine ⟨start ++ ⟨total joined + (block.size + total taken), false⟩ :: rest, ?_⟩
  rw [freed]
  refine ⟨rfl, laid', start, joined ++ block :: taken,
    [⟨total joined + (block.size + total taken), false⟩], rest, by simp, by simp, by simp, ?_, rfl, ?_⟩
  · rw [inUse_append, inUse_cons, if_pos busy, inUse_free fun other member => free other (by simp [member]),
      inUse_free fun other member => free other (by simp [member]), total_append, Nat.add_assoc]
    rfl
  · simp only [total_append] at loc locPlug
    rw [total_append joined, total_cons]
    refine (loc.mono ?_ ?_ ?_).trans locPlug <;> omega

end Free

/-! ### `mem_trim` -/

section Trim

variable {h : Heap} {front rest back : List Block} {block other : Block} {size : Nat}

theorem linkBack_below {m : Memory} {ram mem2 ptr2 a : Nat} (below : a < ram + next m mem2) :
    linkBack m ram mem2 ptr2 a = m a := by
  rw [linkBack]
  split
  · exact setPrev_outside (by omega)
  · rfl

/-- The header of a free block, written `n` bytes behind the start of the block with index `ptr`. -/
def cutAt (m : Memory) (ram ptr n following : Nat) : Memory :=
  setNext (setPrev (setNext (setUsed m (ram + (ptr + n)) 0) (ram + (ptr + n)) following)
    (ram + (ptr + n)) ptr) (ram + ptr) (ptr + n)

/-- A block in use keeps its first `n` bytes, and the rest goes to a free block behind it. -/
theorem cutAt_chained {m : Memory} {ram n : Nat} {more : List Block}
    (chained : Chained m ram (front ++ (block :: more) ++ back)) (busy : block.used = true)
    (aligned : 4 ∣ n) (least : 20 ≤ n) (room : n + 20 ≤ total (block :: more))
    (extent : 4 ∣ total (block :: more)) :
    (Chained (linkBack (cutAt m ram (total front) n (total front + total (block :: more))) ram
          (ram + (total front + n)) (total front + n)) ram
          (front ++ [⟨n, true⟩, ⟨total (block :: more) - n, false⟩] ++ back) ∧
        Local m (linkBack (cutAt m ram (total front) n (total front + total (block :: more))) ram
          (ram + (total front + n)) (total front + n))
          (ram + total front) (ram + total front + total (block :: more))) ∧
      ∀ i, ram + total front + sizeofStructMem ≤ i → i < ram + total front + n →
        linkBack (cutAt m ram (total front) n (total front + total (block :: more))) ram
          (ram + (total front + n)) (total front + n) i = m i := by
  have chained' : Chained m ram (front ++ block :: (more ++ back)) := by simpa using chained
  obtain ⟨-, prevHere, usedHere, whole⟩ := chained'.header
  have whole' : total front + total (block :: more) + total back = 10240 := by
    rw [total_append, memSizeAligned] at whole
    rw [total_cons]
    omega
  have nextTwo : next (cutAt m ram (total front) n (total front + total (block :: more)))
      (ram + (total front + n)) = total front + total (block :: more) := by
    simp (disch := omega) only [cutAt, next_setNext_apart, next_setPrev, next_setNext]
  refine ⟨linkBack_chained chained aligned least room extent (fun a outside => ?_) ?_ ?_ ?_ nextTwo ?_ ?_,
    fun i above below => ?_⟩
  · rw [cutAt, setNext_outside (by omega), setPrev_outside (by omega), setNext_outside (by omega),
      setUsed_outside (by omega)]
  · simp (disch := omega) only [cutAt, next_setNext]
  · simp (disch := omega) only [cutAt, prev_setNext, prev_setPrev_apart, prev_setUsed]
    exact prevHere
  · simp (disch := omega) only [cutAt, used_setNext, used_setPrev, used_setUsed_apart]
    rw [usedHere, busy]
  · simp (disch := omega) only [cutAt, prev_setNext, prev_setPrev]
  · simp (disch := omega) only [cutAt, used_setNext, used_setPrev, used_setUsed]
  · rw [sizeofStructMem] at above
    rw [linkBack_below (by rw [nextTwo]; omega), cutAt, setNext_outside (by omega),
      setPrev_outside (by omega), setNext_outside (by omega), setUsed_outside (by omega)]

/-- The next block is free: it grows by what the block gives up. -/
theorem trimInto_spec (laid : Laid h (front ++ block :: other :: rest)) (busy : block.used = true)
    (free : other.used = false) (aligned : 4 ∣ size) (least : minSizeAligned ≤ size)
    (less : size + sizeofStructMem < block.size) :
    Edit h (trimInto h (h.ram + total front) (total front) size) (front ++ block :: other :: rest)
        (front ++ [⟨size + sizeofStructMem, true⟩,
          ⟨total [block, other] - (size + sizeofStructMem), false⟩] ++ rest)
        [(h.ram + total front, block)] [(h.ram + total front, ⟨size + sizeofStructMem, true⟩)] ∧
      ∀ i, h.ram + total front + sizeofStructMem ≤ i →
        i < h.ram + total front + (size + sizeofStructMem) →
        (trimInto h (h.ram + total front) (total front) size).mem i = h.mem i := by
  obtain ⟨nextHere, -, -, -⟩ := laid.chained.header
  have sizeHere := laid.chained.size
  have chained' : Chained h.mem h.ram (front ++ [block, other] ++ rest) := by simpa using laid.chained
  have chainedNext : Chained h.mem h.ram ((front ++ [block]) ++ other :: rest) := by
    simpa using laid.chained
  obtain ⟨nextTwo, -, -, wholeTwo⟩ := chainedNext.header
  have sizeOther := chainedNext.size
  have extent : total [block, other] = block.size + other.size := by simp
  simp only [total_append, total_cons, total_nil, Nat.add_zero, memSizeAligned] at nextTwo wholeTwo
  rw [minSizeAligned] at least
  rw [sizeofStructMem] at less ⊢
  have ptr2 : u16 (total front + 8 + size) = total front + (size + 8) := by
    rw [u16]
    omega
  have following : total front + block.size + other.size = total front + total [block, other] := by omega
  obtain ⟨⟨chained, loc⟩, kept⟩ := cutAt_chained (n := size + 8) chained' busy (by omega) (by omega)
    (by omega) (by omega)
  have trimmed : trimInto h (h.ram + total front) (total front) size =
      ⟨linkBack (cutAt h.mem h.ram (total front) (size + 8) (total front + total [block, other])) h.ram
        (h.ram + (total front + (size + 8))) (total front + (size + 8)), h.ram,
        if h.lfree = h.ram + (total front + block.size) then h.ram + (total front + (size + 8))
        else h.lfree⟩ := by
    rw [trimInto, sizeofStructMem, nextHere, nextTwo, ptr2, following]
    rfl
  rw [trimmed]
  refine ⟨⟨rfl, ⟨chained, ?_, ?_⟩, front, [block, other], _, rest, by simp, rfl, ?_, ?_, ?_, loc⟩, kept⟩
  · obtain ⟨apartFront, apartBack⟩ := (coalesced_used busy).mp laid.coalesced
    rw [List.append_assoc]
    refine (coalesced_used rfl).mpr ⟨apartFront, ?_⟩
    exact (@coalesced_free [] _ _ rfl).mpr ((@coalesced_free [] _ _ free).mp apartBack)
  · rw [laid.lowest, List.append_assoc]
    rcases firstFree_front laid.chained.positive h.ram with onward | ⟨a, below, same⟩
    · rw [onward, onward]
      simp [firstFree, busy, free, Nat.add_assoc]
    · rw [same, same, if_neg (by omega)]
  · simp only [total_cons, total_nil]
    omega
  · simp [inUse_cons, busy, free]
  · simp [inUse_cons]

/-- The next block is in use, and what the block gives up is enough for a block of its own. -/
theorem trimOff_spec (laid : Laid h (front ++ block :: back)) (busy : block.used = true)
    (usedBehind : ∀ next ∈ back.head?, next.used = true) (aligned : 4 ∣ size)
    (least : minSizeAligned ≤ size)
    (less : size + sizeofStructMem + minSizeAligned ≤ block.size - sizeofStructMem) :
    Edit h (trimOff h (h.ram + total front) (total front) size) (front ++ block :: back)
        (front ++ [⟨size + sizeofStructMem, true⟩,
          ⟨total [block] - (size + sizeofStructMem), false⟩] ++ back)
        [(h.ram + total front, block)] [(h.ram + total front, ⟨size + sizeofStructMem, true⟩)] ∧
      ∀ i, h.ram + total front + sizeofStructMem ≤ i →
        i < h.ram + total front + (size + sizeofStructMem) →
        (trimOff h (h.ram + total front) (total front) size).mem i = h.mem i := by
  obtain ⟨nextHere, -, -, whole⟩ := laid.chained.header
  have sizeHere := laid.chained.size
  have chained' : Chained h.mem h.ram (front ++ [block] ++ back) := by simpa using laid.chained
  have extent : total [block] = block.size := by simp
  rw [memSizeAligned] at whole
  rw [minSizeAligned] at least
  rw [sizeofStructMem, minSizeAligned] at less
  rw [sizeofStructMem]
  have ptr2 : u16 (total front + 8 + size) = total front + (size + 8) := by
    rw [u16]
    omega
  obtain ⟨⟨chained, loc⟩, kept⟩ := cutAt_chained (n := size + 8) chained' busy (by omega) (by omega)
    (by omega) (by omega)
  have trimmed : trimOff h (h.ram + total front) (total front) size =
      ⟨linkBack (cutAt h.mem h.ram (total front) (size + 8) (total front + total [block])) h.ram
        (h.ram + (total front + (size + 8))) (total front + (size + 8)), h.ram,
        if h.ram + (total front + (size + 8)) < h.lfree then h.ram + (total front + (size + 8))
        else h.lfree⟩ := by
    rw [trimOff, sizeofStructMem, ptr2]
    simp (disch := omega) only [next_setUsed, nextHere, extent, cutAt]
  rw [trimmed]
  refine ⟨⟨rfl, ⟨chained, ?_, ?_⟩, front, [block], _, back, by simp, rfl, ?_, ?_, ?_, loc⟩, kept⟩
  · obtain ⟨apartFront, apartBack⟩ := (coalesced_used busy).mp laid.coalesced
    rw [List.append_assoc]
    refine (coalesced_used rfl).mpr ⟨apartFront, ?_⟩
    exact (@coalesced_free [] _ _ rfl).mpr ⟨List.isChain_nil, apartBack, by simp, usedBehind⟩
  · rw [laid.lowest, List.append_assoc]
    rcases firstFree_front laid.chained.positive h.ram with onward | ⟨a, below, same⟩
    · have beyond := firstFree_le back (h.ram + total front + block.size)
      rw [onward, onward, firstFree, if_pos busy, if_pos (by omega)]
      simp [firstFree, Nat.add_assoc]
    · rw [same, same, if_neg (by omega)]
  · simp only [total_cons, total_nil]
    omega
  · simp [inUse_cons, busy]
  · simp [inUse_cons]

/-- **`mem_trim` on a heap laid out as blocks**: the block keeps its place and its first bytes; it is never
longer than before, and fails only when it would have to be. -/
theorem memTrim_spec {blocks : List Block} {mem : Nat} (laid : Laid h blocks)
    (member : (mem, block) ∈ inUse h.ram blocks) (newsize : Nat) :
    (block.size < dataSize newsize + sizeofStructMem ∧
      memTrim h (mem + sizeofStructMem) newsize = (h, 0)) ∨
    (∃ h' blocks' taken, memTrim h (mem + sizeofStructMem) newsize = (h', mem + sizeofStructMem) ∧
      Edit h h' blocks blocks' [(mem, block)] [(mem, ⟨taken, true⟩)] ∧
      dataSize newsize + sizeofStructMem ≤ taken ∧
      ∀ i, mem + sizeofStructMem ≤ i → i < mem + taken → h'.mem i = h.mem i) := by
  obtain ⟨placedHere, busy⟩ := mem_inUse.mp member
  obtain ⟨front, back, rfl, rfl⟩ := mem_placed_iff.mp placedHere
  obtain ⟨aligned, least⟩ := dataSize_spec newsize
  obtain ⟨nextHere, -, -, whole⟩ := laid.chained.header
  have sizeHere := laid.chained.size.1
  have inside : ¬ (h.ram + total front + sizeofStructMem < h.ram ∨
      h.ramEnd ≤ h.ram + total front + sizeofStructMem) := by
    rw [Heap.ramEnd, sizeofStructMem]
    omega
  have ptr : u16 (h.ram + total front - h.ram) = total front := by
    rw [memSizeAligned] at whole
    rw [u16]
    omega
  have length : u16 (sub32 (sub32 (total front + block.size) (total front)) sizeofStructMem) =
      block.size - sizeofStructMem := by
    rw [memSizeAligned] at whole
    rw [u16, sub32, sub32, sizeofStructMem]
    omega
  rw [memTrim, if_neg inside, Nat.add_sub_cancel]
  simp only [ptr, nextHere, length]
  by_cases huge : memSizeAligned < dataSize newsize
  · exact .inl ⟨by omega, if_pos huge⟩
  rw [if_neg huge]
  by_cases longer : block.size - sizeofStructMem < dataSize newsize
  · exact .inl ⟨by omega, if_pos longer⟩
  rw [if_neg longer]
  have unchanged : Edit h h (front ++ block :: back) (front ++ block :: back)
      [(h.ram + total front, block)] [(h.ram + total front, ⟨block.size, true⟩)] := by
    refine ⟨rfl, laid, front, [block], [block], back, by simp, by simp, rfl, ?_, ?_, Local.refl _ _ _⟩
    · simp [inUse_cons, busy]
    · rw [inUse_cons, if_pos busy, inUse_nil, show (⟨block.size, true⟩ : Block) = block by rw [← busy]]
  have enough : dataSize newsize + sizeofStructMem ≤ block.size := by
    rw [sizeofStructMem] at longer ⊢
    omega
  refine .inr ?_
  by_cases same : dataSize newsize = block.size - sizeofStructMem
  · rw [if_pos same]
    exact ⟨h, _, block.size, rfl, unchanged, enough, fun _ _ _ => rfl⟩
  rw [if_neg same]
  by_cases free : used h.mem (h.ram + (total front + block.size)) = 0
  · rw [if_pos free]
    cases back with
    | nil =>
      rw [total_nil, Nat.add_zero] at whole
      exact absurd (whole ▸ free) laid.chained.stopped
    | cons other rest =>
      have freeOther := (laid.chained.usedBehind).mp free
      obtain ⟨edit, kept⟩ := trimInto_spec laid busy freeOther aligned least (by omega)
      exact ⟨_, _, _, rfl, edit, le_refl _, kept⟩
  · rw [if_neg free]
    by_cases roomy : dataSize newsize + sizeofStructMem + minSizeAligned ≤ block.size - sizeofStructMem
    · rw [if_pos roomy]
      have usedBehind : ∀ next ∈ back.head?, next.used = true := by
        intro next first
        obtain ⟨rest, rfl⟩ := List.head?_eq_some_iff.mp first
        simpa using laid.chained.usedBehind.not.mp free
      obtain ⟨edit, kept⟩ := trimOff_spec laid busy usedBehind aligned least roomy
      exact ⟨_, _, _, rfl, edit, le_refl _, kept⟩
    · rw [if_neg roomy]
      exact ⟨h, _, block.size, rfl, unchanged, enough, fun _ _ _ => rfl⟩

end Trim

end ULoader.Mem

/-
**A linked list in the nodes of a pool.**

The nodes a program has taken from a pool are in memory (`mem p = some node`), the others are free; a list is a
pointer to its first node, and every node points to the next. Whoever follows a pointer into a free node reads
freed memory: what it finds there is undefined.

* `Listed mem head items` — from `head` on, the pointers run through the nodes with the contents `items`;
  `Listed.push`, `Listed.write`, `Listed.bypass`, `Listed.moveToFront` — what the usual edits of a list come to.
* `Linked mem head free items` — moreover these are all the nodes taken from the pool, and `free` are the others;
  `Linked.push`, `Linked.shift`, `Linked.unlink` — nodes that come from the pool or go back to it.
* `search` — the usual loop along the pointers, with the node in front of the one found; **`search_found`** and
  `search_missing` say what it returns, `search_freed` where it reads freed memory.
-/

import Mathlib.Data.Fintype.Card
import Mathlib.Data.List.Basic
import Mathlib.Logic.Function.Basic

namespace Links

variable {P V : Type*}

structure Node (P V : Type*) where
  next : Option P
  value : V

/-- The pointers run from `head` through the nodes `items` to `tail`. -/
def Segment (mem : P → Option (Node P V)) : Option P → List (P × V) → Option P → Prop
  | head, [], tail => head = tail
  | head, (p, value) :: rest, tail => head = some p ∧ ∃ next, mem p = some ⟨next, value⟩ ∧ Segment mem next rest tail

section Segment

variable {mem other : P → Option (Node P V)}

theorem segment_append {front back : List (P × V)} {head tail : Option P} :
    Segment mem head (front ++ back) tail ↔
      ∃ middle, Segment mem head front middle ∧ Segment mem middle back tail := by
  induction front generalizing head with
  | nil => simp [Segment]
  | cons item rest ih =>
    simp only [List.cons_append, Segment, ih]
    constructor
    · rintro ⟨here, next, node, middle, front, back⟩
      exact ⟨middle, ⟨here, next, node, front⟩, back⟩
    · rintro ⟨middle, ⟨here, next, node, front⟩, back⟩
      exact ⟨here, next, node, middle, front, back⟩

/-- A segment only depends on its own nodes. -/
theorem Segment.congr {items : List (P × V)} {head tail : Option P} (segment : Segment mem head items tail)
    (same : ∀ p ∈ items.map Prod.fst, other p = mem p) : Segment other head items tail := by
  induction items generalizing head with
  | nil => exact segment
  | cons item rest ih =>
    obtain ⟨here, next, node, later⟩ := segment
    rw [List.map_cons] at same
    refine ⟨here, next, ?_, ih later fun p member => same p (List.mem_cons_of_mem _ member)⟩
    rw [same _ List.mem_cons_self, node]

theorem Segment.update [DecidableEq P] {items : List (P × V)} {head tail : Option P}
    (segment : Segment mem head items tail) {p : P} (apart : p ∉ items.map Prod.fst)
    (node : Option (Node P V)) : Segment (Function.update mem p node) head items tail :=
  segment.congr fun _ member => Function.update_of_ne (ne_of_mem_of_not_mem member apart) _ _

/-- The nodes of a segment are in memory. -/
theorem Segment.taken {items : List (P × V)} {head tail : Option P} (segment : Segment mem head items tail)
    {p : P} (member : p ∈ items.map Prod.fst) : mem p ≠ none := by
  induction items generalizing head with
  | nil => cases member
  | cons item rest ih =>
    obtain ⟨_, next, node, later⟩ := segment
    rcases List.mem_cons.mp member with rfl | member
    · rw [node]
      exact Option.some_ne_none _
    · exact ih later member

end Segment

/-! ### Lists -/

section Listed

variable {mem : P → Option (Node P V)} {head : Option P} {front back items : List (P × V)} {p : P} {value : V}

/-- The list that starts at `head` has the nodes `items`, each once. -/
structure Listed (mem : P → Option (Node P V)) (head : Option P) (items : List (P × V)) : Prop where
  segment : Segment mem head items none
  distinct : (items.map Prod.fst).Nodup

theorem Listed.length_le [Fintype P] (listed : Listed mem head items) : items.length ≤ Fintype.card P := by
  rw [← List.length_map Prod.fst]
  exact listed.distinct.length_le_card

/-- A node of the list is in memory, and points to what follows it. -/
theorem Listed.node (listed : Listed mem head (front ++ (p, value) :: back)) :
    ∃ next, mem p = some ⟨next, value⟩ ∧ Segment mem next back none := by
  obtain ⟨_, _, _, next, node, later⟩ := segment_append.mp listed.segment
  exact ⟨next, node, later⟩

theorem Listed.node_of_mem (listed : Listed mem head items) {item : P × V} (member : item ∈ items) :
    ∃ next, mem item.1 = some ⟨next, item.2⟩ := by
  obtain ⟨front, back, rfl⟩ := List.append_of_mem member
  obtain ⟨next, node, _⟩ := listed.node
  exact ⟨next, node⟩

/-- A node of the list stands in it once. -/
theorem Listed.apart (listed : Listed mem head (front ++ (p, value) :: back)) :
    p ∉ front.map Prod.fst ∧ p ∉ back.map Prod.fst := by
  have distinct := listed.distinct
  rw [List.map_append, List.map_cons, List.nodup_middle, List.nodup_cons, List.mem_append, not_or] at distinct
  exact distinct.1

/-- A node behind others is not the first. -/
theorem Listed.not_head (listed : Listed mem head (front ++ (p, value) :: back)) (ahead : front ≠ []) :
    head ≠ some p := by
  cases front with
  | nil => exact absurd rfl ahead
  | cons item front =>
    intro same
    have first : head = some item.1 := listed.segment.1
    refine listed.apart.1 ?_
    rw [Option.some.inj (same.symm.trans first)]
    exact List.mem_cons_self

/-- Without its node `p` the list has the other nodes. -/
theorem Listed.without {q : P} {prior : V} (listed : Listed mem head (front ++ (q, prior) :: (p, value) :: back)) :
    p ∉ (front ++ (q, prior) :: back).map Prod.fst ∧
      (p :: (front ++ (q, prior) :: back).map Prod.fst).Perm
        ((front ++ (q, prior) :: (p, value) :: back).map Prod.fst) := by
  have same : (p :: (front ++ (q, prior) :: back).map Prod.fst).Perm
      ((front ++ (q, prior) :: (p, value) :: back).map Prod.fst) := by
    simp only [List.map_append, List.map_cons]
    rw [List.append_cons, List.append_cons _ q (p :: _)]
    exact List.perm_middle.symm
  exact ⟨(List.nodup_cons.mp (same.nodup_iff.mpr listed.distinct)).1, same⟩

/-- The list behind its first node. -/
theorem Listed.tail (listed : Listed mem head ((p, value) :: items)) {next : Option P}
    (node : mem p = some ⟨next, value⟩) : Listed mem next items := by
  obtain ⟨_, next', node', later⟩ := listed.segment
  cases node.symm.trans node'
  exact ⟨later, (List.nodup_cons.mp listed.distinct).2⟩

section Edits

variable [DecidableEq P]

/-- What happens to other nodes does not concern the list. -/
theorem Listed.update (listed : Listed mem head items) (fresh : p ∉ items.map Prod.fst)
    (node : Option (Node P V)) : Listed (Function.update mem p node) head items :=
  ⟨listed.segment.update fresh node, listed.distinct⟩

/-- A node goes to the front of the list. -/
theorem Listed.push (listed : Listed mem head items) (fresh : p ∉ items.map Prod.fst) (value : V) :
    Listed (Function.update mem p (some ⟨head, value⟩)) (some p) ((p, value) :: items) :=
  ⟨⟨rfl, head, Function.update_self .., listed.segment.update fresh _⟩,
    List.nodup_cons.mpr ⟨fresh, listed.distinct⟩⟩

/-- The contents of a node change. -/
theorem Listed.set (listed : Listed mem head (front ++ (p, value) :: back)) {next : Option P}
    (node : mem p = some ⟨next, value⟩) (changed : V) :
    Listed (Function.update mem p (some ⟨next, changed⟩)) head (front ++ (p, changed) :: back) := by
  obtain ⟨before, after⟩ := listed.apart
  obtain ⟨middle, segment, here, next', node', later⟩ := segment_append.mp listed.segment
  cases node.symm.trans node'
  refine ⟨segment_append.mpr
    ⟨middle, segment.update before _, here, next, Function.update_self .., later.update after _⟩, ?_⟩
  simpa using listed.distinct

/-- The contents of a node change, be it on the list or not. -/
theorem Listed.write (listed : Listed mem head items) {node : Node P V} (held : mem p = some node) (changed : V) :
    ∃ items', Listed (Function.update mem p (some ⟨node.next, changed⟩)) head items' ∧
      items'.map Prod.fst = items.map Prod.fst := by
  by_cases member : p ∈ items.map Prod.fst
  · obtain ⟨item, isItem, rfl⟩ := List.mem_map.mp member
    obtain ⟨front, back, rfl⟩ := List.append_of_mem isItem
    obtain ⟨next, isNode, _⟩ := listed.node
    cases held.symm.trans isNode
    exact ⟨front ++ (item.1, changed) :: back, listed.set held changed, by simp⟩
  · exact ⟨items, listed.update member _, rfl⟩

variable {q : P} {prior : V} {next : Option P}

/-- The node `q` in front of `p` points to what follows `p`: the list passes `p` by. -/
theorem Listed.bypass (listed : Listed mem head (front ++ (q, prior) :: (p, value) :: back))
    (node : mem p = some ⟨next, value⟩) :
    Listed (Function.update mem q (some ⟨next, prior⟩)) head (front ++ (q, prior) :: back) := by
  obtain ⟨before, after⟩ := listed.apart
  rw [List.map_cons, List.mem_cons, not_or] at after
  obtain ⟨middle, segment, here, _, _, _, next', node', later⟩ := segment_append.mp listed.segment
  cases node.symm.trans node'
  refine ⟨segment_append.mpr
    ⟨middle, segment.update before _, here, next, Function.update_self .., later.update after.2 _⟩, ?_⟩
  obtain ⟨_, same⟩ := listed.without
  exact (List.nodup_cons.mp (same.nodup_iff.mpr listed.distinct)).2

/-- A node behind the first goes to the front. -/
theorem Listed.moveToFront (listed : Listed mem head (front ++ (q, prior) :: (p, value) :: back))
    (node : mem p = some ⟨next, value⟩) :
    Listed (Function.update (Function.update mem q (some ⟨next, prior⟩)) p (some ⟨head, value⟩)) (some p)
      ((p, value) :: (front ++ (q, prior) :: back)) :=
  (listed.bypass node).push listed.without.1 value

end Edits

end Listed

/-! ### The whole pool -/

section Linked

variable {mem other : P → Option (Node P V)} {head start : Option P} {free : List P}
  {front back items rest : List (P × V)} {p : P} {value : V}

/-- The nodes in memory are those of the list that starts at `head`; `free` are the others. -/
structure Linked (mem : P → Option (Node P V)) (head : Option P) (free : List P) (items : List (P × V)) : Prop
    extends Listed mem head items where
  once : free.Nodup
  unused : ∀ p, p ∈ free ↔ mem p = none
  owned : ∀ p, mem p ≠ none → p ∈ items.map Prod.fst

/-- Free nodes and nodes of the list together are the pool. -/
theorem Linked.count [DecidableEq P] [Fintype P] (linked : Linked mem head free items) :
    free.length + items.length = Fintype.card P := by
  have apart : (free ++ items.map Prod.fst).Nodup := by
    refine List.nodup_append'.mpr ⟨linked.once, linked.distinct, fun p isFree member => ?_⟩
    exact linked.segment.taken member ((linked.unused p).mp isFree)
  have all : ∀ p : P, p ∈ free ++ items.map Prod.fst := by
    intro p
    rw [List.mem_append, linked.unused p]
    by_cases gone : mem p = none
    · exact .inl gone
    · exact .inr (linked.owned p gone)
  have card : (free ++ items.map Prod.fst).length = Fintype.card P := by
    rw [← List.toFinset_card_of_nodup apart, Finset.card_eq_iff_eq_univ]
    exact Finset.eq_univ_iff_forall.mpr fun p => List.mem_toFinset.mpr (all p)
  rw [← card, List.length_append, List.length_map]

/-- One node less. -/
theorem Linked.release (linked : Linked mem head free items) (listed : Listed other start rest)
    (same : (p :: rest.map Prod.fst).Perm (items.map Prod.fst))
    (taken : ∀ q, other q = none ↔ q = p ∨ mem q = none) : Linked other start (p :: free) rest := by
  have held : mem p ≠ none := linked.segment.taken (same.subset List.mem_cons_self)
  refine ⟨listed, ?_, fun q => ?_, fun q kept => ?_⟩
  · exact List.nodup_cons.mpr ⟨fun isFree => held ((linked.unused p).mp isFree), linked.once⟩
  · rw [List.mem_cons, linked.unused q, taken q]
  · rw [ne_eq, taken q, not_or] at kept
    exact (List.mem_cons.mp (same.mem_iff.mpr (linked.owned q kept.2))).resolve_left kept.1

section Edits

variable [DecidableEq P]

theorem update_none_iff (mem : P → Option (Node P V)) (p q : P) :
    Function.update mem p none q = none ↔ q = p ∨ mem q = none := by
  by_cases same : q = p
  · simp [same]
  · simp [same]

theorem update_some_iff {node changed : Node P V} (held : mem p = some node) (q : P) :
    Function.update mem p (some changed) q = none ↔ mem q = none := by
  by_cases same : q = p
  · simp [same, held]
  · rw [Function.update_of_ne same]

/-- A free node goes to the front of the list. -/
theorem Linked.push (linked : Linked mem head (p :: free) items) :
    Linked (Function.update mem p (some ⟨head, value⟩)) (some p) free ((p, value) :: items) := by
  have gone : mem p = none := (linked.unused p).mp List.mem_cons_self
  have fresh : p ∉ items.map Prod.fst := fun member => linked.segment.taken member gone
  obtain ⟨notFree, once⟩ := List.nodup_cons.mp linked.once
  refine ⟨linked.toListed.push fresh value, once, fun q => ?_, fun q taken => ?_⟩
  · by_cases same : q = p
    · simp [same, notFree]
    · rw [Function.update_of_ne same, ← linked.unused q, List.mem_cons]
      exact ⟨.inr, fun member => member.resolve_left same⟩
  · by_cases same : q = p
    · exact same ▸ List.mem_cons_self
    · rw [Function.update_of_ne same] at taken
      exact List.mem_cons_of_mem _ (linked.owned q taken)

/-- The first node leaves the list for the pool. -/
theorem Linked.shift (linked : Linked mem head free ((p, value) :: items)) {next : Option P}
    (node : mem p = some ⟨next, value⟩) : Linked (Function.update mem p none) next (p :: free) items := by
  have fresh : p ∉ items.map Prod.fst := (List.nodup_cons.mp linked.distinct).1
  exact linked.release ((linked.toListed.tail node).update fresh none) (List.Perm.refl _) (update_none_iff mem p)

/-- The contents of a node change. -/
theorem Linked.set (linked : Linked mem head free (front ++ (p, value) :: back)) {next : Option P}
    (node : mem p = some ⟨next, value⟩) (changed : V) :
    Linked (Function.update mem p (some ⟨next, changed⟩)) head free (front ++ (p, changed) :: back) := by
  refine ⟨linked.toListed.set node changed, linked.once, fun q => ?_, fun q held => ?_⟩
  · rw [linked.unused q, update_some_iff node]
  · have member := linked.owned q fun gone => held ((update_some_iff node q).mpr gone)
    simpa using member

/-- A node behind the first leaves the list for the pool. -/
theorem Linked.unlink {q : P} {prior : V} {next link : Option P}
    (linked : Linked mem head free (front ++ (q, prior) :: (p, value) :: back))
    (node : mem p = some ⟨next, value⟩) (ahead : mem q = some ⟨link, prior⟩) :
    Linked (Function.update (Function.update mem q (some ⟨next, prior⟩)) p none) head (p :: free)
      (front ++ (q, prior) :: back) := by
  obtain ⟨fresh, same⟩ := linked.without
  refine linked.release ((linked.toListed.bypass node).update fresh none) same fun x => ?_
  rw [update_none_iff, update_some_iff ahead]

end Edits

end Linked

/-! ### The contents of a list -/

/-- The nodes from `head` on, at most as many as the bound. -/
def contents (mem : P → Option (Node P V)) : Nat → Option P → List (P × V)
  | 0, _ => []
  | _ + 1, none => []
  | fuel + 1, some p =>
    match mem p with
    | none => []
    | some node => (p, node.value) :: contents mem fuel node.next

theorem Segment.contents {mem : P → Option (Node P V)} {items : List (P × V)} {head : Option P}
    (segment : Segment mem head items none) :
    ∀ {fuel : Nat}, items.length ≤ fuel → contents mem fuel head = items := by
  induction items generalizing head with
  | nil =>
    intro fuel _
    rw [show head = none from segment]
    cases fuel <;> rfl
  | cons item rest ih =>
    intro fuel enough
    obtain ⟨rfl, next, node, later⟩ := segment
    obtain ⟨fuel, rfl⟩ : ∃ more, fuel = more + 1 := ⟨fuel - 1, by simp at enough; omega⟩
    simp only [Links.contents, node]
    rw [ih later (by simpa using enough)]

/-! ### The search along the pointers -/

section Search

variable {mem : P → Option (Node P V)} {test : V → Bool}

/-- `for (p = head; p != NULL; p = p->next) { if (test) break; prev = p; }`. The bound on the nodes is for lists
that run in a circle. -/
def search (test : V → Bool) (mem : P → Option (Node P V)) :
    Nat → Option P → Option P → Option (Option P × Option (P × Node P V))
  | 0, _, _ => none
  | _ + 1, prev, none => some (prev, none)
  | fuel + 1, prev, some p => do
    let node ← mem p
    if test node.value then some (prev, some (p, node)) else search test mem fuel (some p) node.next

/-- The last node of a list, `prev` if it is empty. -/
def lastOf (prev : Option P) (items : List (P × V)) : Option P := items.foldl (fun _ item => some item.1) prev

@[simp] theorem lastOf_nil (prev : Option P) : lastOf prev ([] : List (P × V)) = prev := rfl

@[simp] theorem lastOf_concat (prev : Option P) (items : List (P × V)) (item : P × V) :
    lastOf prev (items ++ [item]) = some item.1 := by
  simp [lastOf]

/-- **The search stops at the first node that passes the test**, with the node in front of it. -/
theorem search_found {front back : List (P × V)} {head : Option P} {p : P} {value : V} {next : Option P}
    (segment : Segment mem head (front ++ (p, value) :: back) none)
    (before : ∀ item ∈ front, test item.2 = false) (passes : test value = true)
    (node : mem p = some ⟨next, value⟩) :
    ∀ {fuel : Nat} (prev : Option P), front.length < fuel →
      search test mem fuel prev head = some (lastOf prev front, some (p, ⟨next, value⟩)) := by
  induction front generalizing head with
  | nil =>
    intro fuel prev enough
    obtain ⟨rfl, _⟩ := segment
    obtain ⟨fuel, rfl⟩ := Nat.exists_eq_add_of_lt enough
    simp [search, node, passes]
  | cons item rest ih =>
    intro fuel prev enough
    obtain ⟨rfl, next', node', later⟩ := segment
    obtain ⟨fuel, rfl⟩ : ∃ more, fuel = more + 1 := ⟨fuel - 1, by omega⟩
    have fails := before item List.mem_cons_self
    simp only [search, node', Option.bind_eq_bind, Option.bind_some, fails, Bool.false_eq_true, if_false]
    exact ih later (fun item member => before item (List.mem_cons_of_mem _ member)) _
      (by simpa using enough)

/-- When no node passes the test, the search ends behind the last one. -/
theorem search_missing {items : List (P × V)} {head : Option P} (segment : Segment mem head items none)
    (fails : ∀ item ∈ items, test item.2 = false) :
    ∀ {fuel : Nat} (prev : Option P), items.length < fuel →
      search test mem fuel prev head = some (lastOf prev items, none) := by
  induction items generalizing head with
  | nil =>
    intro fuel prev enough
    obtain ⟨fuel, rfl⟩ := Nat.exists_eq_add_of_lt enough
    rw [show head = none from segment]
    simp [search]
  | cons item rest ih =>
    intro fuel prev enough
    obtain ⟨rfl, next, node, later⟩ := segment
    obtain ⟨fuel, rfl⟩ : ∃ more, fuel = more + 1 := ⟨fuel - 1, by omega⟩
    have here := fails item List.mem_cons_self
    simp only [search, node, Option.bind_eq_bind, Option.bind_some, here, Bool.false_eq_true, if_false]
    exact ih later (fun item member => fails item (List.mem_cons_of_mem _ member)) _ (by simpa using enough)

/-- A search that comes to a free node reads freed memory. -/
theorem search_freed {front : List (P × V)} {head : Option P} {p : P} (segment : Segment mem head front (some p))
    (fails : ∀ item ∈ front, test item.2 = false) (gone : mem p = none) :
    ∀ (fuel : Nat) (prev : Option P), search test mem fuel prev head = none := by
  induction front generalizing head with
  | nil =>
    intro fuel prev
    cases fuel with
    | zero => rfl
    | succ fuel =>
      rw [show head = some p from segment, search, gone]
      rfl
  | cons item rest ih =>
    intro fuel prev
    obtain ⟨rfl, next, node, later⟩ := segment
    cases fuel with
    | zero => rfl
    | succ fuel =>
      have here := fails item List.mem_cons_self
      simp only [search, node, Option.bind_eq_bind, Option.bind_some, here, Bool.false_eq_true, if_false]
      exact ih later (fun item member => fails item (List.mem_cons_of_mem _ member)) fuel _

end Search

end Links

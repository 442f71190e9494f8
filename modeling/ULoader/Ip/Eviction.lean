/-
**Giving up datagrams.**

* `Sound` — the five nodes are shared out between the queue and the pool, no two entries are of the same datagram,
  every entry holds fragments, and `ip_reass_pbufcount` counts their pbufs, at most ten.
* `dequeueDatagram_spec`, `freeCompleteDatagram_spec` — with the node in front of it an entry is unlinked, and its
  pbufs are free again.
* `Strands` — the entries behind the fragment's datagram do not make enough room, and two others are in front of it.
* **`remove_spec`** — otherwise the others are given up from the end of the queue, until there is room or none is left.
* **`remove_strands`** — where it strands a datagram, the loop reads freed memory, or leaves a queue that leads there.
-/

import ULoader.Ip.Reassembly
import Mathlib.Algebra.Order.BigOperators.Group.List
import Mathlib.Algebra.Order.Group.Nat
import Mathlib.Tactic.FinCases

namespace ULoader.Ip

open Links Pieces

/-! ### Sound queues -/

/-- What datagrams are told apart by. -/
def IpHdr.key (hdr : IpHdr) : UInt32 × UInt32 × UInt16 := (hdr.src, hdr.dest, hdr.id)

theorem addressesAndIdMatch_iff {first second : IpHdr} :
    addressesAndIdMatch first second = true ↔ first.key = second.key := by
  simp [addressesAndIdMatch, IpHdr.key, Prod.ext_iff, and_assoc]

/-- An entry holds fragments, all in pbufs, and is as old as the others: the timer does not run. -/
structure Datagram.Filled (ipr : Datagram) : Prop where
  nonempty : ipr.p ≠ []
  positive : ∀ q ∈ ipr.p, 0 < q.clen
  timer : ipr.timer = 3

/-- The pbufs of all entries. -/
def held (items : List (Entry × Datagram)) : Nat := (items.map (·.2.pbufs)).sum

@[simp] theorem held_nil : held [] = 0 := rfl

@[simp] theorem held_cons (item : Entry × Datagram) (rest : List (Entry × Datagram)) :
    held (item :: rest) = item.2.pbufs + held rest := by
  simp [held]

@[simp] theorem held_append (front back : List (Entry × Datagram)) :
    held (front ++ back) = held front + held back := by
  simp [held]

theorem Datagram.Filled.pbufs_pos {ipr : Datagram} (filled : ipr.Filled) : 0 < ipr.pbufs := by
  obtain ⟨q, member⟩ := List.exists_mem_of_ne_nil ipr.p filled.nonempty
  have one := filled.positive q member
  have sum : q.clen ≤ ipr.pbufs := List.le_sum_of_mem (List.mem_map_of_mem member)
  omega

/-- The state of `ip_reass` between two calls, with the entries of its queue. -/
structure Sound (s : Reass) (items : List (Entry × Datagram)) : Prop where
  linked : Linked s.mem s.reassdatagrams s.free items
  filled : ∀ item ∈ items, item.2.Filled
  keys : items.Pairwise fun one other => one.2.iphdr.key ≠ other.2.iphdr.key
  count : s.pbufcount = held items
  room : s.pbufcount ≤ 10

theorem Sound.init : Sound Reass.init [] where
  linked := by
    refine ⟨⟨rfl, List.nodup_nil⟩, by decide, fun p => ?_, fun p taken => absurd rfl taken⟩
    fin_cases p <;> decide
  filled := by simp
  keys := List.Pairwise.nil
  count := rfl
  room := by decide

/-! ### Unlinking an entry -/

section Unlink

variable {s : Reass} {front back : List (Entry × Datagram)} {ipr : Entry} {d : Datagram} {prev : Option Entry}

theorem mempFree_eq {node : Node Entry Datagram} (taken : s.mem ipr = some node) :
    mempFree s ipr = some { s with mem := Function.update s.mem ipr none, free := ipr :: s.free } := by
  rw [mempFree, taken]
  rfl

/-- **With the node in front of it, an entry leaves the queue.** At the front no such node is needed. -/
theorem dequeueDatagram_spec (linked : Linked s.mem s.reassdatagrams s.free (front ++ (ipr, d) :: back))
    (ahead : front ≠ [] → prev = lastOf none front) :
    ∃ s', dequeueDatagram s ipr prev = some s' ∧ Linked s'.mem s'.reassdatagrams s'.free (front ++ back) ∧
      s'.pbufcount = s.pbufcount := by
  obtain ⟨next, node, _⟩ := linked.node
  rcases List.eq_nil_or_concat' front with rfl | ⟨before, ⟨q, e⟩, rfl⟩
  · have isFirst : s.reassdatagrams = some ipr := linked.segment.1
    refine ⟨⟨_, _, _, s.pbufcount⟩, ?_, linked.shift node, rfl⟩
    simp only [dequeueDatagram, node, isFirst, Option.bind_eq_bind, Option.bind_some, if_true]
    exact mempFree_eq node
  · have notFirst := linked.not_head (by simp)
    rw [ahead (by simp), lastOf_concat]
    rw [List.append_assoc, List.singleton_append] at linked
    obtain ⟨link, inFront, _⟩ := linked.node
    have other : ipr ≠ q := by
      have apart := linked.apart.2
      rw [List.map_cons, List.mem_cons, not_or] at apart
      exact apart.1 ∘ Eq.symm
    have still : Function.update s.mem q (some ⟨next, e⟩) ipr = some ⟨next, d⟩ := by
      rw [Function.update_of_ne other, node]
    let bypassed : Reass := { s with mem := Function.update s.mem q (some ⟨next, e⟩) }
    refine ⟨⟨Function.update bypassed.mem ipr none, ipr :: s.free, s.reassdatagrams, s.pbufcount⟩, ?_, ?_, rfl⟩
    · simp only [dequeueDatagram, node, inFront, notFirst, Option.bind_eq_bind, Option.bind_some, if_false]
      exact mempFree_eq (s := bypassed) still
    · rw [List.append_assoc, List.singleton_append]
      exact linked.unlink node inFront

theorem sub16_of_le {a b : Nat} (within : b ≤ a) (small : a < 0x10000) : sub16 a b = a - b := by
  unfold sub16
  omega

/-- An entry is given up: its pbufs are free again. -/
theorem freeCompleteDatagram_spec (sound : Sound s (front ++ (ipr, d) :: back))
    (ahead : front ≠ [] → prev = lastOf none front) :
    ∃ s' exceeded, freeCompleteDatagram s ipr prev = some (s', d.pbufs, exceeded) ∧ Sound s' (front ++ back) := by
  obtain ⟨next, node, _⟩ := sound.linked.node
  obtain ⟨s', dequeued, linked, same⟩ := dequeueDatagram_spec sound.linked ahead
  have filled : d.Filled := sound.filled (ipr, d) (by simp)
  obtain ⟨first, rest, list⟩ := List.exists_cons_of_ne_nil filled.nonempty
  have count := sound.count
  have room := sound.room
  simp only [held_append, held_cons] at count
  have freed : d.pbufs % 0x10000 = d.pbufs := by omega
  have left : sub16 s'.pbufcount d.pbufs = s.pbufcount - d.pbufs := by
    rw [same]
    exact sub16_of_le (by omega) (by omega)
  have sub : (front ++ back).Sublist (front ++ (ipr, d) :: back) :=
    (List.sublist_cons_self _ _).append_left front
  refine ⟨{ s' with pbufcount := s.pbufcount - d.pbufs },
    if first.start = 0 then [⟨d.iphdr, first.piece.data⟩] else [], ?_, ?_⟩
  · simp only [freeCompleteDatagram, node, list, Option.bind_eq_bind, Option.bind_some, List.head?_cons, dequeued,
      freed, left]
  · refine ⟨linked, fun item member => sound.filled item (sub.subset member), sound.keys.sublist sub, ?_, ?_⟩
    · simp only [held_append]
      omega
    · show s.pbufcount - d.pbufs ≤ 10
      omega

end Unlink

/-! ### The oldest datagram -/

section Oldest

variable {mem : Entry → Option (Node Entry Datagram)} {items : List (Entry × Datagram)} {hdr : IpHdr}

/-- An entry of another datagram than the fragment's. -/
abbrev Other (hdr : IpHdr) (item : Entry × Datagram) : Prop := item.2.iphdr.key ≠ hdr.key

/-- The oldest of the others, after one entry more. -/
def pick (hdr : IpHdr) (oldest : Option (Entry × Datagram)) (item : Entry × Datagram) :
    Option (Entry × Datagram) :=
  if addressesAndIdMatch item.2.iphdr hdr then oldest else older oldest item

/-- What the loop over the queue finds. -/
theorem findOldest_eq : ∀ {items : List (Entry × Datagram)} {head : Option Entry}, Segment mem head items none →
    ∀ {fuel : Nat}, items.length < fuel → ∀ found : Found, findOldest mem hdr fuel head found =
      some ⟨items.foldl (pick hdr) found.oldest, lastOf found.prev items.dropLast,
        found.others + items.countP (Other hdr ·)⟩ := by
  intro items
  induction items with
  | nil =>
    intro head segment fuel enough found
    obtain ⟨fuel, rfl⟩ := Nat.exists_eq_add_of_lt enough
    rw [show head = none from segment]
    simp [findOldest]
  | cons item rest ih =>
    intro head segment fuel enough found
    obtain ⟨rfl, next, node, later⟩ := segment
    obtain ⟨fuel, rfl⟩ : ∃ more, fuel = more + 1 := ⟨fuel - 1, by omega⟩
    have behind := ih later (Nat.lt_of_succ_lt_succ enough)
    have isLast : next.isSome = !rest.isEmpty := by
      cases rest with
      | nil => rw [show next = none from later]; rfl
      | cons other rest => rw [show next = some other.1 from later.1]; rfl
    have prevs : lastOf found.prev (item :: rest).dropLast =
        lastOf (if rest.isEmpty then found.prev else some item.1) rest.dropLast := by
      cases rest <;> rfl
    rw [prevs]
    by_cases own : addressesAndIdMatch item.2.iphdr hdr = true
    · have notOther : ¬ Other hdr item := not_not_intro (addressesAndIdMatch_iff.mp own)
      simp only [findOldest, node, Option.bind_eq_bind, Option.bind_some, behind, isLast, own, if_true,
        List.foldl_cons, pick, List.countP_cons, notOther, decide_false]
      cases rest <;> rfl
    · have isOther : Other hdr item := fun same => own (addressesAndIdMatch_iff.mpr same)
      have counted : (item :: rest).countP (Other hdr ·) = 1 + rest.countP (Other hdr ·) := by
        rw [List.countP_cons, if_pos (decide_eq_true isOther), Nat.add_comm]
      simp only [findOldest, node, Option.bind_eq_bind, Option.bind_some, behind, isLast, own,
        List.foldl_cons, pick, counted, ← Nat.add_assoc]
      cases rest <;> rfl

theorem pick_timer (timers : ∀ item ∈ items, item.2.timer = 3) :
    ∀ {oldest : Option (Entry × Datagram)}, (∀ item ∈ oldest, item.2.timer = 3) →
      ∀ item ∈ items.foldl (pick hdr) oldest, item.2.timer = 3 := by
  induction items with
  | nil => exact fun start => start
  | cons item rest ih =>
    intro oldest start
    obtain ⟨here, later⟩ := List.forall_mem_cons.mp timers
    refine ih later fun found member => ?_
    rw [pick] at member
    split at member
    · exact start found member
    · cases oldest with
      | none => cases member; exact here
      | some oldest =>
        rw [older] at member
        split at member <;> cases member
        · exact here
        · exact start _ rfl

/-- Among entries of the same age the last of the others is the oldest. -/
theorem pick_last {item : Entry × Datagram} (timers : ∀ other ∈ items ++ [item], other.2.timer = 3)
    (isOther : Other hdr item) : (items ++ [item]).foldl (pick hdr) none = some item := by
  have before := @pick_timer items hdr (fun other member => timers other (List.mem_append_left _ member)) none
    (by simp)
  have here := timers item (by simp)
  have notOwn : ¬ addressesAndIdMatch item.2.iphdr hdr = true := fun own =>
    isOther (addressesAndIdMatch_iff.mp own)
  rw [List.foldl_append, List.foldl_cons, List.foldl_nil, pick, if_neg notOwn]
  cases found : items.foldl (pick hdr) none with
  | none => rfl
  | some oldest =>
    have age := before oldest found
    rw [older, if_pos (by omega)]

theorem pick_own (own : ∀ item ∈ items, item.2.iphdr.key = hdr.key) :
    items.foldl (pick hdr) none = none ∧ items.countP (Other hdr ·) = 0 := by
  constructor
  · induction items with
    | nil => rfl
    | cons item rest ih =>
      obtain ⟨here, later⟩ := List.forall_mem_cons.mp own
      rw [List.foldl_cons, pick, if_pos (addressesAndIdMatch_iff.mpr here)]
      exact ih later
  · rw [List.countP_eq_zero]
    intro item member
    simp [Other, own item member]

/-- The loop over a queue that leads to a free node ends there. -/
theorem findOldest_freed {r : Entry} (gone : mem r = none) : ∀ {front : List (Entry × Datagram)}
    {head : Option Entry}, Segment mem head front (some r) → ∀ (fuel : Nat) (found : Found),
      findOldest mem hdr fuel head found = none := by
  intro front
  induction front with
  | nil =>
    intro head segment fuel found
    cases fuel with
    | zero => rfl
    | succ fuel =>
      rw [show head = some r from segment, findOldest, gone]
      rfl
  | cons item rest ih =>
    intro head segment fuel found
    obtain ⟨rfl, next, node, later⟩ := segment
    cases fuel with
    | zero => rfl
    | succ fuel =>
      simp only [findOldest, node, Option.bind_eq_bind, Option.bind_some]
      exact ih later fuel _

end Oldest

/-! ### Giving up datagrams -/

section Remove

variable {s : Reass} {items init : List (Entry × Datagram)} {hdr : IpHdr} {needed freed fuel : Nat}
  {exceeded : List Whole}

/-- The others are given up from the end of the queue; where the datagram of the fragment itself comes last then, and
two others are in front of it, the one in front of it is freed and stays in the list. -/
def Strands (items : List (Entry × Datagram)) (hdr : IpHdr) (needed : Nat) : Prop :=
  ∃ front own back, items = front ++ own :: back ∧ own.2.iphdr.key = hdr.key ∧ 2 ≤ front.length ∧ held back < needed

theorem Sound.length_lt (sound : Sound s items) : items.length < 6 :=
  Nat.lt_succ_of_le (sound.linked.length_le)

theorem Sound.found (sound : Sound s items) : findOldest s.mem hdr 6 s.reassdatagrams ⟨none, none, 0⟩ =
    some ⟨items.foldl (pick hdr) none, lastOf none items.dropLast, items.countP (Other hdr ·)⟩ := by
  rw [findOldest_eq sound.linked.segment sound.length_lt, Nat.zero_add]

/-- Nothing to give up. -/
theorem remove_own (sound : Sound s items) (own : ∀ item ∈ items, item.2.iphdr.key = hdr.key) :
    removeOldestDatagram hdr needed (fuel + 1) s freed exceeded = some (s, freed, exceeded) := by
  obtain ⟨oldest, others⟩ := pick_own own
  rw [removeOldestDatagram, sound.found, oldest, others]
  simp

/-- One pass of the loop gives up the entry it found. -/
theorem remove_pass {front back : List (Entry × Datagram)} {ipr : Entry} {d : Datagram} (sound : Sound s items)
    (cut : items = front ++ (ipr, d) :: back) (oldest : items.foldl (pick hdr) none = some (ipr, d))
    (ahead : front ≠ [] → lastOf none items.dropLast = lastOf none front) :
    ∃ s' more, Sound s' (front ++ back) ∧
      removeOldestDatagram hdr needed (fuel + 1) s freed exceeded =
        if freed + d.pbufs < needed ∧ 1 < items.countP (Other hdr ·) then
          removeOldestDatagram hdr needed fuel s' (freed + d.pbufs) (exceeded ++ more)
        else some (s', freed + d.pbufs, exceeded ++ more) := by
  obtain ⟨s', more, done, sound'⟩ := freeCompleteDatagram_spec (cut ▸ sound) ahead
  refine ⟨s', more, sound', ?_⟩
  rw [removeOldestDatagram, sound.found, oldest]
  simp only [Option.bind_eq_bind, Option.bind_some, done]

/-- How a queue ends. -/
theorem Sound.ending (sound : Sound s items) (hdr : IpHdr) :
    (∀ item ∈ items, item.2.iphdr.key = hdr.key) ∨ (∃ init last, items = init ++ [last] ∧ Other hdr last) ∨
      ∃ init other own, items = init ++ [other, own] ∧ own.2.iphdr.key = hdr.key ∧
        ∀ item ∈ init ++ [other], Other hdr item := by
  rcases List.eq_nil_or_concat' items with rfl | ⟨front, last, rfl⟩
  · exact .inl (by simp)
  · by_cases own : last.2.iphdr.key = hdr.key
    · have others : ∀ item ∈ front, Other hdr item := fun item member => by
        have differs := (List.pairwise_append.mp sound.keys).2.2 item member last List.mem_cons_self
        rwa [own] at differs
      rcases List.eq_nil_or_concat' front with rfl | ⟨init, other, rfl⟩
      · exact .inl (by simpa using own)
      · exact .inr (.inr ⟨init, other, last, by simp, own, others⟩)
    · exact .inr (.inl ⟨front, last, rfl, own⟩)

theorem strands_concat {last : Entry × Datagram} (isOther : Other hdr last) :
    Strands (init ++ [last]) hdr needed ↔ Strands init hdr (needed - last.2.pbufs) := by
  constructor
  · rintro ⟨front, own, back, cut, same, two, less⟩
    rcases List.eq_nil_or_concat' back with rfl | ⟨before, last', rfl⟩
    · obtain ⟨_, isLast⟩ := List.append_inj' cut rfl
      cases isLast
      exact absurd same isOther
    · rw [← List.cons_append, ← List.append_assoc] at cut
      obtain ⟨rfl, isLast⟩ := List.append_inj' cut rfl
      cases isLast
      refine ⟨front, own, before, rfl, same, two, ?_⟩
      simp only [held_append, held_cons, held_nil] at less
      omega
  · rintro ⟨front, own, back, rfl, same, two, less⟩
    refine ⟨front, own, back ++ [last], by simp, same, two, ?_⟩
    simp only [held_append, held_cons, held_nil]
    omega

theorem strands_own {other own : Entry × Datagram} (same : own.2.iphdr.key = hdr.key)
    (others : ∀ item ∈ init ++ [other], Other hdr item) :
    Strands (init ++ [other, own]) hdr needed ↔ init ≠ [] ∧ 0 < needed := by
  constructor
  · rintro ⟨front, own', back, cut, same', two, less⟩
    have ends : back = [] := by
      by_contra more
      obtain ⟨before, last, rfl⟩ := (List.eq_nil_or_concat' back).resolve_left more
      rw [List.append_cons init other [own], ← List.cons_append, ← List.append_assoc] at cut
      obtain ⟨front', _⟩ := List.append_inj' cut rfl
      exact others own' (by rw [front']; simp) same'
    subst ends
    rw [List.append_cons init other [own]] at cut
    obtain ⟨rfl, _⟩ := List.append_inj' cut rfl
    refine ⟨?_, by simpa using less⟩
    rintro rfl
    simp at two
  · rintro ⟨nonempty, positive⟩
    have := List.length_pos_iff.mpr nonempty
    exact ⟨init ++ [other], own, [], by simp, same, by simp; omega, by simpa using positive⟩

/-- Two others in front of the datagram are more than one. -/
theorem Strands.others (sound : Sound s items) (strands : Strands items hdr needed) :
    1 < items.countP (Other hdr ·) := by
  obtain ⟨front, own, back, rfl, same, two, _⟩ := strands
  have all : front.countP (Other hdr ·) = front.length := by
    rw [List.countP_eq_length]
    intro item member
    have differs := (List.pairwise_append.mp sound.keys).2.2 item member own List.mem_cons_self
    rw [same] at differs
    exact decide_eq_true differs
  rw [List.countP_append, all]
  omega

/-- Where the datagram of the fragment comes last, the oldest of the others is the one in front of it. -/
theorem Sound.pick_before {other own : Entry × Datagram} (sound : Sound s (init ++ [other, own]))
    (isOther : Other hdr other) (same : own.2.iphdr.key = hdr.key) :
    (init ++ [other, own]).foldl (pick hdr) none = some other := by
  rw [List.append_cons] at sound ⊢
  have timers := fun item member => (sound.filled item (List.mem_append_left _ member)).timer
  rw [List.foldl_append, pick_last timers isOther, List.foldl_cons, List.foldl_nil, pick,
    if_pos (addressesAndIdMatch_iff.mpr same)]

/-- What `ip_reass_remove_oldest_datagram` leaves of a sound queue. -/
structure Relieved (items left : List (Entry × Datagram)) (hdr : IpHdr) (needed before after : Nat) : Prop where
  part : left.Sublist items
  own : ∀ item ∈ items, item.2.iphdr.key = hdr.key → item ∈ left
  freed : held left + after = held items + before
  enough : needed ≤ after ∨ ∀ item ∈ left, item.2.iphdr.key = hdr.key

/-- **The datagrams given up are unlinked**, where none is stranded. -/
theorem remove_spec : ∀ {fuel : Nat} {items : List (Entry × Datagram)} {s : Reass} {freed : Nat}
    {exceeded : List Whole}, Sound s items → items.length < fuel → freed < needed →
    ¬ Strands items hdr (needed - freed) → ∃ s' freed' exceeded' left,
      removeOldestDatagram hdr needed fuel s freed exceeded = some (s', freed', exceeded') ∧ Sound s' left ∧
      Relieved items left hdr needed freed freed' := by
  intro fuel
  induction fuel with
  | zero => exact fun _ few => absurd few (Nat.not_lt_zero _)
  | succ fuel ih =>
    intro items s freed exceeded sound few short clear
    rcases sound.ending hdr with own | ⟨init, ⟨ipr, d⟩, rfl, isOther⟩ | ⟨init, ⟨ipr, d⟩, own, rfl, same, others⟩
    · exact ⟨s, freed, exceeded, items, remove_own sound own, sound, List.Sublist.refl _, fun _ member _ => member,
        rfl, .inr own⟩
    · -- the last entry is another datagram's
      have timers := fun item member => (sound.filled item member).timer
      obtain ⟨s', more, sound', pass⟩ := @remove_pass s _ hdr needed freed fuel exceeded init [] ipr d sound rfl
        (pick_last timers isOther) (fun _ => by rw [List.dropLast_concat])
      rw [List.append_nil] at sound'
      rw [pass]
      have kept : ∀ item ∈ init ++ [(ipr, d)], item.2.iphdr.key = hdr.key → item ∈ init := by
        intro item member own
        rcases List.mem_append.mp member with member | member
        · exact member
        · rw [List.mem_singleton.mp member] at own
          exact absurd own isOther
      have total : held (init ++ [(ipr, d)]) = held init + d.pbufs := by simp
      split
      case isTrue again =>
        have clear' : ¬ Strands init hdr (needed - (freed + d.pbufs)) := by
          rw [strands_concat isOther, Nat.sub_sub] at clear
          exact clear
        obtain ⟨s'', freed', exceeded', left, done, sound'', part, own, same, enough⟩ :=
          @ih init s' (freed + d.pbufs) (exceeded ++ more) sound' (by simp at few; omega) again.1 clear'
        refine ⟨s'', freed', exceeded', left, done, sound'', part.trans (List.sublist_append_left _ _),
          fun item member same => own item (kept item member same) same, ?_, enough⟩
        omega
      case isFalse stops =>
        refine ⟨s', _, _, init, rfl, sound', List.sublist_append_left _ _, kept, by omega, ?_⟩
        by_cases reached : needed ≤ freed + d.pbufs
        · exact .inl reached
        · -- it was the only other one
          refine .inr fun item member => ?_
          by_contra isOther'
          refine stops ⟨by omega, ?_⟩
          rw [List.countP_append, List.countP_cons, if_pos (decide_eq_true isOther), List.countP_nil]
          have one : 0 < init.countP (Other hdr ·) :=
            List.countP_pos_iff.mpr ⟨item, member, decide_eq_true isOther'⟩
          omega
    · -- the last entry is the datagram's own: the one in front of it is the first of the queue
      have isOther := others (ipr, d) (by simp)
      have first : init = [] := by
        by_contra more
        exact clear ((strands_own same others).mpr ⟨more, by omega⟩)
      subst first
      obtain ⟨s', more, sound', pass⟩ := @remove_pass s _ hdr needed freed fuel exceeded [] [own] ipr d sound rfl
        (sound.pick_before isOther same) (by simp)
      have one : ([] ++ [(ipr, d), own]).countP (Other hdr ·) = 1 := by
        simp [same, isOther]
      rw [one, if_neg (by omega)] at pass
      refine ⟨s', _, _, _, pass, sound', List.sublist_cons_self _ _, ?_, by simp; omega, .inr (by simpa using same)⟩
      intro item member own'
      simp only [List.nil_append, List.mem_cons] at member
      rcases member with rfl | member
      · exact absurd own' isOther
      · simpa using member

/-- The queue leads past other datagrams to a node of the pool. -/
def Dangling (s : Reass) (hdr : IpHdr) : Prop :=
  ∃ front ipr, Segment s.mem s.reassdatagrams front (some ipr) ∧ s.mem ipr = none ∧ ∀ item ∈ front, Other hdr item

/-- With itself as the node in front of it, an entry goes back to the pool and stays in the queue. -/
theorem free_dangling {ipr : Entry} {d : Datagram} {back : List (Entry × Datagram)}
    (sound : Sound s (init ++ (ipr, d) :: back)) (notFirst : init ≠ []) (others : ∀ item ∈ init, Other hdr item) :
    ∃ s' more, freeCompleteDatagram s ipr (some ipr) = some (s', d.pbufs, more) ∧ Dangling s' hdr ∧
      s'.pbufcount + d.pbufs = s.pbufcount := by
  obtain ⟨next, node, _⟩ := sound.linked.node
  have filled : d.Filled := sound.filled (ipr, d) (by simp)
  obtain ⟨first, rest, list⟩ := List.exists_cons_of_ne_nil filled.nonempty
  have count := sound.count
  have room := sound.room
  simp only [held_append, held_cons] at count
  have freed : d.pbufs % 0x10000 = d.pbufs := by omega
  have left : sub16 s.pbufcount d.pbufs = s.pbufcount - d.pbufs := sub16_of_le (by omega) (by omega)
  let again : Reass := { s with mem := Function.update s.mem ipr (some ⟨next, d⟩) }
  have still : again.mem ipr = some ⟨next, d⟩ := Function.update_self ..
  have dequeued : dequeueDatagram s ipr (some ipr) =
      some { again with mem := Function.update again.mem ipr none, free := ipr :: s.free } := by
    simp only [dequeueDatagram, node, sound.linked.not_head notFirst, Option.bind_eq_bind, Option.bind_some,
      if_false]
    exact mempFree_eq still
  refine ⟨⟨Function.update again.mem ipr none, ipr :: s.free, s.reassdatagrams, s.pbufcount - d.pbufs⟩,
    if first.start = 0 then [⟨d.iphdr, first.piece.data⟩] else [], ?_, ?_, ?_⟩
  · simp only [freeCompleteDatagram, node, list, Option.bind_eq_bind, Option.bind_some, List.head?_cons, dequeued,
      freed, left, again]
  · obtain ⟨_, before, rfl, _⟩ := segment_append.mp sound.linked.segment
    have apart := sound.linked.apart.1
    exact ⟨init, ipr, (before.update apart _).update apart _, Function.update_self .., others⟩
  · show s.pbufcount - d.pbufs + d.pbufs = s.pbufcount
    omega

theorem remove_dangling (dangling : Dangling s hdr) :
    removeOldestDatagram hdr needed fuel s freed exceeded = none := by
  obtain ⟨front, ipr, segment, gone, _⟩ := dangling
  cases fuel with
  | zero => rfl
  | succ fuel =>
    rw [removeOldestDatagram, findOldest_freed gone segment]
    rfl

/-- **A stranded datagram**: the loop reads freed memory, or leaves a queue that leads there. -/
theorem remove_strands : ∀ {fuel : Nat} {items : List (Entry × Datagram)} {s : Reass} {freed : Nat}
    {exceeded : List Whole}, Sound s items → items.length < fuel → freed < needed →
    Strands items hdr (needed - freed) →
      removeOldestDatagram hdr needed fuel s freed exceeded = none ∨
      ∃ s' freed' exceeded', removeOldestDatagram hdr needed fuel s freed exceeded = some (s', freed', exceeded') ∧
        Dangling s' hdr ∧ needed ≤ freed' ∧ s'.pbufcount + freed' = held items + freed := by
  intro fuel
  induction fuel with
  | zero => exact fun _ few => absurd few (Nat.not_lt_zero _)
  | succ fuel ih =>
    intro items s freed exceeded sound few short strands
    have several := strands.others sound
    rcases sound.ending hdr with own | ⟨init, ⟨ipr, d⟩, rfl, isOther⟩ | ⟨init, ⟨ipr, d⟩, own, rfl, same, others⟩
    · rw [(pick_own own).2] at several
      omega
    · have timers := fun item member => (sound.filled item member).timer
      obtain ⟨s', more, sound', pass⟩ := @remove_pass s _ hdr needed freed fuel exceeded init [] ipr d sound rfl
        (pick_last timers isOther) (fun _ => by rw [List.dropLast_concat])
      rw [List.append_nil] at sound'
      have strands' : Strands init hdr (needed - (freed + d.pbufs)) := by
        rw [strands_concat isOther, Nat.sub_sub] at strands
        exact strands
      have again : freed + d.pbufs < needed := by
        obtain ⟨_, _, _, _, _, _, less⟩ := strands'
        omega
      rw [pass, if_pos ⟨again, several⟩]
      have total : held (init ++ [(ipr, d)]) + freed = held init + (freed + d.pbufs) := by
        simp
        omega
      rw [total]
      exact ih sound' (by simp at few; omega) again strands'
    · have isOther := others (ipr, d) (by simp)
      obtain ⟨notFirst, _⟩ := (strands_own same others).mp strands
      obtain ⟨s', more, done, dangling, count⟩ := free_dangling sound notFirst fun item member =>
        others item (List.mem_append_left _ member)
      have prev : lastOf none (init ++ [(ipr, d), own]).dropLast = some ipr := by
        rw [List.append_cons, List.dropLast_concat, lastOf_concat]
      rw [removeOldestDatagram, sound.found, sound.pick_before isOther same, prev]
      simp only [Option.bind_eq_bind, Option.bind_some, done]
      split
      · exact .inl (remove_dangling dangling)
      · refine .inr ⟨s', _, _, rfl, dangling, by omega, ?_⟩
        have total := sound.count
        omega

end Remove

end ULoader.Ip

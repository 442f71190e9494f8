/-
**One call of `ip_reass`, on a sound queue.**

* `base` — the entry a fragment is chained into: its datagram's, or a new one.
* `makeRoom_spec`, `enqueueNewDatagram_spec` — room and a node are found for every fragment whose own datagram leaves
  room for it.
* **`ipReass_taken`** — the fragment is chained into its datagram; a complete datagram leaves the queue and is handed
  up. `ipReass_refused` — the others leave no trace but what was given up for them.
* **`ipReass_overflows`** — a call that strands a datagram reads freed memory.
-/

import ULoader.Ip.Eviction

namespace ULoader.Ip

open Links Pieces

/-! ### The datagram of a fragment -/

section Own

variable {s : Reass} {items left : List (Entry × Datagram)} {hdr : IpHdr} {item : Entry × Datagram}

/-- The entry a fragment is chained into, with what its header adds; a new one if there is none. -/
def base (items : List (Entry × Datagram)) (hdr : IpHdr) : Datagram :=
  match items.find? fun item => addressesAndIdMatch item.2.iphdr hdr with
  | some item => item.2.noteHeader hdr
  | none => Datagram.new hdr

theorem base_own (keys : items.Pairwise fun one other => one.2.iphdr.key ≠ other.2.iphdr.key)
    (member : item ∈ items) (own : item.2.iphdr.key = hdr.key) : base items hdr = item.2.noteHeader hdr := by
  have found : items.find? (fun item => addressesAndIdMatch item.2.iphdr hdr) = some item := by
    induction items with
    | nil => cases member
    | cons first rest ih =>
      obtain ⟨differs, keys⟩ := List.pairwise_cons.mp keys
      rcases List.mem_cons.mp member with rfl | member
      · rw [List.find?_cons, addressesAndIdMatch_iff.mpr own]
      · have notOwn : addressesAndIdMatch first.2.iphdr hdr = false := by
          rw [← Bool.not_eq_true, addressesAndIdMatch_iff, ← own]
          exact differs item member
        rw [List.find?_cons, notOwn]
        exact ih keys member
  rw [base, found]

theorem base_new (others : ∀ item ∈ items, Other hdr item) : base items hdr = Datagram.new hdr := by
  have missing : items.find? (fun item => addressesAndIdMatch item.2.iphdr hdr) = none := by
    rw [List.find?_eq_none]
    intro item member own
    exact others item member (addressesAndIdMatch_iff.mp own)
  rw [base, missing]

theorem noteHeader_eq (d : Datagram) (hdr : IpHdr) : (d.noteHeader hdr).p = d.p ∧
    (d.noteHeader hdr).timer = d.timer ∧ (d.iphdr.key = hdr.key → (d.noteHeader hdr).iphdr.key = hdr.key) := by
  rw [Datagram.noteHeader]
  split
  · exact ⟨rfl, rfl, fun _ => rfl⟩
  · exact ⟨rfl, rfl, id⟩

theorem noteHeader_pbufs (d : Datagram) (hdr : IpHdr) : (d.noteHeader hdr).pbufs = d.pbufs := by
  rw [Datagram.pbufs, (noteHeader_eq d hdr).1, Datagram.pbufs]

/-- Either the datagram has an entry, or all entries are other datagrams'. -/
theorem own_or_others (items : List (Entry × Datagram)) (hdr : IpHdr) :
    (∃ item ∈ items, item.2.iphdr.key = hdr.key) ∨ ∀ item ∈ items, Other hdr item := by
  by_cases exists_own : ∃ item ∈ items, item.2.iphdr.key = hdr.key
  · exact .inl exists_own
  · exact .inr fun item member own => exists_own ⟨item, member, own⟩

/-- Giving up others does not change the datagram of the fragment. -/
theorem base_relieved (sound : Sound s items) (part : left.Sublist items)
    (kept : ∀ item ∈ items, item.2.iphdr.key = hdr.key → item ∈ left) : base left hdr = base items hdr := by
  rcases own_or_others items hdr with ⟨item, member, own⟩ | others
  · rw [base_own sound.keys member own, base_own (sound.keys.sublist part) (kept item member own) own]
  · rw [base_new others, base_new fun item member => others item (part.subset member)]

theorem base_pbufs_le (sound : Sound s items) : (base items hdr).pbufs ≤ held items := by
  rcases own_or_others items hdr with ⟨item, member, own⟩ | others
  · rw [base_own sound.keys member own, noteHeader_pbufs]
    exact List.le_sum_of_mem (List.mem_map_of_mem member)
  · rw [base_new others]
    exact Nat.zero_le _

theorem held_le_of_sublist (part : left.Sublist items) : held left ≤ held items :=
  (part.map _).sum_le_sum (by simp)

/-- A queue without others is the datagram's entry, if anything. -/
theorem held_own (sound : Sound s items) (own : ∀ item ∈ items, item.2.iphdr.key = hdr.key) :
    held items = (base items hdr).pbufs := by
  match items, sound, own with
  | [], _, _ => rfl
  | [item], sound, own =>
    have here := own item (by simp)
    rw [base_own sound.keys List.mem_cons_self here, noteHeader_pbufs]
    simp
  | one :: other :: rest, sound, own =>
    have differs := (List.pairwise_cons.mp sound.keys).1 other (by simp)
    rw [own one (by simp), own other (by simp)] at differs
    exact absurd rfl differs

end Own

/-! ### Room for a fragment -/

section Room

variable {s : Reass} {items : List (Entry × Datagram)} {p : Fragment}

/-- The fragment would exceed the ten pbufs, and to make room a datagram is stranded. -/
def Overflows (s : Reass) (items : List (Entry × Datagram)) (p : Fragment) : Prop :=
  10 < s.pbufcount + p.clen ∧ Strands items p.hdr p.clen

/-- **Room is made for every fragment whose own datagram leaves room for it.** -/
theorem makeRoom_spec (sound : Sound s items) (clear : ¬ Overflows s items p) :
    ∃ s' room exceeded left, makeRoom s p = some (s', room, exceeded) ∧ Sound s' left ∧ left.Sublist items ∧
      (∀ item ∈ items, item.2.iphdr.key = p.hdr.key → item ∈ left) ∧
      (room = true ↔ (base items p.hdr).pbufs + p.clen ≤ 10) ∧
      (room = true → s'.pbufcount + p.clen ≤ 10) ∧ (s.pbufcount + p.clen ≤ 10 → left = items) := by
  have own : (base items p.hdr).pbufs ≤ s.pbufcount := by
    rw [sound.count]
    exact base_pbufs_le sound
  by_cases full : 10 < s.pbufcount + p.clen
  · have safe : ¬ Strands items p.hdr (p.clen - 0) := fun strands => clear ⟨full, strands⟩
    obtain ⟨s', freed, exceeded, left, done, sound', relieved⟩ :=
      @remove_spec p.hdr p.clen 6 items s 0 [] sound sound.length_lt p.chained.1 safe
    have count := sound.count
    have count' := sound'.count
    have room := sound.room
    have freedAll := relieved.freed
    refine ⟨s', freed ≠ 0 && s'.pbufcount + p.clen ≤ 10, exceeded, left, ?_, sound', relieved.part, relieved.own, ?_, ?_,
      fun fits => absurd fits (by omega)⟩
    · simp only [makeRoom, if_pos full, Option.bind_eq_bind, done, Option.bind_some]
    · rw [Bool.and_eq_true, decide_eq_true_eq, decide_eq_true_eq]
      rw [← base_relieved sound relieved.part relieved.own] at own ⊢
      have within := @base_pbufs_le s' left p.hdr sound'
      rcases relieved.enough with enough | onlyOwn
      · have := p.chained
        omega
      · have same := held_own sound' onlyOwn
        omega
    · intro taken
      rw [Bool.and_eq_true, decide_eq_true_eq, decide_eq_true_eq] at taken
      exact taken.2
  · refine ⟨s, true, [], items, ?_, sound, List.Sublist.refl _, fun _ member _ => member, ?_, ?_, fun _ => rfl⟩
    · rw [makeRoom, if_neg full]
    · have within := @base_pbufs_le s items p.hdr sound
      exact ⟨fun _ => by omega, fun _ => rfl⟩
    · exact fun _ => by omega

/-- Where a datagram is stranded, the queue leads to freed memory, or the loop has read it. -/
theorem makeRoom_overflows (sound : Sound s items) (overflows : Overflows s items p) :
    makeRoom s p = none ∨ ∃ s' exceeded, makeRoom s p = some (s', true, exceeded) ∧ Dangling s' p.hdr := by
  obtain ⟨full, strands⟩ := overflows
  rcases @remove_strands p.hdr p.clen 6 items s 0 [] sound sound.length_lt p.chained.1 strands with
    lost | ⟨s', freed, exceeded, done, dangling, enough, left⟩
  · left
    rw [makeRoom, if_pos full, lost]
    rfl
  · right
    have count := sound.count
    have room := sound.room
    have positive := p.chained.1
    have taken : (freed ≠ 0 && s'.pbufcount + p.clen ≤ 10) = true := by
      rw [Bool.and_eq_true, decide_eq_true_eq, decide_eq_true_eq]
      omega
    refine ⟨s', exceeded, ?_, dangling⟩
    simp only [makeRoom, if_pos full, Option.bind_eq_bind, done, Option.bind_some, taken]

theorem held_ge_length (filled : ∀ item ∈ items, item.2.Filled) : items.length ≤ held items := by
  induction items with
  | nil => exact Nat.zero_le _
  | cons item rest ih =>
    obtain ⟨here, later⟩ := List.forall_mem_cons.mp filled
    have one := here.pbufs_pos
    have more := ih later
    rw [held_cons, List.length_cons]
    omega

theorem mempMalloc_spec (sound : Sound s items) (few : items.length < 5) (hdr : IpHdr) :
    ∃ s' ipr, mempMalloc s hdr = (s', some ipr) ∧
      Linked s'.mem s'.reassdatagrams s'.free ((ipr, Datagram.new hdr) :: items) ∧ s'.pbufcount = s.pbufcount := by
  have count := sound.linked.count
  rw [Fintype.card_fin] at count
  obtain ⟨ipr, free, nodes⟩ := List.exists_cons_of_ne_nil (l := s.free) (by
    intro none
    rw [none] at count
    simp only [List.length_nil] at count
    omega)
  have linked := sound.linked
  rw [nodes] at linked
  refine ⟨⟨Function.update s.mem ipr (some ⟨s.reassdatagrams, Datagram.new hdr⟩), free, some ipr, s.pbufcount⟩,
    ipr, ?_, linked.push, rfl⟩
  simp only [mempMalloc, nodes]

/-- **A node is found for every datagram there is room for.** -/
theorem enqueueNewDatagram_spec (sound : Sound s items) (others : ∀ item ∈ items, Other p.hdr item)
    (room : s.pbufcount + p.clen ≤ 10) :
    ∃ s' s₁ ipr exceeded left, enqueueNewDatagram s p.hdr p.clen = some (s', some ipr, exceeded) ∧
      Linked s'.mem s'.reassdatagrams s'.free ((ipr, Datagram.new p.hdr) :: left) ∧
      s'.pbufcount = s₁.pbufcount ∧ Sound s₁ left ∧ left.Sublist items ∧ (items.length < 5 → left = items) := by
  have count := sound.linked.count
  rw [Fintype.card_fin] at count
  by_cases few : items.length < 5
  · obtain ⟨s', ipr, allocated, linked, same⟩ := mempMalloc_spec sound few p.hdr
    refine ⟨s', s, ipr, [], items, ?_, linked, same, sound, List.Sublist.refl _, fun _ => rfl⟩
    rw [enqueueNewDatagram, allocated]
  · have empty : s.free = [] := List.length_eq_zero_iff.mp (by omega)
    have safe : ¬ Strands items p.hdr (p.clen - 0) := by
      rintro ⟨front, own, back, rfl, same, _⟩
      exact others own (by simp) same
    obtain ⟨s₁, freed, exceeded, left, done, sound₁, relieved⟩ :=
      @remove_spec p.hdr p.clen 6 items s 0 [] sound sound.length_lt p.chained.1 safe
    have atLeast := held_ge_length sound.filled
    have total := sound.count
    have freedAll := relieved.freed
    have positive := p.chained.1
    have enough : p.clen ≤ freed := by
      rcases relieved.enough with enough | onlyOwn
      · exact enough
      · have gone : left = [] := by
          by_contra some
          obtain ⟨item, member⟩ := List.exists_mem_of_ne_nil left some
          exact others item (relieved.part.subset member) (onlyOwn item member)
        rw [gone, held_nil] at freedAll
        omega
    have fewer : left.length < 5 := by
      have shorter := relieved.part.length_le
      have bound := sound.linked.length_le
      rw [Fintype.card_fin] at bound
      by_contra same
      have equal := relieved.part.eq_of_length_le (by omega)
      rw [equal] at freedAll
      omega
    obtain ⟨s', ipr, allocated, linked, same⟩ := mempMalloc_spec sound₁ fewer p.hdr
    refine ⟨s', s₁, ipr, exceeded, left, ?_, linked, same, sound₁, relieved.part, fun small => absurd small few⟩
    have refused : mempMalloc s p.hdr = (s, none) := by
      simp only [mempMalloc, empty]
    simp only [enqueueNewDatagram, refused, done, Option.bind_eq_bind, Option.bind_some, if_pos enough, allocated]

end Room

/-! ### Chaining a fragment -/

section Chain

variable {s : Reass} {front back : List (Entry × Datagram)} {ipr : Entry} {d e kept : Datagram} {p : Fragment}
  {prev : Option Entry} {verdict : Option Bool}

theorem place_split {new : Frag} {passed behind : List Frag} {valid : Bool} : ∀ {list : List Frag}
    {prev : Option Frag}, place new prev list = some (passed, behind, valid) → list = passed ++ behind := by
  intro list
  induction list generalizing passed valid with
  | nil =>
    intro prev placed
    cases placed
    rfl
  | cons q rest ih =>
    intro prev placed
    rw [place] at placed
    split at placed
    · split at placed <;> cases placed
      rfl
    · split at placed
      · cases placed
      · split at placed
        · cases placed
        · obtain ⟨⟨passed', behind', valid'⟩, found, same⟩ := Option.bind_eq_some_iff.mp placed
          cases same
          rw [ih found]
          rfl

/-- A fragment that is received changes the list of an entry by one fragment, or not at all. -/
theorem receive_spec (received : e.receive p = (kept, verdict)) :
    kept.iphdr = e.iphdr ∧ kept.timer = e.timer ∧
      (verdict = none ∧ kept.p = e.p ∧ e.p ≠ [] ∨
        verdict ≠ none ∧ ∃ passed behind, e.p = passed ++ behind ∧ kept.p = passed ++ p.frag :: behind) := by
  have noted : (e.noteLast p.hdr).iphdr = e.iphdr ∧ (e.noteLast p.hdr).timer = e.timer ∧
      (e.noteLast p.hdr).p = e.p := by
    rw [Datagram.noteLast]
    split <;> exact ⟨rfl, rfl, rfl⟩
  rw [Datagram.receive, chainFragIntoDatagramAndValidate] at received
  cases placed : place p.frag none (e.noteLast p.hdr).p with
  | none =>
    simp only [placed] at received
    cases received
    refine ⟨noted.1, noted.2.1, .inl ⟨rfl, noted.2.2, fun empty => ?_⟩⟩
    rw [noted.2.2, empty] at placed
    cases placed
  | some found =>
    obtain ⟨passed, behind, valid⟩ := found
    simp only [placed] at received
    cases received
    refine ⟨noted.1, noted.2.1, .inr ⟨by simp, passed, behind, ?_, rfl⟩⟩
    rw [← noted.2.2]
    exact place_split placed

theorem receive_pbufs (received : e.receive p = (kept, verdict)) :
    kept.pbufs = e.pbufs + if verdict = none then 0 else p.clen := by
  obtain ⟨_, _, ⟨dropped, same, _⟩ | ⟨taken, passed, behind, before, after⟩⟩ := receive_spec received
  · rw [if_pos dropped, Datagram.pbufs, same, Datagram.pbufs, Nat.add_zero]
  · rw [if_neg taken, Datagram.pbufs, after, Datagram.pbufs, before]
    simp only [List.map_append, List.map_cons, List.sum_append, List.sum_cons, Fragment.frag]
    omega

theorem receive_filled (received : e.receive p = (kept, verdict)) (timer : e.timer = 3)
    (positive : ∀ q ∈ e.p, 0 < q.clen) : kept.Filled := by
  obtain ⟨_, same, ⟨_, list, nonempty⟩ | ⟨_, passed, behind, before, after⟩⟩ := receive_spec received
  · exact ⟨list ▸ nonempty, list ▸ positive, same.trans timer⟩
  · refine ⟨by rw [after]; simp, fun q member => ?_, same.trans timer⟩
    rw [after, List.mem_append, List.mem_cons] at member
    rcases member with member | rfl | member
    · exact positive q (by rw [before]; exact List.mem_append_left _ member)
    · exact p.chained.1
    · exact positive q (by rw [before]; exact List.mem_append_right _ member)

/-- **A complete datagram leaves the queue**, and its pbufs are no longer counted. -/
theorem chainInto_complete (linked : Linked s.mem s.reassdatagrams s.free (front ++ (ipr, d) :: back))
    (ahead : front ≠ [] → prev = lastOf none front)
    (count : s.pbufcount = held front + e.pbufs + held back) (room : s.pbufcount + p.clen ≤ 10)
    (received : e.receive p = (kept, some true)) :
    ∃ s', chainInto s ipr prev e p = some (s', some kept.assemble) ∧
      Linked s'.mem s'.reassdatagrams s'.free (front ++ back) ∧ s'.pbufcount = held (front ++ back) := by
  obtain ⟨next, node, _⟩ := linked.node
  obtain ⟨s', dequeued, linked', _⟩ := dequeueDatagram_spec linked ahead
  have size := receive_pbufs received
  rw [if_neg (by simp)] at size
  have total : sub16 ((s.pbufcount + p.clen) % 0x10000) (kept.pbufs % 0x100) = held (front ++ back) := by
    rw [held_append, sub16]
    omega
  refine ⟨{ s' with pbufcount := held (front ++ back) }, ?_, linked', rfl⟩
  simp only [chainInto, node, received, dequeued, total, Option.bind_eq_bind, Option.bind_some]

/-- An incomplete one stays, with the fragment or without it. -/
theorem chainInto_kept (linked : Linked s.mem s.reassdatagrams s.free (front ++ (ipr, d) :: back))
    (count : s.pbufcount = held front + e.pbufs + held back) (room : s.pbufcount + p.clen ≤ 10)
    (received : e.receive p = (kept, verdict)) (incomplete : verdict ≠ some true) :
    ∃ s', chainInto s ipr prev e p = some (s', none) ∧
      Linked s'.mem s'.reassdatagrams s'.free (front ++ (ipr, kept) :: back) ∧
      s'.pbufcount = held (front ++ (ipr, kept) :: back) := by
  obtain ⟨next, node, _⟩ := linked.node
  have size := receive_pbufs received
  have total : (if verdict = none then sub16 ((s.pbufcount + p.clen) % 0x10000) p.clen
      else (s.pbufcount + p.clen) % 0x10000) = held (front ++ (ipr, kept) :: back) := by
    rw [held_append, held_cons, size]
    split
    · rw [sub16]
      omega
    · omega
  refine ⟨⟨Function.update s.mem ipr (some ⟨next, kept⟩), s.free, s.reassdatagrams,
    held (front ++ (ipr, kept) :: back)⟩, ?_, linked.set node kept, rfl⟩
  match verdict, incomplete, received with
  | none, _, received =>
    simp only [chainInto, node, received, Option.bind_eq_bind, Option.bind_some, ← total]
  | some false, _, received =>
    simp only [chainInto, node, received, Option.bind_eq_bind, Option.bind_some, ← total]

end Chain

/-! ### One call -/

section Call

variable {s : Reass} {items : List (Entry × Datagram)} {p : Fragment}

/-- The fragment has a header without options, and its datagram leaves room for it. -/
def Taken (items : List (Entry × Datagram)) (p : Fragment) : Prop :=
  p.hdr.hl * 4 = 20 ∧ (base items p.hdr).pbufs + p.clen ≤ 10

/-- What becomes of the queue when a fragment is taken and its datagram becomes `kept`. -/
structure Effect (items left : List (Entry × Datagram)) (hdr : IpHdr) (kept : Datagram) (complete : Prop) :
    Prop where
  from_old : ∀ item ∈ left, (item ∈ items ∧ Other hdr item) ∨ (item.2 = kept ∧ ¬ complete)
  here : ¬ complete → ∃ ipr, (ipr, kept) ∈ left

/-- A fragment for a datagram in the queue. -/
theorem chainInto_own {front back : List (Entry × Datagram)} {ipr : Entry} {d kept : Datagram}
    {verdict : Option Bool} (sound : Sound s (front ++ (ipr, d) :: back)) (own : d.iphdr.key = p.hdr.key)
    (room : s.pbufcount + p.clen ≤ 10) (received : (d.noteHeader p.hdr).receive p = (kept, verdict)) :
    ∃ s' left, chainInto s ipr (lastOf none front) (d.noteHeader p.hdr) p =
        some (s', if verdict = some true then some kept.assemble else none) ∧ Sound s' left ∧
      Effect (front ++ (ipr, d) :: back) left p.hdr kept (verdict = some true) ∧
      ∀ item ∈ front ++ back, item ∈ left := by
  obtain ⟨list, timer, key⟩ := noteHeader_eq d p.hdr
  have count : s.pbufcount = held front + (d.noteHeader p.hdr).pbufs + held back := by
    rw [sound.count, noteHeader_pbufs]
    simp only [held_append, held_cons]
    omega
  have others : ∀ item ∈ front ++ back, item ∈ front ++ (ipr, d) :: back ∧ Other p.hdr item := by
    intro item member
    have keys := sound.keys
    rw [List.pairwise_append, List.pairwise_cons] at keys
    rw [Other, ← own]
    rcases List.mem_append.mp member with inFront | inBack
    · exact ⟨List.mem_append_left _ inFront, keys.2.2 item inFront (ipr, d) List.mem_cons_self⟩
    · exact ⟨List.mem_append_right _ (List.mem_cons_of_mem _ inBack), (keys.2.1.1 item inBack).symm⟩
  have sub : (front ++ back).Sublist (front ++ (ipr, d) :: back) :=
    (List.sublist_cons_self _ _).append_left front
  by_cases complete : verdict = some true
  · subst complete
    obtain ⟨s', done, linked, count'⟩ := chainInto_complete sound.linked (fun _ => rfl) count room received
    refine ⟨s', front ++ back, done, ⟨linked, fun item member => sound.filled item (sub.subset member),
      sound.keys.sublist sub, count', ?_⟩, ⟨fun item member => .inl (others item member), fun absent => absurd rfl absent⟩,
      fun _ member => member⟩
    rw [count', held_append]
    have := sound.room
    omega
  · have filled := sound.filled (ipr, d) (by simp)
    have keptFilled := receive_filled received (timer.trans filled.timer) (list ▸ filled.positive)
    have keptKey : kept.iphdr.key = p.hdr.key := by
      rw [(receive_spec received).1]
      exact key own
    obtain ⟨s', done, linked, count'⟩ :=
      @chainInto_kept s front back ipr d _ kept p (lastOf none front) verdict sound.linked count room received complete
    refine ⟨s', front ++ (ipr, kept) :: back, by rw [done, if_neg complete], ⟨linked, ?_, ?_, count', ?_⟩, ⟨?_, ?_⟩, ?_⟩
    · intro item member
      rcases List.mem_append.mp member with inFront | inBack
      · exact sound.filled item (List.mem_append_left _ inFront)
      · rcases List.mem_cons.mp inBack with rfl | inBack
        · exact keptFilled
        · exact sound.filled item (List.mem_append_right _ (List.mem_cons_of_mem _ inBack))
    · have keys := sound.keys
      rw [← List.pairwise_map (f := fun item : Entry × Datagram => item.2.iphdr.key)] at keys ⊢
      simp only [List.map_append, List.map_cons, keptKey, own] at keys ⊢
      exact keys
    · have size := receive_pbufs received
      rw [count']
      simp only [held_append, held_cons]
      split at size <;> omega
    · intro item member
      rw [List.mem_append, List.mem_cons] at member
      rcases member with inFront | rfl | inBack
      · exact .inl (others item (List.mem_append_left _ inFront))
      · exact .inr ⟨rfl, complete⟩
      · exact .inl (others item (List.mem_append_right _ inBack))
    · exact fun _ => ⟨ipr, by simp⟩
    · intro item member
      rw [List.mem_append] at member
      rw [List.mem_append, List.mem_cons]
      tauto

/-- A fragment for a new datagram. -/
theorem chainInto_new {s₁ : Reass} {left : List (Entry × Datagram)} {ipr : Entry} {kept : Datagram}
    {verdict : Option Bool} {prev : Option Entry}
    (linked : Linked s.mem s.reassdatagrams s.free ((ipr, Datagram.new p.hdr) :: left)) (sound : Sound s₁ left)
    (same : s.pbufcount = s₁.pbufcount) (others : ∀ item ∈ left, Other p.hdr item)
    (room : s.pbufcount + p.clen ≤ 10) (received : (Datagram.new p.hdr).receive p = (kept, verdict)) :
    ∃ s' left', chainInto s ipr prev (Datagram.new p.hdr) p =
        some (s', if verdict = some true then some kept.assemble else none) ∧ Sound s' left' ∧
      Effect left left' p.hdr kept (verdict = some true) ∧ ∀ item ∈ left, item ∈ left' := by
  have count : s.pbufcount = held [] + (Datagram.new p.hdr).pbufs + held left := by
    rw [same, sound.count]
    simp [Datagram.pbufs, Datagram.new]
  have bound := sound.room
  by_cases complete : verdict = some true
  · subst complete
    obtain ⟨s', done, linked', count'⟩ :=
      @chainInto_complete s [] left ipr _ _ kept p prev linked (by simp) count room received
    refine ⟨s', left, done, ⟨linked', sound.filled, sound.keys, count', ?_⟩,
      ⟨fun item member => .inl ⟨member, others item member⟩, fun absent => absurd rfl absent⟩, fun _ member => member⟩
    rw [count', List.nil_append, ← sound.count]
    exact bound
  · have keptFilled := receive_filled received rfl (by simp [Datagram.new])
    have keptKey : kept.iphdr.key = p.hdr.key := by
      rw [(receive_spec received).1]
      rfl
    obtain ⟨s', done, linked', count'⟩ :=
      @chainInto_kept s [] left ipr _ _ kept p prev verdict linked count room received complete
    refine ⟨s', (ipr, kept) :: left, by rw [done, if_neg complete],
      ⟨linked', List.forall_mem_cons.mpr ⟨keptFilled, sound.filled⟩, ?_, count', ?_⟩, ⟨?_, ?_⟩,
      fun _ member => List.mem_cons_of_mem _ member⟩
    · refine List.pairwise_cons.mpr ⟨fun item member => ?_, sound.keys⟩
      rw [keptKey]
      exact (others item member).symm
    · have size := receive_pbufs received
      rw [count']
      simp only [List.nil_append, held_cons]
      simp only [held_nil, Nat.zero_add] at count
      split at size <;> omega
    · intro item member
      rcases List.mem_cons.mp member with rfl | member
      · exact .inr ⟨rfl, complete⟩
      · exact .inl ⟨member, others item member⟩
    · exact fun _ => ⟨ipr, List.mem_cons_self⟩

/-- Nothing has to be given up for the fragment. -/
def Roomy (s : Reass) (items : List (Entry × Datagram)) (p : Fragment) : Prop :=
  s.pbufcount + p.clen ≤ 10 ∧ ((∃ item ∈ items, item.2.iphdr.key = p.hdr.key) ∨ items.length < 5)

/-- **A fragment that is taken** is chained into its datagram, and a complete datagram is handed up. -/
theorem ipReass_taken (sound : Sound s items) (clear : ¬ Overflows s items p) (taken : Taken items p)
    {kept : Datagram} {verdict : Option Bool} (received : (base items p.hdr).receive p = (kept, verdict)) :
    ∃ s' exceeded left,
      ipReass s p = some (s', ⟨if verdict = some true then some kept.assemble else none, exceeded⟩) ∧
      Sound s' left ∧ Effect items left p.hdr kept (verdict = some true) ∧
      (Roomy s items p → ∀ item ∈ items, Other p.hdr item → item ∈ left) := by
  obtain ⟨hl, small⟩ := taken
  obtain ⟨s₁, room, given, rest, made, sound₁, part, own, roomIff, fits, untouched⟩ := makeRoom_spec sound clear
  have isRoom : room = true := roomIff.mpr small
  subst isRoom
  have fits := fits rfl
  rcases own_or_others items p.hdr with ⟨⟨ipr, d⟩, member, same⟩ | others
  · obtain ⟨front, back, cut⟩ := List.append_of_mem (own _ member same)
    subst cut
    have isBase : base items p.hdr = d.noteHeader p.hdr := base_own sound.keys member same
    rw [isBase] at received
    obtain ⟨s', left, done, sound', effect, keep⟩ := chainInto_own sound₁ same fits received
    obtain ⟨next, node, _⟩ := sound₁.linked.node
    have before : ∀ item ∈ front, addressesAndIdMatch item.2.iphdr p.hdr = false := by
      intro item inFront
      rw [← Bool.not_eq_true, addressesAndIdMatch_iff, ← same]
      exact (List.pairwise_append.mp sound₁.keys).2.2 item inFront (ipr, d) List.mem_cons_self
    have found := @search_found _ _ s₁.mem (addressesAndIdMatch ·.iphdr p.hdr) front back _ ipr d next
      sound₁.linked.segment before (addressesAndIdMatch_iff.mpr same) node 6 none (by
        have := sound₁.length_lt
        simp at this
        omega)
    refine ⟨s', given, left, ?_, sound', ⟨fun item inLeft => ?_, effect.here⟩, fun roomy item inItems isOther => ?_⟩
    · simp only [ipReass, hl, ne_eq, not_true_eq_false, if_false, made, Option.bind_eq_bind, Option.bind_some,
        Bool.not_true, Bool.false_eq_true, found, done]
    · rcases effect.from_old item inLeft with ⟨old, isOther⟩ | new
      · exact .inl ⟨part.subset old, isOther⟩
      · exact .inr new
    · refine keep item ?_
      rw [← untouched roomy.1, List.mem_append, List.mem_cons] at inItems
      rcases inItems with inFront | rfl | inBack
      · exact List.mem_append_left _ inFront
      · exact absurd same isOther
      · exact List.mem_append_right _ inBack
  · have isBase : base items p.hdr = Datagram.new p.hdr := base_new others
    rw [isBase] at received
    have others₁ : ∀ item ∈ rest, Other p.hdr item := fun item member => others item (part.subset member)
    obtain ⟨s₂, s₃, ipr, more, left, enqueued, linked, count, sound₃, part', few⟩ :=
      enqueueNewDatagram_spec sound₁ others₁ fits
    have fewer : s₂.pbufcount + p.clen ≤ 10 := by
      have := held_le_of_sublist part'
      rw [count, sound₃.count]
      rw [sound₁.count] at fits
      omega
    obtain ⟨s', left', done, sound', effect, keep⟩ := @chainInto_new s₂ p s₃ left ipr kept verdict
      (lastOf none rest) linked sound₃ count (fun item member => others₁ item (part'.subset member)) fewer received
    have missing := @search_missing _ _ s₁.mem (addressesAndIdMatch ·.iphdr p.hdr) rest _ sound₁.linked.segment
      (fun item member => by
        rw [← Bool.not_eq_true, addressesAndIdMatch_iff]
        exact others₁ item member) 6 none sound₁.length_lt
    refine ⟨s', given ++ more, left', ?_, sound', ⟨fun item inLeft => ?_, effect.here⟩, fun roomy item inItems _ => ?_⟩
    · simp only [ipReass, hl, ne_eq, not_true_eq_false, if_false, made, Option.bind_eq_bind, Option.bind_some,
        Bool.not_true, Bool.false_eq_true, missing, enqueued, done]
    · rcases effect.from_old item inLeft with ⟨old, isOther⟩ | new
      · exact .inl ⟨part.subset (part'.subset old), isOther⟩
      · exact .inr new
    · refine keep item ?_
      have same := untouched roomy.1
      have short : rest.length < 5 := by
        rcases roomy.2 with ⟨item, member, own⟩ | short
        · exact absurd own (others item member)
        · rw [same]
          exact short
      rw [few short, same]
      exact inItems

/-- A fragment that is not taken leaves no trace but the datagrams that were given up for it. -/
theorem ipReass_refused (sound : Sound s items) (clear : ¬ Overflows s items p) (refused : ¬ Taken items p) :
    ∃ s' exceeded left, ipReass s p = some (s', ⟨none, exceeded⟩) ∧ Sound s' left ∧ left.Sublist items := by
  by_cases hl : p.hdr.hl * 4 = 20
  · obtain ⟨s', room, given, left, made, sound', part, _, roomIff, _⟩ := makeRoom_spec sound clear
    have noRoom : room = false := by
      rw [← Bool.not_eq_true, roomIff]
      exact fun small => refused ⟨hl, small⟩
    subst noRoom
    refine ⟨s', given, left, ?_, sound', part⟩
    simp only [ipReass, hl, ne_eq, not_true_eq_false, if_false, made, Option.bind_eq_bind, Option.bind_some,
      Bool.not_false, if_true]
  · refine ⟨s, [], items, ?_, sound, List.Sublist.refl _⟩
    simp only [ipReass, ne_eq, hl, not_false_eq_true, if_true]

/-- **A stranded datagram is read in the same call.** -/
theorem ipReass_overflows (sound : Sound s items) (hl : p.hdr.hl * 4 = 20) (overflows : Overflows s items p) :
    ipReass s p = none := by
  rcases makeRoom_overflows sound overflows with lost | ⟨s', given, made, front, ipr, segment, gone, others⟩
  · simp only [ipReass, hl, ne_eq, not_true_eq_false, if_false, lost, Option.bind_eq_bind, Option.bind_none]
  · have read := @search_freed _ _ s'.mem (addressesAndIdMatch ·.iphdr p.hdr) front _ ipr segment
      (fun item member => by
        rw [← Bool.not_eq_true, addressesAndIdMatch_iff]
        exact others item member) gone 6 none
    simp only [ipReass, hl, ne_eq, not_true_eq_false, if_false, made, Option.bind_eq_bind, Option.bind_some,
      Bool.not_true, Bool.false_eq_true, read, Option.bind_none]

end Call

end ULoader.Ip

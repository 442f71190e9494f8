/-
**What `ip_reass` hands up, over whole runs.**

* **`queue_kept`** — as long as no call strands a datagram, the five nodes are shared out between queue and pool,
  no datagram has two entries, and the count of pbufs is right and at most ten; and a run goes through exactly when
  no call strands one: the call that does reads freed memory itself.
* **`delivered_iff`** — for fragments of any datagrams, in any order, with repetitions and losses: everything handed
  up is the datagram that was sent, exactly as long as no fragment arrives in front of which a gap goes unnoticed.
* **`completed`** — with room for all of them, a datagram is handed up once all its fragments have arrived.
-/

import ULoader.Ip.Queue

namespace ULoader.Ip

open Links Pieces StepSystem

/-! ### The queue -/

/-- The entries of the queue. -/
def Reass.entries (s : Reass) : List (Entry × Datagram) := contents s.mem 5 s.reassdatagrams

theorem Sound.entries {s : Reass} {items : List (Entry × Datagram)} (sound : Sound s items) : s.entries = items :=
  sound.linked.segment.contents (Nat.le_of_lt_succ sound.length_lt)

/-- The state after a call. -/
def receive (s : Reass) (p : Fragment) : Option Reass := (ipReass s p).map Prod.fst

/-- The fragment would exceed the ten pbufs; the entries behind its datagram's do not make enough room for it, and
two others are in front of it. -/
def Stranding (s : Reass) (p : Fragment) : Prop :=
  p.hdr.hl * 4 = 20 ∧ Overflows s s.entries p

theorem receive_sound {s : Reass} (sound : Sound s s.entries) (p : Fragment) :
    (¬ Stranding s p → ∃ s', receive s p = some s' ∧ Sound s' s'.entries) ∧ (Stranding s p → receive s p = none) := by
  refine ⟨fun clear => ?_, fun ⟨hl, overflows⟩ => ?_⟩
  · by_cases hl : p.hdr.hl * 4 = 20
    · have clear : ¬ Overflows s s.entries p := fun overflows => clear ⟨hl, overflows⟩
      by_cases taken : Taken s.entries p
      · obtain ⟨s', exceeded, left, done, sound', _⟩ := ipReass_taken sound clear taken rfl
        exact ⟨s', by rw [receive, done]; rfl, sound'.entries ▸ sound'⟩
      · obtain ⟨s', exceeded, left, done, sound', _⟩ := ipReass_refused sound clear taken
        exact ⟨s', by rw [receive, done]; rfl, sound'.entries ▸ sound'⟩
    · refine ⟨s, ?_, sound⟩
      simp [receive, ipReass, hl]
  · rw [receive, ipReass_overflows sound hl overflows]
    rfl

/-- **The queue is kept until a datagram is stranded**: every state is sound, and a run goes through exactly when
no call strands a datagram. -/
theorem queue_kept (fragments : List Fragment) :
    Always receive (fun s => Sound s s.entries) Reass.init fragments ∧
      ((run receive Reass.init fragments).isSome = true ↔
        Throughout receive (fun s p => ¬ Stranding s p) Reass.init fragments) := by
  have start : Sound Reass.init Reass.init.entries := Sound.init.entries ▸ Sound.init
  have preserved : ∀ s p s', Sound s s.entries → receive s p = some s' → Sound s' s'.entries := by
    intro s p s' sound taken
    have spec := receive_sound sound p
    by_cases strands : Stranding s p
    · rw [spec.2 strands] at taken
      cases taken
    · obtain ⟨s'', done, sound'⟩ := spec.1 strands
      cases taken.symm.trans done
      exact sound'
  refine ⟨always_of_invariant preserved fragments Reass.init start,
    run_isSome_iff preserved (fun s p sound => ?_) fragments Reass.init start⟩
  have spec := receive_sound sound p
  by_cases strands : Stranding s p
  · simp [spec.2 strands, strands]
  · obtain ⟨s', done, _⟩ := spec.1 strands
    simp [done, strands]

/-- Eight bytes of datagram `id`, with more to come, in `clen` pbufs. -/
def eightBytes (id : UInt16) (offset clen : Nat) (chained : 0 < clen ∧ clen ≤ 12) : Fragment :=
  ⟨⟨5, 28, id, 0x2000 + offset / 8, 17, 1, 2⟩, List.replicate 8 0, clen, chained⟩

-- Three datagrams hold the ten pbufs; a second fragment of the oldest frees the one in front of it under the list.
example : run receive Reass.init [eightBytes 1 0 1 (by decide), eightBytes 2 0 4 (by decide),
    eightBytes 3 0 5 (by decide), eightBytes 1 8 1 (by decide)] = none := by decide

/-! ### Fragments of datagrams that were sent -/

/-- The datagrams on their way to this host, each under the addresses and the number in its header. -/
structure Network where
  sent : UInt32 × UInt32 × UInt16 → Sent
  named : ∀ key, (sent key).hdr.key = key

/-- A fragment of one of them arrives, in `clen` pbufs. -/
structure Arrival (net : Network) where
  key : UInt32 × UInt32 × UInt16
  piece : Piece UInt8
  member : piece ∈ (net.sent key).pieces
  clen : Nat
  chained : 0 < clen ∧ clen ≤ 12

section Delivery

variable {net : Network}

def Arrival.fragment (arrival : Arrival net) : Fragment :=
  (net.sent arrival.key).fragment arrival.piece arrival.clen arrival.chained

/-- `up` is what `ip_reass` has handed up, `seen` the fragments that have arrived. -/
structure Host (net : Network) where
  reass : Reass
  up : List Whole
  seen : List (Arrival net)

def Host.init : Host net := ⟨Reass.init, [], []⟩

def Host.step (host : Host net) (arrival : Arrival net) : Option (Host net) := do
  let (reass, result) ← ipReass host.reass arrival.fragment
  some ⟨reass, host.up ++ result.whole.toList, arrival :: host.seen⟩

/-- The fragment is taken, and all of its datagram is there but a stretch right in front of it. -/
def Misjudged (host : Host net) (arrival : Arrival net) : Prop :=
  Taken host.reass.entries arrival.fragment ∧ ∃ item ∈ host.reass.entries,
    item.2.iphdr.key = arrival.key ∧ HiddenGap (net.sent arrival.key) item.2 arrival.piece

/-- Everything that was handed up is what was sent. -/
def Right (host : Host net) : Prop := ∀ whole ∈ host.up, whole = (net.sent whole.hdr.key).whole

/-- Every entry gathers the fragments of the datagram it is named after. -/
structure Gathering (host : Host net) : Prop where
  sound : Sound host.reass host.reass.entries
  gathers : ∀ item ∈ host.reass.entries, Gathers (net.sent item.2.iphdr.key) item.2
  right : Right host

theorem Network.whole_key (net : Network) (key : UInt32 × UInt32 × UInt16) :
    (net.sent key).whole.hdr.key = key := net.named key

theorem Network.gathers_key (net : Network) {key : UInt32 × UInt32 × UInt16} {ipr : Datagram}
    (gathers : Gathers (net.sent key) ipr) : ipr.iphdr.key = key := by
  obtain ⟨_, _, same⟩ := gathers.iphdr
  rw [same]
  exact net.named key

theorem Arrival.key_eq (arrival : Arrival net) : arrival.fragment.hdr.key = arrival.key := net.named arrival.key

/-- The datagram a fragment is chained into gathers the fragments of what was sent. -/
theorem Gathering.base {host : Host net} (gathering : Gathering host) (arrival : Arrival net) :
    Gathers (net.sent arrival.key) (base host.reass.entries arrival.fragment.hdr) := by
  have header : ∃ len offset, arrival.fragment.hdr = (net.sent arrival.key).header len offset := ⟨_, _, rfl⟩
  rcases own_or_others host.reass.entries arrival.fragment.hdr with ⟨item, member, own⟩ | others
  · rw [base_own gathering.sound.keys member own]
    have gathers := gathering.gathers item member
    rw [own, arrival.key_eq] at gathers
    exact gathers.noteHeader header
  · rw [base_new others]
    exact Gathers.new _ header

/-- A gap hidden from the datagram in the queue is hidden from what the fragment is chained into, and back. -/
theorem hiddenGap_base {host : Host net} (gathering : Gathering host) (arrival : Arrival net) :
    HiddenGap (net.sent arrival.key) (base host.reass.entries arrival.fragment.hdr) arrival.piece ↔
      ∃ item ∈ host.reass.entries, item.2.iphdr.key = arrival.key ∧
        HiddenGap (net.sent arrival.key) item.2 arrival.piece := by
  rcases own_or_others host.reass.entries arrival.fragment.hdr with ⟨item, member, own⟩ | others
  · have same : ∀ item ∈ host.reass.entries, item.2.iphdr.key = arrival.key →
        (base host.reass.entries arrival.fragment.hdr).p = item.2.p := by
      intro item member own
      rw [base_own gathering.sound.keys member (own.trans arrival.key_eq.symm)]
      exact (noteHeader_eq _ _).1
    constructor
    · intro hidden
      refine ⟨item, member, own.trans arrival.key_eq, ?_⟩
      rw [HiddenGap, ← same item member (own.trans arrival.key_eq)]
      exact hidden
    · rintro ⟨item, member, own, hidden⟩
      rw [HiddenGap, same item member own]
      exact hidden
  · rw [base_new others]
    constructor
    · rintro ⟨front, gap, back, _, isFirst, _, _, empty⟩
      simp [Datagram.new, isFirst] at empty
    · rintro ⟨item, member, own, _⟩
      exact absurd (own.trans arrival.key_eq.symm) (others item member)

/-- What a step does, told by the datagram the fragment is chained into. -/
structure Chains (host next : Host net) (arrival : Arrival net) (kept : Datagram) (verdict : Option Bool) :
    Prop where
  taken : Taken host.reass.entries arrival.fragment
  received : (Ip.base host.reass.entries arrival.fragment.hdr).receive arrival.fragment = (kept, verdict)
  up : next.up = host.up ++ (if verdict = some true then [kept.assemble] else [])
  effect : Effect host.reass.entries next.reass.entries arrival.fragment.hdr kept (verdict = some true)
  others : Roomy host.reass host.reass.entries arrival.fragment → ∀ item ∈ host.reass.entries,
    Other arrival.fragment.hdr item → item ∈ next.reass.entries

/-- What the fragment is chained into is named after its datagram. -/
theorem Chains.key {host next : Host net} {arrival : Arrival net} {kept : Datagram} {verdict : Option Bool}
    (chains : Chains host next arrival kept verdict) (gathering : Gathering host) :
    kept.iphdr.key = arrival.key := by
  rw [(receive_spec chains.received).1, net.gathers_key (gathering.base arrival)]

/-- A step is possible unless it strands a datagram. -/
theorem step_of_clear {host : Host net} (sound : Sound host.reass host.reass.entries) {arrival : Arrival net}
    (clear : ¬ Overflows host.reass host.reass.entries arrival.fragment) :
    ∃ next, host.step arrival = some next ∧ next.seen = arrival :: host.seen ∧ Sound next.reass next.reass.entries ∧
      ((∃ kept verdict, Chains host next arrival kept verdict) ∨
        (¬ Taken host.reass.entries arrival.fragment ∧ next.up = host.up ∧
          next.reass.entries.Sublist host.reass.entries)) := by
  by_cases taken : Taken host.reass.entries arrival.fragment
  · cases received : (Ip.base host.reass.entries arrival.fragment.hdr).receive arrival.fragment with
    | mk kept verdict =>
      obtain ⟨s', exceeded, left, done, sound', effect, others⟩ := ipReass_taken sound clear taken received
      have entries := sound'.entries
      refine ⟨⟨s', _, arrival :: host.seen⟩, ?_, rfl, entries ▸ sound', .inl ⟨kept, verdict, taken, received, rfl,
        entries ▸ effect, entries ▸ others⟩⟩
      simp only [Host.step, done, Option.bind_eq_bind, Option.bind_some]
      split <;> rfl
  · obtain ⟨s', exceeded, left, done, sound', part⟩ := ipReass_refused sound clear taken
    have entries := sound'.entries
    refine ⟨⟨s', host.up, arrival :: host.seen⟩, ?_, rfl, entries ▸ sound', .inr ⟨taken, rfl, entries ▸ part⟩⟩
    simp only [Host.step, done, Option.bind_eq_bind, Option.bind_some, Option.toList_none, List.append_nil]

theorem step_cases {host next : Host net} (sound : Sound host.reass host.reass.entries) {arrival : Arrival net}
    (step : host.step arrival = some next) :
    next.seen = arrival :: host.seen ∧ Sound next.reass next.reass.entries ∧
      ((∃ kept verdict, Chains host next arrival kept verdict) ∨
        (¬ Taken host.reass.entries arrival.fragment ∧ next.up = host.up ∧
          next.reass.entries.Sublist host.reass.entries)) := by
  have clear : ¬ Overflows host.reass host.reass.entries arrival.fragment := by
    intro overflows
    rw [Host.step, ipReass_overflows sound rfl overflows] at step
    cases step
  obtain ⟨next', step', seen, sound', cases⟩ := step_of_clear sound clear
  cases step.symm.trans step'
  exact ⟨seen, sound', cases⟩

/-- A step that does not misjudge its fragment keeps the entries and what was handed up right. -/
theorem Gathering.step {host next : Host net} (gathering : Gathering host) {arrival : Arrival net}
    (visible : ¬ Misjudged host arrival) (step : host.step arrival = some next) : Gathering next := by
  obtain ⟨_, sound, ⟨kept, verdict, chains⟩ | ⟨_, up, part⟩⟩ := step_cases gathering.sound step
  · have shown : ¬ HiddenGap (net.sent arrival.key) (Ip.base host.reass.entries arrival.fragment.hdr)
        arrival.piece := by
      rw [hiddenGap_base gathering arrival]
      exact fun hidden => visible ⟨chains.taken, hidden⟩
    have judged := receive_gathers (gathering.base arrival) arrival.member arrival.chained shown
    have received := chains.received
    rw [Arrival.fragment] at received
    rcases judged with ⟨whole, complete, assembled⟩ | ⟨stays, verdict', incomplete, notTrue, gathers⟩
    · cases received.symm.trans complete
      refine ⟨sound, fun item member => ?_, fun whole member => ?_⟩
      · rcases chains.effect.from_old item member with ⟨old, _⟩ | ⟨_, absurdity⟩
        · exact gathering.gathers item old
        · exact absurd rfl absurdity
      · rw [chains.up, if_pos rfl, List.mem_append, List.mem_singleton] at member
        rcases member with old | rfl
        · exact gathering.right whole old
        · rw [assembled, net.whole_key]
    · cases received.symm.trans incomplete
      refine ⟨sound, fun item member => ?_, ?_⟩
      · rcases chains.effect.from_old item member with ⟨old, _⟩ | ⟨new, _⟩
        · exact gathering.gathers item old
        · rw [new, net.gathers_key gathers]
          exact gathers
      · rw [Right, chains.up, if_neg notTrue, List.append_nil]
        exact gathering.right
  · refine ⟨sound, fun item member => gathering.gathers item (part.subset member), ?_⟩
    rw [Right, up]
    exact gathering.right

/-- What is handed up through a hidden gap is not what was sent. -/
theorem Misjudged.wrong {host next : Host net} (gathering : Gathering host) {arrival : Arrival net}
    (misjudged : Misjudged host arrival) (step : host.step arrival = some next) : ¬ Right next := by
  obtain ⟨taken, hidden⟩ := misjudged
  obtain ⟨_, _, ⟨kept, verdict, chains⟩ | ⟨refused, _⟩⟩ := step_cases gathering.sound step
  · have gathers := gathering.base arrival
    obtain ⟨whole, complete, short⟩ :=
      receive_hidden gathers arrival.chained ((hiddenGap_base gathering arrival).mpr hidden)
    cases chains.received.symm.trans complete
    have key : kept.assemble.hdr.key = arrival.key := chains.key gathering
    intro right
    have same := right kept.assemble (by rw [chains.up, if_pos rfl]; simp)
    rw [key] at same
    rw [same] at short
    exact Nat.lt_irrefl _ short
  · exact absurd taken refused

theorem Gathering.init : Gathering (Host.init : Host net) := by
  have empty : (Host.init : Host net).reass.entries = [] := Sound.init.entries
  refine ⟨empty ▸ Sound.init, fun item member => ?_, fun whole member => by cases member⟩
  rw [empty] at member
  cases member

/-- **Only what was sent is handed up**, whatever the order, the repetitions and the losses of the fragments, exactly
as long as no fragment arrives in front of which a gap goes unnoticed. -/
theorem delivered_iff (net : Network) (arrivals : List (Arrival net)) :
    Always Host.step Right Host.init arrivals ↔
      Along Host.step (fun host arrival => ¬ Misjudged host arrival) Host.init arrivals :=
  always_iff_along (fun _ _ _ gathering visible step => gathering.step visible step)
    (fun _ gathering => gathering.right)
    (fun _ _ _ gathering step right misjudged => misjudged.wrong gathering step right)
    arrivals Host.init Gathering.init

/-! ### All fragments there -/

/-- Of a datagram that was not handed up, all fragments that have arrived are in the queue. -/
def Collected (host : Host net) : Prop :=
  ∀ arrival ∈ host.seen, (net.sent arrival.key).whole ∈ host.up ∨
    ∃ item ∈ host.reass.entries, item.2.iphdr.key = arrival.key ∧ arrival.piece ∈ item.2.p.map Frag.piece

/-- The fragment does not push others out, and is not misjudged. -/
def Welcome (host : Host net) (arrival : Arrival net) : Prop :=
  Roomy host.reass host.reass.entries arrival.fragment ∧ ¬ Misjudged host arrival

/-- A fragment that is received is in the list, with all that was there. -/
theorem receive_mem {e kept : Datagram} {arrival : Arrival net} {verdict : Option Bool}
    (gathers : Gathers (net.sent arrival.key) e) (received : e.receive arrival.fragment = (kept, verdict)) :
    arrival.piece ∈ kept.p.map Frag.piece ∧ ∀ piece ∈ e.p.map Frag.piece, piece ∈ kept.p.map Frag.piece := by
  have frag : arrival.fragment.frag = ⟨arrival.piece, arrival.clen⟩ :=
    Sent.fragment_frag arrival.member arrival.chained
  obtain ⟨_, _, ⟨dropped, same, _⟩ | ⟨_, passed, behind, before, after⟩⟩ := receive_spec received
  · subst dropped
    rw [same]
    refine ⟨?_, fun _ member => member⟩
    rcases gathers.receive arrival.member arrival.chained with ⟨there, _⟩ | ⟨_, _, _, _, _, _, _, _, _, judged⟩
    · exact there
    · cases received.symm.trans judged
  · rw [before, after, frag]
    constructor
    · simp
    · intro piece member
      simp only [List.map_append, List.map_cons, List.mem_append, List.mem_cons] at member ⊢
      tauto

/-- **A fragment that is welcome** is taken, and stays until its datagram is handed up. -/
theorem Collected.step {host : Host net} (gathering : Gathering host) (collected : Collected host)
    {arrival : Arrival net} (welcome : Welcome host arrival) :
    ∃ next, host.step arrival = some next ∧ next.seen = arrival :: host.seen ∧ Gathering next ∧ Collected next := by
  obtain ⟨roomy, visible⟩ := welcome
  have room := roomy.1
  have clear : ¬ Overflows host.reass host.reass.entries arrival.fragment := fun overflows => by
    have := overflows.1
    omega
  have taken : Taken host.reass.entries arrival.fragment := by
    have within := @base_pbufs_le host.reass host.reass.entries arrival.fragment.hdr gathering.sound
    rw [← gathering.sound.count] at within
    exact ⟨rfl, by omega⟩
  obtain ⟨next, step, seen, _, ⟨kept, verdict, chains⟩ | ⟨refused, _⟩⟩ := step_of_clear gathering.sound clear
  · have gathering' := gathering.step visible step
    refine ⟨next, step, seen, gathering', fun earlier member => ?_⟩
    have grows : ∀ whole ∈ host.up, whole ∈ next.up := fun whole old => by
      rw [chains.up]
      exact List.mem_append_left _ old
    obtain ⟨pieceIn, keeps⟩ := receive_mem (gathering.base arrival) chains.received
    by_cases same : earlier.key = arrival.key
    · rw [same]
      by_cases complete : verdict = some true
      · -- the datagram is handed up
        have handed : kept.assemble ∈ next.up := by
          rw [chains.up, if_pos complete]
          simp
        have right := gathering'.right _ handed
        rw [show kept.assemble.hdr.key = arrival.key from chains.key gathering] at right
        exact .inl (right ▸ handed)
      · -- it has an entry, with this fragment and those of before
        obtain ⟨ipr, there⟩ := chains.effect.here complete
        have found : ∀ piece ∈ kept.p.map Frag.piece, ∃ item ∈ next.reass.entries,
            item.2.iphdr.key = arrival.key ∧ piece ∈ item.2.p.map Frag.piece := fun piece inKept =>
          ⟨(ipr, kept), there, chains.key gathering, inKept⟩
        rw [seen, List.mem_cons] at member
        rcases member with rfl | old
        · exact .inr (found _ pieceIn)
        · rcases collected earlier old with up | ⟨item, inQueue, own, inItem⟩
          · exact .inl (grows _ (same ▸ up))
          · refine .inr (found _ (keeps _ ?_))
            rw [base_own gathering.sound.keys inQueue ((own.trans same).trans arrival.key_eq.symm),
              (noteHeader_eq _ _).1]
            exact inItem
    · rw [seen, List.mem_cons] at member
      rcases member with rfl | old
      · exact absurd rfl same
      · rcases collected earlier old with up | ⟨item, inQueue, own, inItem⟩
        · exact .inl (grows _ up)
        · refine .inr ⟨item, chains.others roomy item inQueue ?_, own, inItem⟩
          rw [Other, own, arrival.key_eq]
          exact same
  · exact absurd taken refused

/-- An entry never holds all fragments of its datagram. -/
theorem Gathers.incomplete {sent : Sent} {ipr : Datagram} (gathers : Gathers sent ipr) :
    ∃ piece ∈ sent.pieces, piece ∉ ipr.p.map Frag.piece := by
  by_contra none
  simp only [not_exists, not_and, not_not] at none
  have distinct : sent.pieces.Nodup := by
    refine (List.Pairwise.and_mem.mp sent.pieces_runs.pairwise).imp ?_
    rintro one other ⟨inPieces, _, apart⟩ rfl
    have := (sent.pieces_runs.bounds.2 one inPieces).2.1
    omega
  exact gathers.lacking (gathers.part.eq_of_length_le (distinct.subperm none).length_le)

/-- A run has seen its arrivals. -/
theorem run_seen : ∀ {arrivals : List (Arrival net)} {host final : Host net},
    run Host.step host arrivals = some final → final.seen = arrivals.reverse ++ host.seen := by
  intro arrivals
  induction arrivals with
  | nil =>
    intro host final reached
    cases reached
    rfl
  | cons arrival rest ih =>
    intro host final reached
    obtain ⟨next, step, reached⟩ := run_cons_eq_some.mp reached
    obtain ⟨_, _, same⟩ := Option.bind_eq_some_iff.mp step
    rw [ih reached, ← Option.some.inj same, List.reverse_cons, List.append_assoc]
    rfl

/-- **Once all its fragments have arrived, a datagram has been handed up**, when there was room for all fragments
and none was misjudged. -/
theorem completed (net : Network) (arrivals : List (Arrival net))
    (welcome : Throughout Host.step Welcome (Host.init : Host net) arrivals) :
    ∃ host, run Host.step Host.init arrivals = some host ∧ ∀ key,
      (∀ piece ∈ (net.sent key).pieces, ∃ arrival ∈ arrivals, arrival.key = key ∧ arrival.piece = piece) →
      (net.sent key).whole ∈ host.up := by
  have start : Gathering (Host.init : Host net) ∧ Collected (Host.init : Host net) :=
    ⟨Gathering.init, fun _ member => by cases member⟩
  obtain ⟨host, reached, gathering, collected⟩ := run_of_throughout
    (I := fun host : Host net => Gathering host ∧ Collected host)
    (fun host arrival ⟨gathering, collected⟩ welcome => by
      obtain ⟨next, step, _, holds⟩ := collected.step gathering welcome
      exact ⟨next, step, holds⟩) arrivals Host.init start welcome
  refine ⟨host, reached, fun key all => ?_⟩
  have seen := run_seen reached
  by_contra missing
  -- then all fragments are in one entry, which lacks one
  have inQueue : ∀ piece ∈ (net.sent key).pieces, ∃ item ∈ host.reass.entries,
      item.2.iphdr.key = key ∧ piece ∈ item.2.p.map Frag.piece := by
    intro piece member
    obtain ⟨arrival, inRun, rfl, rfl⟩ := all piece member
    refine (collected arrival ?_).resolve_left missing
    rw [seen]
    simp [inRun]
  obtain ⟨first, inPieces⟩ := List.exists_mem_of_ne_nil _ (net.sent key).pieces_ne_nil
  obtain ⟨item, member, own, _⟩ := inQueue first inPieces
  have gathers := gathering.gathers item member
  rw [own] at gathers
  obtain ⟨piece, inPieces, absent⟩ := gathers.incomplete
  obtain ⟨item', member', own', present⟩ := inQueue piece inPieces
  have same : item'.2.p = item.2.p := by
    have one := @base_own _ item.2.iphdr item gathering.sound.keys member rfl
    have other := @base_own _ item.2.iphdr item' gathering.sound.keys member' (own'.trans own.symm)
    rw [← (noteHeader_eq item'.2 item.2.iphdr).1, ← other, one, (noteHeader_eq _ _).1]
  exact absent (same ▸ present)

end Delivery

/-! ### Two fragments -/

/-- Ten bytes, cut behind the eighth. -/
def tenBytes (key : UInt32 × UInt32 × UInt16) : Sent where
  hdr := ⟨5, 0, key.2.2, 0, 17, key.1, key.2.1⟩
  chunks := [[0, 1, 2, 3, 4, 5, 6, 7], [8, 9]]
  nonempty := by decide
  units := by decide
  several := by decide
  fits := by decide

def tenByteNet : Network := ⟨tenBytes, fun _ => rfl⟩

/-- The second fragment first. -/
def secondFirst : List (Arrival tenByteNet) :=
  [⟨(1, 2, 3), ⟨8, 10, [8, 9]⟩, by decide, 1, by decide⟩,
    ⟨(1, 2, 3), ⟨0, 8, [0, 1, 2, 3, 4, 5, 6, 7]⟩, by decide, 1, by decide⟩]

theorem tenBytes_visible (host : Host tenByteNet) (arrival : Arrival tenByteNet) : ¬ Misjudged host arrival := by
  rintro ⟨_, _, _, _, front, gap, back, cut, isFirst, missing, isLast, _⟩
  have size : (tenByteNet.sent arrival.key).pieces.length = 2 := rfl
  have one := List.length_pos_iff.mpr isFirst
  have two := List.length_pos_iff.mpr missing
  have three := List.length_pos_iff.mpr isLast
  rw [cut] at size
  simp only [List.length_append, List.length_cons] at size
  omega

theorem completed_secondFirst : ∃ host, run Host.step Host.init secondFirst = some host ∧
    (tenBytes (1, 2, 3)).whole ∈ host.up := by
  have welcome : Throughout Host.step Welcome (Host.init : Host tenByteNet) secondFirst := by
    refine ⟨⟨⟨by decide, .inr (by decide)⟩, tenBytes_visible _ _⟩, fun next step => ?_⟩
    obtain rfl := Option.some.inj (step.symm.trans rfl)
    exact ⟨⟨⟨by decide, .inr (by decide)⟩, tenBytes_visible _ _⟩, fun _ _ => trivial⟩
  obtain ⟨host, reached, all⟩ := completed tenByteNet secondFirst welcome
  refine ⟨host, reached, all (1, 2, 3) ?_⟩
  decide

end ULoader.Ip

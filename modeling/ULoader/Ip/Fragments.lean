/-
**The fragments of one IP datagram.**

`ip_reass` keeps the fragments of a datagram in a list ordered by their offset. A new fragment is thrown away when
one with the same offset is there or when it overlaps; else it is put in its place
(`ip_reass_chain_frag_into_datagram_and_validate`). The same pass decides whether the datagram is complete: it looks
for holes between the fragments it passes and behind the new one. Between the new one and the fragment in front of
it it only looks when the new one comes last.

* `Sent` — a datagram cut into fragments by its sender.
* `Gathers` — the list holds some of the fragments, in order, and not all of them.
* `HiddenGap` — the one arrival the pass misjudges: everything is there but a stretch right in front of the new
  fragment, and this one is not the last.
* **`receive_gathers`** — otherwise the datagram is complete exactly with the last missing fragment, and then it is
  the datagram that was sent.
-/

import ULoader.Lib.Pieces

namespace ULoader.Ip

open Pieces

/-! ### The code -/

/-- What is read of `struct ip_hdr`, in host order: `hl` counts words, `offset` is the word with the flags. -/
structure IpHdr where
  hl : Nat
  len : Nat
  id : UInt16
  offset : Nat
  proto : UInt8
  src : UInt32
  dest : UInt32
  deriving DecidableEq

/-- `(ntohs(IPH_OFFSET(hdr)) & IP_OFFMASK) * 8`. -/
def IpHdr.start (hdr : IpHdr) : Nat := hdr.offset % 0x2000 * 8

/-- `(IPH_OFFSET(hdr) & IP_MF) != 0`. -/
def IpHdr.more (hdr : IpHdr) : Bool := hdr.offset / 0x2000 % 2 == 1

/-- `ntohs(IPH_LEN(hdr)) - IPH_HL(hdr) * 4`, a `u16_t`. -/
def IpHdr.dataLen (hdr : IpHdr) : Nat := (hdr.len + 0x10000 - hdr.hl * 4) % 0x10000

/-- `offset + len`, a `u16_t`. -/
def IpHdr.stop (hdr : IpHdr) : Nat := (hdr.start + hdr.dataLen) % 0x10000

/-- A fragment as `ip_input` hands it over: the bytes behind the header, and the pbufs they are in. The pool has
twelve pbufs. -/
structure Fragment where
  hdr : IpHdr
  data : List UInt8
  clen : Nat
  chained : 0 < clen ∧ clen ≤ 12

/-- A fragment in the list: `struct ip_reass_helper` in the place of its header. -/
structure Frag where
  piece : Piece UInt8
  clen : Nat
  deriving DecidableEq

abbrev Frag.start (frag : Frag) : Nat := frag.piece.start

abbrev Frag.stop (frag : Frag) : Nat := frag.piece.stop

def Fragment.frag (fragment : Fragment) : Frag :=
  ⟨⟨fragment.hdr.start, fragment.hdr.stop, fragment.data⟩, fragment.clen⟩

/-- `struct ip_reassdata`, without the link to the next one. -/
structure Datagram where
  iphdr : IpHdr
  p : List Frag
  datagramLen : Nat
  lastFrag : Bool
  timer : Nat
  deriving DecidableEq

/-- No hole between a fragment and the one in front of it, if there is one. -/
def joins : Option Frag → Frag → Bool
  | none, _ => true
  | some prev, q => prev.stop == q.start

/-- The check for overlaps with the fragments on both sides; it is not made for the lowest offset. -/
def overlaps (new : Frag) : Option Frag → Frag → Bool
  | none, _ => false
  | some prev, q => new.start < prev.stop || q.start < new.stop

/-- The loop over the list: what the new fragment is put behind, what it is put in front of, and `valid`; nothing
when it is thrown away. `prev` is `iprh_prev`. -/
def place (new : Frag) : Option Frag → List Frag → Option (List Frag × List Frag × Bool)
  | prev, [] => some ([], [], joins prev new)
  | prev, q :: rest =>
    if new.start < q.start then
      if overlaps new prev q then none else some ([], q :: rest, true)
    else if new.start = q.start then none
    else if new.start < q.stop then none
    else do
      let (passed, behind, valid) ← place new (some q) rest
      some (q :: passed, behind, joins prev q && valid)

/-- The loop behind the new fragment. -/
def contiguous : Frag → List Frag → Bool
  | _, [] => true
  | prev, q :: rest => prev.stop == q.start && contiguous q rest

/-- The list starts with the first fragment. -/
def startsAtZero : List Frag → Bool
  | [] => false
  | q :: _ => q.start == 0

/-- `ip_reass_chain_frag_into_datagram_and_validate`: the datagram with the fragment, and whether it is complete;
nothing when the fragment is thrown away. -/
def chainFragIntoDatagramAndValidate (ipr : Datagram) (new : Frag) : Option (Datagram × Bool) := do
  let (passed, behind, valid) ← place new none ipr.p
  let p := passed ++ new :: behind
  some ({ ipr with p := p }, ipr.lastFrag && valid && startsAtZero p && contiguous new behind)

/-- The header of the first fragment replaces that of a later one. -/
def Datagram.noteHeader (ipr : Datagram) (hdr : IpHdr) : Datagram :=
  if hdr.offset % 0x2000 = 0 ∧ ipr.iphdr.offset % 0x2000 ≠ 0 then { ipr with iphdr := hdr } else ipr

/-- The fragment with which the sender marks the end. -/
def Datagram.noteLast (ipr : Datagram) (hdr : IpHdr) : Datagram :=
  if hdr.more then ipr else { ipr with lastFrag := true, datagramLen := hdr.stop }

/-- The part of `ip_reass` between the queue entry and the verdict. -/
def Datagram.receive (ipr : Datagram) (fragment : Fragment) : Datagram × Option Bool :=
  let noted := ipr.noteLast fragment.hdr
  match chainFragIntoDatagramAndValidate noted fragment.frag with
  | none => (noted, none)
  | some (chained, valid) => (chained, some valid)

/-- A datagram as it is handed up. -/
structure Whole where
  hdr : IpHdr
  data : List UInt8
  deriving DecidableEq

/-- The first fragment gets its header back, with the length of the whole; the others lose theirs. -/
def Datagram.assemble (ipr : Datagram) : Whole :=
  ⟨{ ipr.iphdr with len := (ipr.datagramLen + 20) % 0x10000, offset := 0 }, ipr.p.flatMap (·.piece.data)⟩

/-- `ip_reass_enqueue_new_datagram` fills in the entry. -/
def Datagram.new (fraghdr : IpHdr) : Datagram := ⟨fraghdr, [], 0, false, 3⟩

/-! ### The place of a new fragment -/

/-- `contiguous`, where there may be no fragment in front. -/
def joined : Option Frag → List Frag → Bool
  | _, [] => true
  | prev, q :: rest => joins prev q && contiguous q rest

theorem joined_some (prev : Frag) (list : List Frag) : joined (some prev) list = contiguous prev list := by
  cases list <;> rfl

/-- Fragments without holes run on from each other. -/
theorem contiguous_iff {list : List Frag} (positive : ∀ q ∈ list, q.start < q.stop) :
    ∀ prev, contiguous prev list = true ↔ ∃ last, Runs prev.stop (list.map Frag.piece) last := by
  induction list with
  | nil => simp [contiguous, Runs]
  | cons q rest ih =>
    intro prev
    obtain ⟨here, later⟩ := List.forall_mem_cons.mp positive
    rw [contiguous, Bool.and_eq_true, beq_iff_eq, ih later q]
    constructor
    · rintro ⟨joins, last, runs⟩
      exact ⟨last, joins.symm, joins ▸ here, runs⟩
    · rintro ⟨last, joins, _, runs⟩
      exact ⟨joins.symm, last, runs⟩

/-- **The place of a new fragment**, in a list of fragments that are the same or apart from it. -/
theorem place_spec {new : Frag} (newPositive : new.start < new.stop) {list : List Frag}
    (positive : ∀ q ∈ list, q.start < q.stop) (ordered : list.Pairwise fun q r => q.stop ≤ r.start)
    (apart : ∀ q ∈ list, q.piece = new.piece ∨ q.stop ≤ new.start ∨ new.stop ≤ q.start) :
    ∀ {prev : Option Frag}, (∀ q ∈ prev, q.stop ≤ new.start) →
      (new.piece ∈ list.map Frag.piece ∧ place new prev list = none) ∨
      ∃ passed behind, list = passed ++ behind ∧ (∀ q ∈ passed, q.stop ≤ new.start) ∧
        (∀ q ∈ behind, new.stop ≤ q.start) ∧
        place new prev list =
          some (passed, behind, joined prev (if behind = [] then passed ++ [new] else passed)) := by
  induction list with
  | nil =>
    intro prev _
    refine .inr ⟨[], [], rfl, by simp, by simp, ?_⟩
    simp [place, joined, contiguous]
  | cons q rest ih =>
    intro prev inFront
    obtain ⟨here, later⟩ := List.forall_mem_cons.mp positive
    obtain ⟨first, ordered⟩ := List.pairwise_cons.mp ordered
    obtain ⟨hereApart, apart⟩ := List.forall_mem_cons.mp apart
    rcases hereApart with same | before | after
    · -- the same fragment again
      have start : new.start = q.start := congrArg Piece.start same.symm
      refine .inl ⟨same ▸ List.mem_cons_self, ?_⟩
      simp [place, start]
    · -- behind `q`
      have passes : place new prev (q :: rest) = (place new (some q) rest).bind fun found =>
          some (q :: found.1, found.2.1, joins prev q && found.2.2) := by
        have notBefore : ¬ new.start < q.start := by omega
        have notSame : new.start ≠ q.start := by omega
        have notInside : ¬ new.start < q.stop := by omega
        rw [place, if_neg notBefore, if_neg notSame, if_neg notInside]
        rfl
      rw [passes]
      have behindQ : ∀ r ∈ some q, r.stop ≤ new.start := by
        simpa using before
      rcases ih later ordered apart behindQ with ⟨member, dropped⟩ | ⟨passed, behind, rfl, left, right, placed⟩
      · exact .inl ⟨List.mem_cons_of_mem _ member, by rw [dropped]; rfl⟩
      · refine .inr ⟨q :: passed, behind, rfl, List.forall_mem_cons.mpr ⟨before, left⟩, right, ?_⟩
        rw [placed, Option.bind_some, joined_some]
        split <;> rfl
    · -- in front of `q`
      have isBefore : new.start < q.start := by omega
      refine .inr ⟨[], q :: rest, rfl, by simp, ?_, ?_⟩
      · refine List.forall_mem_cons.mpr ⟨after, fun r member => ?_⟩
        have := first r member
        omega
      · have clear : overlaps new prev q = false := by
          cases prev with
          | none => rfl
          | some prev =>
            have := inFront prev rfl
            simp only [overlaps, Bool.or_eq_false_iff, decide_eq_false_iff_not]
            omega
        rw [place, if_pos isBefore, clear]
        rfl

/-! ### What the sender cut -/

/-- A datagram that its sender cuts into fragments: at least two, none empty, all but the last in units of eight
bytes, and short enough for the length field of the whole. -/
structure Sent where
  hdr : IpHdr
  chunks : List (List UInt8)
  nonempty : ∀ chunk ∈ chunks, chunk ≠ []
  units : ∀ chunk ∈ chunks.dropLast, 8 ∣ chunk.length
  several : 2 ≤ chunks.length
  fits : chunks.flatten.length ≤ 65515

namespace Sent

variable (sent : Sent)

def payload : List UInt8 := sent.chunks.flatten

def pieces : List (Piece UInt8) := cut 0 sent.chunks

/-- The header of a fragment, or of the whole. -/
def header (len offset : Nat) : IpHdr := { sent.hdr with hl := 5, len := len, offset := offset }

/-- The fragment with a piece of the payload, as it arrives in `clen` pbufs. -/
def fragment (piece : Piece UInt8) (clen : Nat) (chained : 0 < clen ∧ clen ≤ 12) : Fragment :=
  ⟨sent.header (20 + piece.data.length)
      (piece.start / 8 + if piece.stop = sent.payload.length then 0 else 0x2000),
    piece.data, clen, chained⟩

/-- The datagram, had it not been cut. -/
def whole : Whole := ⟨sent.header (20 + sent.payload.length) 0, sent.payload⟩

theorem pieces_runs : Runs 0 sent.pieces sent.payload.length := by
  simpa [pieces, payload] using cut_runs sent.nonempty 0

theorem pieces_data : sent.pieces.flatMap Piece.data = sent.payload := cut_data sent.chunks 0

theorem pieces_ne_nil : sent.pieces ≠ [] := by
  have several := sent.several
  unfold pieces
  cases chunks : sent.chunks with
  | nil => simp [chunks] at several
  | cons chunk rest => simp [cut]

variable {sent}

/-- The fields of a fragment say where its piece starts, and where it stops. -/
theorem fragment_stretch {piece : Piece UInt8} (member : piece ∈ sent.pieces) {clen : Nat}
    (chained : 0 < clen ∧ clen ≤ 12) :
    (sent.fragment piece clen chained).hdr.start = piece.start ∧
      (sent.fragment piece clen chained).hdr.stop = piece.stop := by
  have bounds := sent.pieces_runs.bounds.2 piece member
  have length := cut_length member
  have fits : sent.payload.length ≤ 65515 := sent.fits
  obtain ⟨unit, aligned⟩ := cut_dvd sent.units (Nat.dvd_zero 8) piece member
  have start : (sent.fragment piece clen chained).hdr.start = piece.start := by
    simp only [IpHdr.start, fragment, header]
    split <;> omega
  have dataLen : (sent.fragment piece clen chained).hdr.dataLen = piece.data.length := by
    simp only [IpHdr.dataLen, fragment, header]
    omega
  refine ⟨start, ?_⟩
  rw [IpHdr.stop, start, dataLen]
  omega

theorem fragment_frag {piece : Piece UInt8} (member : piece ∈ sent.pieces) {clen : Nat}
    (chained : 0 < clen ∧ clen ≤ 12) : (sent.fragment piece clen chained).frag = ⟨piece, clen⟩ := by
  obtain ⟨start, stop⟩ := fragment_stretch member chained
  rw [Fragment.frag, start, stop]
  rfl

/-- The last fragment, and no other, is marked as such. -/
theorem fragment_more {piece : Piece UInt8} (member : piece ∈ sent.pieces) {clen : Nat}
    (chained : 0 < clen ∧ clen ≤ 12) :
    (sent.fragment piece clen chained).hdr.more = true ↔ piece.stop ≠ sent.payload.length := by
  have bounds := sent.pieces_runs.bounds.2 piece member
  have fits : sent.payload.length ≤ 65515 := sent.fits
  simp only [IpHdr.more, fragment, header, beq_iff_eq]
  split <;> omega

end Sent

/-! ### Gathering the fragments -/

/-- The entry holds some of the fragments of the datagram, and not all of them. -/
structure Gathers (sent : Sent) (ipr : Datagram) : Prop where
  part : (ipr.p.map Frag.piece).Sublist sent.pieces
  lacking : ipr.p.map Frag.piece ≠ sent.pieces
  last : ipr.lastFrag = true ↔ ∃ q ∈ ipr.p, q.stop = sent.payload.length
  len : ipr.lastFrag = true → ipr.datagramLen = sent.payload.length
  iphdr : ∃ len offset, ipr.iphdr = sent.header len offset

/-- Everything is there but a stretch right in front of the new fragment, which is neither first nor last. -/
def HiddenGap (sent : Sent) (ipr : Datagram) (piece : Piece UInt8) : Prop :=
  ∃ front gap back, sent.pieces = front ++ gap ++ piece :: back ∧ front ≠ [] ∧ gap ≠ [] ∧ back ≠ [] ∧
    ipr.p.map Frag.piece = front ++ back

section Gathers

variable {sent : Sent} {ipr : Datagram} {piece : Piece UInt8} {clen : Nat}

theorem Gathers.positive (gathers : Gathers sent ipr) : ∀ q ∈ ipr.p, q.start < q.stop := fun q member =>
  (sent.pieces_runs.bounds.2 q.piece (gathers.part.subset (List.mem_map_of_mem member))).2.1

theorem Gathers.ordered (gathers : Gathers sent ipr) : ipr.p.Pairwise fun q r => q.stop ≤ r.start :=
  List.pairwise_map.mp (sent.pieces_runs.pairwise.sublist gathers.part)

theorem Gathers.new (hdr : IpHdr) (same : ∃ len offset, hdr = sent.header len offset) :
    Gathers sent (Datagram.new hdr) where
  part := List.nil_sublist _
  lacking := sent.pieces_ne_nil.symm
  last := by simp [Datagram.new]
  len := by simp [Datagram.new]
  iphdr := same

theorem Gathers.noteHeader (gathers : Gathers sent ipr) {hdr : IpHdr}
    (same : ∃ len offset, hdr = sent.header len offset) : Gathers sent (ipr.noteHeader hdr) := by
  rw [Datagram.noteHeader]
  split
  · exact { gathers with iphdr := same }
  · exact gathers

/-- A fragment of the datagram that arrives again is thrown away; any other finds its place. -/
theorem Gathers.place (gathers : Gathers sent ipr) (member : piece ∈ sent.pieces) (clen : Nat) :
    (piece ∈ ipr.p.map Frag.piece ∧ place ⟨piece, clen⟩ none ipr.p = none) ∨
      ∃ passed behind, ipr.p = passed ++ behind ∧
        ((passed ++ ⟨piece, clen⟩ :: behind).map Frag.piece).Sublist sent.pieces ∧
        place ⟨piece, clen⟩ none ipr.p =
          some (passed, behind, joined none (if behind = [] then passed ++ [⟨piece, clen⟩] else passed)) := by
  have positive : piece.start < piece.stop := (sent.pieces_runs.bounds.2 piece member).2.1
  have apart : ∀ q ∈ ipr.p, q.piece = piece ∨ q.stop ≤ piece.start ∨ piece.stop ≤ q.start := fun q inList =>
    sent.pieces_runs.apart (gathers.part.subset (List.mem_map_of_mem inList)) member
  rcases @place_spec ⟨piece, clen⟩ positive ipr.p gathers.positive gathers.ordered apart none (by simp)
    with again | ⟨passed, behind, cut, left, right, placed⟩
  · exact .inl again
  · refine .inr ⟨passed, behind, cut, ?_, placed⟩
    have part := gathers.part
    have inOrder := gathers.positive
    rw [cut] at part inOrder
    rw [List.map_append] at part
    rw [List.map_append, List.map_cons]
    refine sublist_insert sent.pieces_runs part member ?_ ?_
    · rintro other mapped
      obtain ⟨q, inFront, rfl⟩ := List.mem_map.mp mapped
      exact Nat.lt_of_lt_of_le (inOrder q (List.mem_append_left _ inFront)) (left q inFront)
    · rintro other mapped
      obtain ⟨q, inBack, rfl⟩ := List.mem_map.mp mapped
      exact Nat.lt_of_lt_of_le positive (right q inBack)

end Gathers

/-! ### The verdict -/

section Verdict

variable {sent : Sent} {passed behind : List Frag} {new : Frag} {lastFrag : Bool}

theorem joined_none_iff {list : List Frag} (positive : ∀ q ∈ list, q.start < q.stop) :
    joined none list = true ∧ (∀ q ∈ list.head?, q.start = 0) ↔ ∃ last, Runs 0 (list.map Frag.piece) last := by
  cases list with
  | nil => simp [joined, Runs]
  | cons q rest =>
    obtain ⟨here, later⟩ := List.forall_mem_cons.mp positive
    simp only [joined, joins, Bool.true_and, contiguous_iff later, List.head?_cons, Option.mem_some_iff,
      forall_eq', List.map_cons, Runs]
    constructor
    · rintro ⟨⟨last, runs⟩, zero⟩
      exact ⟨last, zero, Nat.lt_of_le_of_lt (Nat.zero_le _) here, runs⟩
    · rintro ⟨last, zero, _, runs⟩
      exact ⟨⟨last, runs⟩, zero⟩

/-- What the pass computes for a fragment with `passed` in front of it and `behind` behind it. -/
def verdict (lastFrag : Bool) (passed : List Frag) (new : Frag) (behind : List Frag) : Bool :=
  lastFrag && joined none (if behind = [] then passed ++ [new] else passed) &&
    startsAtZero (passed ++ new :: behind) && contiguous new behind

theorem startsAtZero_iff :
    startsAtZero (passed ++ new :: behind) = true ↔ ∀ q ∈ (passed ++ [new]).head?, q.start = 0 := by
  cases passed <;> simp [startsAtZero]

/-- Where the last fragment is there and nothing is missing behind the new one, the new one and what is behind it
are the end of the datagram. -/
theorem ending (part : ((passed ++ new :: behind).map Frag.piece).Sublist sent.pieces)
    (last : ∃ q ∈ passed ++ new :: behind, q.stop = sent.payload.length)
    (onward : contiguous new behind = true) :
    ∃ front, sent.pieces = front ++ new.piece :: behind.map Frag.piece ∧
      (passed.map Frag.piece).Sublist front ∧ Runs 0 front new.start := by
  have whole := sent.pieces_runs
  have bounds : ∀ q ∈ passed ++ new :: behind, q.start < q.stop ∧ q.stop ≤ sent.payload.length := fun q member =>
    (whole.bounds.2 q.piece (part.subset (List.mem_map_of_mem member))).2
  rw [List.map_append, List.map_cons] at part
  have apart := (List.pairwise_append.mp (whole.pairwise.sublist part)).2.2
  obtain ⟨stop, runs⟩ := (contiguous_iff (fun q member => (bounds q (by simp [member])).1) new).mp onward
  have fromNew : Runs new.start (new.piece :: behind.map Frag.piece) stop :=
    ⟨rfl, (bounds new (by simp)).1, runs⟩
  -- the run behind the new fragment ends with the payload
  have reaches : stop = sent.payload.length := by
    refine Nat.le_antisymm ?_ ?_
    · obtain ⟨r, member, rfl⟩ := fromNew.exists_stop (by simp)
      exact (whole.bounds.2 r (part.subset (List.mem_append_right _ member))).2.2
    · obtain ⟨q, member, ends⟩ := last
      rcases List.mem_append.mp member with inFront | inBack
      · have before := apart q.piece (List.mem_map_of_mem inFront) new.piece List.mem_cons_self
        have within := fromNew.bounds.1
        rw [← ends]
        exact Nat.le_trans before within
      · have within := (fromNew.bounds.2 q.piece (List.mem_map_of_mem inBack)).2.2
        rw [← ends]
        exact within
  obtain ⟨front, cut⟩ := whole.final ((List.sublist_append_right _ _).trans part) (reaches ▸ runs)
  rw [cut] at part whole
  obtain ⟨_, before, rfl, _⟩ := runs_append.mp whole
  exact ⟨front, cut, (List.append_sublist_append_right _).mp part, before⟩

/-- **The verdict.** The datagram counts as complete when nothing is missing, or nothing but a stretch right in
front of the new fragment, with fragments on both sides. -/
theorem verdict_iff (part : ((passed ++ new :: behind).map Frag.piece).Sublist sent.pieces)
    (last : lastFrag = true ↔ ∃ q ∈ passed ++ new :: behind, q.stop = sent.payload.length) :
    verdict lastFrag passed new behind = true ↔
      ∃ gap, sent.pieces = passed.map Frag.piece ++ gap ++ new.piece :: behind.map Frag.piece ∧
        (gap = [] ∨ passed ≠ [] ∧ behind ≠ []) := by
  have whole := sent.pieces_runs
  have positive : ∀ q ∈ passed ++ new :: behind, q.start < q.stop := fun q member =>
    (whole.bounds.2 q.piece (part.subset (List.mem_map_of_mem member))).2.1
  have positiveNew : ∀ q ∈ passed ++ [new], q.start < q.stop := fun q member => positive q (by
    rcases List.mem_append.mp member with member | member <;> simp_all)
  have positivePassed : ∀ q ∈ passed, q.start < q.stop := fun q member => positive q (by simp [member])
  have positiveBehind : ∀ q ∈ behind, q.start < q.stop := fun q member => positive q (by simp [member])
  simp only [verdict, Bool.and_eq_true, startsAtZero_iff, last]
  constructor
  · rintro ⟨⟨⟨here, front⟩, zero⟩, onward⟩
    obtain ⟨front', cut, collected, upTo⟩ := ending part here onward
    by_cases isLast : behind = []
    · rw [if_pos isLast] at front
      obtain ⟨stop, runs⟩ := (joined_none_iff positiveNew).mp ⟨front, zero⟩
      rw [List.map_append, runs_append] at runs
      obtain ⟨middle, before, same, _⟩ := runs
      obtain ⟨gap, rfl, rest⟩ := upTo.initial collected before
      rw [← same] at rest
      exact ⟨[], by rw [cut, rest.eq_nil], .inl rfl⟩
    · rw [if_neg isLast] at front
      by_cases isFirst : passed = []
      · subst isFirst
        rw [show new.start = 0 from zero new rfl] at upTo
        exact ⟨[], by rw [cut, upTo.eq_nil]; rfl, .inl rfl⟩
      · have zero' : ∀ q ∈ passed.head?, q.start = 0 := by
          intro q member
          refine zero q ?_
          rw [List.head?_append, Option.mem_def.mp member]
          rfl
        obtain ⟨middle, before⟩ := (joined_none_iff positivePassed).mp ⟨front, zero'⟩
        obtain ⟨gap, rfl, _⟩ := upTo.initial collected before
        exact ⟨gap, cut, .inr ⟨isFirst, isLast⟩⟩
  · rintro ⟨gap, cut, visible⟩
    rw [cut, List.append_assoc, runs_append] at whole
    obtain ⟨middle, before, whole⟩ := whole
    obtain ⟨start, missing, onward⟩ := runs_append.mp whole
    obtain ⟨piece, member, ends⟩ := onward.exists_stop (by simp)
    obtain ⟨starts, ahead, runs⟩ := onward
    have passedRuns := (joined_none_iff positivePassed).mpr ⟨middle, before⟩
    have opening : joined none (if behind = [] then passed ++ [new] else passed) = true ∧
        ∀ q ∈ (passed ++ [new]).head?, q.start = 0 := by
      rcases visible with rfl | ⟨isFirst, isLast⟩
      · have newRuns : Runs 0 ((passed ++ [new]).map Frag.piece) new.stop := by
          rw [List.map_append, runs_append]
          exact ⟨middle, before, starts.trans (Eq.symm missing), missing ▸ ahead, rfl⟩
        obtain ⟨front, zero⟩ := (joined_none_iff positiveNew).mpr ⟨_, newRuns⟩
        refine ⟨?_, zero⟩
        split
        · exact front
        · exact passedRuns.1
      · rw [if_neg isLast, List.head?_append_of_ne_nil _ isFirst]
        exact passedRuns
    refine ⟨⟨⟨?_, opening.1⟩, opening.2⟩, (contiguous_iff positiveBehind new).mpr ⟨_, runs⟩⟩
    rw [← List.map_cons] at member
    obtain ⟨q, inBack, rfl⟩ := List.mem_map.mp member
    exact ⟨q, List.mem_append_right _ inBack, ends⟩

end Verdict

/-! ### One fragment more -/

section Receive

variable {sent : Sent} {ipr : Datagram} {piece : Piece UInt8} {clen : Nat}

theorem noteLast_p (hdr : IpHdr) : (ipr.noteLast hdr).p = ipr.p := by
  rw [Datagram.noteLast]
  split <;> rfl

theorem noteLast_iphdr (hdr : IpHdr) : (ipr.noteLast hdr).iphdr = ipr.iphdr := by
  rw [Datagram.noteLast]
  split <;> rfl

/-- The end of the datagram is known from the last fragment on. -/
theorem Gathers.noteLast (gathers : Gathers sent ipr) (member : piece ∈ sent.pieces)
    (chained : 0 < clen ∧ clen ≤ 12) :
    let noted := ipr.noteLast (sent.fragment piece clen chained).hdr
    (noted.lastFrag = true ↔ (∃ q ∈ ipr.p, q.stop = sent.payload.length) ∨ piece.stop = sent.payload.length) ∧
      (noted.lastFrag = true → noted.datagramLen = sent.payload.length) := by
  have marked := Sent.fragment_more member chained
  intro noted
  by_cases isLast : piece.stop = sent.payload.length
  · have more : (sent.fragment piece clen chained).hdr.more = false := by
      rw [← Bool.not_eq_true, marked]
      exact not_not_intro isLast
    have stop := (Sent.fragment_stretch member chained).2
    have same : noted = { ipr with lastFrag := true, datagramLen := sent.payload.length } := by
      rw [← isLast, ← stop]
      simp only [noted, Datagram.noteLast, more, Bool.false_eq_true, if_false]
    rw [same]
    exact ⟨⟨fun _ => .inr isLast, fun _ => rfl⟩, fun _ => rfl⟩
  · have more : (sent.fragment piece clen chained).hdr.more = true := marked.mpr isLast
    have same : noted = ipr := by
      simp only [noted, Datagram.noteLast, more, if_true]
    rw [same, gathers.last]
    exact ⟨by simp [isLast], fun here => gathers.len (gathers.last.mpr here)⟩

/-- **What becomes of a fragment**: thrown away, or put in its place and judged. -/
theorem Gathers.receive (gathers : Gathers sent ipr) (member : piece ∈ sent.pieces)
    (chained : 0 < clen ∧ clen ≤ 12) :
    (piece ∈ ipr.p.map Frag.piece ∧
      ∃ noted, ipr.receive (sent.fragment piece clen chained) = (noted, none) ∧ Gathers sent noted) ∨
    ∃ passed behind chain, ipr.p = passed ++ behind ∧ chain.p = passed ++ ⟨piece, clen⟩ :: behind ∧
      (chain.p.map Frag.piece).Sublist sent.pieces ∧
      (chain.lastFrag = true ↔ ∃ q ∈ chain.p, q.stop = sent.payload.length) ∧
      (chain.lastFrag = true → chain.datagramLen = sent.payload.length) ∧
      (∃ len offset, chain.iphdr = sent.header len offset) ∧
      ipr.receive (sent.fragment piece clen chained) =
        (chain, some (verdict chain.lastFrag passed ⟨piece, clen⟩ behind)) := by
  obtain ⟨last, len⟩ := gathers.noteLast member chained
  have iphdr := gathers.iphdr
  rw [← noteLast_iphdr (sent.fragment piece clen chained).hdr] at iphdr
  have list : (ipr.noteLast (sent.fragment piece clen chained).hdr).p = ipr.p := noteLast_p _
  rcases gathers.place member clen with ⟨there, dropped⟩ | ⟨passed, behind, cut, part, placed⟩
  · refine .inl ⟨there, ipr.noteLast (sent.fragment piece clen chained).hdr, ?_, ?_⟩
    · simp only [Datagram.receive, chainFragIntoDatagramAndValidate, Sent.fragment_frag member, list, dropped]
      rfl
    · refine ⟨list ▸ gathers.part, list ▸ gathers.lacking, ?_, len, iphdr⟩
      rw [last, list]
      obtain ⟨q, inList, rfl⟩ := List.mem_map.mp there
      exact ⟨fun either => either.elim id fun ends => ⟨q, inList, ends⟩, .inl⟩
  · refine .inr ⟨passed, behind,
      { ipr.noteLast (sent.fragment piece clen chained).hdr with p := passed ++ ⟨piece, clen⟩ :: behind },
      cut, rfl, part, ?_, len, iphdr, ?_⟩
    · rw [last, cut]
      simp only [List.mem_append, List.mem_cons, or_and_right, exists_or, exists_eq_left]
      rw [or_assoc]
      exact or_congr_right or_comm
    · simp only [Datagram.receive, chainFragIntoDatagramAndValidate, Sent.fragment_frag member, list, placed]
      rfl

/-- All fragments together are the datagram that was sent. -/
theorem assemble_eq {whole : Datagram} (full : whole.p.map Frag.piece = sent.pieces)
    (len : whole.datagramLen = sent.payload.length) (iphdr : ∃ len offset, whole.iphdr = sent.header len offset) :
    whole.assemble = sent.whole := by
  have fits : sent.payload.length ≤ 65515 := sent.fits
  have data : whole.p.flatMap (·.piece.data) = sent.payload := by
    rw [← sent.pieces_data, ← full, List.flatMap_map]
  have total : (sent.payload.length + 20) % 0x10000 = 20 + sent.payload.length := by omega
  obtain ⟨_, _, same⟩ := iphdr
  rw [Datagram.assemble, data, len, same, total]
  rfl

/-- **A fragment of the datagram arrives**, and it is not the one the pass misjudges: it completes the datagram,
which is then the one that was sent, or fragments are still missing. -/
theorem receive_gathers (gathers : Gathers sent ipr) (member : piece ∈ sent.pieces)
    (chained : 0 < clen ∧ clen ≤ 12) (visible : ¬ HiddenGap sent ipr piece) :
    (∃ whole, ipr.receive (sent.fragment piece clen chained) = (whole, some true) ∧ whole.assemble = sent.whole) ∨
      ∃ kept verdict, ipr.receive (sent.fragment piece clen chained) = (kept, verdict) ∧ verdict ≠ some true ∧
        Gathers sent kept := by
  rcases gathers.receive member chained with
    ⟨_, noted, received, gathers⟩ | ⟨passed, behind, chain, cut, list, part, last, len, iphdr, received⟩
  · exact .inr ⟨noted, none, received, by simp, gathers⟩
  · rw [list] at part last
    have judged := verdict_iff part last
    by_cases complete : verdict chain.lastFrag passed ⟨piece, clen⟩ behind = true
    · obtain ⟨gap, whole, shown⟩ := judged.mp complete
      have none : gap = [] := by
        by_contra missing
        obtain ⟨isFirst, isLast⟩ := shown.resolve_left missing
        refine visible ⟨_, gap, _, whole, by simpa using isFirst, missing, by simpa using isLast, ?_⟩
        rw [cut, List.map_append]
      rw [none, List.append_nil, ← List.map_cons, ← List.map_append, ← list] at whole
      refine .inl ⟨chain, by rw [received, complete], assemble_eq whole.symm (len ?_) iphdr⟩
      rw [verdict, Bool.and_eq_true, Bool.and_eq_true, Bool.and_eq_true] at complete
      exact complete.1.1.1
    · refine .inr ⟨chain, _, received, by simpa using complete, ?_, ?_, ?_, len, iphdr⟩
      · rw [list]
        exact part
      · rw [list]
        intro full
        refine complete (judged.mpr ⟨[], ?_, .inl rfl⟩)
        rw [← full]
        simp
      · rw [list]
        exact last

/-- **A gap in front of the fragment goes unnoticed**: the datagram is handed up without what is missing there. -/
theorem receive_hidden (gathers : Gathers sent ipr) (chained : 0 < clen ∧ clen ≤ 12)
    (hidden : HiddenGap sent ipr piece) :
    ∃ whole, ipr.receive (sent.fragment piece clen chained) = (whole, some true) ∧
      whole.assemble.data.length < sent.payload.length := by
  obtain ⟨front, gap, back, whole, isFirst, missing, isLast, rest⟩ := hidden
  have member : piece ∈ sent.pieces := by
    rw [whole]
    exact List.mem_append_right _ List.mem_cons_self
  have ordered := sent.pieces_runs.pairwise
  have positive := fun piece member => (sent.pieces_runs.bounds.2 piece member).2.1
  rw [whole] at ordered positive
  obtain ⟨_, behindPiece, beforePiece⟩ := List.pairwise_append.mp ordered
  have here := positive piece (by simp)
  have before : ∀ other ∈ front, other.stop ≤ piece.start := fun other inFront =>
    beforePiece other (List.mem_append_left _ inFront) piece List.mem_cons_self
  have after : ∀ other ∈ back, piece.stop ≤ other.start := (List.pairwise_cons.mp behindPiece).1
  rcases gathers.receive member chained with
    ⟨there, _⟩ | ⟨passed, behind, chain, cut, list, part, last, len, iphdr, received⟩
  · rw [rest] at there
    rcases List.mem_append.mp there with inFront | inBack
    · have := before piece inFront
      omega
    · have := after piece inBack
      omega
  · -- the fragment is put between the two parts, and the verdict does not see what is missing
    rw [list] at part last
    have inPlace := part
    rw [List.map_append, List.map_cons] at inPlace
    obtain ⟨_, follows, passes⟩ := List.pairwise_append.mp (sent.pieces_runs.pairwise.sublist inPlace)
    rw [cut, List.map_append] at rest
    obtain ⟨rfl, rfl⟩ := @split_unique _ front back _ _ piece.stop rest
      (fun other inFront => by
        have := before other inFront
        have := positive other (by simp [inFront])
        omega)
      after
      (fun other inFront => by
        have := passes other inFront piece List.mem_cons_self
        have := positive other (whole ▸ inPlace.subset (List.mem_append_left _ inFront))
        omega)
      (List.pairwise_cons.mp follows).1
    have complete := (verdict_iff part last).mpr
      ⟨gap, whole, .inr ⟨by simpa using isFirst, by simpa using isLast⟩⟩
    refine ⟨chain, by rw [received, complete], ?_⟩
    obtain ⟨lost, inGap⟩ := List.exists_mem_of_ne_nil gap missing
    have inside : lost ∈ sent.pieces := by
      rw [whole]
      simp [inGap]
    have size : 0 < (gap.flatMap Piece.data).length := by
      have length := cut_length inside
      have := positive lost (whole ▸ inside)
      refine List.length_pos_of_mem (a := lost.data.get ⟨0, by omega⟩) ?_
      exact List.mem_flatMap.mpr ⟨lost, inGap, List.get_mem _ _⟩
    rw [← sent.pieces_data, whole, Datagram.assemble, list]
    simp only [List.flatMap_append, List.flatMap_cons, List.length_append, List.flatMap_map]
    omega

end Receive

end ULoader.Ip

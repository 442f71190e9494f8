/-
**The heap and the code that uses it.**

Pools, packets and the DHCP client take memory from `mem_malloc`, write into it, shorten it with
`mem_trim` and give it back with `mem_free`, in any order. `Region` is what a client was given and what it
has written there.

* **`kept_iff`** — in every run the regions are aligned, inside the heap, apart from each other, and hold
  what their owners wrote, exactly as long as nobody asks for 65533 bytes or more and gets an answer:
  such a request is rounded up past the 16 bits of `mem_size_t`, and twelve bytes are handed out for it.
* **`malloc_lowest`** — in a run without such requests, `mem_malloc` returns the lowest address where a
  request of at least one byte fits between the blocks in use, and fails only if it fits nowhere.
* **`returned_whole`** — in a run without such requests, when everything has been given back, in whatever
  order, the heap is one free block again.
-/

import Mathlib.Data.List.Nodup
import ULoader.Eth.Memory
import ULoader.Lib.StepSystem
import ULoader.Mem.Layout

namespace ULoader.Mem

open Blocks StepSystem
open ULoader.Eth (readBytes)

/-! ### Clients -/

/-- What `mem_malloc` gave to a client: the address, and what the client's bytes should be. -/
structure Region where
  addr : Nat
  bytes : List UInt8

/-- The heap with its clients. -/
structure State where
  heap : Heap
  owned : List Region

inductive Event
  /-- `mem_malloc(size)`. -/
  | malloc (size : Nat)
  /-- `mem_free(rmem)`. -/
  | free (rmem : Nat)
  /-- `mem_trim(rmem, newsize)`. -/
  | trim (rmem newsize : Nat)
  /-- A client writes a byte into its region. -/
  | write (rmem index : Nat) (byte : UInt8)

/-- The region at an address, changed. -/
def update (owned : List Region) (rmem : Nat) (change : List UInt8 → List UInt8) : List Region :=
  owned.map fun region => if region.addr = rmem then ⟨rmem, change region.bytes⟩ else region

/-- One call, or one write of a client. A client frees and shortens only what it owns (`mem_free` itself
sorts out `NULL` and what is not of the heap), shortens to no more than it had, and writes inside. -/
def step (s : State) : Event → Option State
  | .malloc size =>
    if size < 65536 then
      (memMalloc s.heap size).map fun (heap, rmem) =>
        ⟨heap, if rmem = 0 then s.owned else ⟨rmem, readBytes heap.mem rmem size⟩ :: s.owned⟩
    else none
  | .free rmem =>
    if rmem = 0 ∨ rmem < s.heap.ram ∨ s.heap.ramEnd ≤ rmem ∨ ∃ region ∈ s.owned, region.addr = rmem then
      some ⟨memFree s.heap rmem, s.owned.filter (·.addr ≠ rmem)⟩
    else none
  | .trim rmem newsize =>
    if ∃ region ∈ s.owned, region.addr = rmem ∧ newsize ≤ region.bytes.length then
      let (heap, result) := memTrim s.heap rmem newsize
      some ⟨heap, if result = 0 then s.owned else update s.owned rmem (List.take newsize)⟩
    else none
  | .write rmem index byte =>
    if ∃ region ∈ s.owned, region.addr = rmem ∧ index < region.bytes.length then
      some ⟨{ s.heap with mem := Function.update s.heap.mem (rmem + index) byte },
        update s.owned rmem (List.set · index byte)⟩
    else none

/-- After `mem_init()`. -/
def initial (m : Memory) (ramHeap : Nat) : State := ⟨memInit m ramHeap, []⟩

/-- **Every region is aligned, inside the heap, apart from the others, and holds what its owner wrote;**
and `mem_malloc` returns, whatever it is asked for. -/
def Kept (s : State) : Prop :=
  (∀ region ∈ s.owned, 4 ∣ region.addr ∧ s.heap.ram ≤ region.addr ∧
    region.addr + region.bytes.length ≤ s.heap.ramEnd ∧
    readBytes s.heap.mem region.addr region.bytes.length = region.bytes) ∧
  s.owned.Pairwise (fun region other => region.addr + region.bytes.length ≤ other.addr ∨
    other.addr + other.bytes.length ≤ region.addr) ∧
  ∀ size, (memMalloc s.heap size).isSome

/-- A request is for at most 65532 bytes, or fails. -/
def Asked (s : State) : Event → Prop
  | .malloc size => size ≤ 65532 ∨ ∃ heap, memMalloc s.heap size = some (heap, 0)
  | _ => True

/-! ### Regions and blocks -/

/-- **The invariant**: the regions are the blocks in use, one each. -/
structure Owned (s : State) (blocks : List Block) : Prop where
  laid : Laid s.heap blocks
  aligned : 4 ∣ s.heap.ram
  held : ∀ region ∈ s.owned, ∃ a block, region.addr = a + sizeofStructMem ∧
    (a, block) ∈ inUse s.heap.ram blocks ∧ region.bytes.length + sizeofStructMem ≤ block.size ∧
    readBytes s.heap.mem region.addr region.bytes.length = region.bytes
  owner : ∀ a block, (a, block) ∈ inUse s.heap.ram blocks →
    ∃ region ∈ s.owned, region.addr = a + sizeofStructMem
  distinct : (s.owned.map Region.addr).Nodup

section Steps

variable {s : State} {blocks blocks' : List Block} {h' : Heap} {gone come : List (Nat × Block)}
  {regions : List Region}

theorem Owned.positive (owned : Owned s blocks) : ∀ block ∈ blocks, 0 < block.size := by
  intro block member
  have := (owned.laid.chained.sized block member).1
  omega

/-- Blocks start at multiples of four. -/
theorem Owned.block (owned : Owned s blocks) {a : Nat} {block : Block}
    (used : (a, block) ∈ inUse s.heap.ram blocks) :
    4 ∣ a ∧ s.heap.ram ≤ a ∧ a + block.size ≤ s.heap.ramEnd ∧ 20 ≤ block.size := by
  have placedHere := (mem_inUse.mp used).1
  have inside := placed_bounds placedHere
  rw [owned.laid.chained.whole] at inside
  obtain ⟨front, back, rfl, rfl⟩ := mem_placed_iff.mp placedHere
  refine ⟨Nat.dvd_add owned.aligned (dvd_total fun block member => ?_), inside.1, inside.2,
    owned.laid.chained.size.1⟩
  exact (owned.laid.chained.sized block (by simp [member])).2

theorem Owned.bounds (owned : Owned s blocks) {region : Region} (member : region ∈ s.owned) :
    4 ∣ region.addr ∧ s.heap.ram < region.addr ∧ region.addr < s.heap.ramEnd ∧
      region.addr + region.bytes.length ≤ s.heap.ramEnd := by
  obtain ⟨a, block, here, used, room, -⟩ := owned.held region member
  obtain ⟨aligned, above, below, least⟩ := owned.block used
  rw [sizeofStructMem] at here room
  exact ⟨by omega, by omega, by omega, by omega⟩

/-- An address occurs once among blocks with different addresses. -/
theorem apart_of_nodup {low middle high : List (Nat × Block)} {a : Nat} {block other : Block}
    (nodup : ((low ++ middle ++ high).map Prod.fst).Nodup) (inside : (a, block) ∈ middle)
    (outside : (a, other) ∈ low ++ high) : False := by
  have inside' := List.mem_map_of_mem (f := Prod.fst) inside
  have outside' := List.mem_map_of_mem (f := Prod.fst) outside
  simp only [List.map_append, List.nodup_append, List.mem_append] at nodup outside'
  rcases outside' with early | late
  · exact nodup.1.2.2 a early a inside' rfl
  · exact nodup.2.2 a (.inr inside') a late rfl

theorem readBytes_congr {m other : Memory} {addr count : Nat}
    (same : ∀ i, addr ≤ i → i < addr + count → other i = m i) :
    readBytes other addr count = readBytes m addr count :=
  List.map_congr_left fun i member => same _ (by omega) (by have := List.mem_range.mp member; omega)

theorem readBytes_update (m : Memory) (addr count index : Nat) (byte : UInt8) :
    readBytes (Function.update m (addr + index) byte) addr count =
      (readBytes m addr count).set index byte := by
  apply List.ext_getElem
  · simp [readBytes]
  · intro i _ _
    simp only [readBytes, List.getElem_map, List.getElem_range, List.getElem_set, Function.update_apply]
    by_cases same : index = i
    · simp [same]
    · rw [if_neg (by omega), if_neg same]

/-- **One call, seen by the clients**: the regions of the blocks that stay are untouched. What has to be
shown of a call is what happens to the region it is about. -/
theorem Owned.edit (owned : Owned s blocks) (edit : Edit s.heap h' blocks blocks' gone come)
    (each : ∀ region ∈ regions,
      (region ∈ s.owned ∧ ∀ a block, (a, block) ∈ gone → region.addr ≠ a + sizeofStructMem) ∨
      ∃ a block, (a, block) ∈ come ∧ region.addr = a + sizeofStructMem ∧
        region.bytes.length + sizeofStructMem ≤ block.size ∧
        readBytes h'.mem region.addr region.bytes.length = region.bytes)
    (others : ∀ region ∈ s.owned, (∀ a block, (a, block) ∈ gone → region.addr ≠ a + sizeofStructMem) →
      region ∈ regions)
    (arrived : ∀ a block, (a, block) ∈ come → ∃ region ∈ regions, region.addr = a + sizeofStructMem)
    (distinct : (regions.map Region.addr).Nodup) : Owned ⟨h', regions⟩ blocks' := by
  obtain ⟨low, high, before, after, untouched⟩ := edit.inUse
  refine ⟨edit.laid, edit.ram ▸ owned.aligned, ?_, ?_, distinct⟩
  · intro region member
    rcases each region member with ⟨member, stays⟩ | ⟨a, block, new, here, room, bytes⟩
    · obtain ⟨a, block, here, used, room, bytes⟩ := owned.held region member
      have apart : (a, block) ∉ gone := fun left => stays a block left here
      have kept : (a, block) ∈ low ++ high := by
        rw [before] at used
        simp only [List.mem_append] at used ⊢
        tauto
      refine ⟨a, block, here, ?_, room, ?_⟩
      · rw [after]
        simp only [List.mem_append] at kept ⊢
        tauto
      · refine (readBytes_congr fun i above below => ?_).trans bytes
        exact untouched a block kept i (by omega) (by omega)
    · exact ⟨a, block, here, by rw [after]; simp [new], room, bytes⟩
  · intro a block used
    rw [after] at used
    by_cases new : (a, block) ∈ come
    · exact arrived a block new
    · have stays : (a, block) ∈ low ++ high := by
        simp only [List.mem_append] at used ⊢
        tauto
      obtain ⟨region, member, here⟩ := owned.owner a block (by
        rw [before]
        simp only [List.mem_append] at stays ⊢
        tauto)
      refine ⟨region, others region member fun a' block' left same => ?_, here⟩
      obtain rfl : a' = a := by omega
      exact apart_of_nodup (before ▸ inUse_nodup owned.positive s.heap.ram) left stays

/-- `mem_malloc` keeps the invariant, when the answer is as long as the request. -/
theorem Owned.malloc (owned : Owned s blocks) {size rmem : Nat}
    (returned : memMalloc s.heap size = some (h', rmem)) (sized : size ≤ 65532 ∨ rmem = 0) :
    ∃ blocks', Owned ⟨h', if rmem = 0 then s.owned
      else ⟨rmem, readBytes h'.mem rmem size⟩ :: s.owned⟩ blocks' := by
  rcases memMalloc_spec owned.laid size with ⟨failed, -⟩ | ⟨-, h'', mem, taken, blocks', found, edit, room, -, -⟩
  · rw [failed] at returned
    cases returned
    exact ⟨blocks, by rw [if_pos rfl]; exact owned⟩
  · rw [found] at returned
    cases returned
    have nonzero : mem + sizeofStructMem ≠ 0 := by
      rw [sizeofStructMem]
      omega
    have fits : size ≤ dataSize size := by
      rcases sized with small | null
      · rw [dataSize, minSizeAligned, u16, alignSize]
        split <;> omega
      · exact absurd null nonzero
    refine ⟨blocks', ?_⟩
    rw [if_neg nonzero]
    have length : (readBytes h'.mem (mem + sizeofStructMem) size).length = size := by simp [readBytes]
    refine owned.edit edit ?_ ?_ ?_ ?_
    · rintro region (_ | ⟨_, member⟩)
      · exact .inr ⟨mem, _, List.mem_singleton_self _, rfl, by simp only [length]; omega, by simp only [length]⟩
      · exact .inl ⟨member, by simp⟩
    · exact fun region member _ => List.mem_cons_of_mem _ member
    · rintro a block (_ | ⟨_, member⟩)
      · exact ⟨_, List.mem_cons_self, rfl⟩
      · cases member
    · rw [List.map_cons, List.nodup_cons]
      refine ⟨fun again => ?_, owned.distinct⟩
      obtain ⟨region, member, same⟩ := List.mem_map.mp again
      obtain ⟨a, block, here, used, -⟩ := owned.held region member
      obtain ⟨low, high, before, after, -⟩ := edit.inUse
      obtain rfl : a = mem := by
        simp only at same
        omega
      have positive : ∀ block ∈ blocks', 0 < block.size := by
        intro block member
        have := (edit.laid.chained.sized block member).1
        omega
      exact apart_of_nodup (after ▸ inUse_nodup positive h'.ram) (List.mem_singleton_self _)
        (by simpa [before] using used)

/-- `mem_free` keeps the invariant. -/
theorem Owned.free (owned : Owned s blocks) {rmem : Nat}
    (allowed : rmem = 0 ∨ rmem < s.heap.ram ∨ s.heap.ramEnd ≤ rmem ∨ ∃ region ∈ s.owned, region.addr = rmem) :
    ∃ blocks', Owned ⟨memFree s.heap rmem, s.owned.filter (·.addr ≠ rmem)⟩ blocks' := by
  by_cases known : ∃ region ∈ s.owned, region.addr = rmem
  · obtain ⟨region, member, rfl⟩ := known
    obtain ⟨mem, block, here, used, -⟩ := owned.held region member
    rw [here]
    obtain ⟨blocks', edit⟩ := memFree_spec owned.laid used
    refine ⟨blocks', owned.edit edit ?_ ?_ (by simp) ?_⟩
    · intro other remains
      obtain ⟨remains, different⟩ := List.mem_filter.mp remains
      exact .inl ⟨remains, by simpa using different⟩
    · intro other owns stays
      exact List.mem_filter.mpr ⟨owns, by simpa using stays mem block⟩
    · exact owned.distinct.sublist (List.filter_sublist.map _)
  -- what is not of the heap is left alone
  · have ignored : memFree s.heap rmem = s.heap := by
      rw [memFree]
      split
      next => rfl
      next notNull =>
        rcases allowed with null | below | above | owns
        · exact absurd null notNull
        · rw [if_pos (.inl below)]
        · rw [if_pos (.inr above)]
        · exact absurd owns known
    have all : s.owned.filter (·.addr ≠ rmem) = s.owned :=
      List.filter_eq_self.mpr fun region member => by simpa using fun same => known ⟨region, member, same⟩
    rw [ignored, all]
    exact ⟨blocks, owned⟩

theorem update_addr (owned : List Region) (rmem : Nat) (change : List UInt8 → List UInt8) :
    (update owned rmem change).map Region.addr = owned.map Region.addr := by
  rw [update, List.map_map]
  refine List.map_congr_left fun region _ => ?_
  simp only [Function.comp_apply]
  split
  next same => exact same.symm
  next => rfl

/-- `mem_trim` keeps the invariant. -/
theorem Owned.trim (owned : Owned s blocks) {region : Region} (member : region ∈ s.owned) {newsize : Nat}
    (shorter : newsize ≤ region.bytes.length) :
    ∃ blocks', Owned ⟨(memTrim s.heap region.addr newsize).1,
      if (memTrim s.heap region.addr newsize).2 = 0 then s.owned
      else update s.owned region.addr (List.take newsize)⟩ blocks' := by
  obtain ⟨mem, block, here, used, room, bytes⟩ := owned.held region member
  have size := owned.block used
  rw [here]
  rcases memTrim_spec owned.laid used newsize with
    ⟨-, failed⟩ | ⟨h', blocks', taken, trimmed, edit, enough, kept⟩
  · rw [failed]
    exact ⟨blocks, by rw [if_pos rfl]; exact owned⟩
  · have fits : newsize ≤ dataSize newsize := by
      have whole : s.heap.ramEnd = s.heap.ram + 10240 := rfl
      rw [dataSize, minSizeAligned, u16, alignSize]
      split <;> omega
    rw [trimmed, if_neg (by rw [sizeofStructMem]; simp)]
    refine ⟨blocks', owned.edit edit ?_ ?_ ?_ (by rw [update_addr]; exact owned.distinct)⟩
    · intro other changed
      obtain ⟨old, owns, rfl⟩ := List.mem_map.mp changed
      split
      next same =>
        obtain rfl : old = region :=
          List.inj_on_of_nodup_map owned.distinct owns member (same.trans here.symm)
        have length : (old.bytes.take newsize).length = newsize := by
          rw [List.length_take]
          omega
        refine .inr ⟨mem, _, List.mem_singleton_self _, rfl, by simp only [length]; omega, ?_⟩
        have before : readBytes s.heap.mem (mem + sizeofStructMem) newsize = old.bytes.take newsize := by
          rw [Eth.readBytes_take _ _ shorter, ← here, bytes]
        simp only [length]
        refine (readBytes_congr fun i above below => ?_).trans before
        exact kept i above (by omega)
      next different => exact .inl ⟨owns, by simpa using different⟩
    · intro other owns stays
      refine List.mem_map.mpr ⟨other, owns, if_neg ?_⟩
      simpa using stays mem block
    · rintro a block (_ | ⟨_, member⟩)
      · refine ⟨_, List.mem_map_of_mem member, ?_⟩
        rw [if_pos here]
      · cases member

/-- A client's write into its own region keeps the invariant. -/
theorem Owned.write (owned : Owned s blocks) {region : Region} (member : region ∈ s.owned) {index : Nat}
    (inside : index < region.bytes.length) (byte : UInt8) :
    Owned ⟨{ s.heap with mem := Function.update s.heap.mem (region.addr + index) byte },
      update s.owned region.addr (List.set · index byte)⟩ blocks := by
  obtain ⟨mem, block, here, used, room, bytes⟩ := owned.held region member
  obtain ⟨placedHere, busy⟩ := mem_inUse.mp used
  have size := owned.block used
  have elsewhere : ∀ i, i ≠ region.addr + index →
      Function.update s.heap.mem (region.addr + index) byte i = s.heap.mem i :=
    fun i different => Function.update_of_ne different _ _
  rw [sizeofStructMem] at here room
  have chained : Chained (Function.update s.heap.mem (region.addr + index) byte) s.heap.ram blocks := by
    refine ⟨?_, owned.laid.chained.sized, owned.laid.chained.whole, ?_⟩
    · refine owned.laid.chained.linked.congr fun a other placedOther => ?_
      have header : ∀ i, a ≤ i → i < a + 5 →
          Function.update s.heap.mem (region.addr + index) byte i = s.heap.mem i := by
        intro i above below
        refine elsewhere i ?_
        obtain ⟨front, back, rfl, -⟩ := mem_placed_iff.mp placedOther
        have sizeOther := owned.laid.chained.size.1
        rcases placed_apart placedHere placedOther with ⟨same, -⟩ | apart | apart <;> omega
      simp only [headers, next_congr header, prev_congr header, used_congr header, and_self]
    · rw [Mem.used, elsewhere _ ?_]
      · exact owned.laid.chained.stopped
      · rw [Heap.ramEnd] at size
        omega
  refine ⟨⟨chained, owned.laid.coalesced, owned.laid.lowest⟩, owned.aligned, ?_, ?_,
    by rw [update_addr]; exact owned.distinct⟩
  · intro other changed
    obtain ⟨old, owns, rfl⟩ := List.mem_map.mp changed
    split
    next same =>
      obtain rfl : old = region := List.inj_on_of_nodup_map owned.distinct owns member same
      refine ⟨mem, block, here, used, ?_, ?_⟩
      · rw [List.length_set, sizeofStructMem]
        exact room
      · rw [List.length_set, readBytes_update, bytes]
    next different =>
      obtain ⟨a, other, hereOld, usedOld, roomOld, bytesOld⟩ := owned.held old owns
      refine ⟨a, other, hereOld, usedOld, roomOld, (readBytes_congr fun i above below => ?_).trans bytesOld⟩
      refine elsewhere i ?_
      rw [sizeofStructMem] at hereOld roomOld
      rcases placed_apart placedHere (mem_inUse.mp usedOld).1 with ⟨same, -⟩ | apart | apart <;> omega
  · intro a other usedOther
    obtain ⟨old, owns, there⟩ := owned.owner a other usedOther
    refine ⟨_, List.mem_map_of_mem owns, ?_⟩
    split
    next same => exact same.symm.trans there
    next => exact there

end Steps

/-! ### Runs -/

/-- **One step.** -/
theorem owned_step {s next : State} {event : Event} (owned : ∃ blocks, Owned s blocks)
    (asked : Asked s event) (taken : step s event = some next) : ∃ blocks, Owned next blocks := by
  obtain ⟨blocks, owned⟩ := owned
  cases event with
  | malloc size =>
    simp only [step, Option.ite_none_right_eq_some, Option.map_eq_some_iff] at taken
    obtain ⟨-, ⟨heap, rmem⟩, returned, rfl⟩ := taken
    refine owned.malloc returned (asked.imp_right fun ⟨other, null⟩ => ?_)
    rw [returned] at null
    cases null
    rfl
  | free rmem =>
    simp only [step, Option.ite_none_right_eq_some, Option.some.injEq] at taken
    obtain ⟨allowed, rfl⟩ := taken
    exact owned.free allowed
  | trim rmem newsize =>
    simp only [step, Option.ite_none_right_eq_some, Option.some.injEq] at taken
    obtain ⟨⟨region, member, rfl, shorter⟩, rfl⟩ := taken
    exact owned.trim member shorter
  | write rmem index byte =>
    simp only [step, Option.ite_none_right_eq_some, Option.some.injEq] at taken
    obtain ⟨⟨region, member, rfl, inside⟩, rfl⟩ := taken
    exact ⟨blocks, owned.write member inside byte⟩

/-- `mem_init` makes one free block of the heap. -/
theorem owned_initial (m : Memory) (ramHeap : Nat) :
    Owned (initial m ramHeap) [⟨memSizeAligned, false⟩] := by
  refine ⟨⟨⟨?_, ?_, rfl, ?_⟩, List.isChain_singleton _, rfl⟩, ?_, ?_, ?_, List.nodup_nil⟩
  · simp (disch := omega) only [initial, memInit, memSizeAligned, Linked, headers, next_setPrev,
      next_setNext_apart, next_setUsed, next_setNext, prev_setPrev_apart, prev_setNext, prev_setUsed,
      prev_setPrev, used_setPrev, used_setNext, used_setUsed_apart, used_setUsed]
    simp
  · simp only [List.mem_singleton, forall_eq, memSizeAligned]
    decide
  · simp (disch := omega) only [initial, memInit, memSizeAligned, used_setPrev, used_setNext, used_setUsed]
    decide
  · exact ⟨_, Nat.mul_comm _ _⟩
  · rintro region (_ | _)
  · intro a block used
    cases used

/-- The invariant says that the regions are kept. -/
theorem Owned.kept {s : State} {blocks : List Block} (owned : Owned s blocks) : Kept s := by
  refine ⟨fun region member => ?_, ?_, fun size => ?_⟩
  · obtain ⟨aligned, above, -, below⟩ := owned.bounds member
    obtain ⟨-, -, -, -, -, bytes⟩ := owned.held region member
    exact ⟨aligned, Nat.le_of_lt above, below, bytes⟩
  · refine (List.pairwise_map.mp owned.distinct).imp_of_mem fun member memberOther different => ?_
    obtain ⟨a, block, here, used, room, -⟩ := owned.held _ member
    obtain ⟨c, other, there, usedOther, roomOther, -⟩ := owned.held _ memberOther
    rcases placed_apart (mem_inUse.mp used).1 (mem_inUse.mp usedOther).1 with ⟨same, -⟩ | apart | apart <;>
      omega
  · rcases memMalloc_spec owned.laid size with ⟨failed, -⟩ | ⟨-, _, _, _, _, found, -⟩
    · rw [failed]
      rfl
    · rw [found]
      rfl

/-- **The clients keep their memory**: in a run every region is aligned, inside the heap, apart from the
others and holds what its owner wrote, exactly when no request of 65533 bytes or more is answered. -/
theorem kept_iff (m : Memory) (ramHeap : Nat) (events : List Event) :
    Always step Kept (initial m ramHeap) events ↔ Along step Asked (initial m ramHeap) events := by
  refine always_iff_along (I := fun s => ∃ blocks, Owned s blocks)
    (fun s event next owned asked taken => owned_step owned asked taken)
    (fun s ⟨blocks, owned⟩ => owned.kept) ?_ events _ ⟨_, owned_initial m ramHeap⟩
  intro s event next _ taken kept
  cases event with
  | malloc size =>
    simp only [step, Option.ite_none_right_eq_some, Option.map_eq_some_iff] at taken
    obtain ⟨-, ⟨heap, rmem⟩, returned, rfl⟩ := taken
    by_cases null : rmem = 0
    · exact .inr ⟨heap, null ▸ returned⟩
    -- a region as long as the request has to lie inside the heap
    · rw [if_neg null] at kept
      obtain ⟨-, above, below, -⟩ := kept.1 _ List.mem_cons_self
      have length : (readBytes heap.mem rmem size).length = size := by simp [readBytes]
      simp only [length, Heap.ramEnd, memSizeAligned] at above below
      exact .inl (by omega)
  | free _ => exact trivial
  | trim _ _ => exact trivial
  | write _ _ _ => exact trivial

/-- In a run whose requests are answered in full the regions are the blocks in use. -/
theorem owned_run {m : Memory} {ramHeap : Nat} {events : List Event} {s : State}
    (asked : Along step Asked (initial m ramHeap) events)
    (reached : run step (initial m ramHeap) events = some s) : ∃ blocks, Owned s blocks :=
  (always_of_along (I := fun s => ∃ blocks, Owned s blocks)
    (fun _ _ _ owned asked taken => owned_step owned asked taken) events _
    ⟨_, owned_initial m ramHeap⟩ asked).last reached

/-! ### Holes -/

/-- The blocks, read off the headers from the first to the end. -/
def walk (h : Heap) : Nat → Nat → List (Nat × Block)
  | 0, _ => []
  | fuel + 1, mem =>
    if mem = h.ramEnd then []
    else (mem, ⟨h.ram + next h.mem mem - mem, decide (used h.mem mem ≠ 0)⟩) ::
      walk h fuel (h.ram + next h.mem mem)

/-- All blocks of the heap. -/
def heapBlocks (h : Heap) : List (Nat × Block) := walk h rounds h.ram

/-- `n` bytes from `a` on that belong to the heap and to no block in use. -/
def Hole (h : Heap) (a n : Nat) : Prop :=
  h.ram ≤ a ∧ a + n ≤ h.ramEnd ∧
    ∀ c block, (c, block) ∈ heapBlocks h → block.used = true → a + n ≤ c ∨ c + block.size ≤ a

theorem walk_spec {h : Heap} {rest : List Block} : ∀ {front : List Block} {fuel : Nat},
    Chained h.mem h.ram (front ++ rest) → rest.length < fuel →
    walk h fuel (h.ram + total front) = placed (h.ram + total front) rest := by
  induction rest with
  | nil =>
    intro front fuel chained enough
    have whole := chained.whole
    rw [List.append_nil] at whole
    obtain ⟨fuel, rfl⟩ := Nat.exists_eq_add_one_of_ne_zero (Nat.ne_of_gt enough)
    rw [walk, if_pos (by rw [Heap.ramEnd, whole]), placed]
  | cons block rest ih =>
    intro front fuel chained enough
    obtain ⟨nextHere, -, usedHere, whole⟩ := chained.header
    obtain ⟨fuel, rfl⟩ := Nat.exists_eq_add_one_of_ne_zero (Nat.ne_of_gt (Nat.zero_lt_of_lt enough))
    have least := chained.size.1
    have onward := @ih (front ++ [block]) fuel (by simpa using chained) (by simpa using enough)
    simp only [total_append, total_cons, total_nil, Nat.add_zero] at onward
    rw [walk, if_neg (by rw [Heap.ramEnd]; omega), nextHere, onward, placed, Nat.add_assoc]
    have same : (⟨h.ram + (total front + block.size) - (h.ram + total front),
        decide (used h.mem (h.ram + total front) ≠ 0)⟩ : Block) = block := by
      have busy : decide (used h.mem (h.ram + total front) ≠ 0) = block.used := by
        cases busy : block.used <;> simp [usedHere, busy]
      rw [busy, ← Nat.add_assoc, Nat.add_sub_cancel_left]
    rw [same]

theorem heapBlocks_eq {h : Heap} {blocks : List Block} (chained : Chained h.mem h.ram blocks) :
    heapBlocks h = placed h.ram blocks :=
  @walk_spec h blocks [] rounds chained chained.length_le

/-- A hole is room in one free block. -/
theorem hole_iff {s : State} {blocks : List Block} (owned : Owned s blocks) {a n : Nat} (some : 0 < n) :
    Hole s.heap a n ↔ ∃ c block, (c, block) ∈ placed s.heap.ram blocks ∧ block.used = false ∧ c ≤ a ∧
      a + n ≤ c + block.size := by
  have whole := owned.laid.chained.whole
  rw [Hole, heapBlocks_eq owned.laid.chained, Heap.ramEnd, ← whole]
  constructor
  · rintro ⟨above, below, clear⟩
    refine hole_inside owned.laid.coalesced owned.positive some above below fun c block member => ?_
    exact clear c block (mem_inUse.mp member).1 (mem_inUse.mp member).2
  · rintro ⟨c, block, member, free, above, below⟩
    have inside := placed_bounds member
    refine ⟨by omega, by omega, fun d other memberOther busy => ?_⟩
    rcases placed_apart member memberOther with ⟨-, rfl⟩ | apart | apart
    · rw [free] at busy
      cases busy
    · exact .inl (by omega)
    · exact .inr (by omega)

/-- **`mem_malloc` is first fit and complete**: after a run without a request as in `kept_iff`, a request of
at least one byte fails only when it fits, with its header, nowhere between the blocks in use, and otherwise
gets the lowest address where it does. -/
theorem malloc_lowest {m : Memory} {ramHeap : Nat} {events : List Event} {s : State}
    (asked : Along step Asked (initial m ramHeap) events)
    (reached : run step (initial m ramHeap) events = some s) {size : Nat} (some : 0 < size) :
    ∃ heap rmem, memMalloc s.heap size = .some (heap, rmem) ∧
      (rmem = 0 ↔ ∀ a, ¬ Hole s.heap a (dataSize size + sizeofStructMem)) ∧
      (rmem ≠ 0 → Hole s.heap (rmem - sizeofStructMem) (dataSize size + sizeofStructMem) ∧
        ∀ a, Hole s.heap a (dataSize size + sizeofStructMem) → rmem - sizeofStructMem ≤ a) := by
  obtain ⟨blocks, owned⟩ := owned_run asked reached
  have positive : 0 < dataSize size + sizeofStructMem := by
    rw [sizeofStructMem]
    omega
  rcases memMalloc_spec owned.laid size with
    ⟨failed, zero | unfit⟩ | ⟨-, h', mem, taken, _, found, -, -, ⟨block, member, fits⟩, lowest⟩
  · omega
  · refine ⟨_, _, failed, ⟨fun _ a hole => ?_, fun _ => rfl⟩, fun wrong => absurd rfl wrong⟩
    obtain ⟨c, block, member, free, above, below⟩ := (hole_iff owned positive).mp hole
    obtain ⟨front, back, rfl, -⟩ := mem_placed_iff.mp member
    exact unfit block (by simp) ⟨free, by omega⟩
  · have here : Hole s.heap mem (dataSize size + sizeofStructMem) :=
      (hole_iff owned positive).mpr ⟨mem, block, member, fits.1, le_refl _, by have := fits.2; omega⟩
    refine ⟨_, _, found, ⟨fun zero => ?_, fun none' => absurd here (none' mem)⟩, fun _ => ⟨?_, ?_⟩⟩
    · rw [sizeofStructMem] at zero
      omega
    · rw [Nat.add_sub_cancel]
      exact here
    · intro a hole
      obtain ⟨c, other, memberOther, free, above, below⟩ := (hole_iff owned positive).mp hole
      have := lowest c other memberOther ⟨free, by omega⟩
      omega

/-- **Nothing is lost**: in every run without an answered request of 65533 bytes or more, once everything
has been given back, in whatever order, the heap is one free block again, and as much can be had as at the
start. -/
theorem returned_whole {m : Memory} {ramHeap : Nat} {events : List Event} {s : State}
    (asked : Along step Asked (initial m ramHeap) events)
    (reached : run step (initial m ramHeap) events = some s) (returned : s.owned = []) :
    heapBlocks s.heap = [(s.heap.ram, ⟨memSizeAligned, false⟩)] ∧ s.heap.lfree = s.heap.ram ∧
      ∀ size, 0 < size → ((∃ heap rmem, memMalloc s.heap size = some (heap, rmem) ∧ rmem ≠ 0) ↔
        dataSize size + sizeofStructMem ≤ memSizeAligned) := by
  obtain ⟨blocks, owned⟩ := owned_run asked reached
  have idle : inUse s.heap.ram blocks = [] := by
    refine List.eq_nil_iff_forall_not_mem.mpr fun ⟨a, block⟩ used => ?_
    obtain ⟨region, member, -⟩ := owned.owner a block used
    rw [returned] at member
    cases member
  have some : blocks ≠ [] := by
    rintro rfl
    cases owned.laid.chained.whole
  have single := coalesced_idle owned.laid.coalesced idle some
  rw [owned.laid.chained.whole] at single
  subst single
  refine ⟨by rw [heapBlocks_eq owned.laid.chained]; rfl, owned.laid.lowest, fun size positive => ?_⟩
  rcases memMalloc_spec owned.laid size with
    ⟨failed, zero | unfit⟩ | ⟨-, h', mem, taken, _, found, -, -, ⟨block, member, fits⟩, -⟩
  · omega
  · refine ⟨fun ⟨heap, rmem, answered, wrong⟩ => ?_, fun fits => ?_⟩
    · rw [failed] at answered
      cases answered
      exact absurd rfl wrong
    · exact absurd ⟨rfl, fits⟩ (unfit _ List.mem_cons_self)
  · obtain ⟨front, back, cut, -⟩ := mem_placed_iff.mp member
    refine ⟨fun _ => ?_, fun _ => ⟨_, _, found, by rw [sizeofStructMem]; omega⟩⟩
    obtain rfl : block = ⟨memSizeAligned, false⟩ := by
      have : block ∈ [(⟨memSizeAligned, false⟩ : Block)] := by rw [cut]; simp
      simpa using this
    exact fits.2

/-- Two blocks, the first of them freed again: the hole in front is found before the end of the heap. -/
theorem malloc_lowest_gap : ∃ s, run step (initial (fun _ => 0) 1000)
      [.malloc 100, .malloc 5, .write 1116 2 7, .free 1008] = some s ∧
    ∃ heap rmem, memMalloc s.heap 60 = some (heap, rmem) ∧
      (rmem = 0 ↔ ∀ a, ¬ Hole s.heap a 68) ∧
      (rmem ≠ 0 → Hole s.heap (rmem - 8) 68 ∧ ∀ a, Hole s.heap a 68 → rmem - 8 ≤ a) := by
  have possible : (run step (initial (fun _ => 0) 1000)
      [.malloc 100, .malloc 5, .write 1116 2 7, .free 1008]).isSome := by decide +kernel
  obtain ⟨s, reached⟩ := Option.isSome_iff_exists.mp possible
  have asked : Along step Asked (initial (fun _ => 0) 1000)
      [.malloc 100, .malloc 5, .write 1116 2 7, .free 1008] :=
    fun _ _ => ⟨.inl (by decide), fun _ _ => ⟨.inl (by decide), fun _ _ => ⟨trivial, fun _ _ =>
      ⟨trivial, trivial⟩⟩⟩⟩
  exact ⟨s, reached, malloc_lowest asked reached (by decide)⟩

/-- Three blocks, given back in another order than they were taken. -/
theorem returned_whole_three : ∃ s, run step (initial (fun _ => 0) 1000)
      [.malloc 100, .malloc 5, .malloc 40, .trim 1136 8, .free 1116, .free 1136, .free 1008] = some s ∧
    heapBlocks s.heap = [(s.heap.ram, ⟨memSizeAligned, false⟩)] := by
  have possible : ((run step (initial (fun _ => 0) 1000)
      [.malloc 100, .malloc 5, .malloc 40, .trim 1136 8, .free 1116, .free 1136, .free 1008]).map
      (·.owned.length)) = some 0 := by decide +kernel
  obtain ⟨s, reached, none'⟩ := Option.map_eq_some_iff.mp possible
  refine ⟨s, reached, (returned_whole ?_ reached (List.length_eq_zero_iff.mp none')).1⟩
  exact fun _ _ => ⟨.inl (by decide), fun _ _ => ⟨.inl (by decide), fun _ _ => ⟨.inl (by decide),
    fun _ _ => ⟨trivial, fun _ _ => ⟨trivial, fun _ _ => ⟨trivial, fun _ _ => ⟨trivial, trivial⟩⟩⟩⟩⟩⟩⟩

end ULoader.Mem

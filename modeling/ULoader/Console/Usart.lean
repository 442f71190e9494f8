/-
**The receive buffer of a USART (`src/tm_stm32f4_usart.c`).**

The receive interrupt puts bytes into a ring (`TM_USART_INT_InsertToBuffer`) and the program takes them
out (`TM_USART_Getc`). The two indices are reset lazily: an index that has come to the end of the buffer
stays there until it is used again, so the end and the start are one place.

`Usart.contents` is the queue the ring holds; `Valid` is the invariant of the indices. On a valid ring
`getc` takes the front (`getc_cons`), an insertion appends if there is room (`insertToBuffer_of_room`), and
`findCharacter` searches the queue (`findCharacter_iff`).
-/

import ULoader.Lib.Ring

namespace ULoader.Console

/-! ### The driver -/

/-- `TM_USART_t`; `inIndex` and `outIndex` are `In` and `Out`. -/
structure Usart where
  buffer : Nat → UInt8
  size : Nat
  num : Nat
  inIndex : Nat
  outIndex : Nat

/-- An index at the end of the buffer is moved to its start before it is used. -/
def Usart.wrap (u : Usart) (index : Nat) : Nat := if index = u.size then 0 else index

/-- `TM_USART_BufferEmpty`. -/
def bufferEmpty (u : Usart) : Bool := u.num = 0

/-- `TM_USART_BufferFull`. -/
def bufferFull (u : Usart) : Bool := u.num = u.size

/-- `TM_USART_Getc`; it returns 0 when there is nothing in the buffer. -/
def getc (u : Usart) : UInt8 × Usart :=
  if u.num > 0 then
    (u.buffer (u.wrap u.outIndex), { u with outIndex := u.wrap u.outIndex + 1, num := u.num - 1 })
  else (0, u)

/-- The loop of `TM_USART_FindCharacter`, over `num` and `out`. -/
def findLoop (u : Usart) (c : UInt8) : Nat → Nat → Bool
  | 0, _ => false
  | num + 1, out => if u.buffer (u.wrap out) = c then true else findLoop u c num (u.wrap out + 1)

/-- `TM_USART_FindCharacter`. -/
def findCharacter (u : Usart) (c : UInt8) : Bool := findLoop u c u.num u.outIndex

/-- `TM_USART_INT_InsertToBuffer`; a byte that comes when the buffer is full is dropped. -/
def insertToBuffer (u : Usart) (c : UInt8) : Usart :=
  if u.num < u.size then
    { u with
      buffer := Function.update u.buffer (u.wrap u.inIndex) c
      inIndex := u.wrap u.inIndex + 1
      num := u.num + 1 }
  else u

/-! ### The queue -/

/-- The bytes in the ring, from the oldest on. -/
def Usart.contents (u : Usart) : List UInt8 := Ring.window u.buffer u.size u.outIndex u.num

/-- The indices are inside the buffer, and `num` apart. -/
structure Usart.Valid (u : Usart) : Prop where
  positive : 0 < u.size
  fits : u.num ≤ u.size
  inInside : u.inIndex ≤ u.size
  outInside : u.outIndex ≤ u.size
  apart : u.inIndex % u.size = (u.outIndex + u.num) % u.size

@[simp] theorem length_contents (u : Usart) : u.contents.length = u.num := Ring.length_window _ _ _ _

/-- Moving an index from the end to the start does not move its place. -/
theorem Usart.wrap_eq {u : Usart} {index : Nat} (inside : index ≤ u.size) :
    u.wrap index = index % u.size := by
  unfold Usart.wrap
  split
  · rename_i atEnd
    rw [atEnd, Nat.mod_self]
  · rename_i before
    exact (Nat.mod_eq_of_lt (by omega)).symm

/-- **`TM_USART_Getc`** takes the front of the queue. -/
theorem getc_cons {u : Usart} (valid : u.Valid) {front : UInt8} {rest : List UInt8}
    (queue : u.contents = front :: rest) :
    (getc u).1 = front ∧ (getc u).2.contents = rest ∧ (getc u).2.Valid ∧
      (getc u).2.size = u.size := by
  obtain ⟨positive, fits, inInside, outInside, apart⟩ := valid
  have one : u.num = rest.length + 1 := by rw [← length_contents, queue, List.length_cons]
  have wrapped := u.wrap_eq outInside
  have less := Nat.mod_lt u.outIndex positive
  rw [Usart.contents, one, Ring.window_succ] at queue
  obtain ⟨isFront, isRest⟩ := List.cons.inj queue
  have taken : getc u = (front,
      { u with outIndex := u.outIndex % u.size + 1, num := rest.length }) := by
    rw [getc, if_pos (by omega), wrapped, isFront, one, Nat.add_sub_cancel]
  rw [taken]
  refine ⟨rfl, ?_, ⟨positive, by show rest.length ≤ u.size; omega, inInside, less, ?_⟩, rfl⟩
  · show Ring.window u.buffer u.size (u.outIndex % u.size + 1) rest.length = rest
    rw [← Ring.window_mod, Nat.mod_add_mod, Ring.window_mod, isRest]
  · show u.inIndex % u.size = (u.outIndex % u.size + 1 + rest.length) % u.size
    rw [apart, one, Nat.add_assoc (u.outIndex % u.size), Nat.mod_add_mod, Nat.add_comm 1]

/-- On an empty ring `TM_USART_Getc` returns 0 and changes nothing. -/
theorem getc_nil {u : Usart} (queue : u.contents = []) : getc u = (0, u) := by
  have none : u.num = 0 := by rw [← length_contents, queue, List.length_nil]
  rw [getc, if_neg (by omega)]

/-- **`TM_USART_INT_InsertToBuffer`** appends to the queue when there is room. -/
theorem insertToBuffer_of_room {u : Usart} (valid : u.Valid) (room : u.num < u.size) (c : UInt8) :
    (insertToBuffer u c).contents = u.contents ++ [c] ∧ (insertToBuffer u c).Valid ∧
      (insertToBuffer u c).size = u.size := by
  obtain ⟨positive, fits, inInside, outInside, apart⟩ := valid
  have wrapped := u.wrap_eq inInside
  have less := Nat.mod_lt u.inIndex positive
  have inserted : insertToBuffer u c =
      { u with
        buffer := Function.update u.buffer ((u.outIndex + u.num) % u.size) c
        inIndex := u.inIndex % u.size + 1
        num := u.num + 1 } := by
    rw [insertToBuffer, if_pos room, wrapped, apart]
  rw [inserted]
  refine ⟨Ring.window_update room c, ⟨positive, room, less, outInside, ?_⟩, rfl⟩
  show (u.inIndex % u.size + 1) % u.size = (u.outIndex + (u.num + 1)) % u.size
  rw [apart, Nat.mod_add_mod, Nat.add_assoc]

theorem insertToBuffer_of_full {u : Usart} (full : ¬ u.num < u.size) (c : UInt8) :
    insertToBuffer u c = u := by
  rw [insertToBuffer, if_neg full]

theorem findLoop_iff {u : Usart} (positive : 0 < u.size) (c : UInt8) (num : Nat) :
    ∀ out ≤ u.size, findLoop u c num out = true ↔ c ∈ Ring.window u.buffer u.size out num := by
  induction num with
  | zero => exact fun out _ => by simp [findLoop, Ring.window]
  | succ num ih =>
    intro out inside
    have less := Nat.mod_lt out positive
    rw [findLoop, u.wrap_eq inside, Ring.window_succ, List.mem_cons,
      ← Ring.window_mod u.buffer u.size (out + 1), ← Nat.mod_add_mod, Ring.window_mod]
    by_cases found : u.buffer (out % u.size) = c
    · simp [found]
    · simp [found, ih (out % u.size + 1) less, Ne.symm found]

/-- **`TM_USART_FindCharacter`** searches the queue. -/
theorem findCharacter_iff {u : Usart} (valid : u.Valid) (c : UInt8) :
    findCharacter u c = true ↔ c ∈ u.contents :=
  findLoop_iff valid.positive c u.num u.outIndex valid.outInside

end ULoader.Console

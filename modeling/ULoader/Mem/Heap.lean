/-
**The stack's own heap, byte by byte.**

`mem.c` keeps its blocks in one array of bytes: every block starts with a `struct mem`, the index of the
next block, the index of the one before and a byte that says whether it is in use. The headers lie
between the clients' bytes, so the model is the memory itself.

* `next`, `prev`, `used` — the fields of the header at an address, two bytes, two bytes and one; after
  each write of a field, what every field reads (`next_setNext`, `next_setPrev`, …).
* `memInit`, `memMalloc`, `memFree`, `plugHoles`, `memTrim` — the functions of the source. A walk
  along the headers may go round in circles on a broken heap: `none` is a call that does not return.
-/

import Mathlib.Logic.Function.Basic
import ULoader.Lib.ByteOrder

namespace ULoader.Mem

open ByteOrder

abbrev Memory := Nat → UInt8

/-! ### Sizes -/

/-- `MEM_SIZE_ALIGNED`. -/
def memSizeAligned : Nat := 10240

/-- `SIZEOF_STRUCT_MEM`. -/
def sizeofStructMem : Nat := 8

/-- `MIN_SIZE_ALIGNED`. -/
def minSizeAligned : Nat := 12

/-- A number stored in a `mem_size_t`. -/
def u16 (n : Nat) : Nat := n % 65536

/-- `LWIP_MEM_ALIGN_SIZE(size)`. -/
def alignSize (size : Nat) : Nat := (size + 3) / 4 * 4

/-- The size a request is rounded to: the aligned size, as a `mem_size_t`, and at least
`MIN_SIZE_ALIGNED`. -/
def dataSize (size : Nat) : Nat :=
  if u16 (alignSize size) < minSizeAligned then minSizeAligned else u16 (alignSize size)

/-- A difference of `unsigned` operands. -/
def sub32 (a b : Nat) : Nat := (a + 2 ^ 32 - b) % 2 ^ 32

/-! ### The header -/

/-- `mem->next`. -/
def next (m : Memory) (mem : Nat) : Nat := (loadLE (m mem) (m (mem + 1))).toNat

/-- `mem->prev`. -/
def prev (m : Memory) (mem : Nat) : Nat := (loadLE (m (mem + 2)) (m (mem + 3))).toNat

/-- `mem->used`. -/
def used (m : Memory) (mem : Nat) : UInt8 := m (mem + 4)

/-- The two bytes of a `mem_size_t` written at an address. -/
def store16 (m : Memory) (a : Nat) (value : Nat) : Memory :=
  Function.update (Function.update m a (UInt16.ofNat value).toUInt8) (a + 1)
    (UInt16.ofNat value >>> 8).toUInt8

def setNext (m : Memory) (mem value : Nat) : Memory := store16 m mem value

def setPrev (m : Memory) (mem value : Nat) : Memory := store16 m (mem + 2) value

def setUsed (m : Memory) (mem : Nat) (value : UInt8) : Memory := Function.update m (mem + 4) value

/-! ### The functions of the source -/

/-- `ram`, the first byte of the heap; `lfree`, the address of the lowest free block. -/
structure Heap where
  mem : Memory
  ram : Nat
  lfree : Nat

/-- `ram_end`. -/
def Heap.ramEnd (h : Heap) : Nat := h.ram + memSizeAligned

/-- `mem_init()`, the array `ram_heap` being at address `ramHeap`. -/
def memInit (m : Memory) (ramHeap : Nat) : Heap :=
  let ram := alignSize ramHeap
  let ramEnd := ram + memSizeAligned
  let m := setUsed (setPrev (setNext m ram memSizeAligned) ram 0) ram 0
  let m := setPrev (setNext (setUsed m ramEnd 1) ramEnd memSizeAligned) ramEnd memSizeAligned
  ⟨m, ram, ram⟩

/-- The user data of the block with index `ptr`: `mem->next - (ptr + SIZEOF_STRUCT_MEM)`. -/
def userData (h : Heap) (ptr : Nat) : Nat := sub32 (next h.mem (h.ram + ptr)) (ptr + sizeofStructMem)

/-- As many rounds as a `mem_size_t` has values: a walk along the indices that takes more rounds has come
back to an index it had, and goes on for ever. -/
def rounds : Nat := 65537

/-- The search of `mem_malloc`, from index `ptr` on: the index of the first free block that is big
enough. -/
def scan (h : Heap) (size : Nat) : Nat → Nat → Option (Option Nat)
  | 0, _ => none
  | fuel + 1, ptr =>
    if ptr < memSizeAligned - size then
      if used h.mem (h.ram + ptr) = 0 ∧ size ≤ userData h ptr then some (some ptr)
      else scan h size fuel (next h.mem (h.ram + ptr))
    else some none

/-- `if (mem2->next != MEM_SIZE_ALIGNED) ram[mem2->next]->prev = ptr2`: the block behind a new one links
back to it. -/
def linkBack (m : Memory) (ram mem2 ptr2 : Nat) : Memory :=
  if next m mem2 ≠ memSizeAligned then setPrev m (ram + next m mem2) ptr2 else m

/-- `mem_malloc` takes the block with index `ptr`: what remains behind `size` bytes becomes a block of
its own, when there is room for one. -/
def carve (h : Heap) (ptr size : Nat) : Memory :=
  let mem := h.ram + ptr
  if size + sizeofStructMem + minSizeAligned ≤ userData h ptr then
    let ptr2 := u16 (ptr + sizeofStructMem + size)
    let mem2 := h.ram + ptr2
    let m := setUsed h.mem mem2 0
    let m := setNext m mem2 (next m mem)
    let m := setPrev m mem2 ptr
    let m := setNext m mem ptr2
    let m := setUsed m mem 1
    linkBack m h.ram mem2 ptr2
  else setUsed h.mem mem 1

/-- The next free block from `cur` on, or the end of the heap. -/
def nextFree (m : Memory) (ram : Nat) : Nat → Nat → Option Nat
  | 0, _ => none
  | fuel + 1, cur =>
    if used m cur ≠ 0 ∧ cur ≠ ram + memSizeAligned then nextFree m ram fuel (ram + next m cur)
    else some cur

/-- `mem_malloc` hands out the block it found, and looks for the next free one when that was the
lowest. -/
def grant (h : Heap) (ptr size : Nat) : Option (Heap × Nat) :=
  let m := carve h ptr size
  let mem := h.ram + ptr
  if mem = h.lfree then
    match nextFree m h.ram rounds h.lfree with
    | none => none
    | some cur => some (⟨m, h.ram, cur⟩, mem + sizeofStructMem)
  else some (⟨m, h.ram, h.lfree⟩, mem + sizeofStructMem)

/-- `mem_malloc(size)`: the heap and the address returned, `0` for `NULL`. -/
def memMalloc (h : Heap) (size : Nat) : Option (Heap × Nat) :=
  if size = 0 then some (h, 0)
  else if memSizeAligned < dataSize size then some (h, 0)
  else
    match scan h (dataSize size) rounds (u16 (h.lfree - h.ram)) with
    | none => none
    | some none => some (h, 0)
    | some (some ptr) => grant h ptr (dataSize size)

/-- The first half of `plug_holes(mem)`: the next block, when it is free, becomes part of this one. -/
def plugForward (h : Heap) (mem : Nat) : Heap :=
  let nmem := h.ram + next h.mem mem
  if mem ≠ nmem ∧ used h.mem nmem = 0 ∧ nmem ≠ h.ramEnd then
    let lfree := if h.lfree = nmem then mem else h.lfree
    let m := setNext h.mem mem (next h.mem nmem)
    ⟨setPrev m (h.ram + next m nmem) (u16 (mem - h.ram)), h.ram, lfree⟩
  else h

/-- The second half: this block becomes part of the one before, when that is free. -/
def plugBackward (h : Heap) (mem : Nat) : Heap :=
  let pmem := h.ram + prev h.mem mem
  if pmem ≠ mem ∧ used h.mem pmem = 0 then
    let lfree := if h.lfree = mem then pmem else h.lfree
    let m := setNext h.mem pmem (next h.mem mem)
    ⟨setPrev m (h.ram + next m mem) (u16 (pmem - h.ram)), h.ram, lfree⟩
  else h

/-- `plug_holes(mem)`. -/
def plugHoles (h : Heap) (mem : Nat) : Heap := plugBackward (plugForward h mem) mem

/-- `mem_free(rmem)`. -/
def memFree (h : Heap) (rmem : Nat) : Heap :=
  if rmem = 0 then h
  else if rmem < h.ram ∨ h.ramEnd ≤ rmem then h
  else
    let mem := rmem - sizeofStructMem
    plugHoles ⟨setUsed h.mem mem 0, h.ram, if mem < h.lfree then mem else h.lfree⟩ mem

/-- `mem_trim` when the next block is free: its header moves down behind the shortened block. -/
def trimInto (h : Heap) (mem ptr newsize : Nat) : Heap :=
  let mem2 := h.ram + next h.mem mem
  let following := next h.mem mem2
  let ptr2 := u16 (ptr + sizeofStructMem + newsize)
  let lfree := if h.lfree = mem2 then h.ram + ptr2 else h.lfree
  let mem2 := h.ram + ptr2
  let m := setUsed h.mem mem2 0
  let m := setNext m mem2 following
  let m := setPrev m mem2 ptr
  let m := setNext m mem ptr2
  ⟨linkBack m h.ram mem2 ptr2, h.ram, lfree⟩

/-- `mem_trim` when the next block is in use and what is cut off makes a block of its own. -/
def trimOff (h : Heap) (mem ptr newsize : Nat) : Heap :=
  let ptr2 := u16 (ptr + sizeofStructMem + newsize)
  let mem2 := h.ram + ptr2
  let lfree := if mem2 < h.lfree then mem2 else h.lfree
  let m := setUsed h.mem mem2 0
  let m := setNext m mem2 (next m mem)
  let m := setPrev m mem2 ptr
  let m := setNext m mem ptr2
  ⟨linkBack m h.ram mem2 ptr2, h.ram, lfree⟩

/-- `mem_trim(rmem, newsize)`: the heap and the address returned. -/
def memTrim (h : Heap) (rmem newsize : Nat) : Heap × Nat :=
  if memSizeAligned < dataSize newsize then (h, 0)
  else if rmem < h.ram ∨ h.ramEnd ≤ rmem then (h, rmem)
  else
    let mem := rmem - sizeofStructMem
    let ptr := u16 (mem - h.ram)
    let size := u16 (sub32 (sub32 (next h.mem mem) ptr) sizeofStructMem)
    if size < dataSize newsize then (h, 0)
    else if dataSize newsize = size then (h, rmem)
    else if used h.mem (h.ram + next h.mem mem) = 0 then (trimInto h mem ptr (dataSize newsize), rmem)
    else if dataSize newsize + sizeofStructMem + minSizeAligned ≤ size then
      (trimOff h mem ptr (dataSize newsize), rmem)
    else (h, rmem)

/-! ### Reading a header after a write -/

section Header

variable {m : Memory} {p q a value : Nat} {byte : UInt8}

theorem store16_outside (outside : a < p ∨ p + 1 < a) : store16 m p value a = m a := by
  rw [store16, Function.update_of_ne (by omega), Function.update_of_ne (by omega)]

theorem setNext_outside (outside : a < p ∨ p + 1 < a) : setNext m p value a = m a :=
  store16_outside outside

theorem setPrev_outside (outside : a < p + 2 ∨ p + 3 < a) : setPrev m p value a = m a :=
  store16_outside (by omega)

theorem setUsed_outside (outside : a ≠ p + 4) : setUsed m p byte a = m a :=
  Function.update_of_ne outside _ _

theorem loadLE_store16 (fits : value < 65536) :
    (loadLE (store16 m p value p) (store16 m p value (p + 1))).toNat = value := by
  rw [store16, Function.update_of_ne (by omega), Function.update_self, Function.update_self,
    loadLE_bytes, UInt16.toNat_ofNat', Nat.mod_eq_of_lt fits]

theorem next_setNext (same : p = q) (fits : value < 65536) : next (setNext m q value) p = value :=
  same ▸ loadLE_store16 fits

theorem prev_setPrev (same : p = q) (fits : value < 65536) : prev (setPrev m q value) p = value :=
  same ▸ loadLE_store16 fits

theorem used_setUsed (same : p = q) : used (setUsed m q byte) p = byte :=
  same ▸ Function.update_self _ _ _

/-- A header reads the same in memories with the same bytes there. -/
theorem next_congr {other : Memory} (same : ∀ a, p ≤ a → a < p + 5 → other a = m a) :
    next other p = next m p := by
  rw [next, next, same p (by omega) (by omega), same (p + 1) (by omega) (by omega)]

theorem prev_congr {other : Memory} (same : ∀ a, p ≤ a → a < p + 5 → other a = m a) :
    prev other p = prev m p := by
  rw [prev, prev, same (p + 2) (by omega) (by omega), same (p + 3) (by omega) (by omega)]

theorem used_congr {other : Memory} (same : ∀ a, p ≤ a → a < p + 5 → other a = m a) :
    used other p = used m p :=
  same (p + 4) (by omega) (by omega)

theorem next_setNext_apart (apart : p + 1 < q ∨ q + 1 < p) : next (setNext m q value) p = next m p := by
  rw [next, next, setNext_outside (by omega), setNext_outside (by omega)]

theorem next_setPrev (apart : p + 1 < q + 2 ∨ q + 3 < p) : next (setPrev m q value) p = next m p := by
  rw [next, next, setPrev_outside (by omega), setPrev_outside (by omega)]

theorem next_setUsed (apart : p + 1 < q + 4 ∨ q + 4 < p) : next (setUsed m q byte) p = next m p := by
  rw [next, next, setUsed_outside (by omega), setUsed_outside (by omega)]

theorem prev_setNext (apart : p + 3 < q ∨ q + 1 < p + 2) : prev (setNext m q value) p = prev m p := by
  rw [prev, prev, setNext_outside (by omega), setNext_outside (by omega)]

theorem prev_setPrev_apart (apart : p + 3 < q + 2 ∨ q + 3 < p + 2) :
    prev (setPrev m q value) p = prev m p := by
  rw [prev, prev, setPrev_outside (by omega), setPrev_outside (by omega)]

theorem prev_setUsed (apart : p + 3 < q + 4 ∨ q + 4 < p + 2) :
    prev (setUsed m q byte) p = prev m p := by
  rw [prev, prev, setUsed_outside (by omega), setUsed_outside (by omega)]

theorem used_setNext (apart : p + 4 < q ∨ q + 1 < p + 4) : used (setNext m q value) p = used m p :=
  setNext_outside apart

theorem used_setPrev (apart : p + 4 < q + 2 ∨ q + 3 < p + 4) :
    used (setPrev m q value) p = used m p :=
  setPrev_outside apart

theorem used_setUsed_apart (apart : p ≠ q) : used (setUsed m q byte) p = used m p :=
  setUsed_outside (by omega)

end Header

end ULoader.Mem

/-
**The command `read`.**

`cmd_read` prints the first bytes of the flash in the format of a hexadecimal dump. One loop moves the
pointer `flash` on byte by byte; at the end of each line it moves the pointer back, and an inner loop walks
over the line again to print its characters.

* What the command prints, and every index that it reads the flash at, are collected in a `Reader`. The
  indices are relative to `FLASH_BASE` and may be any integers, so nothing is hidden about a pointer that
  leaves the flash. What is printed is what reaches `_write`.
* `atoi` is that of the C library the program is linked with: `strtol` to the base ten, which stops at the
  bounds of a 32-bit `long`.
* `written` is what the outer loop has printed when it comes to a byte: complete lines, and the begun one.
  A turn of the loop keeps to it (`readLoop_turn`), and `cmdRead_eq` is what the command comes to.
-/

import ULoader.Lib.Numeral
import ULoader.Shell.Parser

namespace ULoader.Shell

open Numeral

/-! ### The argument -/

/-- `isspace`. -/
def isSpace (c : UInt8) : Bool := c = 0x20 ∨ (0x09 ≤ c ∧ c ≤ 0x0d)

/-- The decimal digits. -/
def isDigit (c : UInt8) : Bool := 0x30 ≤ c ∧ c ≤ 0x39

/-- The number that a text of decimal digits starts with; zero when there is none. -/
def magnitude (text : List UInt8) : Nat :=
  value 10 ((text.takeWhile isDigit).map fun c => c.toNat - 0x30)

/-- The integer at the start of a text, after white space and a sign. -/
def integer (text : List UInt8) : Int :=
  match text.dropWhile isSpace with
  | 0x2d :: rest => -(magnitude rest : Int)
  | 0x2b :: rest => magnitude rest
  | rest => magnitude rest

/-- `atoi`. -/
def atoi (text : List UInt8) : Int := max (-2 ^ 31) (min (2 ^ 31 - 1) (integer text))

/-- `num_bytes`. -/
def numBytes (line : List UInt8) : Int :=
  if strlen line ≤ 5 then 16 else atoi ((line.takeWhile (· ≠ 0)).drop 5)

/-! ### The dump -/

/-- The variables of `cmd_read`, with what has been printed and the indices that have been read. -/
structure Reader where
  flash : Int := 0
  i : Nat := 0
  out : List UInt8 := []
  reads : List Int := []

/-- `printf` and `putchar`. -/
def Reader.print (r : Reader) (chars : List UInt8) : Reader := { r with out := r.out ++ chars }

/-- `*flash`. -/
def Reader.deref (r : Reader) : Reader := { r with reads := r.reads ++ [r.flash] }

section Loops

variable (content : Int → UInt8)

/-- The body of the inner loop. The byte is read anew in each comparison, and to be printed. -/
def charBody (r : Reader) : Reader :=
  let first := r.deref
  let printed :=
    if 0x20 ≤ content r.flash then
      let second := first.deref
      if content r.flash ≤ 0x7e then second.deref.print [content r.flash] else second.print [0x2e]
    else first.print [0x2e]
  { printed with flash := printed.flash + 1 }

/-- The inner loop; `none` is a loop that does not end. -/
def charLoop (oldflash : Int) : Nat → Reader → Option Reader
  | 0, _ => none
  | fuel + 1, r => if r.flash ≠ oldflash then charLoop oldflash fuel (charBody content r) else some r

/-- The end of a line: `"%*c|"`, the characters, `"|\n"`. -/
def endLine (r : Reader) : Option Reader :=
  let oldflash := r.flash
  let r := { r with flash := r.flash - if r.i % 16 = 0 then 16 else r.i % 16 }
  let r := r.print (List.leftpad (if r.i % 16 = 0 then 0 else (16 - r.i % 16) * 3 + 2) 0x20 [0x20] ++
    [0x7c])
  (charLoop content oldflash ((oldflash - r.flash).toNat + 1) r).map (·.print [0x7c, 0x0a])

/-- One byte: `"%07x  "` at the start of a line, `"%02x "`, and a gap after the eighth. -/
def readByte (r : Reader) : Reader :=
  let r := if r.i % 16 = 0 then r.print (padded 16 7 r.i ++ [0x20, 0x20]) else r
  let r := r.deref.print (padded 16 2 (content r.flash).toNat ++ [0x20])
  let r := { r with flash := r.flash + 1, i := r.i + 1 }
  if r.i % 16 = 8 then r.print [0x20] else r

/-- The outer loop; `none` is a loop that does not end. -/
def readLoop (numBytes : Int) : Nat → Reader → Option Reader
  | 0, _ => none
  | fuel + 1, r =>
    if r.i < numBytes then
      let r := readByte content r
      (if r.i % 16 = 0 ∨ numBytes ≤ r.i then endLine content r else some r).bind
        (readLoop numBytes fuel)
    else some r

/-- `cmd_read`, where `content` is the memory from `FLASH_BASE` on. -/
def cmdRead (line : List UInt8) : Option Reader :=
  (readLoop content (numBytes line) ((numBytes line).toNat + 1) {}).map fun r =>
    r.print (padded 16 7 r.i ++ [0x0a])

/-! ### The text of the dump -/

/-- How a byte is shown between the bars. -/
def shown (byte : UInt8) : UInt8 := if 0x20 ≤ byte ∧ byte ≤ 0x7e then byte else 0x2e

/-- What is printed for the byte at an index. -/
def column (j : Nat) : List UInt8 :=
  padded 16 2 (content j).toNat ++ [0x20] ++ if j % 16 = 7 then [0x20] else []

/-- The start of a line: its index, and its first columns. -/
def begun (start count : Nat) : List UInt8 :=
  padded 16 7 start ++ [0x20, 0x20] ++ (List.range count).flatMap fun j => column content (start + j)

/-- The characters of a line. -/
def chars (start count : Nat) : List UInt8 :=
  (List.range count).map fun j => shown (content ((start + j : Nat) : Int))

/-- A line of so many bytes from an index on. -/
def dumpLine (start count : Nat) : List UInt8 :=
  begun content start count ++
    List.leftpad (if count = 16 then 0 else (16 - count) * 3 + 2) 0x20 [0x20] ++ [0x7c] ++
    chars content start count ++ [0x7c]

/-- The line number `k` of a dump of `n` bytes. -/
def lineAt (n k : Nat) : List UInt8 := dumpLine content (16 * k) (min 16 (n - 16 * k))

/-- The first lines of a dump of `n` bytes. -/
def linesUpto (n count : Nat) : List UInt8 :=
  (List.range count).flatMap fun k => lineAt content n k ++ [0x0a]

theorem linesUpto_succ (n count : Nat) :
    linesUpto content n (count + 1) = linesUpto content n count ++ lineAt content n count ++ [0x0a] := by
  simp [linesUpto, List.range_succ]

theorem begun_succ (start count : Nat) :
    begun content start (count + 1) = begun content start count ++ column content (start + count) := by
  simp [begun, List.range_succ]

theorem chars_succ (start count : Nat) :
    chars content start (count + 1) = shown (content start) :: chars content (start + 1) count := by
  simp [chars, List.range_succ_eq_map, Nat.add_assoc, Nat.add_comm 1]

/-! ### The inner loop -/

theorem charBody_spec (r : Reader) :
    ∃ reads, charBody content r =
        { r with
          flash := r.flash + 1, out := r.out ++ [shown (content r.flash)], reads := r.reads ++ reads } ∧
      ∀ x, x ∈ reads ↔ x = r.flash := by
  by_cases low : 0x20 ≤ content r.flash
  · by_cases high : content r.flash ≤ 0x7e
    · refine ⟨[r.flash, r.flash, r.flash], ?_, by simp⟩
      simp [charBody, shown, low, high, Reader.deref, Reader.print]
    · refine ⟨[r.flash, r.flash], ?_, by simp⟩
      simp [charBody, shown, low, high, Reader.deref, Reader.print]
  · refine ⟨[r.flash], ?_, by simp⟩
    simp [charBody, shown, low, Reader.deref, Reader.print]

/-- **The inner loop** prints the characters from the pointer on up to `oldflash`, and reads the flash
exactly there. -/
theorem charLoop_spec (count : Nat) : ∀ (fuel start : Nat) (r : Reader), count < fuel →
    r.flash = start →
    ∃ after, charLoop content ((start + count : Nat) : Int) fuel r = some after ∧
      after.flash = ((start + count : Nat) : Int) ∧ after.i = r.i ∧
      after.out = r.out ++ chars content start count ∧
      ∀ x, x ∈ after.reads ↔ x ∈ r.reads ∨ (start ≤ x ∧ x < start + count) := by
  induction count with
  | zero =>
    intro fuel start r enough here
    obtain ⟨fuel, rfl⟩ := Nat.exists_eq_succ_of_ne_zero (Nat.ne_of_gt enough)
    refine ⟨r, ?_, here, rfl, by simp [chars], fun x => ?_⟩
    · exact if_neg (not_not.mpr here)
    · rw [or_iff_left]
      omega
  | succ count ih =>
    intro fuel start r enough here
    obtain ⟨fuel, rfl⟩ := Nat.exists_eq_succ_of_ne_zero (Nat.ne_of_gt (Nat.zero_lt_of_lt enough))
    obtain ⟨reads, body, reads_iff⟩ := charBody_spec content r
    have next : (charBody content r).flash = ((start + 1 : Nat) : Int) := by
      rw [body]
      show r.flash + 1 = _
      rw [here]
      rfl
    obtain ⟨after, ends, flash, i, out, all⟩ :=
      ih fuel (start + 1) (charBody content r) (by omega) next
    rw [Nat.add_right_comm] at ends flash
    rw [body] at i out all
    refine ⟨after, ?_, flash, i, ?_, fun x => ?_⟩
    · rw [charLoop, if_pos (by rw [here]; omega)]
      exact ends
    · rw [out, chars_succ, here]
      simp
    · rw [all, List.mem_append, reads_iff, here, or_assoc]
      refine or_congr_right ?_
      omega

/-! ### The outer loop -/

/-- The loop has come to a byte, and the flash has been read up to there. -/
structure Reader.At (r : Reader) (upto : Nat) (text : List UInt8) : Prop where
  flash : r.flash = upto
  i : r.i = upto
  out : r.out = text
  reads : ∀ x, x ∈ r.reads ↔ 0 ≤ x ∧ x < upto

theorem readByte_eq (r : Reader) :
    readByte content r =
      ⟨r.flash + 1, r.i + 1,
        r.out ++ (if r.i % 16 = 0 then padded 16 7 r.i ++ [0x20, 0x20] else []) ++
          (padded 16 2 (content r.flash).toNat ++ [0x20] ++ if r.i % 16 = 7 then [0x20] else []),
        r.reads ++ [r.flash]⟩ := by
  have gap : (r.i + 1) % 16 = 8 ↔ r.i % 16 = 7 := by omega
  by_cases first : r.i % 16 = 0
  · simp [readByte, Reader.print, Reader.deref, first, gap]
  · by_cases seventh : r.i % 16 = 7
    · simp [readByte, Reader.print, Reader.deref, gap, seventh]
    · simp [readByte, Reader.print, Reader.deref, first, gap, seventh]

/-- **A byte** is one more column of its line. -/
theorem readByte_spec {r : Reader} {i : Nat} {front : List UInt8}
    (reader : r.At i (front ++ if i % 16 = 0 then [] else begun content (16 * (i / 16)) (i % 16))) :
    (readByte content r).At (i + 1) (front ++ begun content (16 * (i / 16)) (i % 16 + 1)) := by
  rw [readByte_eq, reader.flash, reader.i, reader.out]
  refine ⟨rfl, rfl, ?_, fun x => ?_⟩
  · have whole : 16 * (i / 16) + i % 16 = i := Nat.div_add_mod i 16
    rw [begun_succ, whole, column]
    by_cases first : i % 16 = 0
    · have start : 16 * (i / 16) = i := by omega
      simp [first, start, begun]
    · simp [first]
  · rw [List.mem_append, reader.reads, List.mem_singleton]
    omega

/-- **The end of a line** completes it. -/
theorem endLine_spec {r : Reader} {start count : Nat} {front : List UInt8} (aligned : start % 16 = 0)
    (some : 1 ≤ count) (fits : count ≤ 16)
    (reader : r.At (start + count) (front ++ begun content start count)) :
    ∃ after, endLine content r = .some after ∧
      after.At (start + count) (front ++ dumpLine content start count ++ [0x0a]) := by
  have full : (start + count) % 16 = 0 ↔ count = 16 := by omega
  have back : (if count = 16 then 16 else (start + count) % 16) = count := by
    split <;> omega
  have width : (if count = 16 then 0 else (16 - (start + count) % 16) * 3 + 2) =
      if count = 16 then 0 else (16 - count) * 3 + 2 := by
    split
    · rfl
    · omega
  have moved : ((start + count : Nat) : Int) - (count : Int) = start := by omega
  have length : (((start + count : Nat) : Int) - (start : Int)).toNat = count := by omega
  let paused : Reader :=
    { flash := start, i := start + count, reads := r.reads
      out := front ++ begun content start count ++
        (List.leftpad (if count = 16 then 0 else (16 - count) * 3 + 2) 0x20 [0x20] ++ [0x7c]) }
  have enters : endLine content r =
      (charLoop content ((start + count : Nat) : Int) (count + 1) paused).map
        (·.print [0x7c, 0x0a]) := by
    simp only [endLine, Reader.print, reader.flash, reader.i, reader.out, full, back, width, moved,
      length, paused]
  obtain ⟨after, ends, flash, i, out, reads⟩ :=
    charLoop_spec content count (count + 1) start paused (Nat.lt_succ_self count) rfl
  refine ⟨after.print [0x7c, 0x0a], by rw [enters, ends]; rfl, flash, i, ?_, fun x => ?_⟩
  · rw [Reader.print, out]
    simp [paused, dumpLine]
  · show x ∈ after.reads ↔ _
    rw [reads, reader.reads]
    omega

/-- What has been printed when the loop comes to the byte `i` of `n`. -/
def written (n i : Nat) : List UInt8 :=
  if i % 16 = 0 ∨ i = n then linesUpto content n ((i + 15) / 16)
  else linesUpto content n (i / 16) ++ begun content (16 * (i / 16)) (i % 16)

/-- While bytes are left, `i` alone tells the complete lines from the begun one. -/
theorem written_of_lt {n i : Nat} (inside : i < n) :
    written content n i =
      linesUpto content n (i / 16) ++
        if i % 16 = 0 then [] else begun content (16 * (i / 16)) (i % 16) := by
  unfold written
  by_cases first : i % 16 = 0
  · have lines : (i + 15) / 16 = i / 16 := by omega
    rw [if_pos (.inl first), if_pos first, lines, List.append_nil]
  · rw [if_neg (by omega), if_neg first]

/-- **One turn of the outer loop.** -/
theorem readLoop_turn {numBytes : Int} {i : Nat} (inside : (i : Int) < numBytes) {r : Reader}
    (reader : r.At i (written content numBytes.toNat i)) (fuel : Nat) :
    ∃ after, readLoop content numBytes (fuel + 1) r = readLoop content numBytes fuel after ∧
      after.At (i + 1) (written content numBytes.toNat (i + 1)) := by
  have bound : i < numBytes.toNat := Int.lt_toNat.mpr inside
  rw [written_of_lt content bound] at reader
  have byte := readByte_spec content reader
  have turn : readLoop content numBytes (fuel + 1) r =
      (if (i + 1) % 16 = 0 ∨ numBytes ≤ ((i + 1 : Nat) : Int) then endLine content (readByte content r)
        else some (readByte content r)).bind (readLoop content numBytes fuel) := by
    rw [readLoop, reader.i, if_pos inside]
    simp only [byte.i]
  by_cases last : (i + 1) % 16 = 0 ∨ i + 1 = numBytes.toNat
  · -- The line is complete.
    have ending : (i + 1) % 16 = 0 ∨ numBytes ≤ ((i + 1 : Nat) : Int) := by omega
    have whole : 16 * (i / 16) + (i % 16 + 1) = i + 1 := by omega
    have count : min 16 (numBytes.toNat - 16 * (i / 16)) = i % 16 + 1 := by omega
    rw [← whole] at byte
    obtain ⟨after, ends, completed⟩ := endLine_spec content (by omega) (by omega) (by omega) byte
    refine ⟨after, by rw [turn, if_pos ending, ends]; rfl, ?_⟩
    have lines : (i + 1 + 15) / 16 = i / 16 + 1 := by omega
    rw [whole] at completed
    rw [written, if_pos last, lines, linesUpto_succ, lineAt, count]
    exact completed
  · have goesOn : ¬ ((i + 1) % 16 = 0 ∨ numBytes ≤ ((i + 1 : Nat) : Int)) := by omega
    refine ⟨readByte content r, by rw [turn, if_neg goesOn]; rfl, ?_⟩
    have line : (i + 1) / 16 = i / 16 := by omega
    have column : (i + 1) % 16 = i % 16 + 1 := by omega
    rw [written, if_neg last, line, column]
    exact byte

/-- **The outer loop.** -/
theorem readLoop_spec (numBytes : Int) (rest : Nat) : ∀ (fuel i : Nat) (r : Reader), rest < fuel →
    i + rest = numBytes.toNat → r.At i (written content numBytes.toNat i) →
    ∃ after, readLoop content numBytes fuel r = some after ∧
      after.At numBytes.toNat (linesUpto content numBytes.toNat ((numBytes.toNat + 15) / 16)) := by
  induction rest with
  | zero =>
    intro fuel i r enough upto reader
    obtain ⟨fuel, rfl⟩ := Nat.exists_eq_succ_of_ne_zero (Nat.ne_of_gt enough)
    rw [Nat.add_zero] at upto
    subst upto
    refine ⟨r, ?_, ?_⟩
    · rw [readLoop, reader.i, if_neg (by omega)]
    · rw [written, if_pos (.inr rfl)] at reader
      exact reader
  | succ rest ih =>
    intro fuel i r enough upto reader
    obtain ⟨fuel, rfl⟩ := Nat.exists_eq_succ_of_ne_zero (Nat.ne_of_gt (Nat.zero_lt_of_lt enough))
    obtain ⟨next, turn, reader⟩ := readLoop_turn content (by omega) reader fuel
    rw [turn]
    exact ih fuel (i + 1) next (by omega) (by omega) reader

/-- **What `cmd_read` comes to**: the lines and the number of bytes are printed, and exactly these bytes
of the flash are read. -/
theorem cmdRead_eq (line : List UInt8) :
    ∃ r, cmdRead content line = some r ∧
      r.out = linesUpto content (numBytes line).toNat (((numBytes line).toNat + 15) / 16) ++
        (padded 16 7 (numBytes line).toNat ++ [0x0a]) ∧
      ∀ x, x ∈ r.reads ↔ 0 ≤ x ∧ x < numBytes line := by
  have begins : Reader.At {} 0 (written content (numBytes line).toNat 0) :=
    ⟨rfl, rfl, rfl, fun x => by simp⟩
  obtain ⟨r, ends, reader⟩ := readLoop_spec content (numBytes line) (numBytes line).toNat
    ((numBytes line).toNat + 1) 0 {} (Nat.lt_succ_self _) (Nat.zero_add _) begins
  refine ⟨_, by rw [cmdRead, ends]; rfl, ?_, fun x => ?_⟩
  · show r.out ++ (padded 16 7 r.i ++ [0x0a]) = _
    rw [reader.out, reader.i]
  · show x ∈ r.reads ↔ _
    rw [reader.reads]
    omega

end Loops

end ULoader.Shell

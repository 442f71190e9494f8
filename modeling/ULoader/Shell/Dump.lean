/-
**The dump of the flash.**

* `dump_faithful` — the dump of `n` bytes has a line for every sixteen bytes, each with its index, its bytes
  in hexadecimal and its characters between two bars, and a last line with `n`; decoding the columns gives
  the bytes back.
* `aligned_iff` — the bar in front of the characters stands at the same column on every line if and only if
  no short line of eight or more bytes comes after a full one: the padding of a short line does not count
  the gap after the eighth byte.
* `inside_iff` — the command reads inside the flash if and only if the number in the line is not larger than
  the flash: `cmd_read` has no bound of its own.

All three are read off the closed form of the command, `cmdRead_eq`.
-/

import Mathlib.Data.List.Forall2
import Mathlib.Data.List.TakeWhile
import ULoader.Lib.Lines
import ULoader.Shell.Read

namespace ULoader.Shell

open Lines Numeral

/-! ### The command line -/

/-- The line `read n`. -/
def readLine (n : Nat) : List UInt8 := ascii ['r', 'e', 'a', 'd', ' '] ++ text 10 n ++ [0x0a]

theorem parser_readLine (n : Nat) : parser (readLine n) = .read := by
  simp [parser, readLine, startsWith, ascii]

/-- The digits of a decimal number. -/
theorem decimal_digit {d : Nat} (small : d < 10) :
    isDigit (digitChar d) = true ∧ (digitChar d).toNat - 0x30 = d := by
  interval_cases d <;> exact ⟨rfl, rfl⟩

theorem isDigit_of_mem_text {n : Nat} {c : UInt8} (member : c ∈ text 10 n) : isDigit c = true := by
  obtain ⟨d, isDigit, rfl⟩ := List.mem_map.mp member
  exact (decimal_digit (digits_lt (by decide) isDigit)).1

theorem magnitude_text (n : Nat) (rest : List UInt8) : magnitude (text 10 n ++ 0x0a :: rest) = n := by
  have all : (text 10 n ++ 0x0a :: rest).takeWhile isDigit = text 10 n := by
    rw [List.takeWhile_append_of_pos fun _ member => isDigit_of_mem_text member]
    simp [isDigit]
  have back : (text 10 n).map (fun c => c.toNat - 0x30) = digits 10 n := by
    rw [text, List.map_map]
    refine (List.map_congr_left fun d member => ?_).trans (List.map_id _)
    exact (decimal_digit (digits_lt (by decide) member)).2
  rw [magnitude, all, back, value_digits]

/-- A text that starts with a digit has neither white space nor a sign in front. -/
theorem integer_of_digit {c : UInt8} (digit : isDigit c = true) (rest : List UInt8) :
    integer (c :: rest) = magnitude (c :: rest) := by
  have notSpace : isSpace c = false := by
    simp only [isDigit, isSpace, decide_eq_true_eq, decide_eq_false_iff_not, UInt8.le_iff_toNat_le,
      ← UInt8.toNat_inj, UInt8.reduceToNat] at digit ⊢
    omega
  rw [integer, List.dropWhile_cons, notSpace, if_neg Bool.false_ne_true]
  split
  · rename_i same
    obtain ⟨rfl, -⟩ := List.cons.inj same
    exact absurd digit (by decide)
  · rename_i same
    obtain ⟨rfl, -⟩ := List.cons.inj same
    exact absurd digit (by decide)
  · rfl

theorem nul_notMem_readLine (n : Nat) : 0 ∉ readLine n := by
  intro member
  rw [readLine, List.mem_append, List.mem_append] at member
  rcases member with (letter | digit) | last
  · exact absurd letter (by decide)
  · exact absurd (isDigit_of_mem_text digit) (by decide)
  · exact absurd last (by decide)

theorem numBytes_readLine {n : Nat} (small : n < 2 ^ 31) : numBytes (readLine n) = n := by
  obtain ⟨c, rest, isText⟩ := List.exists_cons_of_ne_nil (text_ne_nil 10 n)
  have whole : (readLine n).takeWhile (· ≠ 0) = readLine n := by
    rw [List.takeWhile_eq_self_iff]
    intro byte member
    exact decide_eq_true fun zero => nul_notMem_readLine n (zero ▸ member)
  have long : ¬ strlen (readLine n) ≤ 5 := by
    rw [strlen, whole, readLine, isText]
    simp [ascii]
  have argument : (readLine n).drop 5 = text 10 n ++ [0x0a] := by
    simp [readLine, ascii]
  have number : integer (text 10 n ++ [0x0a]) = n := by
    have digit : isDigit c = true := isDigit_of_mem_text (isText ▸ List.mem_cons_self)
    rw [isText, List.cons_append, integer_of_digit digit, ← List.cons_append, ← isText, magnitude_text]
  rw [numBytes, if_neg long, whole, argument, atoi, number]
  omega

/-! ### A line of the dump -/

theorem notMem_padded {c : UInt8} (noDigit : digit c = none) (width n : Nat) : c ∉ padded 16 width n := by
  intro member
  obtain ⟨d, -, isDigit⟩ := isDigit_of_mem (by decide) (by decide) member
  rw [noDigit] at isDigit
  cases isDigit

theorem words_padded (width n : Nat) : words 0x20 (padded 16 width n) = [padded 16 width n] := by
  refine words_of_plain (fun empty => text_ne_nil 16 n ?_) (notMem_padded rfl width n)
  exact (List.append_eq_nil_iff.mp empty).2

section Lines

variable (content : Int → UInt8)

/-- What stands in front of the first bar. -/
def front (start count : Nat) : List UInt8 :=
  begun content start count ++
    List.leftpad (if count = 16 then 0 else (16 - count) * 3 + 2) 0x20 [0x20]

theorem dumpLine_eq (start count : Nat) :
    dumpLine content start count =
      front content start count ++ 0x7c :: (chars content start count ++ [0x7c]) := by
  simp [dumpLine, front]

/-- The columns are the words. -/
theorem words_columns (start : Nat) (js : List Nat) (rest : List UInt8) :
    words 0x20 ((js.flatMap fun j => column content (start + j)) ++ rest) =
      (js.map fun j => padded 16 2 (content ((start + j : Nat) : Int)).toNat) ++ words 0x20 rest := by
  induction js with
  | nil => rfl
  | cons j js ih =>
    have gap (later : List UInt8) :
        words 0x20 ((if (start + j) % 16 = 7 then [0x20] else []) ++ later) = words 0x20 later := by
      split
      · rw [← List.nil_append ([0x20] ++ later), List.singleton_append, words_append_cons, words_nil]
        rfl
      · rfl
    rw [List.flatMap_cons, column, List.append_assoc, List.append_assoc, List.append_assoc,
      List.singleton_append, words_append_cons, words_padded, gap, ih]
    rfl

/-- **The words in front of the bar** are the index and the bytes, in hexadecimal. -/
theorem words_front (start count : Nat) :
    words 0x20 (front content start count) =
      padded 16 7 start :: (List.range count).map fun j =>
        padded 16 2 (content ((start + j : Nat) : Int)).toNat := by
  have spaces (width : Nat) : words 0x20 (List.leftpad width 0x20 [(0x20 : UInt8)]) = [] := by
    rw [List.leftpad, List.length_singleton, ← List.replicate_succ']
    exact words_replicate _ _
  have split (rest : List UInt8) : words 0x20 (padded 16 7 start ++ 0x20 :: 0x20 :: rest) =
      padded 16 7 start :: words 0x20 rest := by
    rw [words_append_cons, words_padded, ← List.nil_append (0x20 :: rest), words_append_cons, words_nil]
    rfl
  rw [front, begun, List.append_assoc, List.append_assoc, List.cons_append, List.cons_append,
    List.nil_append, split, words_columns, spaces, List.append_nil]

/-- In front of the bar there are only digits and spaces. -/
theorem notMem_front {c : UInt8} (noDigit : digit c = none) (noSpace : c ≠ 0x20) (start count : Nat) :
    c ∉ front content start count := by
  have noDigits := notMem_padded noDigit
  have noColumn (j : Nat) : c ∉ column content j := by
    unfold column
    split <;> simp [noDigits, noSpace]
  simp [front, begun, List.leftpad, noDigits, noColumn, noSpace]

theorem shown_plain (byte : UInt8) : shown byte ≠ 0x0a := by
  unfold shown
  split
  · rintro rfl
    exact absurd ‹_› (by decide)
  · decide

theorem newline_notMem_dumpLine (start count : Nat) : 0x0a ∉ dumpLine content start count := by
  have noFront := notMem_front content (c := 0x0a) rfl (by decide) start count
  have noChars : 0x0a ∉ chars content start count := by
    intro member
    obtain ⟨j, -, same⟩ := List.mem_map.mp member
    exact shown_plain _ same
  rw [dumpLine_eq]
  simp [noFront, noChars]

/-! ### Decoding the dump -/

/-- The bytes of the line number `k`. -/
def lineBytes (n k : Nat) : List UInt8 :=
  (List.range (min 16 (n - 16 * k))).map fun j => content ((16 * k + j : Nat) : Int)

end Lines

/-- The bytes in the columns of a line: the words behind the first one and in front of the bar. -/
def decodeLine (line : List UInt8) : Option (List UInt8) :=
  (splitFirst 0x7c line).bind fun split =>
    ((words 0x20 split.1).tail.mapM (read 16)).map fun bytes => bytes.map UInt8.ofNat

/-- The bytes in the columns of a dump: of all its lines but the last. -/
def decodeDump (out : List UInt8) : Option (List UInt8) :=
  ((cut 0x0a out).dropLast.mapM decodeLine).map List.flatten

section Dump

variable (content : Int → UInt8)

theorem decodeLine_lineAt (n k : Nat) :
    decodeLine (lineAt content n k ++ [0x0a]) = some (lineBytes content n k) := by
  have columns : splitFirst 0x7c (lineAt content n k ++ [0x0a]) =
      some (front content (16 * k) (min 16 (n - 16 * k)),
        chars content (16 * k) (min 16 (n - 16 * k)) ++ [0x7c] ++ [0x0a]) := by
    refine splitFirst_eq_some.mpr ⟨?_, notMem_front content rfl (by decide) _ _⟩
    rw [lineAt, dumpLine_eq, List.append_assoc, List.cons_append]
  have bytes : ((List.range (min 16 (n - 16 * k))).map fun j =>
      padded 16 2 (content ((16 * k + j : Nat) : Int)).toNat).mapM (read 16) =
      some ((List.range (min 16 (n - 16 * k))).map fun j =>
        (content ((16 * k + j : Nat) : Int)).toNat) :=
    mapM_map_eq_some fun j _ => read_padded (by decide) (by decide) 2 _
  rw [decodeLine, columns, Option.bind_some, words_front, List.tail_cons, bytes, Option.map_some,
    List.map_map]
  simp [lineBytes, Function.comp_def]

/-- The lines of the dump. -/
theorem cut_dump (n count : Nat) (last : List UInt8) (plain : 0x0a ∉ last) :
    cut 0x0a (linesUpto content n count ++ (last ++ [0x0a])) =
      ((List.range count).map fun k => lineAt content n k ++ [0x0a]) ++ [last ++ [0x0a]] := by
  have lines (line : List UInt8)
      (member : line ∈ (List.range count).map fun k => lineAt content n k ++ [0x0a]) :
      IsLine 0x0a line := by
    obtain ⟨k, -, rfl⟩ := List.mem_map.mp member
    exact ⟨_, rfl, newline_notMem_dumpLine content _ _⟩
  have ends : cut 0x0a (last ++ [0x0a] ++ []) = (last ++ [0x0a]) :: cut 0x0a [] :=
    cut_line ⟨last, rfl, plain⟩ []
  rw [List.append_nil] at ends
  rw [linesUpto, List.flatMap_def, cut_flatten_append _ lines, ends]
  rfl

/-- The bytes of all lines are the first bytes of the flash. -/
theorem flatten_lineBytes (n : Nat) :
    ((List.range ((n + 15) / 16)).map (lineBytes content n)).flatten =
      (List.range n).map fun j : Nat => content j := by
  have piece (k : Nat) : lineBytes content n k =
      (((List.range n).map fun j : Nat => content j).drop (k * 16)).take 16 := by
    apply List.ext_getElem
    · simp [lineBytes, Nat.mul_comm]
    · intro j _ _
      simp [lineBytes, Nat.mul_comm]
  rw [List.map_congr_left fun k _ => piece k, flatten_pieces, List.take_of_length_le]
  rw [List.length_map, List.length_range]
  omega

end Dump

/-- A number with so many hexadecimal digits. -/
structure IsHex (width n : Nat) (digits : List UInt8) : Prop where
  length : digits.length = width
  value : read 16 digits = some n

theorem isHex_padded {width n : Nat} (small : n < 16 ^ width) (some : 1 ≤ width) :
    IsHex width n (padded 16 width n) :=
  ⟨length_padded (by decide) small some, read_padded (by decide) (by decide) width n⟩

theorem isHex_byte (byte : UInt8) : IsHex 2 byte.toNat (padded 16 2 byte.toNat) :=
  isHex_padded byte.toNat_lt (by decide)

/-- The line number `k` of a dump of `n` bytes: the index and the bytes in hexadecimal, separated by
spaces, and the characters between two bars. -/
structure IsDumpLine (content : Int → UInt8) (n k : Nat) (line : List UInt8) : Prop where
  plain : 0x0a ∉ line
  parts : ∃ columns index bytes,
    line = columns ++ 0x7c :: ((lineBytes content n k).map shown ++ [0x7c]) ∧ 0x7c ∉ columns ∧
    words 0x20 columns = index :: bytes ∧ index <+: line ∧ IsHex 7 (16 * k) index ∧
    List.Forall₂ (fun byte digits => IsHex 2 byte.toNat digits) (lineBytes content n k) bytes

theorem isDumpLine_lineAt (content : Int → UInt8) {n k : Nat} (inside : 16 * k < 2 ^ 28) :
    IsDumpLine content n k (lineAt content n k) where
  plain := newline_notMem_dumpLine content _ _
  parts := by
    refine ⟨front content (16 * k) (min 16 (n - 16 * k)), _, _, ?_,
      notMem_front content rfl (by decide) _ _, words_front content _ _, ?_,
      isHex_padded inside (by decide), ?_⟩
    · rw [lineAt, dumpLine_eq, chars, lineBytes, List.map_map]
      rfl
    · rw [lineAt, dumpLine_eq, front, begun, List.append_assoc, List.append_assoc, List.append_assoc]
      exact List.prefix_append _ _
    · rw [lineBytes, List.forall₂_map_left_iff, List.forall₂_map_right_iff]
      exact List.forall₂_same.mpr fun j _ => isHex_byte _

/-- **The dump is faithful.** For every content of the flash and every `n` up to its size, the line
`read n` prints a line for every sixteen bytes and then `n`; the line number `k` has the index `16 k`, the
bytes from there on and their characters; and the columns of all lines decode to the first `n` bytes. -/
theorem dump_faithful (content : Int → UInt8) (n : Nat) (small : n ≤ 2 ^ 20) :
    parser (readLine n) = .read ∧ ∃ r lines last, cmdRead content (readLine n) = some r ∧
      r.out = ((lines ++ [last]).map fun line => line ++ [0x0a]).flatten ∧
      lines.length = (n + 15) / 16 ∧
      (∀ k line, lines[k]? = some line → IsDumpLine content n k line) ∧
      IsHex 7 n last ∧
      decodeDump r.out = some ((List.range n).map fun j : Nat => content j) := by
  obtain ⟨r, ends, out, -⟩ := cmdRead_eq content (readLine n)
  rw [numBytes_readLine (by omega), Int.toNat_natCast] at out
  refine ⟨parser_readLine n, r, (List.range ((n + 15) / 16)).map (lineAt content n), padded 16 7 n, ends,
    ?_, by rw [List.length_map, List.length_range], fun k line isLine => ?_,
    isHex_padded (by omega) (by decide), ?_⟩
  · rw [out, linesUpto, List.flatMap_def, List.map_append, List.map_map, List.flatten_append]
    simp [Function.comp_def]
  · rw [List.getElem?_map] at isLine
    obtain ⟨j, inside, rfl⟩ := Option.map_eq_some_iff.mp isLine
    obtain ⟨bound, rfl⟩ := List.getElem?_eq_some_iff.mp inside
    rw [List.length_range] at bound
    rw [List.getElem_range]
    exact isDumpLine_lineAt content (by omega)
  · rw [decodeDump, out, cut_dump content n _ _ (notMem_padded rfl 7 n), List.dropLast_concat]
    rw [mapM_map_eq_some fun k _ => decodeLine_lineAt content n k, Option.map_some, flatten_lineBytes]

/-- Twenty bytes: a full line and a short one. -/
theorem dump_faithful_twenty :
    parser (readLine 20) = .read ∧ ∃ r lines last, cmdRead (fun j => UInt8.ofNat j.toNat) (readLine 20) =
        some r ∧
      r.out = ((lines ++ [last]).map fun line => line ++ [0x0a]).flatten ∧ lines.length = 2 ∧
      (∀ k line, lines[k]? = some line → IsDumpLine (fun j => UInt8.ofNat j.toNat) 20 k line) ∧
      IsHex 7 20 last ∧
      decodeDump r.out = some ((List.range 20).map fun j : Nat => UInt8.ofNat (j : Int).toNat) :=
  dump_faithful (fun j => UInt8.ofNat j.toNat) 20 (by decide)

/-! ### The columns -/

/-- The bar in front of the characters stands at one column on all lines of the dump. -/
def Aligned (out : List UInt8) : Prop :=
  ∃ column, ∀ line ∈ (cut 0x0a out).dropLast, line.idxOf 0x7c = column

section Columns

variable (content : Int → UInt8)

theorem length_column (j : Nat) :
    (column content j).length = 3 + if j % 16 = 7 then 1 else 0 := by
  have two := (isHex_byte (content j)).length
  rw [column, List.length_append, List.length_append, two, List.length_singleton]
  split <;> rfl

/-- Three characters for each byte, and one for the gap. -/
theorem length_columns (k count : Nat) (fits : count ≤ 16) :
    ((List.range count).flatMap fun j => column content (16 * k + j)).length =
      3 * count + if 8 ≤ count then 1 else 0 := by
  induction count with
  | zero => rfl
  | succ count ih =>
    have gap : (16 * k + count) % 16 = 7 ↔ count = 7 := by omega
    rw [List.range_succ, List.flatMap_append, List.length_append, ih (by omega),
      List.flatMap_singleton, length_column, if_congr gap rfl rfl]
    split <;> split <;> split <;> omega

/-- **Where the bar stands**: one column further on a short line of eight or more bytes. -/
theorem length_front {k count : Nat} (inside : 16 * k < 2 ^ 28) (some : 1 ≤ count) (fits : count ≤ 16) :
    (front content (16 * k) count).length = 59 + if 8 ≤ count ∧ count < 16 then 1 else 0 := by
  have seven := (isHex_padded (n := 16 * k) inside (by decide : 1 ≤ 7)).length
  rw [front, begun, List.length_append, List.length_append, List.length_append, seven,
    length_columns content k count fits, List.length_leftpad]
  show 7 + 2 + _ + max _ 1 = _
  by_cases full : count = 16
  · subst full
    rfl
  · rw [if_neg full]
    split <;> split <;> omega

theorem idxOf_lineAt {n k : Nat} (inside : 16 * k < 2 ^ 28) (some : 16 * k < n) :
    (lineAt content n k ++ [0x0a]).idxOf 0x7c =
      59 + if 8 ≤ min 16 (n - 16 * k) ∧ min 16 (n - 16 * k) < 16 then 1 else 0 := by
  rw [lineAt, dumpLine_eq, List.append_assoc, List.idxOf_append,
    if_neg (notMem_front content rfl (by decide) _ _), List.cons_append, List.idxOf_cons_self,
    Nat.zero_add]
  exact length_front content inside (by omega) (by omega)

/-- The first line is full; a line of eight to fifteen bytes behind it has its bar one column further. -/
theorem aligned_text_iff {n : Nat} (small : n ≤ 2 ^ 20) :
    Aligned (linesUpto content n ((n + 15) / 16) ++ (padded 16 7 n ++ [0x0a])) ↔
      n < 16 ∨ n % 16 < 8 := by
  have lines : Aligned (linesUpto content n ((n + 15) / 16) ++ (padded 16 7 n ++ [0x0a])) ↔
      ∃ column, ∀ k < (n + 15) / 16,
        (59 + if 8 ≤ min 16 (n - 16 * k) ∧ min 16 (n - 16 * k) < 16 then 1 else 0) = column := by
    rw [Aligned, cut_dump content n _ _ (notMem_padded rfl 7 n), List.dropLast_concat]
    refine exists_congr fun column => ?_
    rw [List.forall_mem_map]
    refine forall_congr' fun k => ?_
    rw [List.mem_range]
    refine imp_congr_right fun inside => ?_
    rw [idxOf_lineAt content (by omega) (by omega)]
  rw [lines]
  constructor
  · rintro ⟨column, same⟩
    by_contra misaligned
    push Not at misaligned
    have first := same 0 (by omega)
    have last := same (n / 16) (by omega)
    rw [if_neg (by omega)] at first
    rw [if_pos (by omega)] at last
    omega
  · rintro (single | short)
    · refine ⟨59 + if 8 ≤ min 16 (n - 16 * 0) ∧ min 16 (n - 16 * 0) < 16 then 1 else 0,
        fun k inside => ?_⟩
      have only : k = 0 := by omega
      rw [only]
    · refine ⟨59, fun k inside => ?_⟩
      rw [if_neg (by omega)]

/-- **When the dump is aligned.** For every content and every number of bytes up to the size of the flash,
the bar stands at the same column on every line if and only if the dump has no full line, or its last line
holds fewer than eight bytes or all sixteen. -/
theorem aligned_iff (line : List UInt8) (n : Nat) (asked : numBytes line = n) (small : n ≤ 2 ^ 20) :
    ∃ r, cmdRead content line = some r ∧ (Aligned r.out ↔ n < 16 ∨ n % 16 < 8) := by
  obtain ⟨r, ends, out, -⟩ := cmdRead_eq content line
  rw [asked, Int.toNat_natCast] at out
  refine ⟨r, ends, ?_⟩
  rw [out]
  exact aligned_text_iff content small

end Columns

/-- A full line and a line of seven bytes. -/
theorem aligned_twentyThree :
    ∃ r, cmdRead (fun _ => 0) (readLine 23) = some r ∧ (Aligned r.out ↔ 23 < 16 ∨ 23 % 16 < 8) :=
  aligned_iff (fun _ => 0) (readLine 23) 23 (numBytes_readLine (by decide)) (by decide)

/-- **A dump of 24 bytes** is not aligned. -/
theorem misaligned_twentyFour :
    ∃ r, cmdRead (fun _ => 0) (readLine 24) = some r ∧ ¬ Aligned r.out := by
  obtain ⟨r, ends, out, -⟩ := cmdRead_eq (fun _ => 0) (readLine 24)
  rw [numBytes_readLine (by decide), Int.toNat_natCast] at out
  refine ⟨r, ends, fun aligned => ?_⟩
  rw [out, aligned_text_iff _ (by decide)] at aligned
  exact absurd aligned (by decide)

/-! ### The flash -/

/-- The size of the flash in the linker script: `LENGTH = 1024K`. -/
def flashSize : Int := 1024 * 1024

theorem numBytes_le_iff (line : List UInt8) :
    numBytes line ≤ flashSize ↔
      strlen line ≤ 5 ∨ integer ((line.takeWhile (· ≠ 0)).drop 5) ≤ flashSize := by
  unfold numBytes atoi flashSize
  split <;> omega

/-- **When `read` stays inside the flash.** For every content and every line the command ends, and every
index that it reads lies in the flash if and only if the line has no argument or the integer there is not
larger than the size of the flash. -/
theorem inside_iff (content : Int → UInt8) (line : List UInt8) :
    ∃ r, cmdRead content line = some r ∧
      ((∀ x ∈ r.reads, 0 ≤ x ∧ x < flashSize) ↔
        strlen line ≤ 5 ∨ integer ((line.takeWhile (· ≠ 0)).drop 5) ≤ flashSize) := by
  obtain ⟨r, ends, -, reads⟩ := cmdRead_eq content line
  refine ⟨r, ends, ?_⟩
  rw [← numBytes_le_iff]
  constructor
  · intro inside
    by_contra beyond
    have last := inside flashSize ((reads flashSize).mpr ⟨by decide, by omega⟩)
    omega
  · intro bounded x member
    obtain ⟨nonneg, less⟩ := (reads x).mp member
    exact ⟨nonneg, by omega⟩

/-- **One byte too many.** The line `read 1048577` is handed to `cmd_read`, which reads the byte behind the
flash. -/
theorem read_behind_flash :
    let line := ascii ['r', 'e', 'a', 'd', ' ', '1', '0', '4', '8', '5', '7', '7', '\n']
    parser line = .read ∧ strlen line ≤ 63 ∧
      ∃ r, cmdRead (fun _ => 0) line = some r ∧ flashSize ∈ r.reads ∧
        ¬ ∀ x ∈ r.reads, 0 ≤ x ∧ x < flashSize := by
  intro line
  obtain ⟨r, ends, -, reads⟩ := cmdRead_eq (fun _ => 0) line
  have asked : numBytes line = 1048577 := by decide +kernel
  have behind : flashSize ∈ r.reads := by
    rw [reads, asked]
    decide
  exact ⟨by decide +kernel, by decide +kernel, r, ends, behind, fun inside =>
    absurd (inside flashSize behind).2 (Int.lt_irrefl _)⟩

end ULoader.Shell

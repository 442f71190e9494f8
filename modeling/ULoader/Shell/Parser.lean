/-
**The shell's command dispatch.**

`parser` compares the start of a line with the names of the commands, in the source's order: what
follows a name is left to the command, so `dhcpx` is the command `dhcp`. A line is the text in the
64-byte buffer of `main`, up to its terminating NUL.
-/

import Mathlib.Data.List.Basic

namespace ULoader.Shell

/-- The bytes of an ASCII text. -/
def ascii (text : List Char) : List UInt8 := text.map fun c => UInt8.ofNat c.toNat

/-- `strlen`. -/
def strlen (line : List UInt8) : Nat := (line.takeWhile (· ≠ 0)).length

/-- `strncmp(line, text, strlen(text)) == 0`, for a text without NUL. -/
def startsWith (line : List UInt8) (text : List Char) : Bool := (ascii text).isPrefixOf line

/-- What a line makes the shell do. -/
inductive Command where
  | done
  | echo
  | printenv
  | read
  | tftp
  | dhcp
  | static
  | unknown
  deriving DecidableEq, Repr

/-- `parser`. -/
def parser (line : List UInt8) : Command :=
  if line.head? = some 0x0a then .done
  else if startsWith line ['e', 'c', 'h', 'o', ' '] then .echo
  else if startsWith line ['p', 'r', 'i', 'n', 't', 'e', 'n', 'v'] then .printenv
  else if startsWith line ['e', 'n', 'v'] then .printenv
  else if startsWith line ['r', 'e', 'a', 'd'] then .read
  else if startsWith line ['t', 'f', 't', 'p'] then .tftp
  else if startsWith line ['d', 'h', 'c', 'p'] then .dhcp
  else if startsWith line ['s', 't', 'a', 't', 'i', 'c'] then .static
  else .unknown

end ULoader.Shell

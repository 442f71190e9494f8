/-
**The read request.**

A read request is `00 01`, the file name, `00`, the mode, `00`, and nothing more; `decodeRrq` reads it so,
and `decodeRrq_eq_some` says that it accepts exactly these datagrams.

`tftp_rrq` copies the whole name, but then moves its offset on by ten, the length of the one name that
the shell passes. The datagram is always 19 bytes long: a longer name is cut off by the terminator and the
mode that are written over it, and a shorter one is followed by zero bytes of the message, which end the
mode before it begins (`rrqMsg_eq`). So the request is right for names of ten bytes and no others
(`rrq_decodes_iff`).
-/

import Mathlib.Data.List.TakeWhile
import ULoader.Lib.Lines
import ULoader.Tftp.Client

namespace ULoader.Tftp

open Lines

/-! ### The grammar -/

/-- A read request by RFC 1350: its file name and its mode. -/
def decodeRrq : List UInt8 → Option (List UInt8 × List UInt8)
  | 0x00 :: 0x01 :: rest =>
    (splitFirst 0x00 rest).bind fun (name, rest) =>
      (splitFirst 0x00 rest).bind fun (mode, rest) =>
        if rest = [] then some (name, mode) else none
  | _ => none

/-- **The grammar**: exactly these datagrams are read requests. -/
theorem decodeRrq_eq_some {datagram name mode : List UInt8} :
    decodeRrq datagram = some (name, mode) ↔
      datagram = [0x00, 0x01] ++ name ++ [0x00] ++ mode ++ [0x00] ∧ 0 ∉ name ∧ 0 ∉ mode := by
  constructor
  · intro decoded
    unfold decodeRrq at decoded
    split at decoded
    · simp only [Option.bind_eq_some_iff, Prod.exists] at decoded
      obtain ⟨name', rest, atName, mode', rest', atMode, ends⟩ := decoded
      split at ends
      · rename_i nothing
        cases ends
        obtain ⟨rfl, plainName⟩ := splitFirst_eq_some.mp atName
        obtain ⟨rfl, plainMode⟩ := splitFirst_eq_some.mp atMode
        refine ⟨?_, plainName, plainMode⟩
        simp [nothing]
      · cases ends
    · cases decoded
  · rintro ⟨rfl, plainName, plainMode⟩
    have atName : splitFirst 0x00 (name ++ 0x00 :: (mode ++ [0x00])) = some (name, mode ++ [0x00]) :=
      splitFirst_eq_some.mpr ⟨rfl, plainName⟩
    have atMode : splitFirst 0x00 (mode ++ [0x00]) = some (mode, []) :=
      splitFirst_eq_some.mpr ⟨rfl, plainMode⟩
    simp [decodeRrq, atName, atMode]

/-! ### The message -/

/-- A copy at the end of the first part of a buffer. -/
theorem memcpy_append (front back src : List UInt8) (offset : Nat) (here : offset = front.length)
    (enough : src.length ≤ back.length) :
    memcpy (front ++ back) offset src = some (front ++ src ++ back.drop src.length) := by
  subst here
  have inside : front.length + src.length ≤ (front ++ back).length := by
    rw [List.length_append]
    omega
  rw [memcpy, if_pos inside, List.take_left, List.drop_append]
  simp

/-- The ten bytes at the place of the name. -/
def nameField (name : List UInt8) : List UInt8 :=
  (name ++ List.replicate (514 - name.length) 0).take 10

theorem length_nameField (name : List UInt8) : (nameField name).length = 10 := by
  simp [nameField]
  omega

/-- **The message.** It is the request for whatever stands in the ten bytes. -/
theorem rrqMsg_eq {name : List UInt8} (nulFree : 0 ∉ name) (fits : 2 + name.length ≤ 516) :
    rrqMsg name = some ([0x00, 0x01] ++ nameField name ++ [0x00] ++ octet ++ [0x00]) := by
  have whole : name.takeWhile (· ≠ 0) = name := by
    rw [List.takeWhile_eq_self_iff]
    intro byte member
    have other : byte ≠ 0 := fun zero => nulFree (zero ▸ member)
    simpa using other
  have first : memcpy (List.replicate (512 + 4) 0) 0 [0x00] = some ([0x00] ++ List.replicate 515 0) := by
    have copied := memcpy_append [] (List.replicate (512 + 4) 0) [0x00] 0 rfl
      (by rw [List.length_replicate]; decide)
    rwa [List.drop_replicate] at copied
  have second : memcpy ([0x00] ++ List.replicate 515 0) 1 [0x01] =
      some ([0x00, 0x01] ++ List.replicate 514 0) := by
    have copied := memcpy_append [0x00] (List.replicate 515 0) [0x01] 1 rfl
      (by rw [List.length_replicate]; decide)
    rwa [List.drop_replicate] at copied
  -- The name is copied whole; from here on only its first ten bytes are left alone.
  obtain ⟨rest, body, restLength⟩ : ∃ rest,
      name ++ List.replicate (514 - name.length) 0 = nameField name ++ rest ∧ rest.length = 504 :=
    ⟨_, (List.take_append_drop 10 _).symm, by rw [List.length_drop]; simp; omega⟩
  have third : memcpy ([0x00, 0x01] ++ List.replicate 514 0) 2 name =
      some ([0x00, 0x01] ++ nameField name ++ rest) := by
    have copied := memcpy_append [0x00, 0x01] (List.replicate 514 0) name 2 rfl
      (by rw [List.length_replicate]; omega)
    rwa [List.drop_replicate, List.append_assoc, body, ← List.append_assoc] at copied
  have length := length_nameField name
  have fourth := memcpy_append ([0x00, 0x01] ++ nameField name) rest [0x00] (2 + 10)
    (by simp [length]) (by rw [restLength]; decide)
  have fifth := memcpy_append ([0x00, 0x01] ++ nameField name ++ [0x00]) (rest.drop 1) octet
    (2 + 10 + 1) (by simp [length]) (by rw [List.length_drop, restLength]; decide)
  have sixth := memcpy_append ([0x00, 0x01] ++ nameField name ++ [0x00] ++ octet)
    ((rest.drop 1).drop octet.length) [0x00] (2 + 10 + 1 + 5) (by simp [length, octet])
    (by rw [List.length_drop, List.length_drop, restLength]; decide)
  have sent (behind : List UInt8) :
      ([0x00, 0x01] ++ nameField name ++ [0x00] ++ octet ++ [0x00] ++ behind).take (2 + 10 + 1 + 5 + 1) =
        [0x00, 0x01] ++ nameField name ++ [0x00] ++ octet ++ [0x00] :=
    List.take_left' (by simp [length, octet])
  rw [rrqMsg, whole]
  simp only [first, second, third, fourth, fifth, sixth, sent, Option.bind_eq_bind,
    Option.bind_some, List.length_singleton, Option.pure_def]

/-! ### When the request is right -/

/-- The datagram that `tftp_rrq` sends is a read request for the file, in octet mode. -/
def RequestsFile (c : Client) (name : List UInt8) : Prop :=
  ∃ effects datagram, tftpRrq c (some name) = some effects ∧
    sends effects = [(c.tftpUpcb, datagram, tftpServer)] ∧
    decodeRrq datagram = some (name, octet)

/-- `tftp_rrq` sends one datagram, the message. -/
theorem requestsFile_iff (c : Client) {name datagram : List UInt8}
    (message : rrqMsg name = some datagram) :
    RequestsFile c name ↔ decodeRrq datagram = some (name, octet) := by
  have sent : tftpRrq c (some name) = some [.udpSendto c.tftpUpcb datagram tftpServer] := by
    simp only [tftpRrq, message, Option.map_some]
  constructor
  · rintro ⟨effects, datagram', sent', sends', decoded⟩
    rw [sent, Option.some.injEq] at sent'
    subst sent'
    simp only [sends, List.filterMap_cons, List.filterMap_nil, List.cons.injEq, Prod.mk.injEq,
      and_true, true_and] at sends'
    rwa [sends']
  · exact fun decoded => ⟨_, datagram, sent, rfl, decoded⟩

/-- **The read request.** For every file name without a zero byte that fits the message, the datagram
decodes to this name and the mode `octet` if and only if the name has ten bytes. -/
theorem rrq_decodes_iff (c : Client) (name : List UInt8) (nulFree : 0 ∉ name)
    (fits : 2 + name.length + 1 + octet.length + 1 ≤ 512 + 4) :
    RequestsFile c name ↔ name.length = 10 := by
  have message := rrqMsg_eq nulFree (by omega)
  rw [requestsFile_iff c message, decodeRrq_eq_some]
  constructor
  · rintro ⟨same, -⟩
    have lengths := congrArg List.length same
    simp only [List.length_append, length_nameField] at lengths
    omega
  · intro ten
    have field : nameField name = name := by
      rw [nameField, ← ten, List.take_left]
    rw [field]
    exact ⟨rfl, nulFree, by decide⟩

/-- The name that the shell passes. -/
theorem rrq_decodes_blinkyBin : RequestsFile (tftpInit 0 {}) blinkyBin ↔ blinkyBin.length = 10 :=
  rrq_decodes_iff _ blinkyBin (by decide) (by decide)

/-- **A request for `a.bin`** is sent as `00 01`, `a.bin`, six zero bytes, `octet`, `00`: its mode is empty,
and there is more behind it. -/
theorem short_name_malformed :
    ¬ ∀ (c : Client) (name : List UInt8), name ≠ [] → 0 ∉ name →
        2 + name.length + 1 + octet.length + 1 ≤ 512 + 4 → RequestsFile c name := by
  intro claimed
  have message : rrqMsg [0x61, 0x2e, 0x62, 0x69, 0x6e] =
      some ([0x00, 0x01, 0x61, 0x2e, 0x62, 0x69, 0x6e] ++ List.replicate 6 0 ++ octet ++ [0x00]) := by
    decide +kernel
  have decoded := (requestsFile_iff {} message).mp (claimed {} _ (by decide) (by decide) (by decide))
  revert decoded
  decide +kernel

end ULoader.Tftp

/-
**One datagram of any type and length.**

`tftp_recv` looks at the type in its `switch`, and at the length behind it; neither looks at the other.

* `endsProperly_iff` — a transfer should end with a short DATA datagram or with an ERROR. It ends with any
  datagram shorter than a full block, so an ACK ends it and a long ERROR does not.
* `contained_iff` — the four header bytes are read at the first pbuf, and subtracted from the length of the
  chain, whatever these lengths are. For a first pbuf of less than four bytes that can still be the front
  of a DATA header, what happens depends on the memory behind it, and `file_size` can go down. In a
  transfer without such datagrams it never does (`fileSize_mono`).

The type that the claims about a datagram speak of is the one it was sent with, `Pbuf.sentType`. The type
that `tftp_recv` reads, `Pbuf.type`, is the same when the first pbuf holds two bytes (`Pbuf.type_of_len`).
-/

import Mathlib.Data.List.Infix
import ULoader.Tftp.Lifecycle
import ULoader.Tftp.Strangers

namespace ULoader.Tftp

open ByteOrder StepSystem

/-! ### The end of a transfer -/

/-- The callback reports the transfer as done and removes its block. -/
structure Ends (o : OpenTransfer) (result : Client × List Effect) : Prop where
  reported : .print .done ∈ result.2
  removed : .udpRemove (some o.pcb) ∈ result.2
  closed : o.pcb ∉ result.1.live

/-- The callback leaves the transfer open. -/
structure StaysOpen (o : OpenTransfer) (result : Client × List Effect) : Prop where
  notReported : .print .done ∉ result.2
  notRemoved : removes result.2 = []
  current : result.1.tftpUpcb = some o.pcb
  isLive : o.pcb ∈ result.1.live

theorem done_notMem_tftpSwitch (c : Client) (p : Pbuf) (source : Endpoint) :
    .print .done ∉ (tftpSwitch c p source).2 := by
  unfold tftpSwitch
  split <;> simp [tftpAck]

/-- A datagram shorter than a full block ends the transfer, -/
theorem ends_of_short (o : OpenTransfer) {d : Incoming} (short : d.Short) :
    Ends o (tftpRecv o.client o.pcb d.p d.source) where
  reported := by
    have shorter : d.p.totLen < 512 + 4 := short
    simp [tftpRecv, shorter]
  removed := by
    have shorter : d.p.totLen < 512 + 4 := short
    simp [tftpRecv, shorter, tftpDeinit, tftpSwitch_fst, o.current]
  closed isLive := (live_tftpRecv o d).mp isLive short

/-- and any other does not. -/
theorem staysOpen_of_long (o : OpenTransfer) {d : Incoming} (long : ¬ d.Short) :
    StaysOpen o (tftpRecv o.client o.pcb d.p d.source) where
  notReported := by
    have longer : ¬ d.p.totLen < 512 + 4 := long
    simp [tftpRecv, longer, done_notMem_tftpSwitch]
  notRemoved := by
    have longer : ¬ d.p.totLen < 512 + 4 := long
    rw [removes_tftpRecv, if_neg longer]
  current := (o.next d long).current
  isLive := (o.next d long).isLive

theorem ends_iff (o : OpenTransfer) (d : Incoming) :
    Ends o (tftpRecv o.client o.pcb d.p d.source) ↔ d.Short := by
  refine ⟨fun ends => ?_, ends_of_short o⟩
  by_contra long
  exact ends.closed (staysOpen_of_long o long).isLive

theorem staysOpen_iff (o : OpenTransfer) (d : Incoming) :
    StaysOpen o (tftpRecv o.client o.pcb d.p d.source) ↔ ¬ d.Short :=
  ⟨fun open_ short => (ends_of_short o short).closed open_.isLive, staysOpen_of_long o⟩

/-- DATA changes the size, unless it is the header alone. -/
theorem sizeAfter_ne {size : UInt32} {p : Pbuf} (isData : p.type = 3) (more : p.totLen ≠ 4) :
    sizeAfter size p ≠ size := by
  rw [sizeAfter, if_pos isData]
  intro same
  have zero : UInt32.ofNat p.totLen - 4 = 0 := UInt32.add_eq_left.mp same
  have four : UInt32.ofNat p.totLen = 4 := by rw [UInt32.sub_eq_iff_eq_add.mp zero, UInt32.zero_add]
  have small : p.totLen < 2 ^ 32 := p.fits.trans (by decide)
  rw [← UInt32.toNat_inj, UInt32.toNat_ofNat_of_lt' small] at four
  exact more four

/-- The transfer ends with DATA of fewer than 512 bytes and with ERROR, and with nothing else; other
datagrams leave it as it is. -/
structure EndsProperly (o : OpenTransfer) (d : Incoming) : Prop where
  ends : Ends o (tftpRecv o.client o.pcb d.p d.source) ↔
    (d.p.sentType = 3 ∧ d.p.totLen - 4 < 512) ∨ d.p.sentType = 5
  stays : d.p.sentType ≠ 3 → d.p.sentType ≠ 5 →
    StaysOpen o (tftpRecv o.client o.pcb d.p d.source) ∧
      (tftpRecv o.client o.pcb d.p d.source).1.fileSize = o.client.fileSize

/-- A datagram that leaves the transfer open leaves the size alone if it is not taken for DATA. -/
theorem fileSize_kept_iff (o : OpenTransfer) {d : Incoming} (long : ¬ d.Short) :
    (tftpRecv o.client o.pcb d.p d.source).1.fileSize = o.client.fileSize ↔ d.p.type ≠ 3 := by
  have longer : ¬ d.p.totLen < 512 + 4 := long
  rw [tftpRecv_fst]
  refine ⟨fun same isData => sizeAfter_ne isData (by omega) same, fun notData => if_neg notData⟩

/-- **When a transfer ends.** For every open transfer and every datagram of at least four bytes, the
transfer ends as it should if and only if the datagram is DATA, or an ERROR shorter than a full block,
or something else as long as a full block that is not taken for DATA. -/
theorem endsProperly_iff (o : OpenTransfer) (d : Incoming) (header : 4 ≤ d.p.totLen) :
    EndsProperly o d ↔
      d.p.sentType = 3 ∨ (d.p.sentType = 5 ∧ d.p.totLen < 516) ∨
        (d.p.sentType ≠ 3 ∧ d.p.sentType ≠ 5 ∧ 516 ≤ d.p.totLen ∧ d.p.type ≠ 3) := by
  have short : d.Short ↔ d.p.totLen < 516 := Iff.rfl
  constructor
  · intro properly
    have ends := properly.ends
    rw [ends_iff, short] at ends
    by_cases isData : d.p.sentType = 3
    · exact .inl isData
    · by_cases isError : d.p.sentType = 5
      · exact .inr (.inl ⟨isError, ends.mpr (.inr isError)⟩)
      · obtain ⟨open_, kept⟩ := properly.stays isData isError
        have long := (staysOpen_iff o d).mp open_
        have notTaken := (fileSize_kept_iff o long).mp kept
        rw [short] at long
        exact .inr (.inr ⟨isData, isError, by omega, notTaken⟩)
  · intro met
    refine ⟨?_, fun notData notError => ?_⟩
    · rw [ends_iff, short]
      rcases met with isData | ⟨isError, shorter⟩ | ⟨notData, notError, longer, -⟩
      · have notError : d.p.sentType ≠ 5 := by
          rw [isData]
          decide
        rw [or_iff_left notError, and_iff_right isData]
        omega
      · simp [isError, shorter]
      · simp only [notData, notError, false_and, or_false, iff_false]
        omega
    · obtain ⟨longer, notTaken⟩ : 516 ≤ d.p.totLen ∧ d.p.type ≠ 3 := by
        rcases met with isData | ⟨isError, -⟩ | ⟨-, -, met⟩
        · exact absurd isData notData
        · exact absurd isError notError
        · exact met
      have long : ¬ d.Short := by
        rw [short]
        omega
      exact ⟨(staysOpen_iff o d).mpr long, (fileSize_kept_iff o long).mpr notTaken⟩

/-- A long ACK with nothing in its first pbuf is taken for DATA when the bytes there are right. -/
example : Pbuf.type ⟨[0x00, 0x04] ++ List.replicate 514 0, 0, fun k => [0x00, 0x03].getD k 0,
    by decide +kernel, by decide +kernel⟩ = 3 := by decide +kernel

/-- An unknown type as long as a full block, in two pbufs, and the transfer goes on. -/
theorem endsProperly_longUnknown :
    EndsProperly freshTransfer ⟨⟨[0x00, 0x09] ++ List.replicate 514 1, 470, fun _ => 0,
      by decide +kernel, by decide +kernel⟩, tftpServer⟩ :=
  (endsProperly_iff _ _ (by decide +kernel)).mpr (.inr (.inr (by decide +kernel)))

/-- **An ACK ends the transfer.** -/
theorem ack_ends_transfer :
    ¬ EndsProperly freshTransfer
      ⟨.single [0x00, 0x04, 0x00, 0x01] (fun _ => 0) (by decide), tftpServer⟩ := by
  intro properly
  have open_ := (properly.stays (by decide) (by decide)).1
  exact (staysOpen_iff _ _).mp open_ (by decide)

/-! ### The bytes that are read -/

/-- The two bytes that a swapped word was read from. -/
theorem byteSwap_loadLE_inj {low high low' high' : UInt8}
    (same : byteSwap (loadLE low high) = byteSwap (loadLE low' high')) : low = low' ∧ high = high' := by
  have bytes := congrArg (fun word => storeLE (byteSwap word)) same
  simp only [storeLE_byteSwap_byteSwap_loadLE, List.cons.injEq, and_true] at bytes
  exact bytes

theorem type_eq_iff (p : Pbuf) (high low : UInt8) :
    p.type = byteSwap (loadLE high low) ↔ p.byte 0 = high ∧ p.byte 1 = low := by
  refine ⟨byteSwap_loadLE_inj, fun bytes => ?_⟩
  rw [Pbuf.type, Pbuf.short, bytes.1, bytes.2]

theorem type_eq_data_iff (p : Pbuf) : p.type = 3 ↔ p.byte 0 = 0 ∧ p.byte 1 = 3 :=
  type_eq_iff p 0 3

theorem byte_beyond (p : Pbuf) (beyond : Nat → UInt8) {index : Nat} (inside : index < p.len) :
    ({ p with beyond := beyond } : Pbuf).byte index = p.byte index := by
  rw [p.byte_of_lt inside]
  exact Pbuf.byte_of_lt { p with beyond := beyond } inside

/-- `tftp_recv` reads the length, the type, and of DATA the block number. -/
theorem tftpRecv_congr {p q : Pbuf} (length : p.totLen = q.totLen) (type : p.type = q.type)
    (block : p.type = 3 → p.block = q.block) (c : Client) (pcb : Pcb) (source : Endpoint) :
    tftpRecv c pcb p source = tftpRecv c pcb q source := by
  have switched : tftpSwitch c p source = tftpSwitch c q source := by
    unfold tftpSwitch
    rw [← type]
    split
    · rename_i isData
      rw [length, block isData]
    all_goals rfl
  unfold tftpRecv
  rw [switched, length]

/-- Types of which the first byte is not zero are all the same to it. -/
theorem tftpRecv_of_high_byte {p q : Pbuf} (length : p.totLen = q.totLen) (pHigh : p.byte 0 ≠ 0)
    (qHigh : q.byte 0 ≠ 0) (c : Client) (pcb : Pcb) (source : Endpoint) :
    tftpRecv c pcb p source = tftpRecv c pcb q source := by
  have unknown (r : Pbuf) (high : r.byte 0 ≠ 0) : tftpSwitch c r source = (c, [.print .unknown]) := by
    unfold tftpSwitch
    split
    · rename_i isData
      exact absurd ((type_eq_iff r 0 3).mp isData).1 high
    · rename_i isAck
      exact absurd ((type_eq_iff r 0 4).mp isAck).1 high
    · rename_i isError
      exact absurd ((type_eq_iff r 0 5).mp isError).1 high
    · rfl
  unfold tftpRecv
  rw [unknown p pHigh, unknown q qHigh, length]

/-! ### First pbufs that end within the header -/

/-- A datagram of which the first pbuf has less than four bytes and can be the front of DATA. -/
def Pbuf.Runt (p : Pbuf) : Prop := p.len < 4 ∧ p.front.take 2 <+: [0x00, 0x03]

instance (p : Pbuf) : Decidable p.Runt := inferInstanceAs (Decidable (_ ∧ _))

/-- A datagram that is taken for DATA with less than four bytes at hand is one, -/
theorem runt_of_data {p : Pbuf} (isData : p.type = 3) (short : p.len < 4) : p.Runt := by
  refine ⟨short, ?_⟩
  obtain ⟨high, low⟩ := (type_eq_data_iff p).mp isData
  unfold Pbuf.byte at high low
  generalize p.front = front at high low ⊢
  match front with
  | [] => exact List.nil_prefix
  | [x] =>
    have zero : x = 0 := high
    subst zero
    exact ⟨[0x03], rfl⟩
  | x :: y :: rest =>
    have zero : x = 0 := high
    have three : y = 3 := low
    subst zero three
    exact ⟨[], rfl⟩

/-- and any such datagram is taken for DATA when the memory behind it is right. The last byte of the
block number is then not the datagram's. -/
theorem Pbuf.Runt.data {p : Pbuf} (runt : p.Runt) (last : UInt8) :
    ∃ beyond, ({ p with beyond := beyond } : Pbuf).type = 3 ∧
      ({ p with beyond := beyond } : Pbuf).byte 3 = last := by
  let header : List UInt8 := [0x00, 0x03, 0x00, last]
  refine ⟨fun k => header.getD (k + p.len) 0, ?_⟩
  obtain ⟨short, rest, same⟩ := runt
  rw [type_eq_data_iff]
  show (p.front.getD 0 (header.getD (0 - p.len + p.len) 0) = 0 ∧
    p.front.getD 1 (header.getD (1 - p.len + p.len) 0) = 3) ∧
    p.front.getD 3 (header.getD (3 - p.len + p.len) 0) = last
  rw [← p.length_front] at short ⊢
  generalize p.front = front at short same ⊢
  match front with
  | [] => exact ⟨⟨rfl, rfl⟩, rfl⟩
  | [x] =>
    obtain ⟨rfl, -⟩ := List.cons.inj same
    exact ⟨⟨rfl, rfl⟩, rfl⟩
  | x :: y :: more =>
    obtain ⟨rfl, tail⟩ := List.cons.inj same
    obtain ⟨rfl, -⟩ := List.cons.inj tail
    match more with
    | [] => exact ⟨⟨rfl, rfl⟩, rfl⟩
    | [_] => exact ⟨⟨rfl, rfl⟩, rfl⟩

theorem toNat_sizeAfter {size : UInt32} {p : Pbuf} (isData : p.type = 3) (header : 4 ≤ p.totLen)
    (small : size.toNat + (p.totLen - 4) < 2 ^ 32) :
    (sizeAfter size p).toNat = size.toNat + (p.totLen - 4) := by
  have data : UInt32.ofNat p.totLen - 4 = UInt32.ofNat (p.totLen - 4) :=
    (UInt32.ofNat_sub header).symm
  have added : (UInt32.ofNat (p.totLen - 4)).toNat = p.totLen - 4 :=
    UInt32.toNat_ofNat_of_lt' (Nat.lt_of_le_of_lt (Nat.le_add_left ..) small)
  rw [sizeAfter, if_pos isData, data, UInt32.toNat_add, added, Nat.mod_eq_of_lt small]

/-- What `tftp_recv` does is decided by the payload, and `file_size` counts the data bytes. -/
structure Contained (c : Client) (pcb : Pcb) (p : Pbuf) (source : Endpoint) : Prop where
  inside : ∀ beyond, tftpRecv c pcb { p with beyond := beyond } source = tftpRecv c pcb p source
  changes : (tftpRecv c pcb p source).1.fileSize ≠ c.fileSize → 4 ≤ p.totLen ∧ p.sentType = 3
  grows : 4 ≤ p.totLen → p.sentType = 3 → c.fileSize.toNat + (p.totLen - 4) < 2 ^ 32 →
    (tftpRecv c pcb p source).1.fileSize.toNat = c.fileSize.toNat + (p.totLen - 4)

/-- A single byte that is not zero leaves no doubt. -/
theorem high_byte_of_not_runt {p : Pbuf} (notRunt : ¬ p.Runt) (short : p.len < 2) :
    0 < p.len ∧ p.byte 0 ≠ 0 := by
  have front : ¬ p.front.take 2 <+: [0x00, 0x03] :=
    fun begins => notRunt ⟨short.trans (by decide), begins⟩
  rw [← p.length_front] at short
  rw [← p.length_front, Pbuf.byte]
  generalize p.front = bytes at short front ⊢
  cases bytes with
  | nil => exact absurd List.nil_prefix front
  | cons x rest =>
    cases rest with
    | nil =>
      refine ⟨Nat.zero_lt_one, fun zero => front ?_⟩
      have same : x = 0 := zero
      subst same
      exact ⟨[0x03], rfl⟩
    | cons y rest => exact absurd short (Nat.not_lt.mpr (Nat.le_add_left 2 rest.length))

/-- What is taken for DATA was sent as DATA, and has its header in the first pbuf. -/
theorem data_iff_of_not_runt {p : Pbuf} (notRunt : ¬ p.Runt) :
    p.type = 3 ↔ 4 ≤ p.totLen ∧ p.sentType = 3 := by
  constructor
  · intro isData
    have held : 4 ≤ p.len := Nat.le_of_not_lt fun short => notRunt (runt_of_data isData short)
    exact ⟨held.trans p.chained, p.type_of_len (by omega) ▸ isData⟩
  · rintro ⟨-, isData⟩
    by_cases held : 2 ≤ p.len
    · exact (p.type_of_len held).trans isData
    · obtain ⟨some, high⟩ := high_byte_of_not_runt notRunt (by omega)
      have header : byteSwap (loadLE (p.payload.getD 0 0) (p.payload.getD 1 0)) = byteSwap (loadLE 0 3) :=
        isData
      rw [p.byte_of_lt some] at high
      exact absurd (byteSwap_loadLE_inj header).1 high

/-- **Nothing behind the first pbuf matters**, unless the datagram can be the front of DATA. -/
theorem tftpRecv_beyond {p : Pbuf} (notRunt : ¬ p.Runt) (beyond : Nat → UInt8) (c : Client) (pcb : Pcb)
    (source : Endpoint) :
    tftpRecv c pcb { p with beyond := beyond } source = tftpRecv c pcb p source := by
  have length : ({ p with beyond := beyond } : Pbuf).totLen = p.totLen := rfl
  by_cases two : 2 ≤ p.len
  · have type : ({ p with beyond := beyond } : Pbuf).type = p.type := by
      rw [p.type_of_len two]
      exact Pbuf.type_of_len { p with beyond := beyond } two
    refine tftpRecv_congr length type (fun isData => ?_) c pcb source
    have four : ¬ p.len < 4 := fun short => notRunt (runt_of_data (type ▸ isData) short)
    rw [Pbuf.block, Pbuf.short, byte_beyond p beyond (by omega), byte_beyond p beyond (by omega)]
    rfl
  · obtain ⟨some, high⟩ := high_byte_of_not_runt notRunt (by omega)
    exact tftpRecv_of_high_byte length (by rw [byte_beyond p beyond some]; exact high) high c pcb source

/-- Exactly the datagrams whose first pbuf is short and can be the front of DATA are not contained. -/
theorem contained_iff_not_runt (c : Client) (pcb : Pcb) (p : Pbuf) (source : Endpoint) :
    Contained c pcb p source ↔ ¬ p.Runt := by
  have size (q : Pbuf) : (tftpRecv c pcb q source).1.fileSize = sizeAfter c.fileSize q := by
    rw [tftpRecv_fst]
  constructor
  · intro contained runt
    -- With a DATA header behind it, the block number that is acknowledged comes from there.
    obtain ⟨zeros, zerosData, zerosLast⟩ := runt.data 0
    obtain ⟨ones, onesData, onesLast⟩ := runt.data 1
    have same := congrArg (fun result => sends result.2)
      ((contained.inside zeros).trans (contained.inside ones).symm)
    simp only [sends_tftpRecv, zerosData, onesData, if_true, zerosLast, onesLast] at same
    simp at same
  · intro notRunt
    refine ⟨fun beyond => tftpRecv_beyond notRunt beyond c pcb source, fun changed => ?_,
      fun header sent small => ?_⟩
    · rw [size] at changed
      refine (data_iff_of_not_runt notRunt).mp ?_
      by_contra other
      exact changed (if_neg other)
    · rw [size]
      exact toNat_sizeAfter ((data_iff_of_not_runt notRunt).mpr ⟨header, sent⟩) header small

/-! ### The size over a transfer -/

/-- A step does not make `file_size` smaller. -/
def Grows (c : Client) (event : Event) : Prop :=
  ∀ next, step c event = some next → c.fileSize ≤ next.fileSize

/-- **The size never decreases**, as long as all data together is less than `2^32` bytes. -/
theorem fileSize_mono (pcb : Pcb) (ds : List Incoming) : ∀ c : Client, (∀ d ∈ ds, ¬ d.p.Runt) →
    c.fileSize.toNat + dataTotal ds < 2 ^ 32 →
    Along step Grows c (ds.map fun d => .recv pcb d.p d.source) := by
  induction ds with
  | nil => exact fun _ _ _ => trivial
  | cons d rest ih =>
    intro c notRunt small next taken
    obtain ⟨-, rfl⟩ := step_recv taken
    rw [dataTotal_cons] at small
    have contained := (contained_iff_not_runt c pcb d.p d.source).mpr (notRunt d List.mem_cons_self)
    have size : (tftpRecv c pcb d.p d.source).1.fileSize.toNat =
        c.fileSize.toNat + if d.p.type = 3 then d.p.totLen - 4 else 0 := by
      by_cases isData : d.p.type = 3
      · rw [if_pos isData] at small ⊢
        obtain ⟨header, sent⟩ := (data_iff_of_not_runt (notRunt d List.mem_cons_self)).mp isData
        exact contained.grows header sent (by omega)
      · rw [tftpRecv_fst, if_neg isData]
        exact congrArg UInt32.toNat (if_neg isData)
    refine ⟨fun after taken' => ?_, ih _ (fun d member => notRunt d (List.mem_cons_of_mem _ member)) ?_⟩
    · obtain ⟨-, rfl⟩ := step_recv taken'
      rw [UInt32.le_iff_toNat_le, size]
      exact Nat.le_add_right ..
    · rw [size]
      omega

/-- **Malformed datagrams and the size.** For every state and every datagram of any length, what
`tftp_recv` does is decided by the payload, and `file_size` counts the data bytes, if and only if the
first pbuf is not one of less than four bytes that can be the front of DATA. In every transfer without
such datagrams and with less than `2^32` bytes of data, `file_size` never decreases. -/
theorem contained_iff (c : Client) (pcb : Pcb) (p : Pbuf) (source : Endpoint) (fresh : Pcb)
    (ds : List Incoming) :
    (Contained c pcb p source ↔ ¬ p.Runt) ∧
      ((∀ d ∈ ds, ¬ d.p.Runt) → dataTotal ds < 2 ^ 32 →
        Along step Grows (tftpInit fresh c) (ds.map fun d => .recv fresh d.p d.source)) := by
  refine ⟨contained_iff_not_runt c pcb p source, fun notRunt small => ?_⟩
  refine fileSize_mono fresh ds (tftpInit fresh c) notRunt ?_
  show (0 : UInt32).toNat + dataTotal ds < 2 ^ 32
  rw [UInt32.toNat_zero, Nat.zero_add]
  exact small

/-- A full block and a short one. -/
def twoBlocks : List Incoming :=
  [⟨zeroData 1 512 (by decide), tftpServer⟩, ⟨zeroData 2 10 (by decide), tftpServer⟩]

theorem contained_twoBlocks :
    Contained {} 0 (zeroData 2 10 (by decide)) tftpServer ∧
      Along step Grows (tftpInit 0 {}) (twoBlocks.map fun d => .recv 0 d.p d.source) :=
  have both := contained_iff {} 0 (zeroData 2 10 (by decide)) tftpServer 0 twoBlocks
  ⟨both.1.mpr (by decide +kernel), both.2 (by decide +kernel) (by decide +kernel)⟩

/-- **The bytes `00 03` alone**, after a full block, take two bytes off the size; what is acknowledged
stands behind the payload. -/
theorem runt_shrinks_fileSize :
    let c : Client := ⟨some 0, 512, {0}⟩
    let runt : Pbuf := .single [0x00, 0x03] (fun _ => 0) (by decide)
    ¬ Contained c 0 runt tftpServer ∧
      (tftpRecv c 0 runt tftpServer).1.fileSize = 510 ∧
      (tftpRecv c 0 { runt with beyond := fun _ => 1 } tftpServer).2 ≠
        (tftpRecv c 0 runt tftpServer).2 := by
  refine ⟨fun contained => ?_, by decide, by decide⟩
  have header := (contained.changes (by decide)).1
  revert header
  decide

end ULoader.Tftp

/-
**What the calls into `udp.c` do to the PCBs.**

* `Sound s items` — the list goes once through each PCB that is bound to a port, and through no other; no two PCBs
  are in each other's way; the PCBs in memory and the free ones are the pool.
* **`udpNewPort_spec`** — an automatic port is found, at most six ports are passed over for it, and no PCB has it.
* `udpBind_spec`, `udpConnect_spec`, `udpRecv_spec`, `udpRemove_spec`, `udpSendtoIf_spec` — a call on a PCB in memory
  returns, changes that PCB alone, and keeps the rest in order.
-/

import ULoader.Udp.Pcbs
import Mathlib.Data.Finset.Card
import Mathlib.Data.List.Nodup

namespace ULoader.Udp

open Links ULoader.Arp

variable {C : Type}

/-! ### The PCBs without their list -/

@[simp] theorem view_apply (s : Pcbs C) (p : Slot) : s.view p = (s.mem p).map Node.value := rfl

theorem view_write (s : Pcbs C) (p : Slot) (node : Node Slot (Pcb C)) (value : Pcb C) :
    (s.write p node value).view = Function.update s.view p (some value) :=
  Function.comp_update ..

theorem view_push (s : Pcbs C) (p : Slot) (value : Pcb C) :
    (s.push p value).view = Function.update s.view p (some value) :=
  Function.comp_update ..

/-- No two PCBs are in each other's way. -/
def Apart (view : Slot → Option (Pcb C)) : Prop :=
  ∀ p q one other, p ≠ q → view p = some one → view q = some other → one.localPort ≠ 0 →
    one.inTheWay other.localIp other.localPort = false

theorem inTheWay_comm (one other : Pcb C) :
    one.inTheWay other.localIp other.localPort = other.inTheWay one.localIp one.localPort := by
  have port : (one.localPort == other.localPort) = (other.localPort == one.localPort) := BEq.comm
  have ip : (one.localIp == other.localIp) = (other.localIp == one.localIp) := BEq.comm
  rw [Pcb.inTheWay, Pcb.inTheWay, port, ip, Bool.or_comm (one.localIp == 0)]

/-- A PCB takes a binding nobody is in the way of, or none. -/
theorem Apart.update {view : Slot → Option (Pcb C)} (apart : Apart view) {p : Slot} {value : Option (Pcb C)}
    (clear : ∀ pcb, value = some pcb → ∀ q other, q ≠ p → view q = some other → other.localPort ≠ 0 →
      other.inTheWay pcb.localIp pcb.localPort = false) :
    Apart (Function.update view p value) := by
  intro a b one other differ isOne isOther isBound
  by_cases atA : a = p
  · subst atA
    rw [Function.update_self] at isOne
    rw [Function.update_of_ne differ.symm] at isOther
    by_cases otherBound : other.localPort = 0
    · rw [Pcb.inTheWay, otherBound, beq_eq_false_iff_ne.mpr isBound, Bool.false_and]
    · rw [inTheWay_comm]
      exact clear one isOne b other differ.symm isOther otherBound
  · rw [Function.update_of_ne atA] at isOne
    by_cases atB : b = p
    · subst atB
      rw [Function.update_self] at isOther
      exact clear other isOther a one differ isOne isBound
    · rw [Function.update_of_ne atB] at isOther
      exact apart a b one other differ isOne isOther isBound

/-- The list of `udp_pcbs` is `items`, and the PCBs are in order. -/
structure Sound (s : Pcbs C) (items : List (Slot × Pcb C)) : Prop where
  listed : Listed s.mem s.udpPcbs items
  listing : ∀ p, p ∈ items.map Prod.fst ↔ ∃ pcb, s.view p = some pcb ∧ pcb.localPort ≠ 0
  apart : Apart s.view
  once : s.free.Nodup
  unused : ∀ p, p ∈ s.free ↔ s.mem p = none
  range : 0xc000 ≤ s.udpPort.toNat

section Sound

variable {s : Pcbs C} {items : List (Slot × Pcb C)} {p : Slot} {pcb value : Pcb C} {node : Node Slot (Pcb C)}

theorem Sound.init : Sound (Pcbs.init : Pcbs C) [] where
  listed := ⟨rfl, List.nodup_nil⟩
  listing := by simp [Pcbs.init]
  apart := by simp [Apart, Pcbs.init]
  once := by simp [Pcbs.init]
  unused := by
    intro p
    revert p
    simp only [Pcbs.init, iff_true]
    decide
  range := Nat.le_refl _

theorem length_lt (listed : Listed s.mem s.udpPcbs items) : items.length < bound :=
  Nat.lt_succ_of_le listed.length_le

theorem view_of_mem (listed : Listed s.mem s.udpPcbs items) {item : Slot × Pcb C} (member : item ∈ items) :
    s.view item.1 = some item.2 := by
  obtain ⟨next, node⟩ := listed.node_of_mem member
  rw [view_apply, node]
  rfl

theorem Sound.mem_of_view (sound : Sound s items) (said : s.view p = some pcb) (isBound : pcb.localPort ≠ 0) :
    (p, pcb) ∈ items := by
  obtain ⟨item, member, rfl⟩ := List.mem_map.mp ((sound.listing p).mpr ⟨pcb, said, isBound⟩)
  cases said.symm.trans (view_of_mem sound.listed member)
  exact member

theorem Sound.bound_of_mem (sound : Sound s items) {item : Slot × Pcb C} (member : item ∈ items) :
    item.2.localPort ≠ 0 := by
  obtain ⟨pcb, said, isBound⟩ := (sound.listing item.1).mp (List.mem_map_of_mem member)
  cases said.symm.trans (view_of_mem sound.listed member)
  exact isBound

/-- The contents of a PCB change, the list does not. -/
theorem Sound.write (sound : Sound s items) (held : s.mem p = some node)
    (same : value.localPort ≠ 0 ↔ node.value.localPort ≠ 0)
    (apart : Apart (Function.update s.view p (some value))) : ∃ items', Sound (s.write p node value) items' := by
  have listing : ∀ q, (∃ pcb, (s.write p node value).view q = some pcb ∧ pcb.localPort ≠ 0) ↔
      ∃ pcb, s.view q = some pcb ∧ pcb.localPort ≠ 0 := by
    intro q
    rw [view_write]
    by_cases here : q = p
    · subst here
      simp [held, same]
    · rw [Function.update_of_ne here]
  have unused : ∀ q, q ∈ s.free ↔ (s.write p node value).mem q = none := by
    intro q
    exact (sound.unused q).trans (update_some_iff held q).symm
  rw [← view_write s p node] at apart
  obtain ⟨items', listed, keys⟩ := sound.listed.write held value
  refine ⟨items', listed, fun q => ?_, apart, sound.once, unused, sound.range⟩
  rw [keys, listing q, sound.listing q]

/-- A PCB that gets a port goes to the front of the list. -/
theorem Sound.push (sound : Sound s items) (held : s.mem p = some node) (free : node.value.localPort = 0)
    (isBound : value.localPort ≠ 0) (apart : Apart (Function.update s.view p (some value))) :
    Sound (s.push p value) ((p, value) :: items) := by
  have fresh : p ∉ items.map Prod.fst := by
    rw [sound.listing p]
    simp [held, free]
  refine ⟨sound.listed.push fresh value, fun q => ?_, by rwa [view_push], sound.once, fun q => ?_, sound.range⟩
  · rw [view_push, List.map_cons, List.mem_cons]
    by_cases here : q = p
    · subst here
      simp [isBound]
    · rw [Function.update_of_ne here, sound.listing q]
      simp [here]
  · exact (sound.unused q).trans (update_some_iff held q).symm

end Sound

/-! ### Automatic ports -/

section Ports

variable {s : Pcbs C} {items : List (Slot × Pcb C)} {port : UInt16}

/-- The ports go round in their range. -/
theorem nextPort_toNat (range : 0xc000 ≤ port.toNat) :
    (nextPort port).toNat = 0xc000 + (port.toNat - 0xc000 + 1) % 0x4000 := by
  have below := port.toNat_lt
  rw [nextPort]
  split
  · rename_i last
    rw [last]
    rfl
  · rename_i notLast
    have differs : port.toNat ≠ 0xffff := fun same => notLast (UInt16.toNat_inj.mp same)
    rw [UInt16.toNat_add]
    have one : (1 : UInt16).toNat = 1 := rfl
    omega

theorem iterate_nextPort_toNat (range : 0xc000 ≤ port.toNat) (k : Nat) :
    (nextPort^[k] port).toNat = 0xc000 + (port.toNat - 0xc000 + k) % 0x4000 := by
  induction k with
  | zero =>
    have below := port.toNat_lt
    rw [Function.iterate_zero, id]
    omega
  | succ k ih =>
    rw [Function.iterate_succ', Function.comp_apply, nextPort_toNat (by omega), ih]
    omega

theorem portUsed_spec (listed : Listed s.mem s.udpPcbs items) (port : UInt16) :
    portUsed s port = some (decide (port ∈ items.map (·.2.localPort))) := by
  cases first : items.find? (·.2.localPort == port) with
  | none =>
    rw [List.find?_eq_none] at first
    have missing := @search_missing _ _ s.mem (·.localPort == port) items s.udpPcbs listed.segment
      (fun item member => Bool.eq_false_of_not_eq_true (first item member)) bound none (length_lt listed)
    have absent : port ∉ items.map (·.2.localPort) := by
      intro member
      obtain ⟨item, member, same⟩ := List.mem_map.mp member
      exact first item member (beq_iff_eq.mpr same)
    simp [portUsed, missing, absent]
  | some item =>
    obtain ⟨passes, front, back, rfl, before⟩ := List.find?_eq_some_iff_append.mp first
    obtain ⟨next, node, _⟩ := listed.node
    have length := length_lt listed
    rw [List.length_append, List.length_cons] at length
    have found := @search_found _ _ s.mem (·.localPort == port) front back s.udpPcbs item.1 item.2 next
      listed.segment (fun item member => by simpa using before item member) passes node bound none (by omega)
    have present : port ∈ (front ++ item :: back).map (·.2.localPort) :=
      List.mem_map.mpr ⟨item, by simp, beq_iff_eq.mp passes⟩
    rw [decide_eq_true present]
    simp [portUsed, found]

/-- The loop ends at the first port nobody has. -/
theorem newPortLoop_found {k : Nat} (later : portUsed s (nextPort^[k + 1] port) = some false) :
    (∀ j < k, portUsed s (nextPort^[j + 1] port) = some true) → ∀ {tries : Nat}, k < tries →
      newPortLoop s tries port = some (nextPort^[k + 1] port, nextPort^[k + 1] port) := by
  intro earlier tries enough
  obtain ⟨tries, rfl⟩ : ∃ more, tries = more + 1 := ⟨tries - 1, by omega⟩
  induction k generalizing port tries with
  | zero =>
    rw [Function.iterate_one] at later ⊢
    simp [newPortLoop, later]
  | succ k ih =>
    have used : portUsed s (nextPort port) = some true := earlier 0 (Nat.succ_pos k)
    obtain ⟨tries, rfl⟩ : ∃ more, tries = more + 1 := ⟨tries - 1, by omega⟩
    have rest := @ih (nextPort port) later (fun j less => earlier (j + 1) (Nat.succ_lt_succ less)) tries (by omega)
    rw [newPortLoop]
    simp only [used, Option.bind_eq_bind, Option.bind_some, if_true]
    exact rest

/-- Of one port more than there are PCBs on the list, one is not theirs. -/
theorem exists_unused (listed : Listed s.mem s.udpPcbs items) (range : 0xc000 ≤ s.udpPort.toNat) :
    ∃ k ≤ items.length, nextPort^[k + 1] s.udpPort ∉ items.map (·.2.localPort) := by
  have length := length_lt listed
  have distinct : Set.InjOn (fun k => nextPort^[k + 1] s.udpPort) (Finset.range (items.length + 1)) := by
    intro a inA b inB same
    rw [Finset.coe_range, Set.mem_Iio] at inA inB
    have values := congrArg UInt16.toNat same
    simp only [iterate_nextPort_toNat range] at values
    rw [bound] at length
    omega
  have fewer : (items.map (·.2.localPort)).toFinset.card <
      ((Finset.range (items.length + 1)).image fun k => nextPort^[k + 1] s.udpPort).card := by
    rw [Finset.card_image_of_injOn distinct, Finset.card_range, Nat.lt_succ_iff]
    exact (List.toFinset_card_le _).trans (List.length_map _).le
  obtain ⟨port, tried, unused⟩ := Finset.exists_mem_notMem_of_card_lt_card fewer
  obtain ⟨k, inRange, rfl⟩ := Finset.mem_image.mp tried
  exact ⟨k, Nat.lt_succ_iff.mp (Finset.mem_range.mp inRange), fun member => unused (List.mem_toFinset.mpr member)⟩

/-- **An automatic port is always found.** No PCB has it, and at most six ports are passed over for it. -/
theorem udpNewPort_spec (listed : Listed s.mem s.udpPcbs items) (range : 0xc000 ≤ s.udpPort.toNat) :
    ∃ k, 1 ≤ k ∧ k ≤ 7 ∧
    udpNewPort s = some ({ s with udpPort := nextPort^[k] s.udpPort }, nextPort^[k] s.udpPort) ∧
    nextPort^[k] s.udpPort ∉ items.map (·.2.localPort) ∧ 0xc000 ≤ (nextPort^[k] s.udpPort).toNat := by
  have some_k : ∃ k, nextPort^[k + 1] s.udpPort ∉ items.map (·.2.localPort) := by
    obtain ⟨k, _, unused⟩ := exists_unused listed range
    exact ⟨k, unused⟩
  have unused := Nat.find_spec some_k
  have few : Nat.find some_k ≤ 6 := by
    obtain ⟨k, less, isUnused⟩ := exists_unused listed range
    have length := length_lt listed
    have least := Nat.find_min' some_k isUnused
    rw [bound] at length
    omega
  have loop := @newPortLoop_found C s s.udpPort (Nat.find some_k)
    (by rw [portUsed_spec listed, decide_eq_false unused])
    (fun j less => by rw [portUsed_spec listed, decide_eq_true (not_not.mp (Nat.find_min some_k less))])
    (0xffff - 0xc000 + 1) (by omega)
  refine ⟨Nat.find some_k + 1, by omega, by omega, ?_, unused, ?_⟩
  · rw [udpNewPort, loop]
    rfl
  · rw [iterate_nextPort_toNat range]
    omega

end Ports

/-! ### Binding -/

section Bind

variable {s : Pcbs C} {items : List (Slot × Pcb C)} {p : Slot} {pcb : Pcb C} {ipaddr : UInt32} {port : UInt16}

theorem checkBind_spec {mem : Slot → Option (Node Slot (Pcb C))} {head : Option Slot}
    (segment : Segment mem head items none) : ∀ {fuel : Nat} (rebind : Bool), items.length < fuel →
      checkBind mem p ipaddr port fuel head rebind =
        some (bif items.any fun item => item.1 != p && item.2.inTheWay ipaddr port then none
          else some (rebind || items.any (·.1 == p))) := by
  induction items generalizing head with
  | nil =>
    intro fuel rebind enough
    obtain ⟨fuel, rfl⟩ := Nat.exists_eq_add_of_lt enough
    rw [show head = none from segment]
    simp [checkBind]
  | cons item rest ih =>
    intro fuel rebind enough
    obtain ⟨rfl, next, node, later⟩ := segment
    obtain ⟨fuel, rfl⟩ : ∃ more, fuel = more + 1 := ⟨fuel - 1, by omega⟩
    have more := fun rebind => @ih _ later fuel rebind (by simpa using enough)
    simp only [checkBind, node, Option.bind_eq_bind, Option.bind_some, more, List.any_cons]
    by_cases here : p = item.1
    · subst here
      simp
    · have differs : (item.1 == p) = false := beq_eq_false_iff_ne.mpr (Ne.symm here)
      by_cases blocked : item.2.inTheWay ipaddr port = true
      · simp [here, bne, differs, blocked]
      · simp [here, differs, blocked]

/-- Another PCB is in the way of a binding. -/
def Taken (s : Pcbs C) (p : Slot) (ipaddr : UInt32) (port : UInt16) : Prop :=
  ∃ q other, q ≠ p ∧ s.view q = some other ∧ other.localPort ≠ 0 ∧ other.inTheWay ipaddr port = true

theorem taken_iff (sound : Sound s items) :
    (items.any fun item => item.1 != p && item.2.inTheWay ipaddr port) = true ↔ Taken s p ipaddr port := by
  rw [List.any_eq_true]
  constructor
  · rintro ⟨item, member, isInTheWay⟩
    rw [Bool.and_eq_true, bne_iff_ne] at isInTheWay
    exact ⟨item.1, item.2, isInTheWay.1, view_of_mem sound.listed member, sound.bound_of_mem member, isInTheWay.2⟩
  · rintro ⟨q, other, differs, said, isBound, isInTheWay⟩
    refine ⟨(q, other), sound.mem_of_view said isBound, ?_⟩
    rw [Bool.and_eq_true, bne_iff_ne]
    exact ⟨differs, isInTheWay⟩

/-- With nobody in the way, the loop of `udp_bind` says whether the PCB is on the list. -/
theorem checkBind_clear (sound : Sound s items) (clear : ¬ Taken s p ipaddr port) :
    checkBind s.mem p ipaddr port bound s.udpPcbs false = some (some (items.any (·.1 == p))) := by
  rw [checkBind_spec sound.listed.segment false (length_lt sound.listed),
    Bool.eq_false_of_not_eq_true fun taken => clear ((taken_iff sound).mp taken), cond_false, Bool.false_or]

/-- A PCB is bound: to the port asked for, or else to the next automatic port that nobody has. -/
structure Binds (s : Pcbs C) (p : Slot) (pcb : Pcb C) (ipaddr : UInt32) (port : UInt16) (s' : Pcbs C) : Prop where
  sound : ∃ items, Sound s' items
  view : ∃ port', port' ≠ 0 ∧
    s'.view = Function.update s.view p (some { pcb with localIp := ipaddr, localPort := port' }) ∧
    (port ≠ 0 → port' = port ∧ s'.udpPort = s.udpPort) ∧
    (port = 0 → s'.udpPort = port' ∧ (∃ k, 1 ≤ k ∧ k ≤ 7 ∧ port' = nextPort^[k] s.udpPort) ∧
      ∀ q other, q ≠ p → s.view q = some other → other.localPort ≠ port')

/-- The automatic port does not change with the address written before it is looked for. -/
theorem udpNewPort_write (sound : Sound s items) {node : Node Slot (Pcb C)} (held : s.mem p = some node)
    (value : Pcb C) :
    ∃ k, 1 ≤ k ∧ k ≤ 7 ∧
      udpNewPort (s.write p node value) =
        some ({ s.write p node value with udpPort := nextPort^[k] s.udpPort }, nextPort^[k] s.udpPort) ∧
      nextPort^[k] s.udpPort ≠ 0 ∧ 0xc000 ≤ (nextPort^[k] s.udpPort).toNat ∧
      ∀ q other, q ≠ p → s.view q = some other → other.localPort ≠ nextPort^[k] s.udpPort := by
  obtain ⟨items', listed, keys⟩ := sound.listed.write held value
  obtain ⟨k, low, high, found, unused, range⟩ := @udpNewPort_spec C (s.write p node value) items' listed sound.range
  have nonzero : nextPort^[k] s.udpPort ≠ 0 := by
    intro zero
    rw [show (s.write p node value).udpPort = s.udpPort from rfl, zero] at range
    exact absurd range (by decide)
  refine ⟨k, low, high, found, nonzero, range, ?_⟩
  intro q other differs said same
  rw [← same] at nonzero
  have member : q ∈ items'.map Prod.fst := keys ▸ (sound.listing q).mpr ⟨other, said, nonzero⟩
  obtain ⟨item, isItem, rfl⟩ := List.mem_map.mp member
  have said' := @view_of_mem C (s.write p node value) items' listed item isItem
  rw [view_write, Function.update_of_ne differs, said] at said'
  rw [Option.some.inj said'] at same
  exact unused (List.mem_map.mpr ⟨item, isItem, same⟩)

theorem exists_node (said : s.view p = some pcb) : ∃ next, s.mem p = some ⟨next, pcb⟩ := by
  obtain ⟨⟨next, value⟩, held, rfl⟩ := Option.map_eq_some_iff.mp said
  exact ⟨next, held⟩

/-- The PCB is on the list exactly when it has a port. -/
theorem Sound.any_key_iff (sound : Sound s items) (said : s.view p = some pcb) :
    items.any (·.1 == p) = true ↔ pcb.localPort ≠ 0 := by
  rw [List.any_eq_true]
  constructor
  · rintro ⟨item, member, here⟩
    have same := view_of_mem sound.listed member
    rw [beq_iff_eq.mp here, said] at same
    cases same
    exact sound.bound_of_mem member
  · intro isBound
    exact ⟨(p, pcb), sound.mem_of_view said isBound, beq_self_eq_true p⟩

/-- A PCB in the way keeps its binding. -/
theorem udpBind_taken (sound : Sound s items) (taken : Taken s p ipaddr port) :
    udpBind s p ipaddr port = some (s, .use) := by
  have check := @checkBind_spec C items p ipaddr port _ _ sound.listed.segment bound false (length_lt sound.listed)
  rw [(taken_iff sound).mpr taken, cond_true] at check
  simp only [udpBind, check, Option.bind_eq_bind, Option.bind_some]

theorem Sound.withPort (sound : Sound s items) {last : UInt16} (range : 0xc000 ≤ last.toNat) :
    Sound { s with udpPort := last } items :=
  ⟨sound.listed, sound.listing, sound.apart, sound.once, sound.unused, range⟩

/-- A binding that is made: the PCB is put on the list, or stays where it is. -/
theorem udpBind_made (sound : Sound s items) (said : s.view p = some pcb) (clear : ¬ Taken s p ipaddr port)
    {last port' : UInt16} (range : 0xc000 ≤ last.toNat) (isBound : port' ≠ 0)
    (found : ∀ next, s.mem p = some ⟨next, pcb⟩ →
      portOr (s.write p ⟨next, pcb⟩ { pcb with localIp := ipaddr }) port =
        some ({ s.write p ⟨next, pcb⟩ { pcb with localIp := ipaddr } with udpPort := last }, port'))
    (apart : Apart (Function.update s.view p (some { pcb with localIp := ipaddr, localPort := port' }))) :
    ∃ s', udpBind s p ipaddr port = some (s', .ok) ∧ (∃ items', Sound s' items') ∧
      s'.view = Function.update s.view p (some { pcb with localIp := ipaddr, localPort := port' }) ∧
      s'.udpPort = last := by
  obtain ⟨next, held⟩ := exists_node said
  have check := checkBind_clear sound clear
  have rebind := sound.any_key_iff said
  have sound' := sound.withPort range
  by_cases before : pcb.localPort = 0
  · refine ⟨{ s with udpPort := last }.push p { pcb with localIp := ipaddr, localPort := port' }, ?_,
      ⟨_, sound'.push held before isBound apart⟩, view_push .., rfl⟩
    have notListed : items.any (·.1 == p) = false := Bool.eq_false_of_not_eq_true fun any => rebind.mp any before
    simp only [udpBind, check, held, Option.bind_eq_bind, Option.bind_some, found next held]
    simp [isBound, notListed, Pcbs.push, Pcbs.write]
  · refine ⟨{ s with udpPort := last }.write p ⟨next, pcb⟩ { pcb with localIp := ipaddr, localPort := port' }, ?_,
      sound'.write held (iff_of_true isBound before) apart, view_write .., rfl⟩
    simp only [udpBind, check, held, Option.bind_eq_bind, Option.bind_some, found next held]
    simp [isBound, rebind.mpr before, Pcbs.write]

/-- **A binding nobody is in the way of is made.** -/
theorem udpBind_free (sound : Sound s items) (said : s.view p = some pcb) (clear : ¬ Taken s p ipaddr port) :
    ∃ s', udpBind s p ipaddr port = some (s', .ok) ∧ Binds s p pcb ipaddr port s' := by
  by_cases automatic : port = 0
  · obtain ⟨next, held⟩ := exists_node said
    obtain ⟨k, low, high, found, nonzero, range, unused⟩ :=
      udpNewPort_write sound held { pcb with localIp := ipaddr }
    have apart : Apart (Function.update s.view p
        (some { pcb with localIp := ipaddr, localPort := nextPort^[k] s.udpPort })) := by
      refine sound.apart.update fun value same q other differs isOther _ => ?_
      cases same
      rw [Pcb.inTheWay, beq_eq_false_iff_ne.mpr (unused q other differs isOther), Bool.false_and]
    obtain ⟨s', made, sound', view, last⟩ := udpBind_made sound said clear range nonzero (fun next' held' => by
      cases held.symm.trans held'
      rw [portOr, if_pos automatic, found]) apart
    exact ⟨s', made, sound', _, nonzero, view, fun manual => absurd automatic manual,
      fun _ => ⟨last, ⟨k, low, high, rfl⟩, unused⟩⟩
  · have apart : Apart (Function.update s.view p (some { pcb with localIp := ipaddr, localPort := port })) := by
      refine sound.apart.update fun value same q other differs isOther isBound => ?_
      cases same
      exact Bool.eq_false_of_not_eq_true fun blocked => clear ⟨q, other, differs, isOther, isBound, blocked⟩
    obtain ⟨s', made, sound', view, last⟩ := udpBind_made sound said clear sound.range automatic
      (fun _ _ => if_neg automatic) apart
    exact ⟨s', made, sound', port, automatic, view, fun _ => ⟨rfl, last⟩, fun zero => absurd zero automatic⟩

end Bind

/-! ### The other calls -/

section Calls

variable {s : Pcbs C} {items : List (Slot × Pcb C)} {p : Slot} {pcb : Pcb C}

theorem onList_spec {mem : Slot → Option (Node Slot (Pcb C))} {head : Option Slot}
    (segment : Segment mem head items none) : ∀ {fuel : Nat}, items.length < fuel →
      onList mem p fuel head = some (items.any (·.1 == p)) := by
  induction items generalizing head with
  | nil =>
    intro fuel enough
    obtain ⟨fuel, rfl⟩ := Nat.exists_eq_add_of_lt enough
    rw [show head = none from segment]
    simp [onList]
  | cons item rest ih =>
    intro fuel enough
    obtain ⟨rfl, next, node, later⟩ := segment
    obtain ⟨fuel, rfl⟩ : ∃ more, fuel = more + 1 := ⟨fuel - 1, by omega⟩
    have more := @ih _ later fuel (by simpa using enough)
    simp only [onList, node, Option.bind_eq_bind, Option.bind_some, more, List.any_cons]
    by_cases here : p = item.1
    · simp [here]
    · simp [here, Ne.symm here]

/-- A call on one PCB keeps the rest in order. -/
structure Changes (s : Pcbs C) (p : Slot) (value : Option (Pcb C)) (s' : Pcbs C) : Prop where
  sound : ∃ items, Sound s' items
  view : s'.view = Function.update s.view p value

/-- With its port, if it had none before, taken from the automatic ones. -/
structure Bounded (s : Pcbs C) (pcb pcb' : Pcb C) (s' : Pcbs C) : Prop where
  others : pcb' = { pcb with localPort := pcb'.localPort }
  isBound : pcb'.localPort ≠ 0
  before : pcb.localPort ≠ 0 → pcb' = pcb ∧ s'.udpPort = s.udpPort
  automatic : pcb.localPort = 0 →
    pcb'.localPort = s'.udpPort ∧ ∃ k, 1 ≤ k ∧ k ≤ 7 ∧ s'.udpPort = nextPort^[k] s.udpPort

theorem not_taken_zero {ipaddr : UInt32} : ¬ Taken s p ipaddr 0 := by
  rintro ⟨q, other, _, _, isBound, blocked⟩
  rw [Pcb.inTheWay, Bool.and_eq_true, beq_iff_eq] at blocked
  exact isBound blocked.1

theorem ensureBound_spec (sound : Sound s items) (said : s.view p = some pcb) :
    ∃ s' pcb', ensureBound s p = some (s', .ok) ∧ Changes s p (some pcb') s' ∧ Bounded s pcb pcb' s' := by
  obtain ⟨next, held⟩ := exists_node said
  by_cases free : pcb.localPort = 0
  · obtain ⟨s', made, sound', port, nonzero, view, _, automatic⟩ :=
      @udpBind_free C s items p pcb pcb.localIp 0 sound said not_taken_zero
    obtain ⟨last, ⟨k, low, high, isPort⟩, _⟩ := automatic rfl
    refine ⟨s', { pcb with localPort := port }, ?_, ⟨sound', view⟩,
      rfl, nonzero, fun isBound => absurd free isBound, fun _ => ⟨last.symm, k, low, high, last.trans isPort⟩⟩
    simp [ensureBound, held, free, made]
  · refine ⟨s, pcb, ?_, ⟨⟨items, sound⟩, ?_⟩, rfl, free, fun _ => ⟨rfl, rfl⟩,
      fun zero => absurd zero free⟩
    · simp [ensureBound, held, free]
    · rw [← said, Function.update_eq_self]

/-- What is said beside the local binding may change freely. -/
theorem Sound.restate (sound : Sound s items) {next : Option Slot} (held : s.mem p = some ⟨next, pcb⟩)
    {value : Pcb C} (ip : value.localIp = pcb.localIp) (port : value.localPort = pcb.localPort) :
    ∃ items', Sound (s.write p ⟨next, pcb⟩ value) items' := by
  refine sound.write held (by rw [port]) (sound.apart.update fun pcb' same q other differs isOther isBound => ?_)
  cases same
  rw [ip, port]
  exact sound.apart q p other pcb differs isOther (by simp [held]) isBound

theorem udpConnect_spec (sound : Sound s items) (said : s.view p = some pcb) (ipaddr : UInt32) (port : UInt16) :
    ∃ s' pcb', udpConnect s p ipaddr port = some (s', .ok) ∧ Bounded s pcb pcb' s' ∧
      Changes s p (some (pcb'.connectTo ipaddr port)) s' := by
  obtain ⟨s₁, pcb', ensured, changes, isBounded⟩ := ensureBound_spec sound said
  obtain ⟨items₁, sound₁⟩ := changes.sound
  have said₁ : s₁.view p = some pcb' := by rw [changes.view, Function.update_self]
  obtain ⟨next, held⟩ := exists_node said₁
  obtain ⟨items₂, sound₂⟩ := @Sound.restate C s₁ items₁ p pcb' sound₁ next held
    (pcb'.connectTo ipaddr port) rfl rfl
  have said₂ : (s₁.write p ⟨next, pcb'⟩ (pcb'.connectTo ipaddr port)).view p = some (pcb'.connectTo ipaddr port) := by
    rw [view_write, Function.update_self]
  have listed := @onList_spec C items₂ p _ _ sound₂.listed.segment bound (length_lt sound₂.listed)
  rw [(sound₂.any_key_iff said₂).mpr isBounded.isBound] at listed
  refine ⟨s₁.write p ⟨next, pcb'⟩ (pcb'.connectTo ipaddr port), pcb', ?_, ⟨isBounded.others, isBounded.isBound,
    isBounded.before, isBounded.automatic⟩, ⟨items₂, sound₂⟩, ?_⟩
  · simp only [udpConnect, ensured, held, Option.bind_eq_bind, Option.bind_some, ne_eq, not_true_eq_false, if_false,
      listed, if_true]
  · rw [view_write, changes.view, Function.update_idem]

theorem udpRecv_spec (sound : Sound s items) (said : s.view p = some pcb) (recv : C) :
    ∃ s', udpRecv s p recv = some s' ∧ Changes s p (some { pcb with recv := some recv }) s' ∧
      s'.udpPort = s.udpPort := by
  obtain ⟨next, held⟩ := exists_node said
  refine ⟨s.write p ⟨next, pcb⟩ { pcb with recv := some recv }, ?_,
    ⟨sound.restate held rfl rfl, view_write ..⟩, rfl⟩
  simp [udpRecv, held]

theorem udpSendtoIf_spec (sound : Sound s items) (said : s.view p = some pcb) (len : Nat) (header : Bool)
    (dstIp : UInt32) (dstPort : UInt16) (netif : Netif) :
    ∃ s' pcb' result, udpSendtoIf s p len header dstIp dstPort netif = some (s', result) ∧
      Changes s p (some pcb') s' ∧ Bounded s pcb pcb' s' ∧ ∀ sent, result = .ok sent →
        sent.srcPort = pcb'.localPort ∧ (pcb'.localIp = 0 ∨ pcb'.localIp = sent.srcIp) ∧
        sent.dstIp = dstIp ∧ sent.dstPort = dstPort := by
  obtain ⟨s₁, pcb', ensured, changes, isBounded⟩ := ensureBound_spec sound said
  have said₁ : s₁.view p = some pcb' := by rw [changes.view, Function.update_self]
  obtain ⟨next, held⟩ := exists_node said₁
  cases header with
  | false => exact ⟨s₁, pcb', .error .mem, by simp [udpSendtoIf, ensured], changes, isBounded, nofun⟩
  | true =>
    by_cases any : pcb'.localIp = 0
    · refine ⟨s₁, pcb', .ok ⟨netif.ipAddr, dstIp, pcb'.localPort, dstPort, (len + 8) % 0x10000⟩, ?_, changes,
        isBounded, ?_⟩
      · simp [udpSendtoIf, ensured, held, any]
      · rintro sent ⟨rfl⟩
        exact ⟨rfl, .inl any, rfl, rfl⟩
    · by_cases own : pcb'.localIp = netif.ipAddr
      · refine ⟨s₁, pcb', .ok ⟨pcb'.localIp, dstIp, pcb'.localPort, dstPort, (len + 8) % 0x10000⟩, ?_, changes,
          isBounded, ?_⟩
        · rw [own] at any
          simp [udpSendtoIf, ensured, held, any, own]
        · rintro sent ⟨rfl⟩
          exact ⟨rfl, .inr rfl, rfl, rfl⟩
      · exact ⟨s₁, pcb', .error .val, by simp [udpSendtoIf, ensured, held, any, own], changes, isBounded, nofun⟩

/-- `udp_remove`'s loop where the PCB is not on the list. -/
theorem unlinkLoop_absent {mem : Slot → Option (Node Slot (Pcb C))} {head : Option Slot}
    (segment : Segment mem head items none) (absent : p ∉ items.map Prod.fst) :
    ∀ {fuel : Nat}, items.length < fuel → unlinkLoop p mem fuel head = some mem := by
  induction items generalizing head with
  | nil =>
    intro fuel enough
    obtain ⟨fuel, rfl⟩ := Nat.exists_eq_add_of_lt enough
    rw [show head = none from segment]
    simp [unlinkLoop]
  | cons item rest ih =>
    intro fuel enough
    obtain ⟨rfl, next, node, later⟩ := segment
    obtain ⟨fuel, rfl⟩ : ∃ more, fuel = more + 1 := ⟨fuel - 1, by omega⟩
    rw [List.map_cons, List.mem_cons, not_or] at absent
    have elsewhere : next ≠ some p := by
      rintro rfl
      cases rest with
      | nil => cases later
      | cons second rest =>
        cases later.1
        exact absent.2 List.mem_cons_self
    simp only [unlinkLoop, node, Option.bind_eq_bind, Option.bind_some, elsewhere, if_false]
    exact ih later absent.2 (by simpa using enough)

/-- `udp_remove`'s loop where the PCB is behind another. -/
theorem unlinkLoop_behind {mem : Slot → Option (Node Slot (Pcb C))} {head next : Option Slot} {q : Slot}
    {prior : Pcb C} {front back : List (Slot × Pcb C)} (node : mem p = some ⟨next, pcb⟩)
    (listed : Listed mem head (front ++ (q, prior) :: (p, pcb) :: back)) :
    ∀ {fuel : Nat}, front.length + back.length + 2 < fuel →
      unlinkLoop p mem fuel head = some (Function.update mem q (some ⟨next, prior⟩)) := by
  induction front generalizing head with
  | nil =>
    intro fuel enough
    obtain ⟨rfl, link, node', rfl, _, here, later⟩ := listed.segment
    cases node.symm.trans here
    obtain ⟨fuel, rfl⟩ : ∃ more, fuel = more + 1 := ⟨fuel - 1, by omega⟩
    obtain ⟨_, apart⟩ := listed.apart
    rw [List.map_cons, List.mem_cons, not_or] at apart
    have absent : p ∉ back.map Prod.fst := (List.nodup_cons.mp (listed.tail node').distinct).1
    simp only [unlinkLoop, node', node, Option.bind_eq_bind, Option.bind_some, if_true]
    exact unlinkLoop_absent (later.update apart.2 _) absent (by simp at enough; omega)
  | cons item rest ih =>
    intro fuel enough
    obtain ⟨rfl, link, node', later⟩ := listed.segment
    obtain ⟨fuel, rfl⟩ : ∃ more, fuel = more + 1 := ⟨fuel - 1, by omega⟩
    have listed' : Listed mem link (rest ++ (q, prior) :: (p, pcb) :: back) := listed.tail node'
    have elsewhere : link ≠ some p := by
      rw [List.append_cons] at listed'
      exact listed'.not_head (by simp)
    simp only [unlinkLoop, node', Option.bind_eq_bind, Option.bind_some, elsewhere, if_false]
    exact ih listed' (by simp at enough; omega)

/-- What is left when a PCB goes. -/
theorem Sound.remove (sound : Sound s items) (held : s.mem p ≠ none)
    {mem : Slot → Option (Node Slot (Pcb C))} (same : Option.map Node.value ∘ mem = s.view) {head : Option Slot}
    {rest : List (Slot × Pcb C)} (listed : Listed mem head rest) (absent : p ∉ rest.map Prod.fst)
    (keys : ∀ q ≠ p, q ∈ rest.map Prod.fst ↔ q ∈ items.map Prod.fst) :
    Sound { s with mem := Function.update mem p none, free := p :: s.free, udpPcbs := head } rest ∧
      Pcbs.view { s with mem := Function.update mem p none, free := p :: s.free, udpPcbs := head } =
        Function.update s.view p none := by
  have view : Pcbs.view { s with mem := Function.update mem p none, free := p :: s.free, udpPcbs := head } =
      Function.update s.view p none := by
    rw [← same]
    exact Function.comp_update ..
  have gone : ∀ q, mem q = none ↔ s.mem q = none := by
    intro q
    have here := congrFun same q
    rw [Function.comp_apply, view_apply] at here
    rw [← Option.map_eq_none_iff, here, Option.map_eq_none_iff]
  refine ⟨⟨listed.update absent none, fun q => ?_, ?_, ?_, fun q => ?_, sound.range⟩, view⟩
  · rw [view]
    by_cases here : q = p
    · subst here
      simp [absent]
    · rw [Function.update_of_ne here, keys q here, sound.listing q]
  · rw [view]
    exact sound.apart.update nofun
  · exact List.nodup_cons.mpr ⟨fun isFree => held ((sound.unused p).mp isFree), sound.once⟩
  · rw [update_none_iff, gone q, ← sound.unused q, List.mem_cons]

/-- **A removed PCB is off the list**, wherever it stood, and back in the pool. -/
theorem udpRemove_spec (sound : Sound s items) (said : s.view p = some pcb) :
    ∃ s', udpRemove s p = some s' ∧ Changes s p none s' ∧ s'.udpPort = s.udpPort := by
  obtain ⟨next, held⟩ := exists_node said
  have taken : s.mem p ≠ none := by simp [held]
  have length := length_lt sound.listed
  by_cases free : pcb.localPort = 0
  · -- A PCB that was never bound: the loop finds it nowhere.
    have absent : p ∉ items.map Prod.fst := by
      rw [sound.listing p, said]
      simp [free]
    have notFirst : s.udpPcbs ≠ some p := by
      intro first
      have loop := sound.listed.segment
      rw [first] at loop
      cases items with
      | nil => cases loop
      | cons item rest =>
        cases loop.1
        exact absent List.mem_cons_self
    have loop := @unlinkLoop_absent C items p _ _ sound.listed.segment absent bound length
    obtain ⟨sound', view⟩ := sound.remove taken rfl sound.listed absent fun _ _ => Iff.rfl
    refine ⟨_, ?_, ⟨⟨items, sound'⟩, view⟩, rfl⟩
    simp [udpRemove, held, notFirst, loop]
  · obtain ⟨front, back, split⟩ := List.append_of_mem (sound.mem_of_view said free)
    subst split
    rcases List.eq_nil_or_concat front with rfl | ⟨front, ⟨q, prior⟩, rfl⟩
    · have first : s.udpPcbs = some p := sound.listed.segment.1
      have absent := (List.nodup_cons.mp sound.listed.distinct).1
      obtain ⟨sound', view⟩ := sound.remove taken rfl (sound.listed.tail held) absent fun q differs => by
        simp [differs]
      refine ⟨_, ?_, ⟨⟨back, sound'⟩, view⟩, rfl⟩
      simp [udpRemove, held, first]
    · rw [List.concat_eq_append, List.append_assoc, List.singleton_append] at sound length
      have notFirst : s.udpPcbs ≠ some p := by
        have listed := sound.listed
        rw [List.append_cons] at listed
        exact listed.not_head (by simp)
      have loop := @unlinkLoop_behind C p pcb _ _ next q prior front back held sound.listed bound (by
        simp at length
        omega)
      obtain ⟨link, ahead, _⟩ := sound.listed.node
      have same : Option.map Node.value ∘ Function.update s.mem q (some ⟨next, prior⟩) = s.view := by
        rw [Function.comp_update, Option.map_some, show some prior = s.view q by simp [ahead]]
        exact Function.update_eq_self ..
      obtain ⟨absent, perm⟩ := sound.listed.without
      obtain ⟨sound', view⟩ := sound.remove taken same (sound.listed.bypass held) absent fun x differs => by
        rw [← perm.mem_iff, List.mem_cons]
        simp [differs]
      refine ⟨_, ?_, ⟨⟨_, sound'⟩, view⟩, rfl⟩
      simp [udpRemove, held, notFirst, loop]

/-- A new PCB is bound to nothing. -/
theorem udpNew_spec (sound : Sound s items) :
    (s.free = [] ∧ udpNew s = (s, none)) ∨ ∃ s' p, udpNew s = (s', some p) ∧ s.mem p = none ∧
      Changes s p (some Pcb.zero) s' ∧ s'.udpPort = s.udpPort := by
  cases pool : s.free with
  | nil => exact .inl ⟨rfl, by simp [udpNew, pool]⟩
  | cons p free =>
    have isFree : ∀ q, q ∈ p :: free ↔ s.mem q = none := fun q => pool ▸ sound.unused q
    have gone : s.mem p = none := (isFree p).mp List.mem_cons_self
    obtain ⟨notFree, once⟩ := List.nodup_cons.mp (pool ▸ sound.once)
    have absent : p ∉ items.map Prod.fst := by
      rw [sound.listing p]
      simp [gone]
    have view : Pcbs.view { s with mem := Function.update s.mem p (some ⟨none, Pcb.zero⟩), free := free } =
        Function.update s.view p (some Pcb.zero) := Function.comp_update ..
    refine .inr ⟨_, p, by simp only [udpNew, pool], gone, ⟨⟨items, ?_⟩, view⟩, rfl⟩
    refine ⟨sound.listed.update absent _, fun q => ?_, ?_, once, fun q => ?_, sound.range⟩
    · rw [view, sound.listing q]
      by_cases here : q = p
      · subst here
        simp [gone, Pcb.zero]
      · rw [Function.update_of_ne here]
    · rw [view]
      refine sound.apart.update fun value same q other _ _ isBound => ?_
      cases same
      have differs : (other.localPort == (Pcb.zero : Pcb C).localPort) = false := beq_eq_false_iff_ne.mpr isBound
      rw [Pcb.inTheWay, differs, Bool.false_and]
    · by_cases here : q = p
      · subst here
        simp [notFree]
      · have := isFree q
        simp [here] at this ⊢
        exact this

end Calls

end ULoader.Udp

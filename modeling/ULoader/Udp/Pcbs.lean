/-
**The UDP protocol control blocks.**

`udp.c` takes its six PCBs from a pool. A PCB that is bound to a local port stands in the list `udp_pcbs`, which
`udp_input` goes through to find whose a datagram is; it moves the PCB it finds to the front.

* `Pcbs` — the pool, the list and the last automatic port; `Pcbs.view` — what the PCBs say, without the list.
* `udpNew`, `udpNewPort`, `udpBind`, `udpConnect`, `udpRecv`, `udpSendtoIf`, `udpInput`, `udpRemove` — the functions
  of the source. Using a PCB that was removed is undefined.
-/

import ULoader.Arp.Table
import ULoader.Lib.Links
import ULoader.Lib.StepSystem

namespace ULoader.Udp

open Links ULoader.Arp

/-- `MEMP_NUM_UDP_PCB`. -/
abbrev Slot := Fin 6

/-- `struct udp_pcb`; `C` are the callbacks with their arguments. -/
structure Pcb (C : Type) where
  localIp : UInt32
  localPort : UInt16
  remoteIp : UInt32
  remotePort : UInt16
  /-- `UDP_FLAGS_CONNECTED`. -/
  connected : Bool
  recv : Option C

/-- `memset(pcb, 0, sizeof(struct udp_pcb))`. -/
def Pcb.zero {C : Type} : Pcb C := ⟨0, 0, 0, 0, false, none⟩

/-- The remote address a PCB is associated with. -/
def Pcb.connectTo {C : Type} (pcb : Pcb C) (ipaddr : UInt32) (port : UInt16) : Pcb C :=
  { pcb with remoteIp := ipaddr, remotePort := port, connected := true }

/-- The pool of `struct udp_pcb`, and `udp.c`'s variables. -/
structure Pcbs (C : Type) where
  mem : Slot → Option (Node Slot (Pcb C))
  free : List Slot
  udpPcbs : Option Slot
  udpPort : UInt16

/-- `err_t`, as far as `udp.c` returns it. -/
inductive Err
  | ok
  | mem
  | val
  | use
  deriving DecidableEq

/-- What `udp_input` reads of a datagram: the header's length, the lengths of the first pbuf and of all of them, the
addresses and the ports. -/
structure Datagram where
  hlen : Nat
  len : Nat
  totLen : Nat
  src : UInt32
  dest : UInt32
  srcPort : UInt16
  destPort : UInt16

/-- What becomes of a received datagram. -/
inductive Outcome (C : Type)
  | delivered (pcb : Slot) (recv : C)
  /-- `icmp_dest_unreach(p, ICMP_DUR_PORT)`. -/
  | unreachable
  | discarded

/-- What is handed to `ip_output_if`. -/
structure Sent where
  srcIp : UInt32
  dstIp : UInt32
  srcPort : UInt16
  dstPort : UInt16
  len : Nat

section Code

variable {C : Type}

/-- After `memp_init` and `udp_init`. -/
def Pcbs.init : Pcbs C := ⟨fun _ => none, [5, 4, 3, 2, 1, 0], none, 0xc000⟩

/-- What the PCBs in memory say. -/
def Pcbs.view (s : Pcbs C) : Slot → Option (Pcb C) := Option.map Node.value ∘ s.mem

/-- A longer list than the pool has PCBs runs in a circle. -/
def bound : Nat := 7

/-- The contents of a PCB are written. -/
def Pcbs.write (s : Pcbs C) (pcb : Slot) (node : Node Slot (Pcb C)) (value : Pcb C) : Pcbs C :=
  { s with mem := Function.update s.mem pcb (some ⟨node.next, value⟩) }

/-- `pcb->next = udp_pcbs; udp_pcbs = pcb;`. -/
def Pcbs.push (s : Pcbs C) (pcb : Slot) (value : Pcb C) : Pcbs C :=
  { s with mem := Function.update s.mem pcb (some ⟨s.udpPcbs, value⟩), udpPcbs := some pcb }

/-- `udp_new`. -/
def udpNew (s : Pcbs C) : Pcbs C × Option Slot :=
  match s.free with
  | [] => (s, none)
  | pcb :: free => ({ s with mem := Function.update s.mem pcb (some ⟨none, Pcb.zero⟩), free := free }, some pcb)

/-! ### Ports and bindings -/

/-- `if (udp_port++ == UDP_LOCAL_PORT_RANGE_END) udp_port = UDP_LOCAL_PORT_RANGE_START;`. -/
def nextPort (port : UInt16) : UInt16 := if port = 0xffff then 0xc000 else port + 1

/-- Whether a PCB of the list has the local port. -/
def portUsed (s : Pcbs C) (port : UInt16) : Option Bool := do
  let (_, found) ← search (·.localPort == port) s.mem bound none s.udpPcbs
  some found.isSome

/-- The loop of `udp_new_port`, with the ports it may still try: the last port tried, and the port found or 0. -/
def newPortLoop (s : Pcbs C) : Nat → UInt16 → Option (UInt16 × UInt16)
  | 0, port => some (port, 0)
  | tries + 1, port => do
    let port := nextPort port
    if ← portUsed s port then newPortLoop s tries port else some (port, port)

/-- `udp_new_port`. -/
def udpNewPort (s : Pcbs C) : Option (Pcbs C × UInt16) := do
  let (port, found) ← newPortLoop s (0xffff - 0xc000 + 1) s.udpPort
  some ({ s with udpPort := port }, found)

/-- A PCB in the way of a binding: it has the port, and the address matches or one of the two is `IP_ADDR_ANY`. -/
def Pcb.inTheWay (ipcb : Pcb C) (ipaddr : UInt32) (port : UInt16) : Bool :=
  ipcb.localPort == port && (ipcb.localIp == 0 || ipaddr == 0 || ipcb.localIp == ipaddr)

/-- The loop of `udp_bind`: whether the PCB is on the list already, or `none` if another is in the way. -/
def checkBind (mem : Slot → Option (Node Slot (Pcb C))) (pcb : Slot) (ipaddr : UInt32) (port : UInt16) :
    Nat → Option Slot → Bool → Option (Option Bool)
  | 0, _, _ => none
  | _ + 1, none, rebind => some (some rebind)
  | fuel + 1, some ipcb, rebind => do
    let node ← mem ipcb
    if pcb = ipcb then checkBind mem pcb ipaddr port fuel node.next true
    else if node.value.inTheWay ipaddr port then some none
    else checkBind mem pcb ipaddr port fuel node.next rebind

/-- The port to bind to: an automatic one if none is specified. -/
def portOr (s : Pcbs C) (port : UInt16) : Option (Pcbs C × UInt16) :=
  if port = 0 then udpNewPort s else some (s, port)

/-- `udp_bind`. -/
def udpBind (s : Pcbs C) (pcb : Slot) (ipaddr : UInt32) (port : UInt16) : Option (Pcbs C × Err) := do
  match ← checkBind s.mem pcb ipaddr port bound s.udpPcbs false with
  | none => some (s, .use)
  | some rebind =>
    let node ← s.mem pcb
    let value := { node.value with localIp := ipaddr }
    let (s, port) ← portOr (s.write pcb node value) port
    if port = 0 then some (s, .use)
    else
      let value := { value with localPort := port }
      some (if rebind then s.write pcb node value else s.push pcb value, .ok)

/-- Whether a PCB is on the list. -/
def onList (mem : Slot → Option (Node Slot (Pcb C))) (pcb : Slot) : Nat → Option Slot → Option Bool
  | 0, _ => none
  | _ + 1, none => some false
  | fuel + 1, some ipcb => do
    let node ← mem ipcb
    if pcb = ipcb then some true else onList mem pcb fuel node.next

/-- A PCB that is not bound to a port is bound to an automatic one. -/
def ensureBound (s : Pcbs C) (pcb : Slot) : Option (Pcbs C × Err) := do
  let node ← s.mem pcb
  if node.value.localPort = 0 then udpBind s pcb node.value.localIp 0 else some (s, .ok)

/-- `udp_connect`. -/
def udpConnect (s : Pcbs C) (pcb : Slot) (ipaddr : UInt32) (port : UInt16) : Option (Pcbs C × Err) := do
  let (s, err) ← ensureBound s pcb
  if err ≠ .ok then some (s, err)
  else
    let node ← s.mem pcb
    let s := s.write pcb node (node.value.connectTo ipaddr port)
    if ← onList s.mem pcb bound s.udpPcbs then some (s, .ok)
    else some (s.push pcb (node.value.connectTo ipaddr port), .ok)

/-- `udp_recv`. -/
def udpRecv (s : Pcbs C) (pcb : Slot) (recv : C) : Option (Pcbs C) := do
  let node ← s.mem pcb
  some (s.write pcb node { node.value with recv := some recv })

/-- The loop of `udp_remove`. -/
def unlinkLoop (pcb : Slot) (mem : Slot → Option (Node Slot (Pcb C))) :
    Nat → Option Slot → Option (Slot → Option (Node Slot (Pcb C)))
  | 0, _ => none
  | _ + 1, none => some mem
  | fuel + 1, some pcb2 => do
    let node ← mem pcb2
    if node.next = some pcb then
      let gone ← mem pcb
      unlinkLoop pcb (Function.update mem pcb2 (some ⟨gone.next, node.value⟩)) fuel gone.next
    else unlinkLoop pcb mem fuel node.next

/-- `udp_remove`. -/
def udpRemove (s : Pcbs C) (pcb : Slot) : Option (Pcbs C) := do
  let node ← s.mem pcb
  let (mem, head) ← if s.udpPcbs = some pcb then some (s.mem, node.next)
    else do some (← unlinkLoop pcb s.mem bound s.udpPcbs, s.udpPcbs)
  some { s with mem := Function.update mem pcb none, free := pcb :: s.free, udpPcbs := head }

/-! ### Datagrams -/

/-- `udp_sendto_if`; `header` says whether there is room for a UDP header, in the pbuf or in a new one. -/
def udpSendtoIf (s : Pcbs C) (pcb : Slot) (len : Nat) (header : Bool) (dstIp : UInt32) (dstPort : UInt16)
    (netif : Netif) : Option (Pcbs C × Except Err Sent) := do
  let (s, err) ← ensureBound s pcb
  if err ≠ .ok then some (s, .error err)
  else if !header then some (s, .error .mem)
  else
    let node ← s.mem pcb
    if node.value.localIp ≠ 0 ∧ node.value.localIp ≠ netif.ipAddr then some (s, .error .val)
    else
      let srcIp := if node.value.localIp = 0 then netif.ipAddr else node.value.localIp
      some (s, .ok ⟨srcIp, dstIp, node.value.localPort, dstPort, (len + 8) % 0x10000⟩)

/-- The PCB's local address and port are those the datagram is for. -/
def Pcb.localMatch (pcb : Pcb C) (netif : Netif) (p : Datagram) : Bool :=
  let broadcast := ip4AddrIsbroadcast p.dest netif
  pcb.localPort == p.destPort &&
    ((!broadcast && pcb.localIp == 0) || pcb.localIp == p.dest ||
      (broadcast && (pcb.localIp == 0 || ipAddrNetcmp pcb.localIp p.dest netif.netmask)))

/-- The PCB's remote address and port are those the datagram is from. -/
def Pcb.remoteMatch (pcb : Pcb C) (p : Datagram) : Bool :=
  pcb.remotePort == p.srcPort && (pcb.remoteIp == 0 || pcb.remoteIp == p.src)

/-- The loop of `udp_input`: the first unconnected PCB that matches, and the first that matches fully, with the PCB
in front of it. -/
def demux (mem : Slot → Option (Node Slot (Pcb C))) (netif : Netif) (p : Datagram) :
    Nat → Option Slot → Option Slot → Option Slot →
      Option (Option Slot × Option (Option Slot × Slot × Node Slot (Pcb C)))
  | 0, _, _, _ => none
  | _ + 1, _, unconPcb, none => some (unconPcb, none)
  | fuel + 1, prev, unconPcb, some pcb => do
    let node ← mem pcb
    let localMatch := node.value.localMatch netif p
    let unconPcb := if localMatch && unconPcb.isNone && !node.value.connected then some pcb else unconPcb
    if localMatch && node.value.remoteMatch p then some (unconPcb, some (prev, pcb, node))
    else demux mem netif p fuel (some pcb) unconPcb node.next

/-- The PCB a datagram is for. `dhcp` is `inp->dhcp->pcb`: it alone gets what comes to `DHCP_CLIENT_PORT`. -/
def pcbFor (s : Pcbs C) (netif : Netif) (dhcp : Option Slot) (p : Datagram) : Option (Pcbs C × Option Slot) := do
  if p.destPort = 68 then
    match dhcp with
    | none => some (s, none)
    | some pcb =>
      if p.srcPort ≠ 67 then some (s, none)
      else
        let node ← s.mem pcb
        some (s, if node.value.remoteIp = 0 ∨ node.value.remoteIp = p.src then some pcb else none)
  else
    match ← demux s.mem netif p bound none none s.udpPcbs with
    | (unconPcb, none) => some (s, unconPcb)
    | (_, some (none, pcb, _)) => some (s, some pcb)
    | (_, some (some prev, pcb, node)) =>
      let ahead ← s.mem prev
      let s := { s with mem := Function.update s.mem prev (some ⟨node.next, ahead.value⟩) }
      some (s.push pcb node.value, some pcb)

/-- What `udp_input` does with the datagram once it knows the PCB. -/
def outcomeFor (s : Pcbs C) (netif : Netif) (p : Datagram) (pcb : Option Slot) : Option (Outcome C) := do
  if pcb = none ∧ netif.ipAddr ≠ p.dest then some .discarded
  else if p.len < p.hlen + 8 then some .discarded
  else match pcb with
    | some pcb =>
      let node ← s.mem pcb
      match node.value.recv with
      | some recv => some (.delivered pcb recv)
      | none => some .discarded
    | none =>
      if !ip4AddrIsbroadcast p.dest netif && !ipAddrIsmulticast p.dest then some .unreachable else some .discarded

/-- `udp_input`. -/
def udpInput (s : Pcbs C) (netif : Netif) (dhcp : Option Slot) (p : Datagram) : Option (Pcbs C × Outcome C) := do
  if p.totLen < p.hlen + 8 ∨ p.len < p.hlen then some (s, .discarded)
  else
    let (s, pcb) ← pcbFor s netif dhcp p
    let outcome ← outcomeFor s netif p pcb
    some (s, outcome)

/-- The calls into `udp.c`. -/
inductive Event (C : Type)
  | new
  | bind (pcb : Slot) (ipaddr : UInt32) (port : UInt16)
  | connect (pcb : Slot) (ipaddr : UInt32) (port : UInt16)
  | recv (pcb : Slot) (recv : C)
  | sendto (pcb : Slot) (len : Nat) (header : Bool) (dstIp : UInt32) (dstPort : UInt16) (netif : Netif)
  | remove (pcb : Slot)
  | input (netif : Netif) (dhcp : Option Slot) (p : Datagram)

def step (s : Pcbs C) : Event C → Option (Pcbs C)
  | .new => some (udpNew s).1
  | .bind pcb ipaddr port => (udpBind s pcb ipaddr port).map Prod.fst
  | .connect pcb ipaddr port => (udpConnect s pcb ipaddr port).map Prod.fst
  | .recv pcb recv => udpRecv s pcb recv
  | .sendto pcb len header dstIp dstPort netif => (udpSendtoIf s pcb len header dstIp dstPort netif).map Prod.fst
  | .remove pcb => udpRemove s pcb
  | .input netif dhcp p => (udpInput s netif dhcp p).map Prod.fst

end Code

end ULoader.Udp

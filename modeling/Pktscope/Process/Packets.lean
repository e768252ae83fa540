import Mathlib.Data.Set.Insert
import Pktscope.Decode.Layers
import Pktscope.Process.Identity

/-! # The process of a packet

A packet is attributed by looking up its source address with either of its
ports. The process of the local endpoint is found in both directions only where
there is none.
-/

namespace Pktscope

/-- What the system says about a socket: its owner, by protocol, local address and port. -/
abbrev SocketTable := UInt8 → IpAddr → UInt16 → Option SocketProc

def SocketProc.toProcessInfo (p : SocketProc) : ProcessInfo := ⟨UInt32.ofNat p.pid, p.name⟩

def lookupProcess (table : SocketTable) (protocol : UInt8) (localAddr : IpAddr)
    (localPort : UInt16) : Option ProcessInfo :=
  (table protocol localAddr localPort).map SocketProc.toProcessInfo

/-- The source address of the first IP layer. -/
def findLocalIp (pkt : DecodedPacket) : Option IpAddr :=
  pkt.layers.findSome? fun
    | .ipv4 ip => some (.v4 ip.srcIp)
    | .ipv6 ip => some (.v6 ip.srcIp)
    | _ => none

/-- Look up the source port, else the destination port. -/
def lookupPorts (table : SocketTable) (protocol : UInt8) (ip : IpAddr) (srcPort dstPort : UInt16) :
    Option ProcessInfo :=
  (lookupProcess table protocol ip srcPort).or (lookupProcess table protocol ip dstPort)

def tryProcessLookup (table : SocketTable) (pkt : DecodedPacket) : Option ProcessInfo :=
  go pkt.layers
where
  go : List Layer → Option ProcessInfo
    | [] => none
    | .tcp tcp :: rest =>
      match findLocalIp pkt with
      | some ip => lookupPorts table 6 ip tcp.srcPort tcp.dstPort
      | none => go rest
    | .udp udp :: rest =>
      match findLocalIp pkt with
      | some ip => lookupPorts table 17 ip udp.srcPort udp.dstPort
      | none => go rest
    | _ :: rest => go rest

/-- The protocol and the endpoints of a TCP or UDP packet. -/
structure PacketEnds where
  protocol : UInt8
  src : Endpoint
  dst : Endpoint
  deriving DecidableEq

def PacketEnds.swap (e : PacketEnds) : PacketEnds := ⟨e.protocol, e.dst, e.src⟩

namespace Layer

/-- The addresses of an IP layer. -/
def addrs? : Layer → Option (IpAddr × IpAddr)
  | .ipv4 h => some (.v4 h.srcIp, .v4 h.dstIp)
  | .ipv6 h => some (.v6 h.srcIp, .v6 h.dstIp)
  | _ => none

/-- The protocol and the ports of a transport layer. -/
def ports? : Layer → Option (UInt8 × UInt16 × UInt16)
  | .tcp h => some (6, h.srcPort, h.dstPort)
  | .udp h => some (17, h.srcPort, h.dstPort)
  | _ => none

/-- A layer of the opposite direction. -/
def swap : Layer → Layer
  | .ethernet h => .ethernet { h with srcMac := h.dstMac, dstMac := h.srcMac }
  | .ipv4 h => .ipv4 { h with srcIp := h.dstIp, dstIp := h.srcIp }
  | .ipv6 h => .ipv6 { h with srcIp := h.dstIp, dstIp := h.srcIp }
  | .tcp h => .tcp { h with srcPort := h.dstPort, dstPort := h.srcPort }
  | .udp h => .udp { h with srcPort := h.dstPort, dstPort := h.srcPort }
  | layer => layer

theorem addrs?_swap (layer : Layer) : layer.swap.addrs? = layer.addrs?.map Prod.swap := by
  cases layer <;> rfl

theorem ports?_swap (layer : Layer) :
    layer.swap.ports? = layer.ports?.map fun p => (p.1, p.2.swap) := by
  cases layer <;> rfl

end Layer

namespace DecodedPacket

/-- The packet with source and destination swapped. -/
def swap (pkt : DecodedPacket) : DecodedPacket :=
  { pkt with
    layers := pkt.layers.map Layer.swap
    summary := { pkt.summary with
      source := pkt.summary.destination
      destination := pkt.summary.source } }

/-- The endpoints of a TCP or UDP packet: its first addresses with its first ports. -/
def ends (pkt : DecodedPacket) : Option PacketEnds := do
  let (protocol, srcPort, dstPort) ← pkt.layers.findSome? Layer.ports?
  let (srcIp, dstIp) ← pkt.layers.findSome? Layer.addrs?
  return ⟨protocol, ⟨srcIp, srcPort⟩, ⟨dstIp, dstPort⟩⟩

end DecodedPacket

section Ends

variable {α : Type} {table : SocketTable} {pkt : DecodedPacket} {e : PacketEnds}

theorem findSome?_map_swap {f : Layer → Option α} {g : α → α}
    (h : ∀ layer : Layer, f layer.swap = (f layer).map g) (layers : List Layer) :
    (layers.map Layer.swap).findSome? f = (layers.findSome? f).map g := by
  induction layers with
  | nil => rfl
  | cons layer layers ih =>
    rw [List.map_cons, List.findSome?_cons, List.findSome?_cons, h]
    cases f layer with
    | none => exact ih
    | some a => rfl

theorem ends_swap (pkt : DecodedPacket) : pkt.swap.ends = pkt.ends.map PacketEnds.swap := by
  have hports := findSome?_map_swap Layer.ports?_swap pkt.layers
  have haddrs := findSome?_map_swap Layer.addrs?_swap pkt.layers
  rw [DecodedPacket.ends, DecodedPacket.ends, DecodedPacket.swap, hports, haddrs]
  cases pkt.layers.findSome? Layer.ports? with
  | none => rfl
  | some p => cases pkt.layers.findSome? Layer.addrs? <;> rfl

theorem findLocalIp_eq (pkt : DecodedPacket) :
    findLocalIp pkt = (pkt.layers.findSome? Layer.addrs?).map Prod.fst := by
  rw [findLocalIp]
  induction pkt.layers with
  | nil => rfl
  | cons layer layers ih =>
    rw [List.findSome?_cons, List.findSome?_cons]
    cases layer <;> first | rfl | exact ih

theorem tryProcessLookup_eq (he : pkt.ends = some e) :
    tryProcessLookup table pkt = lookupPorts table e.protocol e.src.addr e.src.port e.dst.port := by
  rw [DecodedPacket.ends] at he
  obtain ⟨⟨protocol, srcPort, dstPort⟩, hports, he⟩ := Option.bind_eq_some_iff.mp he
  obtain ⟨⟨srcIp, dstIp⟩, haddrs, he⟩ := Option.bind_eq_some_iff.mp he
  obtain rfl := Option.some.inj he
  have hip : findLocalIp pkt = some srcIp := by rw [findLocalIp_eq, haddrs, Option.map_some]
  rw [tryProcessLookup]
  generalize pkt.layers = layers at hports
  induction layers with
  | nil => cases hports
  | cons layer layers ih =>
    rw [List.findSome?_cons] at hports
    cases layer with
    | tcp tcp =>
      cases hports
      rw [tryProcessLookup.go, hip]
    | udp udp =>
      cases hports
      rw [tryProcessLookup.go, hip]
    | _ => exact ih hports

end Ends

section Directions

variable {table : SocketTable} {pkt : DecodedPacket} {e : PacketEnds}

theorem lookupPorts_eq_none {host : Set IpAddr}
    (htable : ∀ protocol addr port, (table protocol addr port).isSome → addr ∈ host)
    {addr : IpAddr} (haddr : addr ∉ host) (protocol : UInt8) (srcPort dstPort : UInt16) :
    lookupPorts table protocol addr srcPort dstPort = none := by
  have hnone (port : UInt16) : lookupProcess table protocol addr port = none := by
    rw [lookupProcess, Option.map_eq_none_iff, Option.eq_none_iff_forall_ne_some]
    intro p hp
    exact haddr (htable protocol addr port (Option.isSome_of_eq_some hp))
  rw [lookupPorts, hnone, hnone]
  rfl

/-- A packet of one local endpoint and its opposite are attributed to the process of that endpoint
exactly when there is none at its port, nor at the other port. -/
theorem both_directions_iff {host : Set IpAddr}
    (htable : ∀ protocol addr port, (table protocol addr port).isSome → addr ∈ host)
    (he : pkt.ends = some e) {here there : Endpoint}
    (hends : e.src = here ∧ e.dst = there ∨ e.src = there ∧ e.dst = here)
    (hhere : here.addr ∈ host) (hthere : there.addr ∉ host) :
    (tryProcessLookup table pkt = tryProcessLookup table pkt.swap ∧
        tryProcessLookup table pkt = lookupProcess table e.protocol here.addr here.port) ↔
      lookupProcess table e.protocol here.addr here.port = none ∧
        lookupProcess table e.protocol here.addr there.port = none := by
  have hswap : pkt.swap.ends = some e.swap := by rw [ends_swap, he, Option.map_some]
  have hnone := lookupPorts_eq_none htable hthere
  rw [tryProcessLookup_eq he, tryProcessLookup_eq hswap]
  rcases hends with ⟨rfl, rfl⟩ | ⟨rfl, rfl⟩
  · -- The packet leaves the host, and its opposite is looked up by the remote address.
    simp only [PacketEnds.swap, hnone]
    rw [lookupPorts, Option.or_eq_none_iff]
    apply and_iff_left_of_imp
    rintro ⟨hown, hother⟩
    rw [hown, hother]
    rfl
  · simp only [PacketEnds.swap, hnone]
    rw [lookupPorts, eq_comm, Option.or_eq_none_iff]
    apply and_iff_left_of_imp
    rintro ⟨hown, -⟩
    exact hown.symm

section Server

/-- A segment to a server on this host. -/
def loginPacket : DecodedPacket where
  number := 1
  timestamp := 0
  wireLen := 60
  data := []
  layers := [.ipv4 ⟨4, 5, 0, 0, 40, 0, 0, 0, 64, 6, 0, 0x5db8d822, 0x0a000002, (0, 20)⟩,
    .tcp ⟨51000, 22, 0, 0, 5, ⟨false, false, false, false, true, false, false, false⟩, 0, 0, 0, 0,
      (20, 40)⟩]
  summary := ⟨"", "", "", 60, "", .tcp⟩
  process := none
  retransmission := false

/-- A host where only the server has a socket. -/
def serverTable : SocketTable := fun protocol addr port =>
  if protocol = 6 ∧ addr = .ofOctets 10 0 0 2 ∧ port = 22 then some ⟨812, "sshd", none⟩ else none

def loginEnds : PacketEnds := ⟨6, ⟨.ofOctets 93 184 216 34, 51000⟩, ⟨.ofOctets 10 0 0 2, 22⟩⟩

theorem serverTable_host (protocol : UInt8) (addr : IpAddr) (port : UInt16)
    (h : (serverTable protocol addr port).isSome) : addr ∈ ({.ofOctets 10 0 0 2} : Set IpAddr) := by
  unfold serverTable at h
  split at h
  · rename_i hc
    exact hc.2.1
  · cases h

theorem both_directions_iff_server :
    (tryProcessLookup serverTable loginPacket = tryProcessLookup serverTable loginPacket.swap ∧
        tryProcessLookup serverTable loginPacket =
          lookupProcess serverTable 6 (.ofOctets 10 0 0 2) 22) ↔
      lookupProcess serverTable 6 (.ofOctets 10 0 0 2) 22 = none ∧
        lookupProcess serverTable 6 (.ofOctets 10 0 0 2) 51000 = none :=
  @both_directions_iff serverTable loginPacket loginEnds _ serverTable_host (by decide)
    loginEnds.dst loginEnds.src (Or.inr ⟨rfl, rfl⟩) rfl
    (fun h => absurd (Set.mem_singleton_iff.mp h) (by decide))

/-- The server is found for its answers, not for the requests it gets. -/
theorem request_not_attributed :
    loginPacket.ends = some loginEnds ∧
      tryProcessLookup serverTable loginPacket = none ∧
      tryProcessLookup serverTable loginPacket.swap = some ⟨812, "sshd"⟩ ∧
      lookupProcess serverTable 6 (.ofOctets 10 0 0 2) 22 = some ⟨812, "sshd"⟩ := by
  decide

end Server

end Directions

end Pktscope

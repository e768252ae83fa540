import Mathlib.Data.Finset.Basic
import Pktscope.Flow.State
import Pktscope.Library.Lru

/-! # The flow tracker

Byte and packet accounting per direction, retransmission detection and
round-trip estimation. A flow is evicted once both sides have sent a FIN or one
has sent a RST, after its final snapshot has gone to the completion sink; the
table also evicts the flow used longest ago when a new key meets a full table.
-/

namespace Pktscope

open Library

structure TcpBits where
  seq : ℕ
  ack : ℕ
  payloadLen : ℕ
  syn : Bool
  ackFlag : Bool
  fin : Bool
  rst : Bool
  deriving DecidableEq

structure PktFlowInfo where
  srcIp : IpAddr
  dstIp : IpAddr
  srcPort : UInt16
  dstPort : UInt16
  protocol : UInt8
  tcp : Option TcpBits
  deriving DecidableEq

/-- The scan for the first transport layer, with the IP fields seen so far. -/
def extractFrom (srcIp dstIp : Option IpAddr) (protocol : Option UInt8) :
    List Layer → Option PktFlowInfo
  | [] => none
  | .ipv4 ip :: rest =>
    extractFrom (some (.v4 ip.srcIp)) (some (.v4 ip.dstIp)) (some ip.protocol) rest
  | .ipv6 ip :: rest =>
    extractFrom (some (.v6 ip.srcIp)) (some (.v6 ip.dstIp)) (some ip.nextHeader) rest
  | .tcp tcp :: _ => do
    return {
      srcIp := ← srcIp
      dstIp := ← dstIp
      srcPort := tcp.srcPort
      dstPort := tcp.dstPort
      protocol := ← protocol
      tcp := some {
        seq := tcp.seqNum.toNat
        ack := tcp.ackNum.toNat
        payloadLen := tcp.payloadLen
        syn := tcp.flags.syn
        ackFlag := tcp.flags.ack
        fin := tcp.flags.fin
        rst := tcp.flags.rst } }
  | .udp udp :: _ => do
    return {
      srcIp := ← srcIp
      dstIp := ← dstIp
      srcPort := udp.srcPort
      dstPort := udp.dstPort
      protocol := ← protocol
      tcp := none }
  | _ :: rest => extractFrom srcIp dstIp protocol rest

/-- The flow identity of a TCP or UDP packet. -/
def extractPktFlowInfo (layers : List Layer) : Option PktFlowInfo :=
  extractFrom none none none layers

def PktFlowInfo.key (info : PktFlowInfo) : FlowKey :=
  .new info.srcIp info.srcPort info.dstIp info.dstPort info.protocol

def PktFlowInfo.isLow (info : PktFlowInfo) : Bool :=
  Endpoint.le ⟨info.srcIp, info.srcPort⟩ ⟨info.dstIp, info.dstPort⟩

def PktFlowInfo.dir (info : PktFlowInfo) : Dir := if info.isLow then .lowToHigh else .highToLow

def maxFlows : ℕ := 10000

def maxUnacked : ℕ := 256

section Rtt

variable {F : Type} [F64 F]

/-- Drop the lowest keys until at most `maxUnacked` entries remain. -/
def trimUnacked : ℕ → OrderedMap ℕ DateTime → OrderedMap ℕ DateTime
  | 0, m => m
  | fuel + 1, m =>
    if m.len > maxUnacked then
      match m.keys.head? with
      | some k => trimUnacked fuel (m.remove k)
      | none => m
    else m

/-- The handshake estimate: SYN to SYN/ACK. -/
def recordHandshake (st : FlowState F) (tcp : TcpBits) (ts : DateTime) : FlowState F :=
  if tcp.syn && !tcp.ackFlag then
    { st with synTs := st.synTs.or (some ts) }
  else if tcp.syn && tcp.ackFlag then
    let st := { st with synackTs := st.synackTs.or (some ts) }
    match st.handshakeRttMs, st.synTs with
    | none, some syn =>
      let us := DateTime.microsSince ts syn
      if us ≥ 0 then { st with handshakeRttMs := some (F64.ofNat us.toNat / 1000.0) } else st
    | _, _ => st
  else st

/-- Remember our own outgoing data, so that the peer's ACK can be timed. -/
def recordSent (st : FlowState F) (isLow : Bool) (tcp : TcpBits) (ts : DateTime) : FlowState F :=
  if tcp.payloadLen > 0 then
    let seqEnd := (tcp.seq + tcp.payloadLen % 2 ^ 32) % 2 ^ 32
    let m := (if isLow then st.unackedLow else st.unackedHigh).orInsert seqEnd ts
    let m := trimUnacked m.len m
    if isLow then { st with unackedLow := m } else { st with unackedHigh := m }
  else st

/-- One acknowledged entry of the other side: a sample of the smoothed estimate. -/
def recordAcked (isLow : Bool) (ts : DateTime) (st : FlowState F) (k : ℕ) : FlowState F :=
  let other := if isLow then st.unackedHigh else st.unackedLow
  let st :=
    if isLow then { st with unackedHigh := other.remove k }
    else { st with unackedLow := other.remove k }
  match other.get? k with
  | none => st
  | some sendTs =>
    let us := DateTime.microsSince ts sendTs
    if us ≥ 0 then
      let sample : F := F64.ofNat us.toNat / 1000.0
      { st with
        srttMs := some (match st.srttMs with
          | some prev => prev * 0.875 + sample * 0.125
          | none => sample) }
    else st

/-- Update the round-trip estimates from one segment. -/
def recordRtt (st : FlowState F) (isLow : Bool) (tcp : TcpBits) (ts : DateTime) : FlowState F :=
  let st := recordSent (recordHandshake st tcp ts) isLow tcp ts
  if tcp.ackFlag then
    let acked := (if isLow then st.unackedHigh else st.unackedLow).rangeTo tcp.ack
    acked.foldl (recordAcked isLow ts) st
  else st

end Rtt

section Segment

variable {F : Type} [F64 F]

/-- Count one packet. -/
def FlowState.account (st : FlowState F) (dir : Dir) (wire : UInt32) (ts : DateTime) :
    FlowState F :=
  match dir with
  | .lowToHigh =>
    { st with
      lastSeen := ts
      pktsLowToHigh := st.pktsLowToHigh + 1
      bytesLowToHigh := st.bytesLowToHigh + wire.toNat }
  | .highToLow =>
    { st with
      lastSeen := ts
      pktsHighToLow := st.pktsHighToLow + 1
      bytesHighToLow := st.bytesHighToLow + wire.toNat }

/-- Whether a segment ends no later than the highest end seen on its side. -/
def FlowState.isRetransmission (st : FlowState F) (isLow : Bool) (tcp : TcpBits) : Bool :=
  decide (tcp.payloadLen > 0) &&
    match (if isLow then st.maxSeqLow else st.maxSeqHigh) with
    | some prev => decide (tcp.seq + tcp.payloadLen ≤ prev)
    | none => false

/-- Raise the highest sequence end of the segment's side. -/
def FlowState.raiseMaxSeq (st : FlowState F) (isLow : Bool) (tcp : TcpBits) : FlowState F :=
  if tcp.payloadLen > 0 && !st.isRetransmission isLow tcp then
    let seqEnd := tcp.seq + tcp.payloadLen
    if isLow then { st with maxSeqLow := some seqEnd } else { st with maxSeqHigh := some seqEnd }
  else st

/-- Note the RST and FIN flags of a segment. -/
def FlowState.noteFlags (st : FlowState F) (isLow : Bool) (tcp : TcpBits) : FlowState F :=
  { st with
    rstSeen := st.rstSeen || tcp.rst
    finLow := st.finLow || (tcp.fin && isLow)
    finHigh := st.finHigh || (tcp.fin && !isLow) }

/-- The effect of one packet on the state of its flow. -/
def FlowState.observe (st : FlowState F) (info : PktFlowInfo) (wire : UInt32) (ts : DateTime) :
    FlowState F :=
  let st := st.account info.dir wire ts
  match info.tcp with
  | some tcp =>
    (recordRtt (st.raiseMaxSeq info.isLow tcp) info.isLow tcp ts).noteFlags info.isLow tcp
  | none => st

end Segment

/-- The tracker, with the content of the completion channel if one is registered. -/
structure FlowTracker (F : Type) where
  flows : LruCache FlowKey (FlowState F)
  localAddrs : Finset IpAddr
  completedTx : Option (List (FlowStatsSnapshot F))

namespace FlowTracker

variable {F : Type} [F64 F]

def new : FlowTracker F where
  flows := .empty maxFlows (by decide)
  localAddrs := ∅
  completedTx := none

/-- Register an empty completion channel. -/
def withCompletionSink (t : FlowTracker F) : FlowTracker F := { t with completedTx := some [] }

def setLocalAddrs (t : FlowTracker F) (addrs : Finset IpAddr) : FlowTracker F :=
  { t with localAddrs := addrs }

/-- The low endpoint is local unless only the high one is. -/
def localLow (addrs : Finset IpAddr) (key : FlowKey) : Bool :=
  !(!decide (key.addrLow ∈ addrs) && decide (key.addrHigh ∈ addrs))

def makeSnapshot (t : FlowTracker F) (key : FlowKey) (st : FlowState F) : FlowStatsSnapshot F :=
  if localLow t.localAddrs key then
    { key
      protocol := key.protocol
      localAddr := some key.addrLow
      localPort := some key.portLow
      remoteAddr := some key.addrHigh
      remotePort := some key.portHigh
      bytesUp := st.bytesLowToHigh
      bytesDown := st.bytesHighToLow
      pktsUp := st.pktsLowToHigh
      pktsDown := st.pktsHighToLow
      firstSeen := st.firstSeen
      lastSeen := st.lastSeen
      srttMs := st.srttMs
      handshakeRttMs := st.handshakeRttMs }
  else
    { key
      protocol := key.protocol
      localAddr := some key.addrHigh
      localPort := some key.portHigh
      remoteAddr := some key.addrLow
      remotePort := some key.portLow
      bytesUp := st.bytesHighToLow
      bytesDown := st.bytesLowToHigh
      pktsUp := st.pktsHighToLow
      pktsDown := st.pktsLowToHigh
      firstSeen := st.firstSeen
      lastSeen := st.lastSeen
      srttMs := st.srttMs
      handshakeRttMs := st.handshakeRttMs }

def statsFor (t : FlowTracker F) (key : FlowKey) : Option (FlowStatsSnapshot F) :=
  (t.flows.peek key).map (t.makeSnapshot key)

def snapshot (t : FlowTracker F) : List (FlowStatsSnapshot F) :=
  t.flows.iter.map fun e => t.makeSnapshot e.1 e.2

def len (t : FlowTracker F) : ℕ := t.flows.len

/-- Mark a retransmitted packet in its summary. -/
def markRetransmission (pkt : DecodedPacket) : DecodedPacket :=
  { pkt with
    retransmission := true
    summary := { pkt.summary with
      info := "[Retransmission] " ++ pkt.summary.info
      colorHint := .retransmission } }

/-- Send the final snapshot of a flow to the sink and drop the flow. -/
def close (t : FlowTracker F) (key : FlowKey) : FlowTracker F :=
  { t with
    completedTx := match t.completedTx, t.statsFor key with
      | some sent, some snap => some (sent ++ [snap])
      | tx, _ => tx
    flows := t.flows.pop key }

/-- The state of the packet's flow, made if it is missing, with the packet counted. -/
def stateAfter (t : FlowTracker F) (info : PktFlowInfo) (wire : UInt32) (ts : DateTime) :
    FlowState F :=
  (t.flows.getOrInsertMut info.key (.new ts)).1.observe info wire ts

/-- The tracker with the packet counted. -/
def count (t : FlowTracker F) (info : PktFlowInfo) (wire : UInt32) (ts : DateTime) :
    FlowTracker F :=
  { t with flows := (t.flows.getOrInsertMut info.key (.new ts)).2 (t.stateAfter info wire ts) }

/-- Whether the packet ends its flow; UDP has no flags, so only a TCP packet does. -/
def closes (t : FlowTracker F) (info : PktFlowInfo) (wire : UInt32) (ts : DateTime) : Bool :=
  info.tcp.isSome && (t.stateAfter info wire ts).closing

/-- Whether the packet repeats data its side has already sent. -/
def annotate (t : FlowTracker F) (info : PktFlowInfo) (wire : UInt32) (ts : DateTime) :
    Option Bool :=
  let st := (t.flows.getOrInsertMut info.key (.new ts)).1.account info.dir wire ts
  info.tcp.map (st.isRetransmission info.isLow)

/-- Account one packet to its flow. -/
def update (t : FlowTracker F) (pkt : DecodedPacket) :
    FlowTracker F × DecodedPacket × Option FlowUpdate :=
  match extractPktFlowInfo pkt.layers with
  | none => (t, pkt, none)
  | some info =>
    let isRetransmission := t.annotate info pkt.wireLen pkt.timestamp
    let counted := t.count info pkt.wireLen pkt.timestamp
    (if t.closes info pkt.wireLen pkt.timestamp then counted.close info.key else counted,
      if isRetransmission = some true then markRetransmission pkt else pkt,
      some {
        annotation := isRetransmission.map FlowAnnotation.mk
        key := info.key
        dir := info.dir
        bytes := pkt.wireLen
        firstSeen := !t.flows.contains info.key })

end FlowTracker

end Pktscope

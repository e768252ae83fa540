import Pktscope.Decode.Layers
import Pktscope.Library.Bytes

/-! # Headers

The decoders of the link, network and transport headers. Each looks at the bytes
from an offset on and says where the next header starts.
-/

namespace Pktscope

open Library Parse

/-- What the application payload belongs to. -/
structure TransportHint where
  srcPort : UInt16
  dstPort : UInt16
  isTcp : Bool
  deriving DecidableEq

inductive NextDecode where
  | ethernet
  | ipv4
  | ipv6
  | arp
  | tcp
  | udp
  | icmp
  | icmpv6
  | applicationPayload (transport : TransportHint)
  deriving DecidableEq

/-- How many headers can still follow. -/
def NextDecode.rank : NextDecode → ℕ
  | .ethernet => 3
  | .ipv4 | .ipv6 | .arp => 2
  | .tcp | .udp | .icmp | .icmpv6 => 1
  | .applicationPayload _ => 0

theorem NextDecode.rank_eq_zero {what : NextDecode} (h : what.rank = 0) :
    ∃ transport, what = .applicationPayload transport := by
  cases what with
  | applicationPayload transport => exact ⟨transport, rfl⟩
  | _ => cases h

structure DecodeResult where
  layer : Layer
  next : Option NextDecode
  nextOffset : ℕ

def Layer.isTransport : Layer → Bool
  | .tcp _ | .udp _ => true
  | _ => false

/-- The chain goes on inside the data, with a header of the next rank; behind a transport header it
goes on with the rest of the data. -/
structure DecodeResult.Follows (r : DecodeResult) (what : NextDecode) (len : ℕ) : Prop where
  inside : r.nextOffset ≤ len
  descends : ∀ n ∈ r.next, n.rank + 1 = what.rank
  carries : r.layer.isTransport → ∃ transport,
    r.next = if r.nextOffset < len then some (.applicationPayload transport) else none

/-- The range of a link, network or transport header. -/
def Layer.headerRange : Layer → Option ByteRange
  | .ethernet h => some h.headerRange
  | .arp h => some h.headerRange
  | .ipv4 h => some h.headerRange
  | .ipv6 h => some h.headerRange
  | .tcp h => some h.headerRange
  | .udp h => some h.headerRange
  | .icmp h | .icmpv6 h => some h.headerRange
  | _ => none

/-- The header takes the bytes from an offset to the next header. Only a transport header is followed
by an application payload. -/
structure DecodeResult.Spans (r : DecodeResult) (offset : ℕ) : Prop where
  range : r.layer.headerRange = some (offset, r.nextOffset)
  forward : offset < r.nextOffset
  transport : ∀ n ∈ r.next, n.rank = 0 → r.layer.isTransport

/-- An IPv4 address from its four bytes. -/
def ipv4At (data : List UInt8) (o k : ℕ) : Parse UInt32 := be32At data o k

def TcpFlags.fromBits (bits : UInt8) : TcpFlags where
  fin := bits &&& 0x01 != 0
  syn := bits &&& 0x02 != 0
  rst := bits &&& 0x04 != 0
  psh := bits &&& 0x08 != 0
  ack := bits &&& 0x10 != 0
  urg := bits &&& 0x20 != 0
  ece := bits &&& 0x40 != 0
  cwr := bits &&& 0x80 != 0

section Decoders

variable (data : List UInt8) (offset : ℕ)

def decodeEthernet : Parse DecodeResult := do
  let remaining ← checkedSub data.length offset
  if remaining < 14 then refuse
  else do
    let dstMac ← bytesAt data offset 0 6
    let srcMac ← bytesAt data offset 6 6
    let ethertype ← be16At data offset 12
    let next :=
      if ethertype = 0x0800 then some .ipv4
      else if ethertype = 0x0806 then some .arp
      else if ethertype = 0x86dd then some .ipv6
      else none
    let stop ← addUsize offset 14
    return ⟨.ethernet ⟨⟨srcMac⟩, ⟨dstMac⟩, ethertype, (offset, stop)⟩, next, stop⟩

def decodeArp : Parse DecodeResult := do
  let remaining ← checkedSub data.length offset
  if remaining < 28 then refuse
  else do
    let hwType ← be16At data offset 0
    let protoType ← be16At data offset 2
    let _hwLen ← byteAt data offset 4
    let _protoLen ← byteAt data offset 5
    let operation ← be16At data offset 6
    let senderMac ← bytesAt data offset 8 6
    let senderIp ← ipv4At data offset 14
    let targetMac ← bytesAt data offset 18 6
    let targetIp ← ipv4At data offset 24
    let stop ← addUsize offset 28
    return ⟨.arp ⟨hwType, protoType, operation, ⟨senderMac⟩, senderIp, ⟨targetMac⟩, targetIp,
      (offset, stop)⟩, none, stop⟩

def decodeIpv4 : Parse DecodeResult := do
  let remaining ← checkedSub data.length offset
  if remaining < 20 then refuse
  else do
    let verIhl ← byteAt data offset 0
    let version := verIhl >>> 4
    let ihl := verIhl &&& 0x0f
    if version ≠ 4 ∨ ihl < 5 then refuse
    else
      let headerLen := ihl.toNat * 4
      if remaining < headerLen then refuse
      else do
        let dscpEcn ← byteAt data offset 1
        let totalLength ← be16At data offset 2
        let identification ← be16At data offset 4
        let flagsFrag ← be16At data offset 6
        let ttl ← byteAt data offset 8
        let protocol ← byteAt data offset 9
        let checksum ← be16At data offset 10
        let srcIp ← ipv4At data offset 12
        let dstIp ← ipv4At data offset 16
        let next :=
          if protocol = 1 then some .icmp
          else if protocol = 6 then some .tcp
          else if protocol = 17 then some .udp
          else none
        let stop ← addUsize offset headerLen
        return ⟨.ipv4 {
          version, ihl
          dscp := dscpEcn >>> 2
          ecn := dscpEcn &&& 0x03
          totalLength, identification
          flags := (flagsFrag >>> 13).toUInt8
          fragmentOffset := flagsFrag &&& 0x1fff
          ttl, protocol, checksum, srcIp, dstIp
          headerRange := (offset, stop) }, next, stop⟩

/-- `data[o + k..o + k + 16]` as an IPv6 address. -/
def ipv6At (data : List UInt8) (o k : ℕ) : Parse (BitVec 128) := do
  let start ← addUsize o k
  let stop ← addUsize o (k + 16)
  let bytes ← sliceAt data start stop
  return BitVec.ofNat 128 (beNat bytes)

def decodeIpv6 : Parse DecodeResult := do
  let remaining ← checkedSub data.length offset
  if remaining < 40 then refuse
  else do
    let verTcFl ← be32At data offset 0
    let version := (verTcFl >>> 28).toUInt8
    if version ≠ 6 then refuse
    else do
      let payloadLength ← be16At data offset 4
      let nextHeader ← byteAt data offset 6
      let hopLimit ← byteAt data offset 7
      let srcIp ← ipv6At data offset 8
      let dstIp ← ipv6At data offset 24
      let next :=
        if nextHeader = 6 then some .tcp
        else if nextHeader = 17 then some .udp
        else if nextHeader = 58 then some .icmpv6
        else none
      let stop ← addUsize offset 40
      return ⟨.ipv6 {
        version
        trafficClass := (verTcFl >>> 20 &&& 0xff).toUInt8
        flowLabel := verTcFl &&& 0x000fffff
        payloadLength, nextHeader, hopLimit, srcIp, dstIp
        headerRange := (offset, stop) }, next, stop⟩

def decodeTcp : Parse DecodeResult := do
  let remaining ← checkedSub data.length offset
  if remaining < 20 then refuse
  else do
    let srcPort ← be16At data offset 0
    let dstPort ← be16At data offset 2
    let seqNum ← be32At data offset 4
    let ackNum ← be32At data offset 8
    let offsetByte ← byteAt data offset 12
    let dataOffset := offsetByte >>> 4
    if dataOffset < 5 then refuse
    else
      let headerLen := dataOffset.toNat * 4
      if remaining < headerLen then refuse
      else do
        let flagBits ← byteAt data offset 13
        let windowSize ← be16At data offset 14
        let checksum ← be16At data offset 16
        let urgentPointer ← be16At data offset 18
        let payloadLen := remaining - headerLen
        let stop ← addUsize offset headerLen
        return ⟨.tcp {
          srcPort, dstPort, seqNum, ackNum, dataOffset
          flags := .fromBits flagBits
          windowSize, checksum, urgentPointer, payloadLen
          headerRange := (offset, stop) },
          if 0 < payloadLen then some (.applicationPayload ⟨srcPort, dstPort, true⟩) else none, stop⟩

def decodeUdp : Parse DecodeResult := do
  let remaining ← checkedSub data.length offset
  if remaining < 8 then refuse
  else do
    let srcPort ← be16At data offset 0
    let dstPort ← be16At data offset 2
    let length ← be16At data offset 4
    let checksum ← be16At data offset 6
    let payloadLen := remaining - 8
    let stop ← addUsize offset 8
    return ⟨.udp ⟨srcPort, dstPort, length, checksum, (offset, stop)⟩,
      if 0 < payloadLen then some (.applicationPayload ⟨srcPort, dstPort, false⟩) else none, stop⟩

/-- The header that ICMP and ICMPv6 share. -/
def icmpHeaderAt : Parse IcmpHeader := do
  let remaining ← checkedSub data.length offset
  if remaining < 8 then refuse
  else do
    let icmpType ← byteAt data offset 0
    let code ← byteAt data offset 1
    let checksum ← be16At data offset 2
    let rest ← be32At data offset 4
    let stop ← addUsize offset 8
    return ⟨icmpType, code, checksum, rest, (offset, stop)⟩

def decodeIcmp : Parse DecodeResult := do
  let h ← icmpHeaderAt data offset
  return ⟨.icmp h, none, h.headerRange.2⟩

def decodeIcmpv6 : Parse DecodeResult := do
  let h ← icmpHeaderAt data offset
  return ⟨.icmpv6 h, none, h.headerRange.2⟩

end Decoders

section Safe

/-- A header length that is not refused. -/
theorem five_le {words : UInt8} (h : ¬words < 5) : 5 ≤ words.toNat := by
  rwa [UInt8.lt_iff_toNat_lt, not_lt] at h

variable {data : List UInt8} {offset : ℕ} (hs : data.length < maxBytes)
include hs

theorem holds_decodeEthernet :
    Holds (decodeEthernet data offset) fun r =>
      r.Spans offset ∧ r.Follows .ethernet data.length := by
  unfold decodeEthernet
  rw [holds_bind]
  refine holds_checkedSub fun ho => holds_ite (fun _ => trivial) fun hlen => ?_
  simp (disch := omega) only [be16At_eq hs, bytesAt_eq hs, addUsize_eq hs]
  have hinside : offset + 14 ≤ data.length := by omega
  constructor
  · refine ⟨rfl, Nat.lt_add_of_pos_right (by decide), ?_⟩
    exact forall_mem_ite_three nofun nofun nofun
  · refine ⟨hinside, ?_, nofun⟩
    exact forall_mem_ite_three rfl rfl rfl

theorem holds_decodeArp :
    Holds (decodeArp data offset) fun r => r.Spans offset ∧ r.Follows .arp data.length := by
  unfold decodeArp
  rw [holds_bind]
  refine holds_checkedSub fun ho => holds_ite (fun _ => trivial) fun hlen => ?_
  simp (disch := omega) only [ipv4At, be16At_eq hs, be32At_eq hs, byteAt_eq hs, bytesAt_eq hs,
    addUsize_eq hs]
  have hinside : offset + 28 ≤ data.length := by omega
  constructor
  · exact ⟨rfl, Nat.lt_add_of_pos_right (by decide), nofun⟩
  · exact ⟨hinside, nofun, nofun⟩

theorem holds_decodeIpv4 :
    Holds (decodeIpv4 data offset) fun r => r.Spans offset ∧ r.Follows .ipv4 data.length ∧
      ∃ h, r.layer = .ipv4 h ∧ r.next =
        if h.protocol = 1 then some .icmp
        else if h.protocol = 6 then some .tcp
        else if h.protocol = 17 then some .udp
        else none := by
  unfold decodeIpv4
  rw [holds_bind]
  refine holds_checkedSub fun ho => holds_ite (fun _ => trivial) fun hlen => ?_
  rw [byteAt_eq hs (by omega)]
  refine holds_ite (fun _ => trivial) fun hihl => holds_ite (fun _ => trivial) fun hheader => ?_
  have hwords := five_le (fun h => hihl (.inr h))
  simp (disch := omega) only [ipv4At, be16At_eq hs, be32At_eq hs, byteAt_eq hs, addUsize_eq hs]
  have hinside : offset + (peek data (offset + 0) &&& 0x0f).toNat * 4 ≤ data.length := by omega
  refine ⟨?_, ?_, _, rfl, rfl⟩
  · refine ⟨rfl, Nat.lt_add_of_pos_right (by omega), ?_⟩
    exact forall_mem_ite_three nofun nofun nofun
  · refine ⟨hinside, ?_, nofun⟩
    exact forall_mem_ite_three rfl rfl rfl

theorem ipv6At_eq {k : ℕ} (h : offset + k + 16 ≤ data.length) :
    ipv6At data offset k =
      ok (BitVec.ofNat 128 (beNat (slice data (offset + k) (offset + (k + 16))))) := by
  rw [ipv6At, addUsize_eq hs (by omega) (by unfold maxBytes at *; omega),
    addUsize_eq hs (by omega) (by unfold maxBytes at *; omega)]
  change (sliceAt data (offset + k) (offset + (k + 16)) >>= _) = _
  rw [sliceAt, if_pos ⟨by omega, by omega⟩]
  rfl

theorem holds_decodeIpv6 :
    Holds (decodeIpv6 data offset) fun r => r.Spans offset ∧ r.Follows .ipv6 data.length ∧
      ∃ h, r.layer = .ipv6 h := by
  unfold decodeIpv6
  rw [holds_bind]
  refine holds_checkedSub fun ho => holds_ite (fun _ => trivial) fun hlen => ?_
  rw [be32At_eq hs (by omega)]
  refine holds_ite (fun _ => trivial) fun _ => ?_
  simp (disch := omega) only [ipv6At_eq hs, be16At_eq hs, byteAt_eq hs, addUsize_eq hs]
  have hinside : offset + 40 ≤ data.length := by omega
  refine ⟨?_, ?_, _, rfl⟩
  · refine ⟨rfl, Nat.lt_add_of_pos_right (by decide), ?_⟩
    exact forall_mem_ite_three nofun nofun nofun
  · refine ⟨hinside, ?_, nofun⟩
    exact forall_mem_ite_three rfl rfl rfl

/-- A TCP header is read where its fixed part and the words that it counts fit. -/
theorem holds_decodeTcp :
    Holds (decodeTcp data offset) fun r => r.Spans offset ∧ r.Follows .tcp data.length ∧
      (offset + 20 ≤ data.length ∧ 5 ≤ (peek data (offset + 12) >>> 4).toNat ∧
        offset + (peek data (offset + 12) >>> 4).toNat * 4 ≤ data.length) ∧
      ∃ h, r.layer = .tcp h := by
  unfold decodeTcp
  rw [holds_bind]
  refine holds_checkedSub fun ho => holds_ite (fun _ => trivial) fun hlen => ?_
  rw [be16At_eq hs (by omega), be16At_eq hs (by omega), be32At_eq hs (by omega),
    be32At_eq hs (by omega), byteAt_eq hs (by omega)]
  refine holds_ite (fun _ => trivial) fun hwords => holds_ite (fun _ => trivial) fun hheader => ?_
  have hwords := five_le hwords
  simp (disch := omega) only [be16At_eq hs, byteAt_eq hs, addUsize_eq hs]
  have hinside : offset + (peek data (offset + 12) >>> 4).toNat * 4 ≤ data.length := by omega
  refine ⟨?_, ?_, ⟨by omega, hwords, hinside⟩, _, rfl⟩
  · exact ⟨rfl, Nat.lt_add_of_pos_right (by omega), fun _ _ _ => rfl⟩
  · refine ⟨hinside, forall_mem_ite (fun _ => rfl) nofun, fun _ => ⟨_, if_congr ?_ rfl rfl⟩⟩
    change 0 < data.length - offset - _ ↔ offset + _ < data.length
    omega

theorem holds_decodeUdp :
    Holds (decodeUdp data offset) fun r => r.Spans offset ∧ r.Follows .udp data.length ∧
      offset + 8 ≤ data.length ∧ ∃ h, r.layer = .udp h := by
  unfold decodeUdp
  rw [holds_bind]
  refine holds_checkedSub fun ho => holds_ite (fun _ => trivial) fun hlen => ?_
  simp (disch := omega) only [be16At_eq hs, addUsize_eq hs]
  have hinside : offset + 8 ≤ data.length := by omega
  refine ⟨?_, ?_, hinside, _, rfl⟩
  · exact ⟨rfl, Nat.lt_add_of_pos_right (by decide), fun _ _ _ => rfl⟩
  · refine ⟨hinside, forall_mem_ite (fun _ => rfl) nofun, fun _ => ⟨_, if_congr ?_ rfl rfl⟩⟩
    change 0 < data.length - offset - 8 ↔ offset + 8 < data.length
    omega

theorem holds_icmpHeaderAt :
    Holds (icmpHeaderAt data offset) fun h =>
      h.headerRange.1 = offset ∧ offset < h.headerRange.2 ∧ h.headerRange.2 ≤ data.length := by
  unfold icmpHeaderAt
  rw [holds_bind]
  refine holds_checkedSub fun ho => holds_ite (fun _ => trivial) fun hlen => ?_
  simp (disch := omega) only [be16At_eq hs, be32At_eq hs, byteAt_eq hs, addUsize_eq hs]
  refine ⟨rfl, Nat.lt_add_of_pos_right (by decide), ?_⟩
  change offset + 8 ≤ data.length
  omega

theorem holds_decodeIcmp :
    Holds (decodeIcmp data offset) fun r => r.Spans offset ∧ r.Follows .icmp data.length := by
  refine (holds_icmpHeaderAt hs).bind fun h ⟨hstart, hforward, hinside⟩ => ?_
  constructor
  · exact ⟨congrArg some (Prod.ext hstart rfl), hforward, nofun⟩
  · exact ⟨hinside, nofun, nofun⟩

theorem holds_decodeIcmpv6 :
    Holds (decodeIcmpv6 data offset) fun r => r.Spans offset ∧ r.Follows .icmpv6 data.length := by
  refine (holds_icmpHeaderAt hs).bind fun h ⟨hstart, hforward, hinside⟩ => ?_
  constructor
  · exact ⟨congrArg some (Prod.ext hstart rfl), hforward, nofun⟩
  · exact ⟨hinside, nofun, nofun⟩

end Safe

end Pktscope

import Pktscope.Decode.Dns
import Pktscope.Decode.Headers
import Pktscope.Decode.Http
import Pktscope.Decode.Http2
import Pktscope.Decode.Quic
import Pktscope.Decode.Tls

/-! # The decoder chain

Each header says which decoder comes next. The chain ends with the application
payload, at a header that no decoder follows, or at one that is refused. On no
bytes does it fail.
-/

namespace Pktscope

open Library Parse

inductive Linktype where
  | ethernet
  | rawIp
  | other (lt : UInt16)
  deriving DecidableEq

/-- A captured packet; its bytes fit the address space. -/
structure RawPacket where
  number : ℕ
  timestamp : DateTime
  wireLen : UInt32
  data : List UInt8
  linktype : Linktype
  fits : data.length < maxBytes

section Chain

variable (data : List UInt8)

/-- The decoder of a header. -/
def NextDecode.decode (offset : ℕ) : NextDecode → Parse DecodeResult
  | .ethernet => decodeEthernet data offset
  | .ipv4 => decodeIpv4 data offset
  | .ipv6 => decodeIpv6 data offset
  | .arp => decodeArp data offset
  | .tcp => decodeTcp data offset
  | .udp => decodeUdp data offset
  | .icmp => decodeIcmp data offset
  | .icmpv6 => decodeIcmpv6 data offset
  | .applicationPayload _ => refuse

/-- The first decoder of a frame. -/
def initialDecode : Linktype → Option NextDecode
  | .ethernet => some .ethernet
  | .rawIp =>
    if data.head?.any (fun b : UInt8 => b >>> 4 == 4) then some .ipv4
    else if data.head?.any (fun b : UInt8 => b >>> 4 == 6) then some .ipv6
    else none
  | .other _ => none

variable [Digests]

/-- The application layer of a TCP payload: the first decoder that does not refuse it. -/
def tcpAppLayer (offset : ℕ) : Parse (Option Layer) := do
  match ← (tryDecodeTlsClientHello data offset).attempt with
  | some tls => return some (.tlsClientHello tls)
  | none =>
    match ← (tryDecodeTlsHandshake data offset).attempt with
    | some hs => return some (.tlsHandshake hs)
    | none => do
      let stream ← sliceAt data offset data.length
      match ← (tryDecodeHttp2 stream).attempt with
      | some frames => return some (.http2 frames)
      | none =>
        match ← (tryDecodeHttp stream).attempt with
        | some h => return some (.http h)
        | none => return none

def appLayer (offset : ℕ) (transport : TransportHint) : Parse (Option Layer) :=
  if transport.srcPort = 53 ∨ transport.dstPort = 53 then do
    let dns ← (tryDecodeDns data offset).attempt
    return dns.map .dns
  else if !transport.isTcp then do
    let q ← (tryDecodeQuic data offset).attempt
    return q.map .quic
  else tcpAppLayer data offset

/-- The layers of the application payload. -/
def payloadLayers (offset : ℕ) (transport : TransportHint) : Parse (List Layer) :=
  if offset < data.length then do
    let app ← appLayer data offset transport
    let len ← subUsize data.length offset
    return app.toList ++ [.payload offset len]
  else return []

/-- The layers from an offset on. -/
def layersFrom : ℕ → Option NextDecode → ℕ → Parse (List Layer)
  | 0, _, _ => fault .rounds
  | _ + 1, none, _ => return []
  | _ + 1, some (.applicationPayload transport), offset => payloadLayers data offset transport
  | rounds + 1, some what, offset => do
    match ← (what.decode data offset).attempt with
    | some dr => do
      let rest ← layersFrom rounds dr.next dr.nextOffset
      return dr.layer :: rest
    | none => return []

/-- One header, and the layers behind it. -/
theorem layersFrom_header {what : NextDecode} (rounds : ℕ) {offset : ℕ} (h : 0 < what.rank) :
    layersFrom data (rounds + 1) (some what) offset = do
      match ← (what.decode data offset).attempt with
      | some dr => do
        let rest ← layersFrom data rounds dr.next dr.nextOffset
        return dr.layer :: rest
      | none => return [] := by
  cases what with
  | applicationPayload transport => cases h
  | _ => rfl

def decodeLayers (linktype : Linktype) : Parse (List Layer) :=
  layersFrom data 5 (initialDecode data linktype) 0

end Chain

section Summary

def MacAddr.display (m : MacAddr) : String :=
  ":".intercalate (m.bytes.map fun b => hexPad 2 b.toNat)

def TcpFlags.display (f : TcpFlags) : String :=
  let named := [(f.syn, "SYN"), (f.ack, "ACK"), (f.fin, "FIN"), (f.rst, "RST"), (f.psh, "PSH"),
    (f.urg, "URG"), (f.ece, "ECE"), (f.cwr, "CWR")]
  "[" ++ ", ".intercalate ((named.filter Prod.fst).map Prod.snd) ++ "]"

def icmpInfo (icmpType code : UInt8) : String :=
  if icmpType = 0 then "Echo Reply"
  else if icmpType = 3 ∧ code = 0 then "Destination Net Unreachable"
  else if icmpType = 3 ∧ code = 1 then "Destination Host Unreachable"
  else if icmpType = 3 ∧ code = 3 then "Destination Port Unreachable"
  else if icmpType = 3 then s!"Destination Unreachable (code={code.toNat})"
  else if icmpType = 8 then "Echo Request"
  else if icmpType = 11 then "Time Exceeded"
  else s!"Type={icmpType.toNat} Code={code.toNat}"

/-- The name of a packet type in debug output. -/
def QuicPacketType.debug : QuicPacketType → String
  | .initial => "Initial"
  | .zeroRtt => "ZeroRtt"
  | .handshake => "Handshake"
  | .retry => "Retry"
  | .versionNegotiation => "VersionNegotiation"

def arpInfo (a : ArpHeader) : String :=
  let sender := (IpAddr.v4 a.senderIp).display
  let target := (IpAddr.v4 a.targetIp).display
  let mac := a.senderMac.display
  let op := a.operation.toNat
  if a.operation = 1 then s!"Who has {target}? Tell {sender}"
  else if a.operation = 2 then s!"{sender} is at {mac}"
  else s!"op={op}"

def DnsRdata.answerText : DnsRdata → Option String
  | .a ip => some (IpAddr.v4 ip).display
  | .aaaa ip => some (IpAddr.v6 ip).display
  | .cname c => some s!"CNAME {c}"
  | _ => none

def dnsText (dns : DnsInfo) : String :=
  let names := ", ".intercalate (dns.questions.map DnsQuestion.qname)
  let answers := dns.answers.filterMap fun r => r.rdata.answerText
  let shown := ", ".intercalate answers
  if dns.isResponse then
    if answers.isEmpty then s!"DNS A {names}" else s!"DNS A {names} → {shown}"
  else s!"DNS Q {names}"

def TlsHandshakeInfo.text (hs : TlsHandshakeInfo) : String :=
  match hs.messages.head? with
  | some (.serverHello _ _ alpn) =>
    let shown := ",".intercalate alpn
    if alpn.isEmpty then "TLS Server Hello" else s!"TLS Server Hello (alpn: {shown})"
  | some (.certificate certCount) => s!"TLS Certificate ({certCount})"
  | some (.other msgType) => s!"TLS Handshake (type {msgType.toNat})"
  | none => "TLS Handshake"

def HttpInfo.text (h : HttpInfo) : String :=
  let method := h.method.getD "?"
  let host := h.host.getD ""
  let uri := h.uri.getD ""
  let code := (h.statusCode.map fun c => toString c.toNat).getD ""
  if h.isRequest then s!"{method} {host}{uri}" else s!"HTTP {code} response"

def QuicInfo.text (q : QuicInfo) : String :=
  let kind := q.packetType.debug
  match q.version with
  | some v =>
    let version := hexPad 8 v.toNat
    s!"QUIC {kind} v0x{version}"
  | none => s!"QUIC {kind}"

def tcpText (t : TcpHeader) : String :=
  let flags := t.flags.display
  let ports := s!"{t.srcPort.toNat} → {t.dstPort.toNat}"
  s!"{ports} {flags} Seq={t.seqNum.toNat} Ack={t.ackNum.toNat} Len={t.payloadLen}"

/-- What one layer changes in the summary. -/
def summarize (s : PacketSummary) : Layer → PacketSummary
  | .ethernet eth =>
    if s.source.isEmpty then
      { s with source := eth.srcMac.display, destination := eth.dstMac.display }
    else s
  | .arp a =>
    { s with
      source := (IpAddr.v4 a.senderIp).display
      destination := (IpAddr.v4 a.targetIp).display
      protocol := "ARP", colorHint := .arp, info := arpInfo a }
  | .ipv4 ip =>
    { s with
      source := (IpAddr.v4 ip.srcIp).display
      destination := (IpAddr.v4 ip.dstIp).display
      protocol := "IPv4" }
  | .ipv6 ip =>
    { s with
      source := (IpAddr.v6 ip.srcIp).display
      destination := (IpAddr.v6 ip.dstIp).display
      protocol := "IPv6" }
  | .tcp t => { s with protocol := "TCP", colorHint := .tcp, info := tcpText t }
  | .udp u =>
    { s with
      protocol := "UDP", colorHint := .udp
      info := s!"{u.srcPort.toNat} → {u.dstPort.toNat} Len={u.length.toNat}" }
  | .icmp ic =>
    { s with protocol := "ICMP", colorHint := .icmp, info := icmpInfo ic.icmpType ic.code }
  | .icmpv6 ic =>
    { s with
      protocol := "ICMPv6", colorHint := .icmp
      info := s!"Type={ic.icmpType.toNat} Code={ic.code.toNat}" }
  | .dns dns => { s with protocol := "DNS", colorHint := .dns, info := dnsText dns }
  | .tlsClientHello tls =>
    { s with
      protocol := "TLS", colorHint := .tls
      info := (tls.sni.map fun sni => s!"TLS → {sni}").getD "TLS Client Hello" }
  | .tlsHandshake hs => { s with protocol := "TLS", colorHint := .tls, info := hs.text }
  | .http h => { s with protocol := "HTTP", info := h.text }
  | .http2 frames => { s with protocol := "HTTP/2", info := s!"HTTP/2 ({frames.length} frame(s))" }
  | .quic q => { s with protocol := "QUIC", info := q.text }
  | .payload _ _ => s

def computeSummary (layers : List Layer) (wireLen : UInt32) : PacketSummary :=
  layers.foldl summarize ⟨"", "", "???", wireLen, "", .other⟩

end Summary

def decodePacket [Digests] (raw : RawPacket) : Parse DecodedPacket := do
  let layers ← decodeLayers raw.data raw.linktype
  return {
    number := raw.number
    timestamp := raw.timestamp
    wireLen := raw.wireLen
    data := raw.data
    layers
    summary := computeSummary layers raw.wireLen
    process := none
    retransmission := false }

section Safe

variable {data : List UInt8} (hs : data.length < maxBytes)
include hs

theorem holds_decode (offset : ℕ) (what : NextDecode) :
    Holds (what.decode data offset) fun r => r.Spans offset ∧ r.Follows what data.length := by
  cases what with
  | ethernet => exact holds_decodeEthernet hs
  | ipv4 => exact (holds_decodeIpv4 hs).mono fun r h => ⟨h.1, h.2.1⟩
  | ipv6 => exact (holds_decodeIpv6 hs).mono fun r h => ⟨h.1, h.2.1⟩
  | arp => exact holds_decodeArp hs
  | tcp => exact (holds_decodeTcp hs).mono fun r h => ⟨h.1, h.2.1⟩
  | udp => exact (holds_decodeUdp hs).mono fun r h => ⟨h.1, h.2.1⟩
  | icmp => exact holds_decodeIcmp hs
  | icmpv6 => exact holds_decodeIcmpv6 hs
  | applicationPayload _ => trivial

theorem spans_of_decode {what : NextDecode} {offset : ℕ} {dr : DecodeResult}
    (h : what.decode data offset = ok dr) : dr.Spans offset := by
  have hdecode := holds_decode hs offset what
  rw [h] at hdecode
  exact hdecode.1

theorem follows_of_decode {what : NextDecode} {offset : ℕ} {dr : DecodeResult}
    (h : what.decode data offset = ok dr) : dr.Follows what data.length := by
  have hdecode := holds_decode hs offset what
  rw [h] at hdecode
  exact hdecode.2

variable [Digests]

theorem returns_tcpAppLayer {offset : ℕ} (ho : offset ≤ data.length) :
    Returns (tcpAppLayer data offset) fun _ => True := by
  refine (holds_tryDecodeTlsClientHello hs offset).returns_attempt.bind fun o _ => ?_
  cases o with
  | some tls => exact returns_ok trivial
  | none =>
    refine (holds_tryDecodeTlsHandshake hs offset).returns_attempt.bind fun o _ => ?_
    cases o with
    | some info => exact returns_ok trivial
    | none =>
      have hstream := (length_slice_le data offset data.length).trans_lt hs
      have hslice : sliceAt data offset data.length = ok (slice data offset data.length) :=
        if_pos ⟨ho, Nat.le_refl _⟩
      rw [hslice, ok_bind]
      refine (holds_tryDecodeHttp2 hstream).returns_attempt.bind fun o _ => ?_
      cases o with
      | some frames => exact returns_ok trivial
      | none =>
        refine (holds_tryDecodeHttp hstream).returns_attempt.bind fun o _ => ?_
        cases o <;> exact returns_ok trivial

theorem returns_appLayer {offset : ℕ} (ho : offset ≤ data.length) (transport : TransportHint) :
    Returns (appLayer data offset transport) fun _ => True := by
  refine returns_ite (fun _ => ?_) fun _ => returns_ite (fun _ => ?_) fun _ =>
    returns_tcpAppLayer hs ho
  · exact (holds_tryDecodeDns hs offset).returns_attempt.bind fun _ _ => returns_ok trivial
  · exact (holds_tryDecodeQuic hs offset).returns_attempt.bind fun _ _ => returns_ok trivial

theorem returns_payloadLayers (offset : ℕ) (transport : TransportHint) :
    Returns (payloadLayers data offset transport) fun layers =>
      layers.getLast? =
        if offset < data.length then some (.payload offset (data.length - offset)) else none := by
  refine returns_ite (fun ho => ?_) fun ho => returns_ok (if_neg ho).symm
  refine (returns_appLayer hs ho.le transport).bind fun app _ => ?_
  rw [subUsize, if_pos ho.le, ok_bind, if_pos ho]
  exact returns_ok List.getLast?_concat

theorem returns_layersFrom {rounds offset : ℕ} {what : Option NextDecode} (hpos : 0 < rounds)
    (hr : ∀ n ∈ what, n.rank + 2 ≤ rounds) :
    Returns (layersFrom data rounds what offset) fun _ => True := by
  induction rounds generalizing what offset with
  | zero => omega
  | succ rounds ih =>
    rcases what with _ | what
    · exact returns_ok trivial
    · have hrank := hr what rfl
      rcases Nat.eq_zero_or_pos what.rank with hzero | hheader
      · obtain ⟨transport, rfl⟩ := NextDecode.rank_eq_zero hzero
        obtain ⟨ls, hls, -⟩ := returns_payloadLayers hs offset transport
        exact ⟨ls, hls, trivial⟩
      · rw [layersFrom_header data rounds hheader]
        refine (holds_decode hs offset what).returns_attempt.bind fun o ho => ?_
        rcases o with _ | dr
        · exact returns_ok trivial
        · refine (ih (by omega) fun n hn => ?_).bind fun _ _ => returns_ok trivial
          have := (ho dr rfl).2.descends n hn
          omega

theorem returns_decodeLayers (linktype : Linktype) :
    Returns (decodeLayers data linktype) fun _ => True := by
  refine returns_layersFrom hs (by decide) ?_
  cases linktype with
  | ethernet => exact fun n hn => by cases hn; decide
  | rawIp => exact forall_mem_ite (fun _ => by decide) (forall_mem_ite (fun _ => by decide) nofun)
  | other lt => exact nofun

end Safe

/-- No packet stops the decoder: it meets no fault, and it returns. -/
theorem decodePacket_returns [Digests] (raw : RawPacket) : ∃ pkt, decodePacket raw = ok pkt := by
  obtain ⟨layers, hlayers, -⟩ := returns_decodeLayers raw.fits raw.linktype
  rw [decodePacket, hlayers, ok_bind]
  exact ⟨_, rfl⟩

end Pktscope

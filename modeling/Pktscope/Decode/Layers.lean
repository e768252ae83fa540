import Pktscope.Net.Addr
import Pktscope.Numeric.Machine

/-! # Decoded packets

The layers that the decoder chain produces, with the fields that the flow
tracker, the name resolver and the display read.
-/

namespace Pktscope

structure MacAddr where
  bytes : List UInt8
  deriving DecidableEq

/-- A byte range of the captured data. -/
abbrev ByteRange := ℕ × ℕ

structure EthernetHeader where
  srcMac : MacAddr
  dstMac : MacAddr
  ethertype : UInt16
  headerRange : ByteRange
  deriving DecidableEq

structure ArpHeader where
  hwType : UInt16
  protoType : UInt16
  operation : UInt16
  senderMac : MacAddr
  senderIp : UInt32
  targetMac : MacAddr
  targetIp : UInt32
  headerRange : ByteRange
  deriving DecidableEq

structure Ipv4Header where
  version : UInt8
  ihl : UInt8
  dscp : UInt8
  ecn : UInt8
  totalLength : UInt16
  identification : UInt16
  flags : UInt8
  fragmentOffset : UInt16
  ttl : UInt8
  protocol : UInt8
  checksum : UInt16
  srcIp : UInt32
  dstIp : UInt32
  headerRange : ByteRange
  deriving DecidableEq

structure Ipv6Header where
  version : UInt8
  trafficClass : UInt8
  flowLabel : UInt32
  payloadLength : UInt16
  nextHeader : UInt8
  hopLimit : UInt8
  srcIp : BitVec 128
  dstIp : BitVec 128
  headerRange : ByteRange
  deriving DecidableEq

structure TcpFlags where
  fin : Bool
  syn : Bool
  rst : Bool
  psh : Bool
  ack : Bool
  urg : Bool
  ece : Bool
  cwr : Bool
  deriving DecidableEq

structure TcpHeader where
  srcPort : UInt16
  dstPort : UInt16
  seqNum : UInt32
  ackNum : UInt32
  dataOffset : UInt8
  flags : TcpFlags
  windowSize : UInt16
  checksum : UInt16
  urgentPointer : UInt16
  payloadLen : ℕ
  headerRange : ByteRange
  deriving DecidableEq

structure UdpHeader where
  srcPort : UInt16
  dstPort : UInt16
  length : UInt16
  checksum : UInt16
  headerRange : ByteRange
  deriving DecidableEq

/-- An ICMP or ICMPv6 header. -/
structure IcmpHeader where
  icmpType : UInt8
  code : UInt8
  checksum : UInt16
  rest : UInt32
  headerRange : ByteRange
  deriving DecidableEq

structure DnsQuestion where
  qname : String
  qtype : UInt16
  qclass : UInt16
  deriving DecidableEq

inductive DnsRdata where
  | a (ip : UInt32)
  | aaaa (ip : BitVec 128)
  | cname (name : String)
  | ns (name : String)
  | ptr (name : String)
  | mx (preference : UInt16) (exchange : String)
  | txt (strings : List String)
  | srv (priority weight port : UInt16) (target : String)
  | soa (mname rname : String) (serial refresh retry expire minimum : UInt32)
  | unknown (rtype : UInt16) (data : List UInt8)
  deriving DecidableEq

structure DnsRecord where
  name : String
  rtype : UInt16
  rclass : UInt16
  ttl : UInt32
  rdata : DnsRdata
  deriving DecidableEq

structure DnsInfo where
  transactionId : UInt16
  isResponse : Bool
  rcode : UInt8
  questions : List DnsQuestion
  answers : List DnsRecord
  authorities : List DnsRecord
  additionals : List DnsRecord
  headerRange : ByteRange
  deriving DecidableEq

structure TlsClientHelloInfo where
  sni : Option String
  alpn : List String
  cipherSuites : List UInt16
  extensions : List UInt16
  supportedGroups : List UInt16
  ecPointFormats : List UInt8
  signatureAlgorithms : List UInt16
  supportedVersions : List UInt16
  legacyVersion : UInt16
  ja3 : Option String
  ja4 : Option String
  headerRange : ByteRange
  deriving DecidableEq

inductive TlsHandshakeMessage where
  | serverHello (version cipherSuite : UInt16) (alpn : List String)
  | certificate (certCount : ℕ)
  | other (msgType : UInt8)
  deriving DecidableEq

structure TlsHandshakeInfo where
  messages : List TlsHandshakeMessage
  headerRange : ByteRange
  deriving DecidableEq

structure HttpInfo where
  isRequest : Bool
  method : Option String
  uri : Option String
  version : Option String
  statusCode : Option UInt16
  headers : List (String × String)
  host : Option String
  contentLength : Option ℕ
  chunked : Bool
  headerRange : ByteRange
  deriving DecidableEq

structure Http2Frame where
  streamId : UInt32
  frameType : UInt8
  flags : UInt8
  length : UInt32
  headers : List (String × String)
  deriving DecidableEq

inductive QuicPacketType where
  | initial | zeroRtt | handshake | retry | versionNegotiation
  deriving DecidableEq

structure QuicInfo where
  longHeader : Bool
  version : Option UInt32
  packetType : QuicPacketType
  dcid : List UInt8
  scid : List UInt8
  sni : Option String
  headerRange : ByteRange
  deriving DecidableEq

inductive Layer where
  | ethernet (h : EthernetHeader)
  | arp (h : ArpHeader)
  | ipv4 (h : Ipv4Header)
  | ipv6 (h : Ipv6Header)
  | tcp (h : TcpHeader)
  | udp (h : UdpHeader)
  | icmp (h : IcmpHeader)
  | icmpv6 (h : IcmpHeader)
  | dns (i : DnsInfo)
  | tlsClientHello (i : TlsClientHelloInfo)
  | tlsHandshake (i : TlsHandshakeInfo)
  | http (i : HttpInfo)
  | http2 (frames : List Http2Frame)
  | quic (i : QuicInfo)
  | payload (offset len : ℕ)
  deriving DecidableEq

inductive ColorHint where
  | tcp | udp | arp | icmp | dns | tls | retransmission | other
  deriving DecidableEq

structure PacketSummary where
  source : String
  destination : String
  protocol : String
  length : UInt32
  info : String
  colorHint : ColorHint
  deriving DecidableEq

structure ProcessInfo where
  pid : UInt32
  name : String
  deriving DecidableEq

structure DecodedPacket where
  number : ℕ
  timestamp : DateTime
  wireLen : UInt32
  data : List UInt8
  layers : List Layer
  summary : PacketSummary
  process : Option ProcessInfo
  retransmission : Bool
  deriving DecidableEq

/-- A range of the data that starts at an offset. -/
structure RangeFrom (offset len : ℕ) (r : ByteRange) : Prop where
  start : r.1 = offset
  forward : offset ≤ r.2
  inside : r.2 ≤ len

end Pktscope

import Pktscope.Decode.Path
import Pktscope.Library.BitFields

/-! # Headers as they are sent

The diagrams of the link, network and transport headers. A decoder accepts exactly
the headers that are drawn as their diagrams say, and finds the fields that were
drawn.
-/

namespace Pktscope

open Library Parse

def MacAddr.field (m : MacAddr) : BitField := ⟨48, beNat m.bytes⟩

def TcpFlags.fields (f : TcpFlags) : List BitField :=
  [⟨1, f.cwr.toNat⟩, ⟨1, f.ece.toNat⟩, ⟨1, f.urg.toNat⟩, ⟨1, f.ack.toNat⟩,
    ⟨1, f.psh.toNat⟩, ⟨1, f.rst.toNat⟩, ⟨1, f.syn.toNat⟩, ⟨1, f.fin.toNat⟩]

def IcmpHeader.fields (h : IcmpHeader) : List BitField :=
  [⟨8, h.icmpType.toNat⟩, ⟨8, h.code.toNat⟩, ⟨16, h.checksum.toNat⟩, ⟨32, h.rest.toNat⟩]

@[simp] theorem MacAddr.width_field (m : MacAddr) : m.field.width = 48 := rfl

@[simp] theorem TcpFlags.bitsOf_fields (f : TcpFlags) : bitsOf f.fields = 8 := rfl

/-- The fixed part of a header. The address lengths of ARP and the reserved bits of TCP are not kept
by their decoders. -/
def Layer.diagram (dropped : ℕ) : Layer → List BitField
  | .ethernet h => [h.dstMac.field, h.srcMac.field, ⟨16, h.ethertype.toNat⟩]
  | .arp h => [⟨16, h.hwType.toNat⟩, ⟨16, h.protoType.toNat⟩, ⟨16, dropped⟩,
      ⟨16, h.operation.toNat⟩, h.senderMac.field, ⟨32, h.senderIp.toNat⟩, h.targetMac.field,
      ⟨32, h.targetIp.toNat⟩]
  | .ipv4 h => [⟨4, h.version.toNat⟩, ⟨4, h.ihl.toNat⟩, ⟨6, h.dscp.toNat⟩, ⟨2, h.ecn.toNat⟩,
      ⟨16, h.totalLength.toNat⟩, ⟨16, h.identification.toNat⟩, ⟨3, h.flags.toNat⟩,
      ⟨13, h.fragmentOffset.toNat⟩, ⟨8, h.ttl.toNat⟩, ⟨8, h.protocol.toNat⟩,
      ⟨16, h.checksum.toNat⟩, ⟨32, h.srcIp.toNat⟩, ⟨32, h.dstIp.toNat⟩]
  | .ipv6 h => [⟨4, h.version.toNat⟩, ⟨8, h.trafficClass.toNat⟩, ⟨20, h.flowLabel.toNat⟩,
      ⟨16, h.payloadLength.toNat⟩, ⟨8, h.nextHeader.toNat⟩, ⟨8, h.hopLimit.toNat⟩,
      ⟨128, h.srcIp.toNat⟩, ⟨128, h.dstIp.toNat⟩]
  | .tcp h => [⟨16, h.srcPort.toNat⟩, ⟨16, h.dstPort.toNat⟩, ⟨32, h.seqNum.toNat⟩,
      ⟨32, h.ackNum.toNat⟩, ⟨4, h.dataOffset.toNat⟩, ⟨4, dropped⟩] ++ h.flags.fields ++
      [⟨16, h.windowSize.toNat⟩, ⟨16, h.checksum.toNat⟩, ⟨16, h.urgentPointer.toNat⟩]
  | .udp h => [⟨16, h.srcPort.toNat⟩, ⟨16, h.dstPort.toNat⟩, ⟨16, h.length.toNat⟩,
      ⟨16, h.checksum.toNat⟩]
  | .icmp h | .icmpv6 h => h.fields
  | _ => []

/-- The bytes of the options behind the fixed part. -/
def Layer.optionBytes : Layer → ℕ
  | .ipv4 h => h.ihl.toNat * 4 - 20
  | .tcp h => h.dataOffset.toNat * 4 - 20
  | _ => 0

/-- What the decoder of a header checks, and the length of the hardware addresses. -/
def Layer.IsA : NextDecode → Layer → Prop
  | .ethernet, .ethernet h => h.dstMac.bytes.length = 6 ∧ h.srcMac.bytes.length = 6
  | .arp, .arp h => h.senderMac.bytes.length = 6 ∧ h.targetMac.bytes.length = 6
  | .ipv4, .ipv4 h => h.version = 4 ∧ ¬h.ihl < 5
  | .ipv6, .ipv6 h => h.version = 6
  | .tcp, .tcp h => ¬h.dataOffset < 5
  | .udp, .udp _ | .icmp, .icmp _ | .icmpv6, .icmpv6 _ => True
  | _, _ => False

/-- A header at its place in a packet of some bytes. -/
def Layer.placed (start stop len : ℕ) : Layer → Layer
  | .ethernet h => .ethernet { h with headerRange := (start, stop) }
  | .arp h => .arp { h with headerRange := (start, stop) }
  | .ipv4 h => .ipv4 { h with headerRange := (start, stop) }
  | .ipv6 h => .ipv6 { h with headerRange := (start, stop) }
  | .tcp h => .tcp { h with headerRange := (start, stop), payloadLen := len - stop }
  | .udp h => .udp { h with headerRange := (start, stop) }
  | .icmp h => .icmp { h with headerRange := (start, stop) }
  | .icmpv6 h => .icmpv6 { h with headerRange := (start, stop) }
  | l => l

/-- What a header says of the bytes behind it. -/
def Layer.announces (left : ℕ) : Layer → Option NextDecode
  | .ethernet h =>
    if h.ethertype = 0x0800 then some .ipv4
    else if h.ethertype = 0x0806 then some .arp
    else if h.ethertype = 0x86dd then some .ipv6
    else none
  | .ipv4 h =>
    if h.protocol = 1 then some .icmp
    else if h.protocol = 6 then some .tcp
    else if h.protocol = 17 then some .udp
    else none
  | .ipv6 h =>
    if h.nextHeader = 6 then some .tcp
    else if h.nextHeader = 17 then some .udp
    else if h.nextHeader = 58 then some .icmpv6
    else none
  | .tcp h => if 0 < left then some (.applicationPayload ⟨h.srcPort, h.dstPort, true⟩) else none
  | .udp h => if 0 < left then some (.applicationPayload ⟨h.srcPort, h.dstPort, false⟩) else none
  | _ => none

/-- A header as it was sent, with the bits that no decoder keeps. -/
structure SentHeader where
  layer : Layer
  dropped : ℕ
  options : List UInt8

namespace SentHeader

def diagram (h : SentHeader) : List BitField := h.layer.diagram h.dropped

def bytes (h : SentHeader) : List UInt8 := diagramBytes h.diagram ++ h.options

structure Valid (what : NextDecode) (h : SentHeader) : Prop where
  kind : h.layer.IsA what
  fits : ∀ f ∈ h.diagram, f.Fits
  options : h.options.length = h.layer.optionBytes

/-- What the decoder finds of a header that begins at a place of a packet. -/
def result (h : SentHeader) (start len : ℕ) : DecodeResult where
  layer := h.layer.placed start (start + h.bytes.length) len
  next := h.layer.announces (len - (start + h.bytes.length))
  nextOffset := start + h.bytes.length

end SentHeader

/-- The bytes of the fixed part of a header. -/
def NextDecode.fixedBytes : NextDecode → ℕ
  | .ethernet => 14
  | .arp => 28
  | .ipv4 | .tcp => 20
  | .ipv6 => 40
  | .udp | .icmp | .icmpv6 => 8
  | .applicationPayload _ => 0

section Read

variable (data : List UInt8) (o : ℕ)

def icmpAt : IcmpHeader where
  icmpType := peek data o
  code := peek data (o + 1)
  checksum := be16 (peek data (o + 2)) (peek data (o + 3))
  rest := be32 (peek data (o + 4)) (peek data (o + 5)) (peek data (o + 6)) (peek data (o + 7))
  headerRange := (o, o + 8)

/-- The fields that stand at a place. -/
def NextDecode.layerAt : NextDecode → Layer
  | .ethernet => .ethernet {
      dstMac := ⟨slice data o (o + 6)⟩
      srcMac := ⟨slice data (o + 6) (o + 12)⟩
      ethertype := be16 (peek data (o + 12)) (peek data (o + 13))
      headerRange := (o, o + 14) }
  | .arp => .arp {
      hwType := be16 (peek data o) (peek data (o + 1))
      protoType := be16 (peek data (o + 2)) (peek data (o + 3))
      operation := be16 (peek data (o + 6)) (peek data (o + 7))
      senderMac := ⟨slice data (o + 8) (o + 14)⟩
      senderIp := be32 (peek data (o + 14)) (peek data (o + 15)) (peek data (o + 16))
        (peek data (o + 17))
      targetMac := ⟨slice data (o + 18) (o + 24)⟩
      targetIp := be32 (peek data (o + 24)) (peek data (o + 25)) (peek data (o + 26))
        (peek data (o + 27))
      headerRange := (o, o + 28) }
  | .ipv4 => .ipv4 {
      version := peek data o >>> 4
      ihl := peek data o &&& 0x0f
      dscp := peek data (o + 1) >>> 2
      ecn := peek data (o + 1) &&& 0x03
      totalLength := be16 (peek data (o + 2)) (peek data (o + 3))
      identification := be16 (peek data (o + 4)) (peek data (o + 5))
      flags := (be16 (peek data (o + 6)) (peek data (o + 7)) >>> 13).toUInt8
      fragmentOffset := be16 (peek data (o + 6)) (peek data (o + 7)) &&& 0x1fff
      ttl := peek data (o + 8)
      protocol := peek data (o + 9)
      checksum := be16 (peek data (o + 10)) (peek data (o + 11))
      srcIp := be32 (peek data (o + 12)) (peek data (o + 13)) (peek data (o + 14))
        (peek data (o + 15))
      dstIp := be32 (peek data (o + 16)) (peek data (o + 17)) (peek data (o + 18))
        (peek data (o + 19))
      headerRange := (o, o + (peek data o &&& 0x0f).toNat * 4) }
  | .ipv6 =>
    let verTcFl := be32 (peek data o) (peek data (o + 1)) (peek data (o + 2)) (peek data (o + 3))
    .ipv6 {
      version := (verTcFl >>> 28).toUInt8
      trafficClass := (verTcFl >>> 20 &&& 0xff).toUInt8
      flowLabel := verTcFl &&& 0x000fffff
      payloadLength := be16 (peek data (o + 4)) (peek data (o + 5))
      nextHeader := peek data (o + 6)
      hopLimit := peek data (o + 7)
      srcIp := BitVec.ofNat 128 (beNat (slice data (o + 8) (o + 24)))
      dstIp := BitVec.ofNat 128 (beNat (slice data (o + 24) (o + 40)))
      headerRange := (o, o + 40) }
  | .tcp => .tcp {
      srcPort := be16 (peek data o) (peek data (o + 1))
      dstPort := be16 (peek data (o + 2)) (peek data (o + 3))
      seqNum := be32 (peek data (o + 4)) (peek data (o + 5)) (peek data (o + 6))
        (peek data (o + 7))
      ackNum := be32 (peek data (o + 8)) (peek data (o + 9)) (peek data (o + 10))
        (peek data (o + 11))
      dataOffset := peek data (o + 12) >>> 4
      flags := .fromBits (peek data (o + 13))
      windowSize := be16 (peek data (o + 14)) (peek data (o + 15))
      checksum := be16 (peek data (o + 16)) (peek data (o + 17))
      urgentPointer := be16 (peek data (o + 18)) (peek data (o + 19))
      payloadLen := data.length - o - (peek data (o + 12) >>> 4).toNat * 4
      headerRange := (o, o + (peek data (o + 12) >>> 4).toNat * 4) }
  | .udp => .udp {
      srcPort := be16 (peek data o) (peek data (o + 1))
      dstPort := be16 (peek data (o + 2)) (peek data (o + 3))
      length := be16 (peek data (o + 4)) (peek data (o + 5))
      checksum := be16 (peek data (o + 6)) (peek data (o + 7))
      headerRange := (o, o + 8) }
  | .icmp => .icmp (icmpAt data o)
  | .icmpv6 => .icmpv6 (icmpAt data o)
  | .applicationPayload _ => .payload o 0

/-- The bits that the decoder of a header drops. -/
def NextDecode.droppedAt : NextDecode → ℕ
  | .arp => (be16 (peek data (o + 4)) (peek data (o + 5))).toNat
  | .tcp => (peek data (o + 12) &&& 0x0f).toNat
  | _ => 0

/-- The header that stands at a place, with the options that it counts. -/
def NextDecode.sentAt (what : NextDecode) : SentHeader where
  layer := what.layerAt data o
  dropped := what.droppedAt data o
  options :=
    slice data (o + what.fixedBytes)
      (o + what.fixedBytes + (what.layerAt data o).optionBytes)

end Read

section Widths

variable {data : List UInt8} {o : ℕ} {what : NextDecode} {l : Layer}

theorem bitsOf_diagram (h : l.IsA what) (dropped : ℕ) :
    bitsOf (l.diagram dropped) = 8 * what.fixedBytes := by
  cases what <;> cases l <;> first | exact h.elim | skip
  all_goals simp [Layer.diagram, NextDecode.fixedBytes, MacAddr.field, TcpFlags.fields,
    IcmpHeader.fields]

theorem widths_diagram (h : l.IsA what) (d d' : ℕ) :
    (l.diagram d).map BitField.width =
      ((what.layerAt data o).diagram d').map BitField.width := by
  cases what <;> cases l <;> first | exact h.elim | rfl

end Widths

section Groups

variable {data : List UInt8} {pos o : ℕ} {what : NextDecode}

theorem drawnAt_split {k : ℕ} (hk : k < 8) (h : pos < data.length) :
    DrawnAt data pos [⟨8 - k, (peek data pos >>> UInt8.ofNat k).toNat⟩,
      ⟨k, (peek data pos &&& UInt8.ofNat (2 ^ k - 1)).toNat⟩] := by
  have hlow := toNat_and_low8 (peek data pos) (Nat.le_of_lt hk)
  have hhigh : (peek data pos >>> UInt8.ofNat k).toNat = (peek data pos).toNat / 2 ^ k := by
    have hk8 : k % 2 ^ 8 % 8 = k := by omega
    rw [UInt8.toNat_shiftRight, Nat.shiftRight_eq_div_pow, UInt8.toNat_ofNat', hk8]
  have hpow : 2 ^ (8 - k) * 2 ^ k = 256 := by
    rw [← Nat.pow_add, Nat.sub_add_cancel (Nat.le_of_lt hk)]
  refine drawnAt_byte h ?_ ?_ ?_
  · simp only [forall_fits_cons, hlow, hhigh]
    refine ⟨?_, Nat.mod_lt _ (Nat.two_pow_pos k), nofun⟩
    exact Nat.div_lt_of_lt_mul (Nat.mul_comm _ _ ▸ hpow ▸ (peek data pos).toNat_lt)
  · simp only [bitsOf_cons, bitsOf_nil]
    omega
  · simp only [packed, bitsOf_cons, bitsOf_nil, hlow, hhigh, Nat.add_zero, Nat.pow_zero,
      Nat.mul_one]
    exact Nat.div_add_mod' _ _

theorem drawnAt_fragment (h : pos + 1 < data.length) :
    DrawnAt data pos [⟨3, (be16 (peek data pos) (peek data (pos + 1)) >>> 13).toUInt8.toNat⟩,
      ⟨13, (be16 (peek data pos) (peek data (pos + 1)) &&& 0x1fff).toNat⟩] := by
  have hw := (be16 (peek data pos) (peek data (pos + 1))).toNat_lt
  have hlow := toNat_and_low16 (be16 (peek data pos) (peek data (pos + 1))) (k := 13) (by decide)
  have hhigh : (be16 (peek data pos) (peek data (pos + 1)) >>> 13).toUInt8.toNat =
      (be16 (peek data pos) (peek data (pos + 1))).toNat / 2 ^ 13 := by
    rw [UInt16.toNat_toUInt8, UInt16.toNat_shiftRight, Nat.shiftRight_eq_div_pow]
    exact Nat.mod_eq_of_lt (by simp; omega)
  change (be16 (peek data pos) (peek data (pos + 1)) &&& 0x1fff).toNat = _ at hlow
  refine drawnAt_word h ?_ rfl ?_
  · simp only [forall_fits_cons, hlow, hhigh]
    exact ⟨by omega, by omega, nofun⟩
  · simp only [packed, bitsOf_cons, bitsOf_nil, hlow, hhigh]
    omega

theorem drawnAt_flow (h : pos + 3 < data.length) :
    let w := be32 (peek data pos) (peek data (pos + 1)) (peek data (pos + 2)) (peek data (pos + 3))
    DrawnAt data pos [⟨4, (w >>> 28).toUInt8.toNat⟩, ⟨8, (w >>> 20 &&& 0xff).toUInt8.toNat⟩,
      ⟨20, (w &&& 0x000fffff).toNat⟩] := by
  intro w
  have hw := w.toNat_lt
  have hlow := toNat_and_low32 w (k := 20) (by decide)
  have hmiddle := toNat_and_low32 (w >>> 20) (k := 8) (by decide)
  have hversion : (w >>> 28).toUInt8.toNat = w.toNat / 2 ^ 28 := by
    rw [UInt32.toNat_toUInt8, UInt32.toNat_shiftRight, Nat.shiftRight_eq_div_pow]
    exact Nat.mod_eq_of_lt (by simp; omega)
  have hclass : (w >>> 20 &&& 0xff).toUInt8.toNat = w.toNat / 2 ^ 20 % 2 ^ 8 := by
    change (w >>> 20 &&& 0xff).toNat = _ at hmiddle
    rw [UInt32.toNat_toUInt8, hmiddle, UInt32.toNat_shiftRight, Nat.shiftRight_eq_div_pow]
    exact Nat.mod_mod _ _
  change (w &&& 0x000fffff).toNat = _ at hlow
  refine drawnAt_dword h ?_ rfl ?_
  · simp only [forall_fits_cons, hlow, hversion, hclass]
    exact ⟨by omega, by omega, by omega, nofun⟩
  · change packed _ = w.toNat
    simp only [packed, bitsOf_cons, bitsOf_nil, hlow, hversion, hclass]
    omega

theorem drawnAt_flags (h : pos < data.length) :
    DrawnAt data pos (TcpFlags.fromBits (peek data pos)).fields := by
  generalize hb : peek data pos = b
  have hlt := b.toNat_lt
  have hfin : (b &&& 0x01 != 0).toNat = b.toNat / 2 ^ 0 % 2 := toNat_and_bit b (k := 0) (by decide)
  have hsyn : (b &&& 0x02 != 0).toNat = b.toNat / 2 ^ 1 % 2 := toNat_and_bit b (k := 1) (by decide)
  have hrst : (b &&& 0x04 != 0).toNat = b.toNat / 2 ^ 2 % 2 := toNat_and_bit b (k := 2) (by decide)
  have hpsh : (b &&& 0x08 != 0).toNat = b.toNat / 2 ^ 3 % 2 := toNat_and_bit b (k := 3) (by decide)
  have hack : (b &&& 0x10 != 0).toNat = b.toNat / 2 ^ 4 % 2 := toNat_and_bit b (k := 4) (by decide)
  have hurg : (b &&& 0x20 != 0).toNat = b.toNat / 2 ^ 5 % 2 := toNat_and_bit b (k := 5) (by decide)
  have hece : (b &&& 0x40 != 0).toNat = b.toNat / 2 ^ 6 % 2 := toNat_and_bit b (k := 6) (by decide)
  have hcwr : (b &&& 0x80 != 0).toNat = b.toNat / 2 ^ 7 % 2 := toNat_and_bit b (k := 7) (by decide)
  refine drawnAt_byte h ?_ rfl ?_
  · simp only [TcpFlags.fields, forall_fits_cons]
    exact ⟨Bool.toNat_lt _, Bool.toNat_lt _, Bool.toNat_lt _, Bool.toNat_lt _, Bool.toNat_lt _,
      Bool.toNat_lt _, Bool.toNat_lt _, Bool.toNat_lt _, nofun⟩
  · simp only [TcpFlags.fields, TcpFlags.fromBits, packed, bitsOf_cons, bitsOf_nil]
    rw [hb, hfin, hsyn, hrst, hpsh, hack, hurg, hece, hcwr]
    omega

theorem drawnAt_icmp (h : o + 8 ≤ data.length) : DrawnAt data o (icmpAt data o).fields := by
  refine (drawnAt_u8 (by omega)).append 1 ?_
  refine (drawnAt_u8 (by omega)).append 1 ?_
  exact (drawnAt_u16 (by omega)).append 2 (drawnAt_u32 (by omega))

theorem drawnAt_mac {start stop : ℕ} (hlen : stop = start + 6) (h : stop ≤ data.length) :
    DrawnAt data start [MacAddr.field ⟨slice data start stop⟩] :=
  drawnAt_slice (by omega) h (by omega)

theorem drawnAt_ipv6 {start stop : ℕ} (hlen : stop = start + 16) (h : stop ≤ data.length) :
    DrawnAt data start [⟨128, (BitVec.ofNat 128 (beNat (slice data start stop))).toNat⟩] := by
  have hlt := beNat_lt (slice data start stop)
  rw [length_slice h, hlen, Nat.add_sub_cancel_left] at hlt
  rw [BitVec.toNat_ofNat, Nat.mod_eq_of_lt (hlen ▸ hlt)]
  exact drawnAt_slice (by omega) h (by omega)

/-- The fields that a decoder reads are those that stand there. -/
theorem drawnAt_sentAt (h : o + what.fixedBytes ≤ data.length) :
    DrawnAt data o (what.sentAt data o).diagram := by
  cases what with simp only [NextDecode.fixedBytes] at h
  | ethernet =>
    refine (drawnAt_mac rfl (by omega)).append 6 ?_
    exact (drawnAt_mac rfl (by omega)).append 6 (drawnAt_u16 (by omega))
  | arp =>
    refine (drawnAt_u16 (by omega)).append 2 ?_
    refine (drawnAt_u16 (by omega)).append 2 ?_
    refine (drawnAt_u16 (by omega)).append 2 ?_
    refine (drawnAt_u16 (by omega)).append 2 ?_
    refine (drawnAt_mac rfl (by omega)).append 6 ?_
    refine (drawnAt_u32 (by omega)).append 4 ?_
    exact (drawnAt_mac rfl (by omega)).append 6 (drawnAt_u32 (by omega))
  | ipv4 =>
    refine (drawnAt_split (k := 4) (by decide) (by omega)).append 1 ?_
    refine (drawnAt_split (k := 2) (by decide) (by omega)).append 1 ?_
    refine (drawnAt_u16 (by omega)).append 2 ?_
    refine (drawnAt_u16 (by omega)).append 2 ?_
    refine (drawnAt_fragment (by omega)).append 2 ?_
    refine (drawnAt_u8 (by omega)).append 1 ?_
    refine (drawnAt_u8 (by omega)).append 1 ?_
    refine (drawnAt_u16 (by omega)).append 2 ?_
    exact (drawnAt_u32 (by omega)).append 4 (drawnAt_u32 (by omega))
  | ipv6 =>
    refine (drawnAt_flow (by omega)).append 4 ?_
    refine (drawnAt_u16 (by omega)).append 2 ?_
    refine (drawnAt_u8 (by omega)).append 1 ?_
    refine (drawnAt_u8 (by omega)).append 1 ?_
    exact (drawnAt_ipv6 rfl (by omega)).append 16 (drawnAt_ipv6 rfl (by omega))
  | tcp =>
    refine (drawnAt_u16 (by omega)).append 2 ?_
    refine (drawnAt_u16 (by omega)).append 2 ?_
    refine (drawnAt_u32 (by omega)).append 4 ?_
    refine (drawnAt_u32 (by omega)).append 4 ?_
    refine (drawnAt_split (k := 4) (by decide) (by omega)).append 1 ?_
    refine (drawnAt_flags (by omega)).append 1 ?_
    refine (drawnAt_u16 (by omega)).append 2 ?_
    exact (drawnAt_u16 (by omega)).append 2 (drawnAt_u16 (by omega))
  | udp =>
    refine (drawnAt_u16 (by omega)).append 2 ?_
    refine (drawnAt_u16 (by omega)).append 2 ?_
    exact (drawnAt_u16 (by omega)).append 2 (drawnAt_u16 (by omega))
  | icmp => exact drawnAt_icmp h
  | icmpv6 => exact drawnAt_icmp h
  | applicationPayload transport => exact drawnAt_nil h

end Groups

/-- The header at a place is one of a kind, with all its bytes. -/
structure NextDecode.FitsAt (what : NextDecode) (data : List UInt8) (o : ℕ) : Prop where
  fixed : o + what.fixedBytes ≤ data.length
  kind : (what.layerAt data o).IsA what
  options : o + what.fixedBytes + (what.layerAt data o).optionBytes ≤ data.length

section Accepted

variable {data : List UInt8} {o : ℕ} {what : NextDecode}

theorem length_bytes_sentAt (h : what.FitsAt data o) :
    (what.sentAt data o).bytes.length = what.fixedBytes + (what.layerAt data o).optionBytes := by
  have hdiagram := bitsOf_diagram h.kind (what.droppedAt data o)
  have hfixed : (diagramBytes (what.sentAt data o).diagram).length = what.fixedBytes := by
    rw [length_diagramBytes, SentHeader.diagram, NextDecode.sentAt, hdiagram,
      Nat.mul_div_cancel_left _ (by decide)]
  rw [SentHeader.bytes, List.length_append, hfixed, NextDecode.sentAt, length_slice h.options,
    Nat.add_sub_cancel_left]

theorem count_words {words : UInt8} (h : ¬words < 5) : 20 + (words.toNat * 4 - 20) = words.toNat * 4 := by
  have hwords := five_le h
  omega

variable (hs : data.length < maxBytes)
include hs

theorem decodeEthernet_of_fitsAt (h : NextDecode.FitsAt .ethernet data o) :
    decodeEthernet data o = ok ((NextDecode.sentAt data o .ethernet).result o data.length) := by
  have hlen := length_bytes_sentAt h
  have hfixed := h.fixed
  simp only [NextDecode.fixedBytes, NextDecode.layerAt, Layer.optionBytes] at *
  unfold decodeEthernet
  rw [checkedSub, if_pos (by omega), ok_bind, if_neg (by omega)]
  simp (disch := omega) only [be16At_eq hs, bytesAt_eq hs, addUsize_eq hs, ok_bind]
  rw [SentHeader.result, hlen]
  rfl

theorem decodeArp_of_fitsAt (h : NextDecode.FitsAt .arp data o) :
    decodeArp data o = ok ((NextDecode.sentAt data o .arp).result o data.length) := by
  have hlen := length_bytes_sentAt h
  have hfixed := h.fixed
  simp only [NextDecode.fixedBytes, NextDecode.layerAt, Layer.optionBytes] at *
  unfold decodeArp
  rw [checkedSub, if_pos (by omega), ok_bind, if_neg (by omega)]
  simp (disch := omega) only [ipv4At, be16At_eq hs, be32At_eq hs, byteAt_eq hs, bytesAt_eq hs,
    addUsize_eq hs, ok_bind]
  rw [SentHeader.result, hlen]
  rfl

theorem decodeIpv4_of_fitsAt (h : NextDecode.FitsAt .ipv4 data o) :
    decodeIpv4 data o = ok ((NextDecode.sentAt data o .ipv4).result o data.length) := by
  have hlen := length_bytes_sentAt h
  obtain ⟨hfixed, ⟨hversion, hwords⟩, hoptions⟩ := h
  have hcount := count_words hwords
  simp only [NextDecode.fixedBytes, NextDecode.layerAt, Layer.optionBytes, hcount, Nat.add_assoc] at *
  unfold decodeIpv4
  rw [checkedSub, if_pos (by omega), ok_bind, if_neg (by omega), byteAt_eq hs (by omega), ok_bind]
  dsimp only [Nat.add_zero]
  rw [if_neg (by simp [hversion, hwords]), if_neg (by omega)]
  simp (disch := omega) only [ipv4At, be16At_eq hs, be32At_eq hs, byteAt_eq hs, addUsize_eq hs,
    ok_bind]
  rw [SentHeader.result, hlen]
  rfl

theorem decodeIpv6_of_fitsAt (h : NextDecode.FitsAt .ipv6 data o) :
    decodeIpv6 data o = ok ((NextDecode.sentAt data o .ipv6).result o data.length) := by
  have hlen := length_bytes_sentAt h
  obtain ⟨hfixed, hkind, -⟩ := h
  have hversion : (be32 (peek data o) (peek data (o + 1)) (peek data (o + 2))
    (peek data (o + 3)) >>> 28).toUInt8 = 6 := hkind
  simp only [NextDecode.fixedBytes, NextDecode.layerAt, Layer.optionBytes] at *
  unfold decodeIpv6
  rw [checkedSub, if_pos (by omega), ok_bind, if_neg (by omega), be32At_eq hs (by omega), ok_bind]
  dsimp only [Nat.add_zero]
  rw [if_neg (not_not_intro hversion)]
  simp (disch := omega) only [ipv6At_eq hs, be16At_eq hs, byteAt_eq hs, addUsize_eq hs, ok_bind]
  rw [SentHeader.result, hlen]
  rfl

theorem decodeTcp_of_fitsAt (h : NextDecode.FitsAt .tcp data o) :
    decodeTcp data o = ok ((NextDecode.sentAt data o .tcp).result o data.length) := by
  have hlen := length_bytes_sentAt h
  obtain ⟨hfixed, hwords, hoptions⟩ := h
  have hcount := count_words hwords
  simp only [NextDecode.fixedBytes, NextDecode.layerAt, Layer.optionBytes, hcount, Nat.add_assoc] at *
  unfold decodeTcp
  rw [checkedSub, if_pos (by omega), ok_bind, if_neg (by omega), be16At_eq hs (by omega), ok_bind,
    be16At_eq hs (by omega), ok_bind, be32At_eq hs (by omega), ok_bind, be32At_eq hs (by omega),
    ok_bind, byteAt_eq hs (by omega), ok_bind]
  dsimp only [Nat.add_zero]
  rw [if_neg hwords, if_neg (by omega)]
  simp (disch := omega) only [be16At_eq hs, byteAt_eq hs, addUsize_eq hs, ok_bind]
  rw [SentHeader.result, hlen, ← Nat.sub_sub, Nat.sub_sub]
  rfl

theorem decodeUdp_of_fitsAt (h : NextDecode.FitsAt .udp data o) :
    decodeUdp data o = ok ((NextDecode.sentAt data o .udp).result o data.length) := by
  have hlen := length_bytes_sentAt h
  have hfixed := h.fixed
  simp only [NextDecode.fixedBytes, NextDecode.layerAt, Layer.optionBytes] at *
  unfold decodeUdp
  rw [checkedSub, if_pos (by omega), ok_bind, if_neg (by omega)]
  simp (disch := omega) only [be16At_eq hs, addUsize_eq hs, ok_bind]
  rw [SentHeader.result, hlen, Nat.sub_sub]
  rfl

theorem icmpHeaderAt_of_fits (hfixed : o + 8 ≤ data.length) :
    icmpHeaderAt data o = ok (icmpAt data o) := by
  unfold icmpHeaderAt
  rw [checkedSub, if_pos (by omega), ok_bind, if_neg (by omega)]
  simp (disch := omega) only [be16At_eq hs, be32At_eq hs, byteAt_eq hs, addUsize_eq hs, ok_bind]
  rfl

theorem decode_of_fitsAt (h : what.FitsAt data o) :
    what.decode data o = ok ((what.sentAt data o).result o data.length) := by
  cases what with
  | ethernet => exact decodeEthernet_of_fitsAt hs h
  | arp => exact decodeArp_of_fitsAt hs h
  | ipv4 => exact decodeIpv4_of_fitsAt hs h
  | ipv6 => exact decodeIpv6_of_fitsAt hs h
  | tcp => exact decodeTcp_of_fitsAt hs h
  | udp => exact decodeUdp_of_fitsAt hs h
  | icmp =>
    have hlen := length_bytes_sentAt h
    rw [NextDecode.decode, decodeIcmp, icmpHeaderAt_of_fits hs h.fixed, ok_bind, SentHeader.result,
      hlen]
    rfl
  | icmpv6 =>
    have hlen := length_bytes_sentAt h
    rw [NextDecode.decode, decodeIcmpv6, icmpHeaderAt_of_fits hs h.fixed, ok_bind,
      SentHeader.result, hlen]
    rfl
  | applicationPayload transport => exact h.kind.elim

/-- Only a header that fits is accepted. -/
theorem holds_fitsAt (what : NextDecode) : Holds (what.decode data o) fun _ => what.FitsAt data o := by
  cases what with
  | ethernet =>
    rw [NextDecode.decode]
    unfold decodeEthernet
    rw [holds_bind]
    refine holds_checkedSub fun ho => holds_ite (fun _ => trivial) fun hlen => ?_
    simp (disch := omega) only [be16At_eq hs, bytesAt_eq hs, addUsize_eq hs]
    have hfixed : o + 14 ≤ data.length := by omega
    have hdst : (slice data o (o + 6)).length = 6 := by rw [length_slice (by omega)]; omega
    have hsrc : (slice data (o + 6) (o + 12)).length = 6 := by rw [length_slice (by omega)]; omega
    exact ⟨hfixed, ⟨hdst, hsrc⟩, hfixed⟩
  | arp =>
    rw [NextDecode.decode]
    unfold decodeArp
    rw [holds_bind]
    refine holds_checkedSub fun ho => holds_ite (fun _ => trivial) fun hlen => ?_
    simp (disch := omega) only [ipv4At, be16At_eq hs, be32At_eq hs, byteAt_eq hs, bytesAt_eq hs,
      addUsize_eq hs]
    have hfixed : o + 28 ≤ data.length := by omega
    have hsender : (slice data (o + 8) (o + 14)).length = 6 := by
      rw [length_slice (by omega)]
      omega
    have htarget : (slice data (o + 18) (o + 24)).length = 6 := by
      rw [length_slice (by omega)]
      omega
    exact ⟨hfixed, ⟨hsender, htarget⟩, hfixed⟩
  | ipv4 =>
    rw [NextDecode.decode]
    unfold decodeIpv4
    rw [holds_bind]
    refine holds_checkedSub fun ho => holds_ite (fun _ => trivial) fun hlen => ?_
    rw [byteAt_eq hs (by omega)]
    refine holds_ite (fun _ => trivial) fun hihl => holds_ite (fun _ => trivial) fun hheader => ?_
    obtain ⟨hversion, hwords⟩ := not_or.mp hihl
    have hcount := count_words hwords
    have hfixed : o + 20 ≤ data.length := by omega
    simp (disch := omega) only [ipv4At, be16At_eq hs, be32At_eq hs, byteAt_eq hs, addUsize_eq hs]
    refine ⟨hfixed, ⟨not_not.mp hversion, hwords⟩, ?_⟩
    simp only [NextDecode.fixedBytes, NextDecode.layerAt, Layer.optionBytes, Nat.add_assoc,
      Nat.add_zero] at *
    omega
  | ipv6 =>
    rw [NextDecode.decode]
    unfold decodeIpv6
    rw [holds_bind]
    refine holds_checkedSub fun ho => holds_ite (fun _ => trivial) fun hlen => ?_
    rw [be32At_eq hs (by omega)]
    refine holds_ite (fun _ => trivial) fun hversion => ?_
    simp (disch := omega) only [ipv6At_eq hs, be16At_eq hs, byteAt_eq hs, addUsize_eq hs]
    have hfixed : o + 40 ≤ data.length := by omega
    exact ⟨hfixed, not_not.mp hversion, hfixed⟩
  | tcp =>
    refine (holds_decodeTcp hs).mono fun r hr => ?_
    obtain ⟨-, -, ⟨hfixed, hwords, hheader⟩, -⟩ := hr
    have hnot : ¬peek data (o + 12) >>> 4 < 5 := by
      rw [UInt8.lt_iff_toNat_lt]
      exact Nat.not_lt.mpr hwords
    have hcount := count_words hnot
    refine ⟨hfixed, hnot, ?_⟩
    simp only [NextDecode.fixedBytes, NextDecode.layerAt, Layer.optionBytes] at *
    omega
  | udp =>
    refine (holds_decodeUdp hs).mono fun r hr => ?_
    obtain ⟨-, -, hfixed, -⟩ := hr
    exact ⟨hfixed, trivial, hfixed⟩
  | icmp =>
    rw [NextDecode.decode]
    unfold decodeIcmp icmpHeaderAt
    rw [holds_bind, holds_bind]
    refine holds_checkedSub fun ho => holds_ite (fun _ => trivial) fun hlen => ?_
    simp (disch := omega) only [be16At_eq hs, be32At_eq hs, byteAt_eq hs, addUsize_eq hs]
    have hfixed : o + 8 ≤ data.length := by omega
    exact ⟨hfixed, trivial, hfixed⟩
  | icmpv6 =>
    rw [NextDecode.decode]
    unfold decodeIcmpv6 icmpHeaderAt
    rw [holds_bind, holds_bind]
    refine holds_checkedSub fun ho => holds_ite (fun _ => trivial) fun hlen => ?_
    simp (disch := omega) only [be16At_eq hs, be32At_eq hs, byteAt_eq hs, addUsize_eq hs]
    have hfixed : o + 8 ≤ data.length := by omega
    exact ⟨hfixed, trivial, hfixed⟩
  | applicationPayload transport => trivial

end Accepted

section Told

variable {data : List UInt8} {o : ℕ} {what : NextDecode} {l : Layer} {d : ℕ}

theorem MacAddr.eq_of_field {m m' : MacAddr} (hm : m.bytes.length = 6) (hm' : m'.bytes.length = 6)
    (h : m.field = m'.field) : m = m' := by
  cases m
  cases m'
  congr 1
  exact beNat_inj (hm.trans hm'.symm) (BitField.mk.inj h).2

theorem IcmpHeader.eq_of_fields {h h' : IcmpHeader} (heq : h.fields = h'.fields) (r : ByteRange) :
    { h with headerRange := r } = { h' with headerRange := r } := by
  simp only [IcmpHeader.fields, List.cons.injEq, BitField.mk.injEq, true_and, and_true,
    UInt8.toNat_inj, UInt16.toNat_inj, UInt32.toNat_inj] at heq
  obtain ⟨htype, hcode, hchecksum, hrest⟩ := heq
  rw [htype, hcode, hchecksum, hrest]

theorem boolToNat_inj {a b : Bool} : a.toNat = b.toNat ↔ a = b := by
  cases a <;> cases b <;> simp

/-- A header is told by its diagram. -/
theorem placed_eq_of_diagram (h : l.IsA what) (hread : (what.layerAt data o).IsA what)
    (heq : l.diagram d = (what.layerAt data o).diagram (what.droppedAt data o)) :
    ∀ start stop len, l.placed start stop len = (what.layerAt data o).placed start stop len := by
  cases what <;> cases l <;> first | exact h.elim | skip
  case ethernet.ethernet eth =>
    simp only [Layer.diagram, NextDecode.layerAt, List.cons.injEq, BitField.mk.injEq, true_and,
      and_true, UInt16.toNat_inj] at heq
    obtain ⟨hdst, hsrc, htype⟩ := heq
    cases eth
    cases MacAddr.eq_of_field h.1 hread.1 hdst
    cases MacAddr.eq_of_field h.2 hread.2 hsrc
    cases htype
    exact fun _ _ _ => rfl
  case arp.arp arp =>
    simp only [Layer.diagram, NextDecode.layerAt, List.cons.injEq, BitField.mk.injEq, true_and,
      and_true, UInt16.toNat_inj, UInt32.toNat_inj] at heq
    obtain ⟨hhw, hproto, -, hop, hsender, hsenderIp, htarget, htargetIp⟩ := heq
    cases arp
    cases MacAddr.eq_of_field h.1 hread.1 hsender
    cases MacAddr.eq_of_field h.2 hread.2 htarget
    cases hhw
    cases hproto
    cases hop
    cases hsenderIp
    cases htargetIp
    exact fun _ _ _ => rfl
  case ipv4.ipv4 ip =>
    simp only [Layer.diagram, NextDecode.layerAt, List.cons.injEq, BitField.mk.injEq, true_and,
      and_true, UInt8.toNat_inj, UInt16.toNat_inj, UInt32.toNat_inj] at heq
    cases ip
    obtain ⟨rfl, rfl, rfl, rfl, rfl, rfl, rfl, rfl, rfl, rfl, rfl, rfl, rfl⟩ := heq
    exact fun _ _ _ => rfl
  case ipv6.ipv6 ip =>
    simp only [Layer.diagram, NextDecode.layerAt, List.cons.injEq, BitField.mk.injEq, true_and,
      and_true, UInt8.toNat_inj, UInt16.toNat_inj, UInt32.toNat_inj, BitVec.toNat_inj] at heq
    cases ip
    obtain ⟨rfl, rfl, rfl, rfl, rfl, rfl, rfl, rfl⟩ := heq
    exact fun _ _ _ => rfl
  case tcp.tcp tcp =>
    simp only [Layer.diagram, NextDecode.layerAt, TcpFlags.fields, List.cons_append,
      List.nil_append, List.cons.injEq, BitField.mk.injEq, true_and, and_true, UInt8.toNat_inj,
      UInt16.toNat_inj, UInt32.toNat_inj, boolToNat_inj] at heq
    obtain ⟨srcPort, dstPort, seqNum, ackNum, dataOffset, flags, _, _, _, _, _⟩ := tcp
    cases flags
    obtain ⟨rfl, rfl, rfl, rfl, rfl, -, rfl, rfl, rfl, rfl, rfl, rfl, rfl, rfl, rfl, rfl, rfl⟩ := heq
    exact fun _ _ _ => rfl
  case udp.udp udp =>
    simp only [Layer.diagram, NextDecode.layerAt, List.cons.injEq, BitField.mk.injEq, true_and,
      and_true, UInt16.toNat_inj] at heq
    cases udp
    obtain ⟨rfl, rfl, rfl, rfl⟩ := heq
    exact fun _ _ _ => rfl
  case icmp.icmp icmp =>
    exact fun _ _ _ => congrArg Layer.icmp (IcmpHeader.eq_of_fields heq _)
  case icmpv6.icmpv6 icmp =>
    exact fun _ _ _ => congrArg Layer.icmpv6 (IcmpHeader.eq_of_fields heq _)

theorem isA_of_diagram (h : l.IsA what) (hfixed : o + what.fixedBytes ≤ data.length)
    (heq : l.diagram d = (what.layerAt data o).diagram (what.droppedAt data o)) :
    (what.layerAt data o).IsA what := by
  cases what <;> cases l <;> first | exact h.elim | exact trivial | skip
  all_goals simp only [NextDecode.fixedBytes] at hfixed
  case ethernet.ethernet eth =>
    exact ⟨by rw [length_slice (by omega)]; omega, by rw [length_slice (by omega)]; omega⟩
  case arp.arp arp =>
    exact ⟨by rw [length_slice (by omega)]; omega, by rw [length_slice (by omega)]; omega⟩
  case ipv4.ipv4 ip =>
    obtain ⟨hversion, hrest⟩ := List.cons.inj heq
    obtain ⟨hihl, -⟩ := List.cons.inj hrest
    rw [BitField.mk.injEq, UInt8.toNat_inj] at hversion hihl
    exact ⟨hversion.2 ▸ h.1, hihl.2 ▸ h.2⟩
  case ipv6.ipv6 ip =>
    obtain ⟨hversion, -⟩ := List.cons.inj heq
    rw [BitField.mk.injEq, UInt8.toNat_inj] at hversion
    exact hversion.2.symm.trans h
  case tcp.tcp tcp =>
    simp only [Layer.diagram, NextDecode.layerAt, List.cons_append, List.cons.injEq,
      BitField.mk.injEq, true_and, UInt8.toNat_inj] at heq
    obtain ⟨-, -, -, -, hwords, -⟩ := heq
    exact fun hlt => h (hwords ▸ hlt)

@[simp] theorem Layer.optionBytes_placed (l : Layer) (start stop len : ℕ) :
    (l.placed start stop len).optionBytes = l.optionBytes := by cases l <;> rfl

@[simp] theorem Layer.announces_placed (l : Layer) (start stop len left : ℕ) :
    (l.placed start stop len).announces left = l.announces left := by cases l <;> rfl

end Told

section Exact

variable {data : List UInt8} {o : ℕ} {what : NextDecode} {h : SentHeader} {r : DecodeResult}

theorem SentHeader.Valid.length_bytes (hv : h.Valid what) :
    h.bytes.length = what.fixedBytes + h.layer.optionBytes := by
  rw [SentHeader.bytes, List.length_append, length_diagramBytes, SentHeader.diagram,
    bitsOf_diagram hv.kind, Nat.mul_div_cancel_left _ (by decide), hv.options]

theorem SentHeader.Valid.drawnAt (hv : h.Valid what) (hstands : StandsAt data o h.bytes) :
    DrawnAt data o h.diagram where
  aligned := ⟨_, bitsOf_diagram hv.kind _⟩
  fits := hv.fits
  stands := hstands.left

/-- A header that stands at a place is the one that is read there. -/
theorem SentHeader.Valid.result_eq (hv : h.Valid what) (hstands : StandsAt data o h.bytes) :
    what.FitsAt data o ∧
      h.result o data.length = (what.sentAt data o).result o data.length := by
  have hle := hstands.le
  have hlen := hv.length_bytes
  have hfixed : o + what.fixedBytes ≤ data.length := by omega
  have hdiagram := (hv.drawnAt hstands).unique (drawnAt_sentAt hfixed)
    (widths_diagram hv.kind _ _)
  have hkind := isA_of_diagram hv.kind hfixed hdiagram
  have hplaced := placed_eq_of_diagram hv.kind hkind hdiagram
  have hoptions : h.layer.optionBytes = (what.layerAt data o).optionBytes := by
    simpa using congrArg Layer.optionBytes (hplaced 0 0 0)
  have hannounces (left : ℕ) : h.layer.announces left = (what.layerAt data o).announces left := by
    simpa using congrArg (Layer.announces left) (hplaced 0 0 0)
  have hfits : what.FitsAt data o := ⟨hfixed, hkind, by omega⟩
  refine ⟨hfits, ?_⟩
  rw [SentHeader.result, SentHeader.result, hlen, length_bytes_sentAt hfits, hoptions, hplaced,
    hannounces]
  rfl

theorem valid_sentAt (hfits : what.FitsAt data o) : (what.sentAt data o).Valid what where
  kind := hfits.kind
  fits := (drawnAt_sentAt hfits.fixed).fits
  options := by
    rw [NextDecode.sentAt, length_slice hfits.options, Nat.add_sub_cancel_left]

theorem stands_sentAt (hfits : what.FitsAt data o) :
    StandsAt data o (what.sentAt data o).bytes := by
  have hdrawn := drawnAt_sentAt hfits.fixed
  have hbits := bitsOf_diagram hfits.kind (what.droppedAt data o)
  rw [SentHeader.bytes, standsAt_append, length_diagramBytes, SentHeader.diagram,
    NextDecode.sentAt, hbits, Nat.mul_div_cancel_left _ (by decide)]
  exact ⟨hdrawn.stands, standsAt_slice (Nat.le_add_right _ _) hfits.options⟩

/-- A decoder accepts exactly the headers that are sent as their diagrams say. -/
theorem decode_iff (hs : data.length < maxBytes) : what.decode data o = ok r ↔
    ∃ h : SentHeader, h.Valid what ∧ StandsAt data o h.bytes ∧ r = h.result o data.length := by
  constructor
  · rintro hdecode
    have hfits : what.FitsAt data o := by
      have hholds := holds_fitsAt (o := o) hs what
      rwa [hdecode] at hholds
    rw [decode_of_fitsAt hs hfits] at hdecode
    cases hdecode
    exact ⟨_, valid_sentAt hfits, stands_sentAt hfits, rfl⟩
  · rintro ⟨h, hv, hstands, rfl⟩
    obtain ⟨hfits, hresult⟩ := hv.result_eq hstands
    rw [decode_of_fitsAt hs hfits, hresult]

end Exact

end Pktscope

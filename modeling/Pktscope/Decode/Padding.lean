import Pktscope.Decode.Path
import Pktscope.Flow.Closing

/-! # Bytes behind the IP packet

The link layer may append bytes to a frame. The headers read the same with or
without them, but the transport decoders count them as payload.
-/

namespace Pktscope

open Library Parse

/-- A layer with bytes added behind the data. -/
def Layer.grow (k : ℕ) : Layer → Layer
  | .tcp h => .tcp { h with payloadLen := h.payloadLen + k }
  | l => l

/-- What a decoder finds with bytes added behind the data. -/
structure DecodeResult.Grown (what : NextDecode) (k : ℕ) (r r' : DecodeResult) : Prop where
  layer : r'.layer = r.layer.grow k
  nextOffset : r'.nextOffset = r.nextOffset
  next : 1 < what.rank → r'.next = r.next

section Headers

variable (data t : List UInt8) (offset : ℕ)

theorem refines_decodeEthernet : Refines (DecodeResult.Grown .ethernet t.length)
    (decodeEthernet data offset) (decodeEthernet (data ++ t) offset) := by
  refine (refines_checkedSub_length data t offset).bind fun r _ hr => ?_
  refine refines_guard (fun h => by omega) fun _ => ?_
  refine (refines_bytesAt data t offset 0 6).bind_eq fun _ => ?_
  refine (refines_bytesAt data t offset 6 6).bind_eq fun _ => ?_
  refine (refines_be16At data t offset 12).bind_eq fun _ => ?_
  exact (Refines.refl _).bind_eq fun _ => refines_ok ⟨rfl, rfl, fun _ => rfl⟩

theorem refines_decodeArp : Refines (DecodeResult.Grown .arp t.length)
    (decodeArp data offset) (decodeArp (data ++ t) offset) := by
  refine (refines_checkedSub_length data t offset).bind fun r _ hr => ?_
  refine refines_guard (fun h => by omega) fun _ => ?_
  refine (refines_be16At data t offset 0).bind_eq fun _ => ?_
  refine (refines_be16At data t offset 2).bind_eq fun _ => ?_
  refine (refines_byteAt data t offset 4).bind_eq fun _ => ?_
  refine (refines_byteAt data t offset 5).bind_eq fun _ => ?_
  refine (refines_be16At data t offset 6).bind_eq fun _ => ?_
  refine (refines_bytesAt data t offset 8 6).bind_eq fun _ => ?_
  refine (refines_be32At data t offset 14).bind_eq fun _ => ?_
  refine (refines_bytesAt data t offset 18 6).bind_eq fun _ => ?_
  refine (refines_be32At data t offset 24).bind_eq fun _ => ?_
  exact (Refines.refl _).bind_eq fun _ => refines_ok ⟨rfl, rfl, fun _ => rfl⟩

theorem refines_decodeIpv4 : Refines (DecodeResult.Grown .ipv4 t.length)
    (decodeIpv4 data offset) (decodeIpv4 (data ++ t) offset) := by
  refine (refines_checkedSub_length data t offset).bind fun r _ hr => ?_
  refine refines_guard (fun h => by omega) fun _ => ?_
  refine (refines_byteAt data t offset 0).bind_eq fun _ => ?_
  refine refines_guard id fun _ => refines_guard (fun h => by omega) fun _ => ?_
  refine (refines_byteAt data t offset 1).bind_eq fun _ => ?_
  refine (refines_be16At data t offset 2).bind_eq fun _ => ?_
  refine (refines_be16At data t offset 4).bind_eq fun _ => ?_
  refine (refines_be16At data t offset 6).bind_eq fun _ => ?_
  refine (refines_byteAt data t offset 8).bind_eq fun _ => ?_
  refine (refines_byteAt data t offset 9).bind_eq fun _ => ?_
  refine (refines_be16At data t offset 10).bind_eq fun _ => ?_
  refine (refines_be32At data t offset 12).bind_eq fun _ => ?_
  refine (refines_be32At data t offset 16).bind_eq fun _ => ?_
  exact (Refines.refl _).bind_eq fun _ => refines_ok ⟨rfl, rfl, fun _ => rfl⟩

theorem refines_ipv6At (k : ℕ) :
    Refines Eq (ipv6At data offset k) (ipv6At (data ++ t) offset k) :=
  (Refines.refl _).bind_eq fun _ => (Refines.refl _).bind_eq fun _ =>
    (refines_sliceAt data t _ _).bind_eq fun _ => refines_ok rfl

theorem refines_decodeIpv6 : Refines (DecodeResult.Grown .ipv6 t.length)
    (decodeIpv6 data offset) (decodeIpv6 (data ++ t) offset) := by
  refine (refines_checkedSub_length data t offset).bind fun r _ hr => ?_
  refine refines_guard (fun h => by omega) fun _ => ?_
  refine (refines_be32At data t offset 0).bind_eq fun _ => ?_
  refine refines_guard id fun _ => ?_
  refine (refines_be16At data t offset 4).bind_eq fun _ => ?_
  refine (refines_byteAt data t offset 6).bind_eq fun _ => ?_
  refine (refines_byteAt data t offset 7).bind_eq fun _ => ?_
  refine (refines_ipv6At data t offset 8).bind_eq fun _ => ?_
  refine (refines_ipv6At data t offset 24).bind_eq fun _ => ?_
  exact (Refines.refl _).bind_eq fun _ => refines_ok ⟨rfl, rfl, fun _ => rfl⟩

theorem refines_decodeTcp : Refines (DecodeResult.Grown .tcp t.length)
    (decodeTcp data offset) (decodeTcp (data ++ t) offset) := by
  refine (refines_checkedSub_length data t offset).bind fun r _ hr => ?_
  refine refines_guard (fun h => by omega) fun _ => ?_
  refine (refines_be16At data t offset 0).bind_eq fun _ => ?_
  refine (refines_be16At data t offset 2).bind_eq fun _ => ?_
  refine (refines_be32At data t offset 4).bind_eq fun _ => ?_
  refine (refines_be32At data t offset 8).bind_eq fun _ => ?_
  refine (refines_byteAt data t offset 12).bind_eq fun offsetByte => ?_
  refine refines_guard id fun _ => refines_guard (fun h => by omega) fun hheader => ?_
  refine (refines_byteAt data t offset 13).bind_eq fun _ => ?_
  refine (refines_be16At data t offset 14).bind_eq fun _ => ?_
  refine (refines_be16At data t offset 16).bind_eq fun _ => ?_
  refine (refines_be16At data t offset 18).bind_eq fun _ => ?_
  refine (Refines.refl _).bind_eq fun _ => refines_ok ⟨?_, rfl, fun h => absurd h (by decide)⟩
  have hlen : r + t.length - (offsetByte >>> 4).toNat * 4 =
      r - (offsetByte >>> 4).toNat * 4 + t.length := by omega
  simp only [Layer.grow, hr, hlen]

theorem refines_decodeUdp : Refines (DecodeResult.Grown .udp t.length)
    (decodeUdp data offset) (decodeUdp (data ++ t) offset) := by
  refine (refines_checkedSub_length data t offset).bind fun r _ hr => ?_
  refine refines_guard (fun h => by omega) fun _ => ?_
  refine (refines_be16At data t offset 0).bind_eq fun _ => ?_
  refine (refines_be16At data t offset 2).bind_eq fun _ => ?_
  refine (refines_be16At data t offset 4).bind_eq fun _ => ?_
  refine (refines_be16At data t offset 6).bind_eq fun _ => ?_
  exact (Refines.refl _).bind_eq fun _ => refines_ok ⟨rfl, rfl, fun h => absurd h (by decide)⟩

theorem refines_icmpHeaderAt :
    Refines Eq (icmpHeaderAt data offset) (icmpHeaderAt (data ++ t) offset) := by
  refine (refines_checkedSub_length data t offset).bind fun r _ hr => ?_
  refine refines_guard (fun h => by omega) fun _ => ?_
  refine (refines_byteAt data t offset 0).bind_eq fun _ => ?_
  refine (refines_byteAt data t offset 1).bind_eq fun _ => ?_
  refine (refines_be16At data t offset 2).bind_eq fun _ => ?_
  refine (refines_be32At data t offset 4).bind_eq fun _ => ?_
  exact (Refines.refl _).bind_eq fun _ => refines_ok rfl

theorem refines_decode (what : NextDecode) : Refines (DecodeResult.Grown what t.length)
    (what.decode data offset) (what.decode (data ++ t) offset) := by
  cases what with
  | ethernet => exact refines_decodeEthernet data t offset
  | ipv4 => exact refines_decodeIpv4 data t offset
  | ipv6 => exact refines_decodeIpv6 data t offset
  | arp => exact refines_decodeArp data t offset
  | tcp => exact refines_decodeTcp data t offset
  | udp => exact refines_decodeUdp data t offset
  | icmp =>
    exact (refines_icmpHeaderAt data t offset).bind_eq fun _ =>
      refines_ok ⟨rfl, rfl, fun _ => rfl⟩
  | icmpv6 =>
    exact (refines_icmpHeaderAt data t offset).bind_eq fun _ =>
      refines_ok ⟨rfl, rfl, fun _ => rfl⟩
  | applicationPayload transport => exact fun _ (h : refuse = ok _) => nomatch h

end Headers

section Chain

variable [Digests] {data t : List UInt8} {rounds offset : ℕ}

theorem layersFrom_append {what : NextDecode} (hw : 0 < what.rank) {l : Layer}
    {ls ls' : List Layer} (h : layersFrom data (rounds + 1) (some what) offset = ok (l :: ls))
    (h' : layersFrom (data ++ t) (rounds + 1) (some what) offset = ok ls') :
    ∃ dr dr' rest', what.decode data offset = ok dr ∧ what.decode (data ++ t) offset = ok dr' ∧
      dr.layer = l ∧ dr.Grown what t.length dr' ∧ ls' = l.grow t.length :: rest' ∧
      layersFrom data rounds dr.next dr.nextOffset = ok ls ∧
      layersFrom (data ++ t) rounds dr'.next dr.nextOffset = ok rest' := by
  obtain ⟨dr, hdecode, rfl, hrest⟩ := layersFrom_cons hw h
  obtain ⟨dr', hdecode', hgrown⟩ := refines_decode data t offset what dr hdecode
  obtain ⟨rest', hls', hrest'⟩ := layersFrom_of_decode hw hdecode' h'
  rw [hgrown.layer] at hls'
  rw [hgrown.nextOffset] at hrest'
  exact ⟨dr, dr', rest', hdecode, hdecode', rfl, hgrown, hls', hrest, hrest'⟩

theorem layersFrom_append_network {what : NextDecode} (hs : data.length < maxBytes)
    (hw : 1 < what.rank) {l : Layer} {ls ls' : List Layer} (hls : ls ≠ [])
    (h : layersFrom data (rounds + 1) (some what) offset = ok (l :: ls))
    (h' : layersFrom (data ++ t) (rounds + 1) (some what) offset = ok ls') :
    ∃ next nextOffset rest', next.rank + 1 = what.rank ∧ ls' = l.grow t.length :: rest' ∧
      layersFrom data rounds (some next) nextOffset = ok ls ∧
      layersFrom (data ++ t) rounds (some next) nextOffset = ok rest' := by
  obtain ⟨dr, dr', rest', hdecode, -, -, hgrown, hls', hrest, hrest'⟩ :=
    layersFrom_append (by omega) h h'
  have hfollows := follows_of_decode hs hdecode
  rw [hgrown.next hw] at hrest'
  cases hnext : dr.next with
  | none =>
    rw [hnext] at hrest
    cases rounds with
    | zero => cases hrest
    | succ rounds =>
      cases hrest
      exact absurd rfl hls
  | some next =>
    rw [hnext] at hrest hrest'
    exact ⟨next, dr.nextOffset, rest', hfollows.descends next hnext, hls', hrest, hrest'⟩

theorem getLast?_behind {what : NextDecode} {dr : DecodeResult} (hs : data.length < maxBytes)
    (hdecode : what.decode data offset = ok dr) (ht : dr.layer.isTransport) {ls : List Layer}
    (h : layersFrom data (rounds + 1) dr.next dr.nextOffset = ok ls) :
    ls.getLast? =
      if dr.nextOffset < data.length then
        some (.payload dr.nextOffset (data.length - dr.nextOffset))
      else none := by
  have hfollows := follows_of_decode hs hdecode
  obtain ⟨transport, hnext⟩ := hfollows.carries ht
  rw [hnext] at h
  by_cases hmore : dr.nextOffset < data.length
  · rw [if_pos hmore] at h
    obtain ⟨_, hpayload, hlast⟩ := returns_payloadLayers hs dr.nextOffset transport
    cases h.symm.trans hpayload
    exact hlast
  · rw [if_neg hmore] at h
    cases h
    rw [if_neg hmore]
    rfl

theorem eq_nil_of_transport {what : NextDecode} (hs : (data ++ t).length < maxBytes)
    (hw : 0 < what.rank) {l : Layer} (ht : l.isTransport) {ls : List Layer}
    (h : layersFrom data (rounds + 2) (some what) offset = ok (l :: ls))
    (h' : layersFrom (data ++ t) (rounds + 2) (some what) offset = ok (l :: ls)) : t = [] := by
  have hlen := List.length_append ▸ hs
  have hdata : data.length < maxBytes := by omega
  obtain ⟨dr, dr', rest', hdecode, hdecode', rfl, hgrown, hls, hrest, hrest'⟩ :=
    layersFrom_append hw h h'
  injection hls with hl hls
  subst hls
  have hinside := (follows_of_decode hdata hdecode).inside
  rw [← hgrown.nextOffset] at hrest'
  have hlast := getLast?_behind hdata hdecode ht hrest
  have ht' : dr'.layer.isTransport := by rwa [hgrown.layer, ← hl]
  rw [getLast?_behind hs hdecode' ht' hrest', hgrown.nextOffset, List.length_append] at hlast
  refine List.eq_nil_of_length_eq_zero ?_
  by_contra hne
  rw [if_pos (by omega)] at hlast
  by_cases hmore : dr.nextOffset < data.length
  · rw [if_pos hmore] at hlast
    injection hlast with hpayload
    injection hpayload with _ hlength
    omega
  · rw [if_neg hmore] at hlast
    cases hlast

end Chain

section Frames

variable [Digests]

/-- The bytes that an IP packet takes. -/
def Layer.ipLength : Layer → Option ℕ
  | .ipv4 h => some h.totalLength.toNat
  | .ipv6 h => some (40 + h.payloadLength.toNat)
  | _ => none

/-- A fully captured Ethernet frame that ends with its IP packet, with TCP or UDP inside. -/
structure IpFrame where
  raw : RawPacket
  linktype : raw.linktype = .ethernet
  captured : raw.wireLen.toNat = raw.data.length
  ethernet : EthernetHeader
  ip : Layer
  transport : Layer
  rest : List Layer
  layers : decodeLayers raw.data .ethernet = ok (.ethernet ethernet :: ip :: transport :: rest)
  ends : ip.ipLength = some (raw.data.length - 14)
  carries : transport.isTransport

/-- Bytes that the link layer appends. -/
structure Padding (raw : RawPacket) where
  bytes : List UInt8
  fits : (raw.data ++ bytes).length < maxBytes

def Padding.padded {raw : RawPacket} (p : Padding raw) : RawPacket where
  number := raw.number
  timestamp := raw.timestamp
  wireLen := UInt32.ofNat (raw.data ++ p.bytes).length
  data := raw.data ++ p.bytes
  linktype := raw.linktype
  fits := p.fits

/-- Two packets have the same layers and get the same annotation from every tracker. -/
structure SameDerivation (pkt pkt' : DecodedPacket) : Prop where
  layers : pkt'.layers = pkt.layers
  annotation : ∀ (F : Type) [F64 F] (tracker : FlowTracker F),
    (tracker.update pkt').2.2.map FlowUpdate.annotation =
      (tracker.update pkt).2.2.map FlowUpdate.annotation

/-- Nothing that decoding derives from a packet changes with the padding. -/
def Padding.Harmless {raw : RawPacket} (p : Padding raw) : Prop :=
  ∃ pkt pkt', decodePacket raw = ok pkt ∧ decodePacket p.padded = ok pkt' ∧ SameDerivation pkt pkt'

/-- The layers of a packet are those of its data. -/
theorem layers_of_decodePacket {raw : RawPacket} {pkt : DecodedPacket}
    (h : decodePacket raw = ok pkt) : decodeLayers raw.data raw.linktype = ok pkt.layers := by
  rw [decodePacket] at h
  cases hlayers : decodeLayers raw.data raw.linktype with
  | refuse => rw [hlayers] at h; cases h
  | fault e => rw [hlayers] at h; cases h
  | ok layers =>
    rw [hlayers] at h
    cases h
    rfl

namespace IpFrame

variable (f : IpFrame)

theorem layers_padded {t : List UInt8} {ls : List Layer}
    (h : decodeLayers (f.raw.data ++ t) .ethernet = ok ls) :
    ∃ what offset rest', 0 < what.rank ∧
      ls = .ethernet f.ethernet :: f.ip :: f.transport.grow t.length :: rest' ∧
      layersFrom f.raw.data 3 (some what) offset = ok (f.transport :: f.rest) ∧
      layersFrom (f.raw.data ++ t) 3 (some what) offset =
        ok (f.transport.grow t.length :: rest') := by
  have hl := f.layers
  unfold decodeLayers initialDecode at h hl
  obtain ⟨network, o, rest', hnetwork, rfl, hl, h⟩ :=
    layersFrom_append_network f.raw.fits (by decide) (List.cons_ne_nil _ _) hl h
  change network.rank + 1 = 3 at hnetwork
  obtain ⟨what, o, rest', hwhat, rfl, hl, h⟩ :=
    layersFrom_append_network f.raw.fits (by omega) (List.cons_ne_nil _ _) hl h
  have hrank : 0 < what.rank := by omega
  obtain ⟨-, -, rest'', -, -, -, -, rfl, -, -⟩ := layersFrom_append hrank hl h
  have hip : f.ip.grow t.length = f.ip := by
    have hends := f.ends
    cases hip : f.ip <;> rw [hip] at hends
    case tcp => cases hends
    all_goals rfl
  rw [hip]
  exact ⟨what, o, rest'', hrank, rfl, hl, h⟩

theorem eq_nil_of_same_layers {t : List UInt8} (hs : (f.raw.data ++ t).length < maxBytes)
    (h : decodeLayers (f.raw.data ++ t) .ethernet = decodeLayers f.raw.data .ethernet) : t = [] := by
  rw [f.layers] at h
  obtain ⟨what, offset, rest', hw, hls, hl, h⟩ := f.layers_padded h
  injection hls with _ hls
  injection hls with _ hls
  rw [← hls] at h
  exact eq_nil_of_transport hs hw f.carries hl h

theorem padded_of_nil (p : Padding f.raw) (h : p.bytes = []) : p.padded = f.raw := by
  obtain ⟨bytes, fits⟩ := p
  obtain ⟨raw, _, captured, _⟩ := f
  subst h
  have hlen : UInt32.ofNat raw.data.length = raw.wireLen := by
    rw [← captured, UInt32.ofNat_toNat]
  simp only [Padding.padded, List.append_nil, hlen]

theorem bytes_eq_nil_of_harmless {p : Padding f.raw} (h : p.Harmless) : p.bytes = [] := by
  obtain ⟨pkt, pkt', hdecode, hdecode', hsame⟩ := h
  have hl := layers_of_decodePacket hdecode
  have hl' := layers_of_decodePacket hdecode'
  change decodeLayers (f.raw.data ++ p.bytes) f.raw.linktype = _ at hl'
  rw [f.linktype] at hl hl'
  refine f.eq_nil_of_same_layers p.fits ?_
  rw [hl, hl', hsame.layers]

/-- Padding a frame changes what is derived from it. -/
theorem padding_harmless_iff (p : Padding f.raw) : p.Harmless ↔ p.bytes = [] := by
  refine ⟨f.bytes_eq_nil_of_harmless, fun h => ?_⟩
  obtain ⟨pkt, hpkt⟩ := decodePacket_returns f.raw
  refine ⟨pkt, pkt, hpkt, ?_, rfl, fun _ _ _ => rfl⟩
  rw [f.padded_of_nil p h, hpkt]

end IpFrame

/-- What the tracker reads of a TCP header. -/
def TcpHeader.bits (h : TcpHeader) : TcpBits where
  seq := h.seqNum.toNat
  ack := h.ackNum.toNat
  payloadLen := h.payloadLen
  syn := h.flags.syn
  ackFlag := h.flags.ack
  fin := h.flags.fin
  rst := h.flags.rst

namespace IpFrame

variable (f : IpFrame)

theorem extract_tcp : ∃ (src dst : IpAddr) (protocol : UInt8), ∀ (h : TcpHeader) (rest : List Layer),
    extractPktFlowInfo (.ethernet f.ethernet :: f.ip :: .tcp h :: rest) =
      some ⟨src, dst, h.srcPort, h.dstPort, protocol, some h.bits⟩ := by
  have hends := f.ends
  cases hip : f.ip <;> rw [hip] at hends
  case ipv4 ip => exact ⟨_, _, ip.protocol, fun _ _ => rfl⟩
  case ipv6 ip => exact ⟨_, _, ip.nextHeader, fun _ _ => rfl⟩
  all_goals cases hends

/-- After some packet, the tracker takes exactly one of a TCP frame and its padded form for a
retransmission. -/
theorem annotation_changes {h : TcpHeader} (htcp : f.transport = .tcp h) {p : Padding f.raw}
    (hp : p.bytes ≠ []) {pkt pkt' : DecodedPacket} (hpkt : decodePacket f.raw = ok pkt)
    (hpkt' : decodePacket p.padded = ok pkt') (F : Type) [F64 F] :
    ∃ before : DecodedPacket,
      let tracker := ((FlowTracker.new : FlowTracker F).update before).1
      (tracker.update pkt').2.2.map FlowUpdate.annotation ≠
        (tracker.update pkt).2.2.map FlowUpdate.annotation := by
  have hl := layers_of_decodePacket hpkt
  have hl' := layers_of_decodePacket hpkt'
  rw [f.linktype] at hl
  change decodeLayers (f.raw.data ++ p.bytes) f.raw.linktype = _ at hl'
  rw [f.linktype] at hl'
  obtain ⟨-, -, rest', -, hlayers', -, -⟩ := f.layers_padded hl'
  have hlayers := Parse.ok.inj (hl.symm.trans f.layers)
  rw [htcp] at hlayers hlayers'
  obtain ⟨src, dst, protocol, hextract⟩ := f.extract_tcp
  have hpad := List.length_pos_of_ne_nil hp
  -- the earlier segment ends where the longer of two segments with data must not
  let m := if h.payloadLen = 0 then p.bytes.length else h.payloadLen
  let first : TcpHeader := { h with payloadLen := m, flags := .fromBits 0 }
  have hm : 0 < m := by
    change 0 < if _ then _ else _
    split <;> omega
  let info (tcp : TcpBits) : PktFlowInfo := ⟨src, dst, h.srcPort, h.dstPort, protocol, some tcp⟩
  have hinfo (tcp : TcpBits) : (info tcp).tcp = some tcp := rfl
  have hsecond (payloadLen : ℕ) (wire : UInt32) (ts : DateTime) :
      ((FlowTracker.new : FlowTracker F).advance (info first.bits) pkt.wireLen
        pkt.timestamp).annotate (info { h with payloadLen }.bits) wire ts =
        some (decide (0 < payloadLen) &&
          decide (h.seqNum.toNat + payloadLen ≤ h.seqNum.toNat + m)) :=
    annotate_second wire ts (hinfo first.bits) hm rfl rfl (hinfo { h with payloadLen }.bits) rfl rfl
      pkt.wireLen pkt.timestamp
  refine ⟨{ pkt with layers := [.ethernet f.ethernet, f.ip, .tcp first] }, ?_⟩
  dsimp only
  rw [FlowTracker.update_of_info .new (hextract first []),
    FlowTracker.update_of_info _ (hlayers' ▸ hextract _ rest'),
    FlowTracker.update_of_info _ (hlayers ▸ hextract h f.rest)]
  simp only [Option.map_some, FlowTracker.flowUpdate, ne_eq, Option.some.injEq]
  rw [hsecond (h.payloadLen + p.bytes.length), hsecond h.payloadLen]
  simp only [Option.map_some, Option.some.injEq, FlowAnnotation.mk.injEq]
  intro heq
  have hiff := Bool.eq_iff_iff.mp heq
  simp only [Bool.and_eq_true, decide_eq_true_eq] at hiff
  have hfirst : m = p.bytes.length ∧ h.payloadLen = 0 ∨ m = h.payloadLen ∧ 0 < h.payloadLen := by
    by_cases hzero : h.payloadLen = 0
    · exact .inl ⟨if_pos hzero, hzero⟩
    · exact .inr ⟨if_neg hzero, Nat.pos_of_ne_zero hzero⟩
  omega

end IpFrame

/-- An acknowledgement without payload, in a frame of 54 bytes. -/
def ackBytes : List UInt8 :=
  [2, 0, 0, 0, 0, 1, 2, 0, 0, 0, 0, 2, 8, 0] ++
    [0x45, 0, 0, 40, 0, 1, 0, 0, 64, 6, 0, 0, 10, 0, 0, 1, 10, 0, 0, 2] ++
      [0xc3, 0x50, 1, 0xbb, 0, 0, 0, 1, 0, 0, 0, 1, 0x50, 0x10, 1, 0, 0, 0, 0, 0]

def ackFrame : IpFrame where
  raw := ⟨0, 0, 54, ackBytes, .ethernet, by decide⟩
  linktype := rfl
  captured := rfl
  ethernet := ⟨⟨[2, 0, 0, 0, 0, 2]⟩, ⟨[2, 0, 0, 0, 0, 1]⟩, 0x0800, (0, 14)⟩
  ip := .ipv4 ⟨4, 5, 0, 0, 40, 1, 0, 0, 64, 6, 0, 0x0a000001, 0x0a000002, (14, 34)⟩
  transport := .tcp ⟨50000, 443, 1, 1, 5, .fromBits 0x10, 256, 0, 0, 0, (34, 54)⟩
  rest := []
  layers := rfl
  ends := rfl
  carries := rfl

/-- The six zero bytes that fill the frame up to 60. -/
def ackPadding : Padding ackFrame.raw where
  bytes := List.replicate 6 0
  fits := (by decide : (ackBytes ++ List.replicate 6 0).length < maxBytes)

theorem ackPadding_not_harmless : ¬ackPadding.Harmless := by
  intro h
  cases ackFrame.bytes_eq_nil_of_harmless h

end Frames

theorem not_padding_harmless : ¬∀ (_ : Digests) (f : IpFrame) (p : Padding f.raw), p.Harmless := by
  intro h
  let digests : Digests := ⟨fun _ => Vector.replicate 16 0, fun _ => Vector.replicate 32 0⟩
  exact ackPadding_not_harmless (h digests ackFrame ackPadding)

end Pktscope

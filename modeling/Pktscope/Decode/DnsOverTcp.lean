import Pktscope.Decode.DnsCompression
import Pktscope.Decode.DnsPairs
import Pktscope.Decode.Path

/-! # DNS over TCP

A message stands behind its length in a TCP stream. The chain hands the payload of a
segment to the DNS decoder as it is, so the length is read as the identifier and every
field of the header two bytes early.
-/

namespace Pktscope

open Library Parse

/-- The numbers of entries that a header at a place gives. -/
def countsAt (m : List UInt8) (i : ℕ) : SectionCounts :=
  ⟨(wordAt m i).toNat, (wordAt m (i + 2)).toNat, (wordAt m (i + 4)).toNat, (wordAt m (i + 6)).toNat⟩

/-- A message that is decoded behind its own length as it is alone: each header field agrees with the
one in front of it, and the entries of the segment's payload go in pairs with those from the
additional count on. -/
structure FramedAlike (m : List UInt8) : Prop where
  length : (wordAt m 0).toNat = m.length
  query : (wordAt m 0).toNat < 2 ^ 15
  count : (wordAt m 2).toNat ≤ 100
  rcode : (wordAt m 0).toNat % 16 = (wordAt m 2).toNat % 16
  entries : SectionsAlike (vec16 m) 2 0 14 12 (countsAt m 4) (countsAt m 2)

section Framed

theorem counts_lt_iff (qd an ns ar : UInt16) :
    (100 < qd ∨ 4096 < an ∨ 4096 < ns ∨ 4096 < ar) ↔
      (100 < qd.toNat ∨ 4096 < an.toNat ∨ 4096 < ns.toNat ∨ 4096 < ar.toNat) := by
  simp only [UInt16.lt_iff_toNat_lt]
  exact Iff.rfl

variable {m : List UInt8} (hs : (vec16 m).length < maxBytes) (hlen : m.length < 2 ^ 16)

theorem wordAt_vec16 (i : ℕ) : wordAt (vec16 m) (i + 2) = wordAt m i := by
  rw [Nat.add_comm]
  exact @wordAt_shift m (toBe16 (UInt16.ofNat m.length)) i

theorem wordAt_vec16_zero : wordAt (vec16 m) 0 = UInt16.ofNat m.length :=
  be16_toBe16 (UInt16.ofNat m.length)

include hs

theorem readSections_vec16_iff : (∃ sections pos pos',
    readSections m 0 12 (wordAt m 4).toNat (wordAt m 6).toNat (wordAt m 8).toNat
      (wordAt m 10).toNat = ok (sections, pos) ∧
    readSections (vec16 m) 0 12 (wordAt m 2).toNat (wordAt m 4).toNat (wordAt m 6).toNat
      (wordAt m 8).toNat = ok (sections, pos')) ↔
    SectionsAlike (vec16 m) 2 0 14 12 (countsAt m 4) (countsAt m 2) := by
  have hb : 2 ≤ (vec16 m).length := by
    rw [length_vec16]
    omega
  have hshift := @readSections_shift m 0 (toBe16 (UInt16.ofNat m.length)) hs (Nat.zero_le _) 12
  rw [← exists_readSections_iff hs hb (Nat.zero_le _)]
  constructor
  · rintro ⟨sections, pos, pos', hplain, hframed⟩
    have hread := hshift (wordAt m 4).toNat (wordAt m 6).toNat (wordAt m 8).toNat (wordAt m 10).toNat
    rw [hplain] at hread
    exact ⟨sections, _, pos', hread, hframed⟩
  · rintro ⟨sections, e, pos', hplain, hframed⟩
    have hread := (hshift _ _ _ _).symm.trans hplain
    obtain ⟨⟨sections', pos⟩, hmessage, hsame⟩ := bind_eq_ok.mp hread
    cases hsame
    exact ⟨sections', pos, pos', hmessage, hframed⟩

include hlen

theorem tryDecodeDns_vec16_iff {i : DnsInfo} (hdecode : tryDecodeDns m 0 = ok i) :
    (∃ i', tryDecodeDns (vec16 m) 0 = ok i' ∧ i.SameMessage i') ↔ FramedAlike m := by
  have hs' : m.length < maxBytes := by
    rw [length_vec16] at hs
    omega
  have hhead : 0 + 12 ≤ m.length := by
    by_contra hshort
    rw [tryDecodeDns_short (not_le.mp hshort)] at hdecode
    cases hdecode
  have hid : UInt16.ofNat m.length = wordAt m 0 ↔ (wordAt m 0).toNat = m.length := by
    rw [← UInt16.toNat_inj, UInt16.toNat_ofNat', Nat.mod_eq_of_lt hlen]
    exact eq_comm
  have hwords (i : ℕ) : wordAt (vec16 m) (i + 2) = wordAt m i := wordAt_vec16 i
  have hhead' : 0 + 12 ≤ (vec16 m).length := by
    rw [length_vec16]
    omega
  have hframed := tryDecodeDns_eq hs hhead'
  simp only [Nat.zero_add] at hframed
  rw [wordAt_vec16_zero, hwords 0, hwords 2, hwords 4, hwords 6, hwords 8] at hframed
  rw [tryDecodeDns_eq hs' hhead] at hdecode
  simp only [Nat.zero_add] at hdecode
  split at hdecode
  · cases hdecode
  rename_i hguard
  rw [counts_lt_iff] at hguard
  obtain ⟨⟨sections, pos⟩, hsections, hdecode⟩ := bind_eq_ok.mp hdecode
  cases hdecode
  constructor
  · rintro ⟨i', hdecode', hsame⟩
    rw [hframed] at hdecode'
    split at hdecode'
    · cases hdecode'
    rename_i hguard'
    rw [counts_lt_iff] at hguard'
    obtain ⟨⟨sections', pos'⟩, hsections', hdecode'⟩ := bind_eq_ok.mp hdecode'
    cases hdecode'
    injection hsame with hsameId hresponse hrcode hq ha hu hd
    have hcount : (wordAt m 2).toNat ≤ 100 := by omega
    have hsections'' : sections' = sections := by
      cases sections'
      cases sections
      simp only at hq ha hu hd
      rw [hq, ha, hu, hd]
    refine ⟨hid.mp hsameId, ?_, hcount, ?_, ?_⟩
    · rw [and_0x8000_ne, and_0x8000_ne, decide_eq_decide] at hresponse
      omega
    · rw [and_0x000f, and_0x000f, ← UInt8.toNat_inj, UInt8.toNat_ofNat', UInt8.toNat_ofNat']
        at hrcode
      omega
    · rw [hsections''] at hsections'
      exact (readSections_vec16_iff hs).mp ⟨sections, pos, pos', hsections, hsections'⟩
  · rintro ⟨hlength, hquery, hcount, hrcode, hentries⟩
    obtain ⟨sections', _, pos', hplain, hread⟩ := (readSections_vec16_iff hs).mpr hentries
    cases hplain.symm.trans hsections
    have hguard' : ¬(100 < wordAt m 2 ∨ 4096 < wordAt m 4 ∨ 4096 < wordAt m 6 ∨
        4096 < wordAt m 8) := by
      rw [counts_lt_iff]
      omega
    have hresponse : (wordAt m 0 &&& 0x8000 != 0) = (wordAt m 2 &&& 0x8000 != 0) := by
      rw [and_0x8000_ne, and_0x8000_ne]
      exact decide_eq_decide.mpr (by omega)
    rw [hframed, if_neg hguard', hread]
    refine ⟨_, rfl, ?_⟩
    rw [DnsInfo.SameMessage, hid.mpr hlength, hresponse, and_0x000f, and_0x000f, hrcode]

end Framed

section Packets

theorem Path.dns_not_mem {data : List UInt8} (hs : data.length < maxBytes) {what last : NextDecode}
    {o stop : ℕ} {front : List Layer} (h : Path data what o last stop front) (i : DnsInfo) :
    Layer.dns i ∉ front := by
  induction h with
  | here what o => exact List.not_mem_nil
  | header hdecode _ _ ih =>
    rw [List.mem_cons, not_or]
    refine ⟨?_, ih⟩
    intro hlayer
    have hrange := (spans_of_decode hs hdecode).range
    rw [← hlayer] at hrange
    cases hrange

theorem DnsInfo.sameMessage_moved (i i' : DnsInfo) (range range' : ByteRange) :
    ({ i with headerRange := range } : DnsInfo).SameMessage { i' with headerRange := range' } ↔
      i.SameMessage i' := by
  cases i
  cases i'
  simp only [DnsInfo.SameMessage, DnsInfo.mk.injEq, and_true]

variable [Digests]

theorem RawPacket.Reaches.dns_mem_iff {raw : RawPacket} {transport : TransportHint} {o : ℕ}
    {front : List Layer} (h : raw.Reaches (.applicationPayload transport) o front)
    (hport : transport.srcPort = 53 ∨ transport.dstPort = 53) {pkt : DecodedPacket}
    (hpkt : decodePacket raw = ok pkt) (i : DnsInfo) :
    Layer.dns i ∈ pkt.layers ↔ tryDecodeDns raw.data o = ok i := by
  obtain ⟨rounds, rest, hrounds, hrest, hlayers⟩ := h.layers
  obtain ⟨first, -, hpath⟩ := h
  have hfront := hpath.dns_not_mem raw.fits i
  rw [decodePacket, hlayers] at hpkt
  cases hpkt
  obtain ⟨rounds, rfl⟩ := Nat.exists_eq_succ_of_ne_zero (Nat.ne_of_gt hrounds)
  change payloadLayers raw.data o transport = ok rest at hrest
  rw [payloadLayers, appLayer, if_pos hport] at hrest
  rw [List.mem_append, or_iff_right hfront]
  by_cases ho : o < raw.data.length
  · rw [if_pos ho, subUsize, if_pos ho.le] at hrest
    cases hdecode : tryDecodeDns raw.data o with
    | ok j =>
      rw [hdecode] at hrest
      cases hrest
      constructor
      · intro hmem
        rcases List.mem_cons.mp hmem with hmem | hmem
        · cases hmem
          rfl
        · cases List.mem_singleton.mp hmem
      · rintro ⟨⟩
        exact List.mem_cons_self
    | refuse =>
      rw [hdecode] at hrest
      cases hrest
      constructor
      · intro hmem
        cases List.mem_singleton.mp hmem
      · rintro ⟨⟩
    | fault f =>
      rw [hdecode] at hrest
      cases hrest
  · rw [if_neg ho] at hrest
    cases hrest
    rw [tryDecodeDns_short (by omega)]
    constructor
    · intro hmem
      cases hmem
    · rintro ⟨⟩

omit [Digests] in
theorem tryDecodeDns_drop {data : List UInt8} (hs : data.length < maxBytes) {o : ℕ}
    (ho : o ≤ data.length) : tryDecodeDns data o = do
      let i ← tryDecodeDns (data.drop o) 0
      return { i with headerRange := (o, o + i.headerRange.2) } := by
  have hlen : (data.take o).length = o := List.length_take_of_le ho
  have hsplit : (data.take o ++ data.drop o).length < maxBytes := by
    rwa [List.take_append_drop]
  have hshift := tryDecodeDns_shift hsplit
  rwa [List.take_append_drop, hlen] at hshift

/-- The segment that carries a message behind its length has the DNS layer of the datagram that carries
the message exactly if the message is decoded alike behind its length. -/
theorem dnsOverTcp_iff {udp tcp : RawPacket} {m : List UInt8} {us ud ts td : UInt16} {o o' : ℕ}
    {front front' : List Layer} (hudp : udp.Reaches (.applicationPayload ⟨us, ud, false⟩) o front)
    (hport : us = 53 ∨ ud = 53) (hm : udp.data.drop o = m)
    (htcp : tcp.Reaches (.applicationPayload ⟨ts, td, true⟩) o' front')
    (hport' : ts = 53 ∨ td = 53) (hlen : m.length < 2 ^ 16) (hm' : tcp.data.drop o' = vec16 m)
    {pkt pkt' : DecodedPacket} (hpkt : decodePacket udp = ok pkt) (hpkt' : decodePacket tcp = ok pkt')
    {i : DnsInfo} (hi : Layer.dns i ∈ pkt.layers) :
    (∃ i', Layer.dns i' ∈ pkt'.layers ∧ i.SameMessage i') ↔ FramedAlike m := by
  have ho' : o' ≤ tcp.data.length := by
    by_contra hout
    rw [List.drop_of_length_le (not_le.mp hout).le] at hm'
    cases hm'
  have hs : (vec16 m).length < maxBytes := by
    rw [← hm', List.length_drop]
    have hfits := tcp.fits
    omega
  rw [hudp.dns_mem_iff hport hpkt] at hi
  have ho : o ≤ udp.data.length := by
    by_contra hout
    rw [tryDecodeDns_short (by omega)] at hi
    cases hi
  rw [tryDecodeDns_drop udp.fits ho, hm] at hi
  obtain ⟨j, hj, hi⟩ := bind_eq_ok.mp hi
  cases hi
  rw [← tryDecodeDns_vec16_iff hs hlen hj]
  simp only [htcp.dns_mem_iff hport' hpkt', tryDecodeDns_drop tcp.fits ho', hm', bind_eq_ok]
  constructor
  · rintro ⟨_, ⟨j', hj', ⟨⟩⟩, hsame⟩
    exact ⟨j', hj', (DnsInfo.sameMessage_moved j j' _ _).mp hsame⟩
  · rintro ⟨j', hj', hsame⟩
    exact ⟨_, ⟨j', hj', rfl⟩, (DnsInfo.sameMessage_moved j j' _ _).mpr hsame⟩

end Packets

section Query

/-- A query for the address of `a`. -/
def queryMessage : List UInt8 := [0x12, 0x34, 1, 0, 0, 1, 0, 0, 0, 0, 0, 0, 1, 0x61, 0, 0, 1, 0, 1]

/-- The query in a datagram. -/
def queryDatagram : RawPacket where
  number := 1
  timestamp := 0
  wireLen := 47
  data := [0x45, 0, 0, 47, 0, 0, 0, 0, 64, 17, 0, 0, 10, 0, 0, 1, 10, 0, 0, 2] ++
    [0x30, 0x39, 0, 53, 0, 27, 0, 0] ++ queryMessage
  linktype := .rawIp
  fits := by decide

/-- The query behind its length in a segment. -/
def querySegment : RawPacket where
  number := 2
  timestamp := 0
  wireLen := 61
  data := [0x45, 0, 0, 61, 0, 0, 0, 0, 64, 6, 0, 0, 10, 0, 0, 1, 10, 0, 0, 2] ++
    [0x30, 0x39, 0, 53, 0, 0, 0, 1, 0, 0, 0, 1, 0x50, 0x18, 0x20, 0, 0, 0, 0, 0] ++ vec16 queryMessage
  linktype := .rawIp
  fits := by decide

theorem reaches_queryDatagram :
    ∃ front, queryDatagram.Reaches (.applicationPayload ⟨0x3039, 53, false⟩) 28 front := by
  have hip : ∃ dr, decodeIpv4 queryDatagram.data 0 = ok dr ∧ dr.next = some .udp ∧
      dr.nextOffset = 20 := ⟨_, rfl, rfl, rfl⟩
  have hudp : ∃ dr, decodeUdp queryDatagram.data 20 = ok dr ∧
      dr.next = some (.applicationPayload ⟨0x3039, 53, false⟩) ∧ dr.nextOffset = 28 :=
    ⟨_, rfl, rfl, rfl⟩
  obtain ⟨ip, hip, hnext, hstop⟩ := hip
  obtain ⟨udp, hudp, hnext', hstop'⟩ := hudp
  refine ⟨[ip.layer, udp.layer], .ipv4, rfl, .header hip hnext ?_⟩
  rw [hstop]
  refine .header hudp hnext' ?_
  rw [hstop']
  exact .here _ 28

theorem reaches_querySegment :
    ∃ front, querySegment.Reaches (.applicationPayload ⟨0x3039, 53, true⟩) 40 front := by
  have hip : ∃ dr, decodeIpv4 querySegment.data 0 = ok dr ∧ dr.next = some .tcp ∧
      dr.nextOffset = 20 := ⟨_, rfl, rfl, rfl⟩
  have htcp : ∃ dr, decodeTcp querySegment.data 20 = ok dr ∧
      dr.next = some (.applicationPayload ⟨0x3039, 53, true⟩) ∧ dr.nextOffset = 40 :=
    ⟨_, rfl, rfl, rfl⟩
  obtain ⟨ip, hip, hnext, hstop⟩ := hip
  obtain ⟨tcp, htcp, hnext', hstop'⟩ := htcp
  refine ⟨[ip.layer, tcp.layer], .ipv4, rfl, .header hip hnext ?_⟩
  rw [hstop]
  refine .header htcp hnext' ?_
  rw [hstop']
  exact .here _ 40

theorem tryDecodeDns_query : tryDecodeDns queryDatagram.data 28 =
    ok ⟨0x1234, false, 0, [⟨"a", 1, 1⟩], [], [], [], (28, 47)⟩ := by
  decide +kernel

/-- The datagram has a DNS layer, and the segment has none. -/
theorem decodePacket_query : ∃ (_ : Digests) (pkt pkt' : DecodedPacket),
    decodePacket queryDatagram = ok pkt ∧ decodePacket querySegment = ok pkt' ∧
      Layer.dns ⟨0x1234, false, 0, [⟨"a", 1, 1⟩], [], [], [], (28, 47)⟩ ∈ pkt.layers ∧
      ¬∃ i, Layer.dns i ∈ pkt'.layers := by
  let digests : Digests := ⟨fun _ => Vector.replicate 16 0, fun _ => Vector.replicate 32 0⟩
  obtain ⟨pkt, hpkt⟩ := decodePacket_returns queryDatagram
  obtain ⟨pkt', hpkt'⟩ := decodePacket_returns querySegment
  obtain ⟨front, hudp⟩ := reaches_queryDatagram
  obtain ⟨front', htcp⟩ := reaches_querySegment
  refine ⟨digests, pkt, pkt', hpkt, hpkt', ?_, ?_⟩
  · exact (hudp.dns_mem_iff (.inr rfl) hpkt _).mpr tryDecodeDns_query
  · rintro ⟨i, hi⟩
    have hrefused : tryDecodeDns querySegment.data 40 = refuse := by decide +kernel
    rw [htcp.dns_mem_iff (.inr rfl) hpkt', hrefused] at hi
    cases hi

theorem dnsOverTcp_query : ∃ (_ : Digests) (pkt pkt' : DecodedPacket) (i : DnsInfo),
    decodePacket queryDatagram = ok pkt ∧ decodePacket querySegment = ok pkt' ∧
      ((∃ i', Layer.dns i' ∈ pkt'.layers ∧ i.SameMessage i') ↔ FramedAlike queryMessage) := by
  let digests : Digests := ⟨fun _ => Vector.replicate 16 0, fun _ => Vector.replicate 32 0⟩
  obtain ⟨pkt, hpkt⟩ := decodePacket_returns queryDatagram
  obtain ⟨pkt', hpkt'⟩ := decodePacket_returns querySegment
  obtain ⟨front, hudp⟩ := reaches_queryDatagram
  obtain ⟨front', htcp⟩ := reaches_querySegment
  have hi := (hudp.dns_mem_iff (.inr rfl) hpkt _).mpr tryDecodeDns_query
  exact ⟨digests, pkt, pkt', _, hpkt, hpkt',
    dnsOverTcp_iff hudp (.inr rfl) rfl htcp (.inr rfl) (by decide) rfl hpkt hpkt' hi⟩

/-- A question of type 0 for the root, with an identifier of 17 that is the length of the message and
flags of 1 that are the count, is decoded alike behind its length. -/
example : FramedAlike [0, 17, 0, 1, 0, 1, 0, 0, 0, 0, 0, 0, 0, 0, 0, 0, 0] where
  length := rfl
  query := by decide
  count := by decide
  rcode := rfl
  entries := (readSections_vec16_iff (by decide)).mp
    ⟨⟨[⟨"", 0, 0⟩], [], [], []⟩, 17, 17, by decide +kernel, by decide +kernel⟩

end Query

end Pktscope

import Pktscope.Decode.Path
import Pktscope.Flow.Closing

/-! # Fragments

An IPv4 packet with a fragment offset carries bytes from the middle of a datagram.
The decoder goes on behind its header as if they were the start of one, and stops
only where they cannot be read as the header of the protocol.
-/

namespace Pktscope

open Library Parse

/-- A transport layer, or one of what it carries. -/
def Layer.isUpper : Layer → Bool
  | .ethernet _ | .arp _ | .ipv4 _ | .ipv6 _ | .icmp _ | .icmpv6 _ => false
  | _ => true

/-- A part of a datagram other than its first, with the layers before its IPv4 header. -/
structure Fragment (raw : RawPacket) where
  front : List Layer
  offset : ℕ
  header : Ipv4Header
  next : Option NextDecode
  stop : ℕ
  reaches : raw.Reaches .ipv4 offset front
  decoded : decodeIpv4 raw.data offset = ok ⟨.ipv4 header, next, stop⟩
  later : header.fragmentOffset ≠ 0

/-- The bytes from an offset on can be read as a TCP header. -/
structure TcpHeaderAt (data : List UInt8) (o : ℕ) : Prop where
  fixed : o + 20 ≤ data.length
  words : 5 ≤ (peek data (o + 12) >>> 4).toNat
  options : o + (peek data (o + 12) >>> 4).toNat * 4 ≤ data.length

namespace Fragment

variable {raw : RawPacket} (f : Fragment raw)

/-- What is behind the header can be read as the transport header of its protocol. -/
def ReadsAsTransport : Prop :=
  f.header.protocol = 6 ∧ TcpHeaderAt raw.data f.stop ∨
    f.header.protocol = 17 ∧ f.stop + 8 ≤ raw.data.length

/-- What is behind the header can be read as an ICMP header. -/
def ReadsAsIcmp : Prop := f.header.protocol = 1 ∧ f.stop + 8 ≤ raw.data.length

end Fragment

/-- Nothing above the network layer is read from a packet, and no tracker heeds it. -/
structure DecodedPacket.Ignored (pkt : DecodedPacket) : Prop where
  layers : ∀ l ∈ pkt.layers, l.isUpper = false
  untracked : ∀ (F : Type) [F64 F] (tracker : FlowTracker F),
    tracker.update pkt = (tracker, pkt, none)

section Headers

variable {data : List UInt8} {o : ℕ} (hs : data.length < maxBytes)
include hs

theorem holds_decodeTcp_header : Holds (decodeTcp data o) fun dr =>
    TcpHeaderAt data o ∧ ∃ h, dr.layer = .tcp h := by
  refine (holds_decodeTcp hs).mono fun dr hdr => ?_
  obtain ⟨-, -, ⟨hfixed, hwords, hoptions⟩, hlayer⟩ := hdr
  exact ⟨⟨hfixed, hwords, hoptions⟩, hlayer⟩

theorem decodeTcp_ne_refuse (h : TcpHeaderAt data o) : decodeTcp data o ≠ refuse := by
  obtain ⟨hfixed, hwords, hoptions⟩ := h
  have hfive : ¬peek data (o + 12) >>> 4 < 5 := by
    rwa [UInt8.lt_iff_toNat_lt, not_lt]
  rw [decodeTcp, checkedSub, if_pos (by omega), ok_bind, if_neg (by omega),
    be16At_eq hs (by omega), ok_bind, be16At_eq hs (by omega), ok_bind, be32At_eq hs (by omega),
    ok_bind, be32At_eq hs (by omega), ok_bind, byteAt_eq hs (by omega), ok_bind]
  dsimp only
  rw [if_neg hfive, if_neg (by omega)]
  simp (disch := omega) only [be16At_eq hs, byteAt_eq hs, addUsize_eq hs, ok_bind]
  rintro ⟨⟩

theorem holds_decodeUdp_header : Holds (decodeUdp data o) fun dr =>
    o + 8 ≤ data.length ∧ ∃ h, dr.layer = .udp h :=
  (holds_decodeUdp hs).mono fun _ hdr => hdr.2.2

theorem decodeUdp_ne_refuse (h : o + 8 ≤ data.length) : decodeUdp data o ≠ refuse := by
  rw [decodeUdp, checkedSub, if_pos (by omega), ok_bind, if_neg (by omega)]
  simp (disch := omega) only [be16At_eq hs, addUsize_eq hs, ok_bind]
  rintro ⟨⟩

theorem holds_decodeIcmp_header : Holds (decodeIcmp data o) fun dr =>
    o + 8 ≤ data.length ∧ dr.next = none ∧ ∃ h, dr.layer = .icmp h := by
  unfold decodeIcmp icmpHeaderAt
  rw [holds_bind, holds_bind]
  refine holds_checkedSub fun ho => holds_ite (fun _ => trivial) fun hlen => ?_
  simp (disch := omega) only [be16At_eq hs, be32At_eq hs, byteAt_eq hs, addUsize_eq hs]
  exact ⟨by omega, rfl, _, rfl⟩

theorem decodeIcmp_ne_refuse (h : o + 8 ≤ data.length) : decodeIcmp data o ≠ refuse := by
  rw [decodeIcmp, icmpHeaderAt, checkedSub, if_pos (by omega), ok_bind, if_neg (by omega)]
  simp (disch := omega) only [be16At_eq hs, be32At_eq hs, byteAt_eq hs, addUsize_eq hs, ok_bind]
  rintro ⟨⟩

theorem holds_decodeIpv4_next : Holds (decodeIpv4 data o) fun dr =>
    ∀ h, dr.layer = .ipv4 h → dr.next =
      if h.protocol = 1 then some .icmp
      else if h.protocol = 6 then some .tcp
      else if h.protocol = 17 then some .udp
      else none := by
  refine (holds_decodeIpv4 hs).mono fun dr hdr => ?_
  obtain ⟨-, -, header, hlayer, hnext⟩ := hdr
  intro h hh
  rw [hlayer] at hh
  cases hh
  exact hnext

theorem Path.lower {what last : NextDecode} {stop : ℕ} {front : List Layer}
    (h : Path data what o last stop front) (hlast : 0 < last.rank) :
    ∀ l ∈ front, l.isUpper = false := by
  induction h with
  | here => intro l hl; cases hl
  | header hdecode hnext hpath ih =>
    rename_i dr _
    rintro l hl
    rcases List.mem_cons.mp hl with rfl | hl
    · have hfollows := follows_of_decode hs hdecode
      have hrange := (spans_of_decode hs hdecode).range
      have htransport : dr.layer.isTransport = false := by
        rw [Bool.eq_false_iff]
        intro ht
        obtain ⟨transport, hcarries⟩ := hfollows.carries ht
        rw [hnext] at hcarries
        split at hcarries
        · cases hcarries
          cases hpath with
          | here => cases hlast
          | header hdecode' => cases hdecode'
        · cases hcarries
      cases hl : dr.layer <;> rw [hl] at hrange htransport <;> first | rfl | cases hrange | cases htransport
    · exact ih hlast l hl

end Headers

theorem extractFrom_lower {layers : List Layer} (h : ∀ l ∈ layers, l.isUpper = false)
    (srcIp dstIp : Option IpAddr) (protocol : Option UInt8) :
    extractFrom srcIp dstIp protocol layers = none := by
  induction layers generalizing srcIp dstIp protocol with
  | nil => rfl
  | cons l layers ih =>
    have hl := h l List.mem_cons_self
    have hrest := fun l hl => h l (List.mem_cons_of_mem _ hl)
    cases l <;> first | exact ih hrest _ _ _ | cases hl

theorem DecodedPacket.ignored_of_lower {pkt : DecodedPacket}
    (h : ∀ l ∈ pkt.layers, l.isUpper = false) : pkt.Ignored := by
  refine ⟨h, ?_⟩
  intro F _ tracker
  exact FlowTracker.update_of_none tracker (extractFrom_lower h _ _ _)

namespace Fragment

variable [Digests] {raw : RawPacket} (f : Fragment raw)

omit [Digests] in
theorem next_eq : f.next =
    if f.header.protocol = 1 then some .icmp
    else if f.header.protocol = 6 then some .tcp
    else if f.header.protocol = 17 then some .udp
    else none := by
  have hnext := holds_decodeIpv4_next raw.fits (o := f.offset)
  rw [f.decoded] at hnext
  exact hnext f.header rfl

theorem behind {rounds : ℕ} {rest : List Layer}
    (h : layersFrom raw.data (rounds + 2) f.next f.stop = ok rest) :
    (f.ReadsAsTransport ∧ ∃ l ∈ rest, l.isUpper = true) ∨
    (¬f.ReadsAsTransport ∧ f.ReadsAsIcmp ∧ ∃ hdr, rest = [.icmp hdr]) ∨
    (¬f.ReadsAsTransport ∧ ¬f.ReadsAsIcmp ∧ rest = []) := by
  rw [f.next_eq] at h
  unfold ReadsAsTransport ReadsAsIcmp
  by_cases hicmp : f.header.protocol = 1
  · rw [if_pos hicmp] at h
    have hother : f.header.protocol ≠ 6 ∧ f.header.protocol ≠ 17 := by
      rw [hicmp]
      decide
    by_cases hfits : f.stop + 8 ≤ raw.data.length
    · obtain ⟨dr, hdecode, -, hnext, hdr, hlayer⟩ :=
        (holds_decodeIcmp_header raw.fits).returns (decodeIcmp_ne_refuse raw.fits hfits)
      obtain ⟨rest', rfl, hrest'⟩ :=
        layersFrom_of_decode (show 0 < NextDecode.icmp.rank by decide) hdecode h
      rw [hnext] at hrest'
      cases hrest'
      exact .inr (.inl ⟨by tauto, ⟨hicmp, hfits⟩, hdr, by rw [hlayer]⟩)
    · have hrefuse := (holds_decodeIcmp_header raw.fits).refused fun _ hdr => hfits hdr.1
      rw [layersFrom_of_refuse _ (show 0 < NextDecode.icmp.rank by decide) hrefuse] at h
      cases h
      exact .inr (.inr ⟨by tauto, by tauto, rfl⟩)
  · rw [if_neg hicmp] at h
    by_cases htcp : f.header.protocol = 6
    · rw [if_pos htcp] at h
      have hother : f.header.protocol ≠ 17 := by
        rw [htcp]
        decide
      by_cases hfits : TcpHeaderAt raw.data f.stop
      · obtain ⟨dr, hdecode, -, hdr, hlayer⟩ :=
          (holds_decodeTcp_header raw.fits).returns (decodeTcp_ne_refuse raw.fits hfits)
        obtain ⟨rest', rfl, -⟩ := layersFrom_of_decode (show 0 < NextDecode.tcp.rank by decide) hdecode h
        exact .inl ⟨.inl ⟨htcp, hfits⟩, dr.layer, List.mem_cons_self, by rw [hlayer]; rfl⟩
      · have hrefuse := (holds_decodeTcp_header raw.fits).refused fun _ hdr => hfits hdr.1
        rw [layersFrom_of_refuse _ (show 0 < NextDecode.tcp.rank by decide) hrefuse] at h
        cases h
        exact .inr (.inr ⟨by tauto, by tauto, rfl⟩)
    · rw [if_neg htcp] at h
      by_cases hudp : f.header.protocol = 17
      · rw [if_pos hudp] at h
        by_cases hfits : f.stop + 8 ≤ raw.data.length
        · obtain ⟨dr, hdecode, -, hdr, hlayer⟩ :=
            (holds_decodeUdp_header raw.fits).returns (decodeUdp_ne_refuse raw.fits hfits)
          obtain ⟨rest', rfl, -⟩ := layersFrom_of_decode (show 0 < NextDecode.udp.rank by decide) hdecode h
          exact .inl ⟨.inr ⟨hudp, hfits⟩, dr.layer, List.mem_cons_self, by rw [hlayer]; rfl⟩
        · have hrefuse := (holds_decodeUdp_header raw.fits).refused fun _ hdr => hfits hdr.1
          rw [layersFrom_of_refuse _ (show 0 < NextDecode.udp.rank by decide) hrefuse] at h
          cases h
          exact .inr (.inr ⟨by tauto, by tauto, rfl⟩)
      · rw [if_neg hudp] at h
        cases h
        exact .inr (.inr ⟨by tauto, by tauto, rfl⟩)

theorem layers : ∃ rounds rest, layersFrom raw.data (rounds + 2) f.next f.stop = ok rest ∧
    decodeLayers raw.data raw.linktype = ok (f.front ++ .ipv4 f.header :: rest) := by
  obtain ⟨rounds, ls, hrounds, hls, hlayers⟩ := f.reaches.layers
  change 2 < rounds at hrounds
  obtain ⟨rounds, rfl⟩ : ∃ r, rounds = r + 3 := ⟨rounds - 3, by omega⟩
  obtain ⟨rest, rfl, hrest⟩ := layersFrom_of_decode (show 0 < NextDecode.ipv4.rank by decide) f.decoded hls
  exact ⟨rounds, rest, hrest, hlayers⟩

omit [Digests] in
theorem lower_front : ∀ l ∈ f.front ++ [Layer.ipv4 f.header], l.isUpper = false := by
  obtain ⟨first, -, hpath⟩ := f.reaches
  intro l hl
  rcases List.mem_append.mp hl with hl | hl
  · exact hpath.lower raw.fits (by decide) l hl
  · rw [List.mem_singleton.mp hl]
    rfl

/-- A fragment is ignored exactly when its bytes cannot be read as the transport header of its
protocol; and its IPv4 header is the last layer exactly when they cannot be read as an ICMP header
either. -/
theorem ignored_iff : ∃ pkt, decodePacket raw = ok pkt ∧
    (pkt.Ignored ↔ ¬f.ReadsAsTransport) ∧
    (pkt.layers = f.front ++ [.ipv4 f.header] ↔ ¬f.ReadsAsTransport ∧ ¬f.ReadsAsIcmp) := by
  obtain ⟨rounds, rest, hrest, hlayers⟩ := f.layers
  have hfront := f.lower_front
  rw [decodePacket, hlayers]
  refine ⟨_, rfl, ?_⟩
  rcases f.behind hrest with ⟨hreads, l, hl, hupper⟩ | ⟨hreads, hicmp, hdr, rfl⟩ | ⟨hreads, hicmp, rfl⟩
  · constructor
    · refine iff_of_false (fun h => ?_) (not_not_intro hreads)
      have hlower := h.layers l (List.mem_append_right _ (List.mem_cons_of_mem _ hl))
      rw [hupper] at hlower
      cases hlower
    · refine iff_of_false (fun h => ?_) fun h => h.1 hreads
      have hnil : rest = [] := by
        have := List.append_cancel_left h
        injection this
      subst hnil
      cases hl
  · constructor
    · refine iff_of_true (DecodedPacket.ignored_of_lower fun l hl => ?_) hreads
      rcases List.mem_append.mp hl with hl | hl
      · exact hfront l (List.mem_append_left _ hl)
      · rcases List.mem_cons.mp hl with rfl | hl
        · rfl
        · rw [List.mem_singleton.mp hl]
          rfl
    · refine iff_of_false (fun h => ?_) fun h => h.2 hicmp
      have := List.append_cancel_left h
      injection this with _ hnil
      cases hnil
  · exact ⟨iff_of_true (DecodedPacket.ignored_of_lower hfront) hreads,
      iff_of_true rfl ⟨hreads, hicmp⟩⟩

end Fragment

/-- An IPv4 packet with the last eight bytes of a UDP datagram, which look like a header. -/
def lastFragment : RawPacket where
  number := 1
  timestamp := 0
  wireLen := 28
  data := [0x45, 0, 0, 28, 0, 1, 0, 0xb9, 64, 17, 0, 0, 10, 0, 0, 1, 10, 0, 0, 2] ++
    [0, 53, 0, 53, 0, 8, 0, 0]
  linktype := .rawIp
  fits := by decide

/-- Bytes from the middle of a datagram are read as ports. -/
theorem decodePacket_lastFragment : ∃ (_ : Digests) (_ : Fragment lastFragment) (pkt : DecodedPacket),
    decodePacket lastFragment = ok pkt ∧ ¬pkt.Ignored := by
  let digests : Digests := ⟨fun _ => Vector.replicate 16 0, fun _ => Vector.replicate 32 0⟩
  have hip : ∃ h, decodeIpv4 lastFragment.data 0 = ok ⟨.ipv4 h, some .udp, 20⟩ ∧
      h.fragmentOffset ≠ 0 := ⟨_, rfl, by decide⟩
  have hlayers : ∃ ip udp, decodeLayers lastFragment.data .rawIp = ok [.ipv4 ip, .udp udp] :=
    ⟨_, _, rfl⟩
  obtain ⟨h, hdecoded, hlater⟩ := hip
  obtain ⟨ip, udp, hlayers⟩ := hlayers
  refine ⟨digests, ⟨[], 0, h, some .udp, 20, ⟨.ipv4, rfl, .here _ 0⟩, hdecoded, hlater⟩, _,
    by rw [decodePacket]; change (decodeLayers lastFragment.data .rawIp >>= _) = _; rw [hlayers]; rfl,
    ?_⟩
  intro hignored
  have hudp := hignored.layers (.udp udp) (by simp)
  cases hudp

end Pktscope

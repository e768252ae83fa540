import Pktscope.Decode.Path

/-! # Byte ranges of the layers

The ranges of the layers tile the captured data: each header starts where the one
before it ends, and what the application decoders find starts at the end of the
transport header. Only the head of an HTTP/1 message counts from the start of the
payload.
-/

namespace Pktscope

open Library Parse

/-- An application layer that starts at an offset and ends inside the data. -/
def Layer.StartsAt (o len : ℕ) : Layer → Prop
  | .dns i => RangeFrom o len i.headerRange
  | .tlsClientHello i => RangeFrom o len i.headerRange
  | .tlsHandshake i => RangeFrom o len i.headerRange
  | .http i => RangeFrom o len i.headerRange
  | .quic i => RangeFrom o len i.headerRange
  | .http2 _ => True
  | _ => False

/-- The layers cover the data from an offset on, one behind the other. The application payload comes
behind a transport header. -/
inductive Tiled (len : ℕ) : ℕ → Bool → List Layer → Prop
  | done {o : ℕ} (transport : Bool) (hinside : o ≤ len) : Tiled len o transport []
  | header {l : Layer} {o stop : ℕ} (transport : Bool) {rest : List Layer}
      (hrange : l.headerRange = some (o, stop)) (hforward : o < stop)
      (hrest : Tiled len stop l.isTransport rest) : Tiled len o transport (l :: rest)
  | payload {o : ℕ} (hinside : o ≤ len) : Tiled len o true [.payload o (len - o)]
  | app {l : Layer} {o : ℕ} (hinside : o ≤ len) (hl : l.StartsAt o len) :
      Tiled len o true [l, .payload o (len - o)]

/-- A TCP payload that is the head of an HTTP/1 message. -/
structure HttpAt (data : List UInt8) (transport : TransportHint) (o : ℕ) : Prop where
  tcp : transport.isTcp = true
  notDns : transport.srcPort ≠ 53 ∧ transport.dstPort ≠ 53
  head : ∃ i, tryDecodeHttp (slice data o data.length) = ok i

/-- The headers from an offset on lead to the head of an HTTP/1 message. -/
def HttpBehind (data : List UInt8) (what : Option NextDecode) (o : ℕ) : Prop :=
  ∃ first ∈ what, ∃ transport stop front,
    Path data first o (.applicationPayload transport) stop front ∧ HttpAt data transport stop

/-- The packet carries the head of an HTTP/1 message. -/
def RawPacket.CarriesHttp (raw : RawPacket) : Prop :=
  ∃ transport o front, raw.Reaches (.applicationPayload transport) o front ∧ HttpAt raw.data transport o

section Head

theorem firstLine_control (info : HttpInfo) (line : List Char) :
    firstLine info (Char.ofNat 0x16 :: line) = none := by
  have hspace : Char.ofNat 0x16 ≠ ' ' := by decide
  have hmethod : isHttpMethod (Char.ofNat 0x16 :: (splitOnce ' ' line).1) = false := by
    have hall : ∀ m ∈ httpMethods, m.toList.head? ≠ some (Char.ofNat 0x16) := by decide
    rw [isHttpMethod, Bool.eq_false_iff, ne_eq, List.contains_iff_mem]
    intro hmem
    refine hall _ hmem ?_
    rw [String.toList_ofList, List.head?_cons]
  have hversion : "HTTP/".toList.isPrefixOf (Char.ofNat 0x16 :: line) = false := rfl
  unfold firstLine
  simp only [hversion, splitOnce, if_neg hspace, hmethod]
  rfl

theorem splitCrlf_cons {c : Char} (hc : c ≠ '\r') (cs : List Char) :
    ∃ line lines, splitCrlf (c :: cs) = (c :: line) :: lines := by
  unfold splitCrlf
  split
  · contradiction
  · rename_i heq
    injection heq with hr
    exact absurd hr hc
  · rename_i heq
    injection heq with hd hds
    subst hd hds
    split
    · exact ⟨_, _, rfl⟩
    · exact ⟨_, _, rfl⟩

theorem tryDecodeHttp_handshake (rest : List UInt8) (i : HttpInfo) :
    tryDecodeHttp (0x16 :: rest) ≠ ok i := by
  intro h
  unfold tryDecodeHttp at h
  cases hend : headEnd (0x16 :: rest) with
  | refuse => rw [hend] at h; cases h
  | fault f => rw [hend] at h; cases h
  | ok stop =>
    rw [hend, ok_bind, sliceAt] at h
    split at h
    · cases stop with
      | zero => cases h
      | succ n =>
        have hhead : slice (0x16 :: rest) 0 (n + 1) = 0x16 :: rest.take n := rfl
        have hchunks : utf8Chunks 0 (0x16 :: rest.take n) =
            some (Char.ofNat 0x16) :: utf8Chunks 0 (rest.take n) := rfl
        have hchars : (some (Char.ofNat 0x16) :: utf8Chunks 0 (rest.take n)).filterMap id =
            Char.ofNat 0x16 :: (utf8Chunks 0 (rest.take n)).filterMap id := rfl
        rw [ok_bind, hhead, fromUtf8, hchunks, hchars] at h
        split at h
        · obtain ⟨line, lines, hlines⟩ := splitCrlf_cons (c := Char.ofNat 0x16) (by decide)
            ((utf8Chunks 0 (rest.take n)).filterMap id)
          rw [ofOption, ok_bind, String.toList_ofList, hlines] at h
          dsimp only at h
          rw [firstLine_control] at h
          cases h
        · cases h
    · cases h

theorem tryDecodeHttp_preface (rest : List UInt8) : tryDecodeHttp (preface ++ rest) = refuse := by
  have hfind : findSubslice (utf8Bytes "\r\n\r\n") (preface ++ rest) = some 14 := rfl
  have hhead : slice (preface ++ rest) 0 16 = utf8Bytes "PRI * HTTP/2.0\r\n" := by
    rw [slice_append_of_le (by decide)]
    decide
  have hlines : splitCrlf "PRI * HTTP/2.0\r\n".toList = ["PRI * HTTP/2.0".toList, []] := by decide
  have hlength : preface.length = 24 := by decide
  unfold tryDecodeHttp headEnd
  rw [hfind]
  dsimp only
  rw [addUsize, if_pos (by decide), ok_bind, sliceAt,
    if_pos ⟨by decide, by rw [List.length_append]; omega⟩, ok_bind, hhead, fromUtf8_utf8Bytes,
    ofOption, ok_bind, hlines]
  rfl

end Head

section Tiled

variable {len o stop : ℕ} {b : Bool} {l : Layer} {rest : List Layer}

theorem Layer.StartsAt.headerRange (h : l.StartsAt o len) : l.headerRange = none := by
  cases l <;> first | rfl | cases h

theorem tiled_header_iff (hrange : l.headerRange = some (o, stop)) (hforward : o < stop) :
    Tiled len o b (l :: rest) ↔ Tiled len stop l.isTransport rest := by
  constructor
  · intro h
    cases h with
    | header _ hrange' _ hrest =>
      rw [hrange] at hrange'
      cases hrange'
      exact hrest
    | payload _ => cases hrange
    | app _ hl =>
      rw [hl.headerRange] at hrange
      cases hrange
  · exact .header b hrange hforward

theorem tiled_payload_iff (ho : o ≤ len) (app : Option Layer)
    (hheader : ∀ l ∈ app, l.headerRange = none) :
    Tiled len o true (app.toList ++ [.payload o (len - o)]) ↔ ∀ l ∈ app, l.StartsAt o len := by
  cases app with
  | none =>
    constructor
    · rintro - _ ⟨⟩
    · exact fun _ => .payload ho
  | some l =>
    constructor
    · intro h
      cases h with
      | header _ hrange _ _ =>
        rw [hheader l rfl] at hrange
        cases hrange
      | app _ hl =>
        rintro _ ⟨⟩
        exact hl
    · intro h
      exact .app ho (h l rfl)

end Tiled

section Chain

variable [Digests] {data : List UInt8} (hs : data.length < maxBytes)

omit [Digests] in
theorem parseTlsRecord_other {o : ℕ} (ho : o < data.length) (h : peek data o ≠ 0x16) :
    parseTlsRecord data o = refuse := by
  unfold parseTlsRecord
  rw [checkedSub, if_pos ho.le, ok_bind]
  split
  · rfl
  · rw [index_eq_peek ho, ok_bind, if_pos h]

include hs

omit hs in
theorem tcpAppLayer_http {o : ℕ} (ho : o < data.length) {i : HttpInfo}
    (h : tryDecodeHttp (slice data o data.length) = ok i) :
    tcpAppLayer data o = ok (some (.http i)) := by
  have hstream : slice data o data.length = peek data o :: slice data (o + 1) data.length := by
    rw [slice_cons ho ho, peek, List.getD_eq_getElem?_getD, List.getElem?_eq_getElem ho,
      Option.getD_some]
  have hrecord : parseTlsRecord data o = refuse := by
    apply parseTlsRecord_other ho
    intro hbyte
    rw [hstream, hbyte] at h
    exact tryDecodeHttp_handshake _ i h
  have hhello : tryDecodeTlsClientHello data o = refuse := by
    rw [tryDecodeTlsClientHello, hrecord, refuse_bind]
  have hhandshake : tryDecodeTlsHandshake data o = refuse := by
    rw [tryDecodeTlsHandshake, hrecord, refuse_bind]
  have hslice : sliceAt data o data.length = ok (slice data o data.length) :=
    if_pos ⟨ho.le, Nat.le_refl _⟩
  have hframes : tryDecodeHttp2 (slice data o data.length) = refuse := by
    apply if_neg
    intro hpreface
    obtain ⟨t, ht⟩ := List.isPrefixOf_iff_prefix.mp hpreface
    rw [← ht, tryDecodeHttp_preface] at h
    cases h
  rw [tcpAppLayer, hhello, hhandshake, hslice]
  change ((tryDecodeHttp2 _).attempt >>= _) = _
  rw [hframes]
  change ((tryDecodeHttp _).attempt >>= _) = _
  rw [h]
  rfl

theorem returns_tcpAppLayer_startsAt {o : ℕ} (ho : o < data.length)
    (h : ¬∃ i, tryDecodeHttp (slice data o data.length) = ok i) :
    Returns (tcpAppLayer data o) fun app => ∀ l ∈ app, l.StartsAt o data.length := by
  refine (holds_tryDecodeTlsClientHello hs o).returns_attempt.bind fun tls htls => ?_
  cases tls with
  | some tls =>
    apply returns_ok
    rintro _ ⟨⟩
    exact htls tls rfl
  | none =>
    refine (holds_tryDecodeTlsHandshake hs o).returns_attempt.bind fun info hinfo => ?_
    cases info with
    | some info =>
      apply returns_ok
      rintro _ ⟨⟩
      exact hinfo info rfl
    | none =>
      have hstream := (length_slice_le data o data.length).trans_lt hs
      have hslice : sliceAt data o data.length = ok (slice data o data.length) :=
        if_pos ⟨ho.le, Nat.le_refl _⟩
      rw [hslice, ok_bind]
      refine (holds_tryDecodeHttp2 hstream).returns_attempt.bind fun frames _ => ?_
      cases frames with
      | some frames =>
        apply returns_ok
        rintro _ ⟨⟩
        trivial
      | none =>
        cases hhttp : tryDecodeHttp (slice data o data.length) with
        | ok i => exact absurd ⟨i, hhttp⟩ h
        | refuse =>
          apply returns_ok
          rintro _ ⟨⟩
        | fault f => exact absurd hhttp ((holds_tryDecodeHttp hstream).not_fault f)

theorem returns_appLayer_startsAt {o : ℕ} (hpos : 0 < o) (ho : o < data.length)
    (transport : TransportHint) : Returns (appLayer data o transport) fun app =>
      (∀ l ∈ app, l.headerRange = none) ∧
        ((∀ l ∈ app, l.StartsAt o data.length) ↔ ¬HttpAt data transport o) := by
  have hstarts : ∀ app : Option Layer, (∀ l ∈ app, l.StartsAt o data.length) →
      ¬HttpAt data transport o → (∀ l ∈ app, l.headerRange = none) ∧
        ((∀ l ∈ app, l.StartsAt o data.length) ↔ ¬HttpAt data transport o) :=
    fun app happ hhttp => ⟨fun l hl => (happ l hl).headerRange, iff_of_true happ hhttp⟩
  refine returns_ite (fun hdns => ?_) fun hdns => returns_ite (fun hudp => ?_) fun htcp => ?_
  · refine (holds_tryDecodeDns hs o).returns_attempt.bind fun dns hrange => returns_ok ?_
    apply hstarts
    · intro l hl
      obtain ⟨i, hi, rfl⟩ := Option.map_eq_some_iff.mp hl
      exact hrange i hi
    · intro hhttp
      exact hdns.elim hhttp.notDns.1 hhttp.notDns.2
  · refine (holds_tryDecodeQuic hs o).returns_attempt.bind fun q hrange => returns_ok ?_
    apply hstarts
    · intro l hl
      obtain ⟨i, hi, rfl⟩ := Option.map_eq_some_iff.mp hl
      exact hrange i hi
    · intro hhttp
      rw [hhttp.tcp] at hudp
      cases hudp
  · by_cases hhead : ∃ i, tryDecodeHttp (slice data o data.length) = ok i
    · obtain ⟨i, hi⟩ := hhead
      have hrange := holds_tryDecodeHttp ((length_slice_le data o data.length).trans_lt hs)
      rw [hi] at hrange
      rw [tcpAppLayer_http ho hi]
      refine returns_ok ⟨?_, iff_of_false ?_ ?_⟩
      · rintro _ ⟨⟩
        rfl
      · intro hall
        exact hpos.ne (hrange.symm.trans (hall (.http i) rfl).start)
      · rw [not_or] at hdns
        rw [Bool.not_eq_true, Bool.not_eq_false'] at htcp
        exact not_not_intro ⟨htcp, hdns, i, hi⟩
    · obtain ⟨app, happ, hall⟩ := returns_tcpAppLayer_startsAt hs ho hhead
      exact ⟨app, happ, hstarts app hall fun hhttp => hhead hhttp.head⟩

omit [Digests] hs in
/-- The head of a message is not empty. -/
theorem HttpAt.inside {transport : TransportHint} {o : ℕ} (h : HttpAt data transport o) :
    o < data.length := by
  obtain ⟨i, hi⟩ := h.head
  by_contra hend
  have hempty : slice data o data.length = [] := by
    rw [slice, List.take_length, List.drop_eq_nil_iff]
    omega
  rw [hempty] at hi
  cases hi

theorem returns_payloadLayers_tiled {o : ℕ} (hpos : 0 < o) (ho : o ≤ data.length)
    (transport : TransportHint) : Returns (payloadLayers data o transport) fun ls =>
      Tiled data.length o true ls ↔ ¬HttpAt data transport o := by
  refine returns_ite (fun hlt => ?_) fun hend => returns_ok ?_
  · refine (returns_appLayer_startsAt hs hpos hlt transport).bind fun app happ => ?_
    rw [subUsize, if_pos ho, ok_bind]
    exact returns_ok ((tiled_payload_iff ho app happ.1).trans happ.2)
  · exact iff_of_true (.done true ho) fun h => hend h.inside

theorem returns_layersFrom_tiled {rounds o : ℕ} {what : Option NextDecode} {b : Bool}
    (hpos : 0 < rounds) (hr : ∀ n ∈ what, n.rank + 2 ≤ rounds) (ho : o ≤ data.length)
    (hb : ∀ n ∈ what, n.rank = 0 → b = true ∧ 0 < o) :
    Returns (layersFrom data rounds what o) fun ls =>
      Tiled data.length o b ls ↔ ¬HttpBehind data what o := by
  induction rounds generalizing what o b with
  | zero => omega
  | succ rounds ih =>
    rcases what with _ | what
    · refine returns_ok (iff_of_true (.done b ho) ?_)
      rintro ⟨_, ⟨⟩, -⟩
    · have hrank := hr what rfl
      rcases Nat.eq_zero_or_pos what.rank with hzero | hheader
      · obtain ⟨rfl, hpos⟩ := hb what rfl hzero
        obtain ⟨transport, rfl⟩ := NextDecode.rank_eq_zero hzero
        refine (returns_payloadLayers_tiled hs hpos ho transport).imp fun ls hls => ?_
        refine ⟨hls.1, hls.2.trans (not_congr ⟨fun h => ?_, ?_⟩)⟩
        · exact ⟨_, rfl, transport, o, [], .here _ o, h⟩
        · rintro ⟨_, ⟨⟩, _, _, _, hpath, h⟩
          cases hpath with
          | here => exact h
          | header hdecode => cases hdecode
      · rw [layersFrom_header data rounds hheader]
        cases hdecode : what.decode data o with
        | fault f => exact absurd hdecode ((holds_decode hs o what).not_fault f)
        | refuse =>
          refine returns_ok (iff_of_true (.done b ho) ?_)
          rintro ⟨_, ⟨⟩, _, _, _, hpath, -⟩
          cases hpath with
          | here => cases hheader
          | header hdecode' =>
            rw [hdecode] at hdecode'
            cases hdecode'
        | ok dr =>
          have hspans := spans_of_decode hs hdecode
          have hfollows := follows_of_decode hs hdecode
          have hlater : ∀ n ∈ dr.next, n.rank + 2 ≤ rounds := by
            intro n hn
            have := hfollows.descends n hn
            omega
          have hfront : ∀ n ∈ dr.next, n.rank = 0 → dr.layer.isTransport = true ∧ 0 < dr.nextOffset :=
            fun n hn hzero => ⟨hspans.transport n hn hzero, Nat.zero_lt_of_lt hspans.forward⟩
          refine (ih (by omega) hlater hfollows.inside hfront).bind fun rest hrest => returns_ok ?_
          rw [tiled_header_iff hspans.range hspans.forward, hrest]
          apply not_congr
          constructor
          · rintro ⟨next, hnext, transport, stop, front, hpath, h⟩
            exact ⟨what, rfl, transport, stop, _, .header hdecode hnext hpath, h⟩
          · rintro ⟨_, ⟨⟩, transport, stop, front, hpath, h⟩
            cases hpath with
            | here => cases hheader
            | header hdecode' hnext hpath =>
              rw [hdecode] at hdecode'
              cases hdecode'
              exact ⟨_, hnext, transport, stop, _, hpath, h⟩

end Chain

theorem RawPacket.carriesHttp_iff (raw : RawPacket) :
    raw.CarriesHttp ↔ HttpBehind raw.data (initialDecode raw.data raw.linktype) 0 := by
  constructor
  · rintro ⟨transport, o, front, ⟨first, hfirst, hpath⟩, h⟩
    exact ⟨first, hfirst, transport, o, front, hpath, h⟩
  · rintro ⟨first, hfirst, transport, o, front, hpath, h⟩
    exact ⟨transport, o, front, ⟨first, hfirst, hpath⟩, h⟩

theorem returns_decodeLayers_tiled [Digests] (raw : RawPacket) :
    Returns (decodeLayers raw.data raw.linktype) fun ls =>
      Tiled raw.data.length 0 false ls ↔ ¬raw.CarriesHttp := by
  rw [raw.carriesHttp_iff]
  apply returns_layersFrom_tiled raw.fits (by decide)
  · intro n hn
    have := rank_of_initialDecode hn
    omega
  · exact Nat.zero_le _
  · intro n hn hzero
    have := rank_of_initialDecode hn
    omega

/-- The layers of a packet tile its data, unless it carries the head of an HTTP/1 message. -/
theorem decodePacket_tiled_iff [Digests] (raw : RawPacket) :
    ∃ pkt, decodePacket raw = ok pkt ∧
      (Tiled raw.data.length 0 false pkt.layers ↔ ¬raw.CarriesHttp) := by
  obtain ⟨ls, hls, htiled⟩ := returns_decodeLayers_tiled raw
  rw [decodePacket, hls]
  exact ⟨_, rfl, htiled⟩

/-- An IPv4 packet with a request for `/`. -/
def requestPacket : RawPacket where
  number := 1
  timestamp := 0
  wireLen := 58
  data := [0x45, 0, 0, 58, 0, 0, 0, 0, 64, 6, 0, 0, 10, 0, 0, 1, 10, 0, 0, 2] ++
    [0x30, 0x39, 0, 80, 0, 0, 0, 1, 0, 0, 0, 1, 0x50, 0x18, 0x20, 0, 0, 0, 0, 0] ++
    utf8Bytes "GET / HTTP/1.1\r\n\r\n"
  linktype := .rawIp
  fits := by decide

theorem tryDecodeHttp_request :
    ∃ i, tryDecodeHttp (slice requestPacket.data 40 requestPacket.data.length) = ok i := by
  have hpayload : slice requestPacket.data 40 requestPacket.data.length =
      utf8Bytes "GET / HTTP/1.1\r\n\r\n" := by decide
  have hfind : findSubslice (utf8Bytes "\r\n\r\n") (utf8Bytes "GET / HTTP/1.1\r\n\r\n") = some 14 := by
    decide
  have hhead : slice (utf8Bytes "GET / HTTP/1.1\r\n\r\n") 0 16 = utf8Bytes "GET / HTTP/1.1\r\n" := by
    decide
  have hlines : splitCrlf "GET / HTTP/1.1\r\n".toList = ["GET / HTTP/1.1".toList, []] := by decide
  have hfirst : ∃ info, firstLine (.empty 16) "GET / HTTP/1.1".toList = some info := ⟨_, rfl⟩
  obtain ⟨info, hinfo⟩ := hfirst
  unfold tryDecodeHttp headEnd
  rw [hpayload, hfind]
  dsimp only
  rw [addUsize, if_pos (by decide), ok_bind, sliceAt, if_pos (by decide), ok_bind, hhead,
    fromUtf8_utf8Bytes, ofOption, ok_bind, hlines]
  dsimp only
  rw [if_neg (by decide), hinfo]
  exact ⟨_, rfl⟩

/-- The range of the request is counted from the start of the TCP payload. -/
theorem decodePacket_request : ∃ (_ : Digests) (pkt : DecodedPacket),
    decodePacket requestPacket = ok pkt ∧ ¬Tiled requestPacket.data.length 0 false pkt.layers := by
  let digests : Digests := ⟨fun _ => Vector.replicate 16 0, fun _ => Vector.replicate 32 0⟩
  obtain ⟨ls, hls, htiled⟩ := returns_decodeLayers_tiled requestPacket
  have hip : ∃ dr, decodeIpv4 requestPacket.data 0 = ok dr ∧ dr.next = some .tcp ∧
      dr.nextOffset = 20 := ⟨_, rfl, rfl, rfl⟩
  have htcp : ∃ dr, decodeTcp requestPacket.data 20 = ok dr ∧
      dr.next = some (.applicationPayload ⟨0x3039, 80, true⟩) ∧ dr.nextOffset = 40 :=
    ⟨_, rfl, rfl, rfl⟩
  obtain ⟨ip, hip, hnext, hstop⟩ := hip
  obtain ⟨tcp, htcp, hnext', hstop'⟩ := htcp
  have hpath : Path requestPacket.data .ipv4 0 (.applicationPayload ⟨0x3039, 80, true⟩) 40
      [ip.layer, tcp.layer] := by
    refine .header hip hnext ?_
    rw [hstop]
    refine .header htcp hnext' ?_
    rw [hstop']
    exact .here _ 40
  refine ⟨digests, _, by rw [decodePacket, hls]; rfl, ?_⟩
  rw [htiled]
  exact not_not_intro ⟨_, 40, _, ⟨.ipv4, rfl, hpath⟩, rfl, by decide, tryDecodeHttp_request⟩

end Pktscope

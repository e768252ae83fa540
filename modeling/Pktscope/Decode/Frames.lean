import Pktscope.Decode.Diagrams
import Pktscope.Decode.Padding
import Pktscope.Decode.Tiling

/-! # Packets as they are sent

A packet is sent as headers that announce one another and a payload. Its layers are
those headers at their places, whatever the fields, the options and the payload are,
and every packet with layers is one that was sent so.
-/

namespace Pktscope

open Library Parse

/-- The bytes of headers one behind the other. -/
def headerBytes (headers : List SentHeader) : List UInt8 := headers.flatMap SentHeader.bytes

/-- Headers one behind the other, in a packet of some bytes. -/
def headerLayers (len : ℕ) : ℕ → List SentHeader → List Layer
  | _, [] => []
  | o, h :: headers =>
    h.layer.placed o (o + h.bytes.length) len :: headerLayers len (o + h.bytes.length) headers

/-- Headers that announce one another, and what the last one announces. -/
inductive HeaderChain (payload : List UInt8) :
    Option NextDecode → List SentHeader → Option NextDecode → Prop
  | done (next : Option NextDecode) : HeaderChain payload next [] next
  | header {what : NextDecode} {h : SentHeader} {headers : List SentHeader}
      {last : Option NextDecode} (valid : h.Valid what)
      (rest : HeaderChain payload (h.layer.announces (headerBytes headers ++ payload).length)
        headers last) :
      HeaderChain payload (some what) (h :: headers) last

/-- No header of the kind that is announced stands at the front. -/
def NoHeader (payload : List UInt8) (last : Option NextDecode) : Prop :=
  ∀ what ∈ last, ∀ h : SentHeader, h.Valid what → ¬h.bytes <+: payload

/-- The kinds of header that a packet can begin with. -/
def Linktype.Begins : Linktype → NextDecode → Prop
  | .ethernet, what => what = .ethernet
  | .rawIp, what => what = .ipv4 ∨ what = .ipv6
  | .other _, _ => False

/-- The bytes of a packet as headers and a payload. -/
structure SentFrame (raw : RawPacket) where
  first : NextDecode
  head : SentHeader
  headers : List SentHeader
  last : Option NextDecode
  payload : List UInt8
  begins : raw.linktype.Begins first
  chain : HeaderChain payload (some first) (head :: headers) last
  ends : NoHeader payload last
  data_eq : raw.data = headerBytes (head :: headers) ++ payload

/-- The layers of the headers of a packet. -/
def SentFrame.layers {raw : RawPacket} (f : SentFrame raw) : List Layer :=
  headerLayers raw.data.length 0 (f.head :: f.headers)

/-- What stands behind the headers: at most one application layer, and the payload. -/
def Behind (last : Option NextDecode) (o len : ℕ) (app : List Layer) : Prop :=
  match last with
  | some (.applicationPayload _) =>
    if o < len then ∃ l : Option Layer, (∀ x ∈ l, x.headerRange = none) ∧
      app = l.toList ++ [.payload o (len - o)]
    else app = []
  | _ => app = []

section Layers

variable {payload : List UInt8} {next last : Option NextDecode} {headers : List SentHeader}
variable {data front : List UInt8} {o rounds : ℕ}

theorem headerBytes_cons (h : SentHeader) (headers : List SentHeader) :
    headerBytes (h :: headers) = h.bytes ++ headerBytes headers := rfl

theorem decode_eq_refuse {what : NextDecode} (hs : (front ++ payload).length < maxBytes)
    (hno : ∀ h : SentHeader, h.Valid what → ¬h.bytes <+: payload) :
    what.decode (front ++ payload) front.length = refuse := by
  cases hdecode : what.decode (front ++ payload) front.length with
  | refuse => rfl
  | fault f => exact absurd hdecode ((holds_fitsAt hs what).not_fault f)
  | ok r =>
    obtain ⟨h, hv, hstands, -⟩ := (decode_iff hs).mp hdecode
    have hprefix := (standsAt_prefix_iff.mp hstands).2
    rw [List.drop_left] at hprefix
    exact absurd hprefix (hno h hv)

theorem Behind.headerRange {len : ℕ} {app : List Layer}
    (h : Behind last o len app) : ∀ l ∈ app, l.headerRange = none := by
  unfold Behind at h
  split at h
  · split_ifs at h
    · obtain ⟨l, hnone, rfl⟩ := h
      rintro x hx
      rcases List.mem_append.mp hx with hx | hx
      · exact hnone x (Option.mem_toList.mp hx)
      · cases List.mem_singleton.mp hx
        rfl
    · rw [h]
      exact nofun
  · rw [h]
    exact nofun

theorem Behind.of_header {what : NextDecode} {len : ℕ} (h : 0 < what.rank) :
    Behind (some what) o len [] := by
  cases what with
  | applicationPayload transport => cases h
  | _ => exact rfl

variable [Digests]

theorem payloadLayers_behind (hs : data.length < maxBytes) (hpos : 0 < o)
    (transport : TransportHint) : ∃ app, payloadLayers data o transport = ok app ∧
    Behind (some (.applicationPayload transport)) o data.length app := by
  unfold payloadLayers Behind
  by_cases ho : o < data.length
  · obtain ⟨l, hl, hnone, -⟩ := returns_appLayer_startsAt hs hpos ho transport
    simp only [if_pos ho, hl, ok_bind]
    rw [subUsize, if_pos (Nat.le_of_lt ho), ok_bind]
    exact ⟨_, rfl, l, hnone, rfl⟩
  · simp only [if_neg ho]
    exact ⟨[], rfl, rfl⟩

theorem HeaderChain.layersFrom (h : HeaderChain payload next headers last)
    (hends : NoHeader payload last) (hs : data.length < maxBytes)
    (hdata : data = front ++ (headerBytes headers ++ payload)) (hpos : 0 < rounds)
    (hr : ∀ n ∈ next, n.rank + 2 ≤ rounds) (hfront : ∀ n ∈ next, n.rank = 0 → 0 < front.length) :
    ∃ app, Pktscope.layersFrom data rounds next front.length =
        ok (headerLayers data.length front.length headers ++ app) ∧
      Behind last (front.length + (headerBytes headers).length) data.length app := by
  induction h generalizing front rounds with
  | done next =>
    obtain ⟨rounds, rfl⟩ := Nat.exists_eq_succ_of_ne_zero (Nat.ne_of_gt hpos)
    cases next with
    | none => exact ⟨[], rfl, rfl⟩
    | some what =>
      rcases Nat.eq_zero_or_pos what.rank with hzero | hheader
      · obtain ⟨transport, rfl⟩ := NextDecode.rank_eq_zero hzero
        exact payloadLayers_behind hs (hfront _ rfl rfl) transport
      · have hrefuse : what.decode data front.length = refuse := by
          subst hdata
          exact decode_eq_refuse hs (hends what rfl)
        exact ⟨[], layersFrom_of_refuse rounds hheader hrefuse, .of_header hheader⟩
  | @header what h headers last hvalid hrest ih =>
    obtain ⟨rounds, rfl⟩ := Nat.exists_eq_succ_of_ne_zero (Nat.ne_of_gt hpos)
    have hrank := hr what rfl
    rw [headerBytes_cons, List.append_assoc] at hdata
    have hstands : StandsAt data front.length h.bytes := hdata ▸ standsAt_of_append _ _ _
    have hdecode := (decode_iff hs).mpr ⟨h, hvalid, hstands, rfl⟩
    have hleft : data.length - (front.length + h.bytes.length) =
        (headerBytes headers ++ payload).length := by
      rw [hdata]
      simp only [List.length_append]
      omega
    have hnext : (h.result front.length data.length).next =
        h.layer.announces (headerBytes headers ++ payload).length := by
      rw [SentHeader.result, hleft]
    have hfollows := follows_of_decode hs hdecode
    have hpos' : 0 < rounds := by
      have := rank_pos_of_decode hdecode
      omega
    have hr' : ∀ n ∈ h.layer.announces (headerBytes headers ++ payload).length,
        n.rank + 2 ≤ rounds := by
      intro n hn
      have hdescends := hfollows.descends n (hnext ▸ hn)
      omega
    have hplace : (front ++ h.bytes).length = front.length + h.bytes.length := List.length_append
    have hfront' : 0 < (front ++ h.bytes).length := by
      have hforward := (spans_of_decode hs hdecode).forward
      change front.length < front.length + h.bytes.length at hforward
      omega
    obtain ⟨app, happ, hbehind⟩ :=
      ih hends (hdata.trans (List.append_assoc _ _ _).symm) hpos' hr' fun _ _ _ => hfront'
    rw [hplace] at happ hbehind
    refine ⟨app, ?_, ?_⟩
    · rw [layersFrom_header data rounds (rank_pos_of_decode hdecode), hdecode, attempt, ok_bind]
      dsimp only
      rw [hnext, SentHeader.result, happ]
      rfl
    · rw [headerBytes_cons, List.length_append, ← Nat.add_assoc]
      exact hbehind

end Layers

theorem announces_rank {l : Layer} {what : NextDecode} (h : l.IsA what) (left : ℕ) :
    ∀ n ∈ l.announces left, n.rank + 1 = what.rank := by
  cases what <;> cases l <;> first | exact h.elim | skip
  case ethernet.ethernet => exact forall_mem_ite_three rfl rfl rfl
  case ipv4.ipv4 => exact forall_mem_ite_three rfl rfl rfl
  case ipv6.ipv6 => exact forall_mem_ite_three rfl rfl rfl
  case tcp.tcp => exact forall_mem_ite (fun _ => rfl) nofun
  case udp.udp => exact forall_mem_ite (fun _ => rfl) nofun
  all_goals exact nofun

theorem exists_headerChain (bytes : List UInt8) {next : Option NextDecode} {bound : ℕ}
    (hr : ∀ n ∈ next, n.rank < bound) : ∃ headers last payload,
      bytes = headerBytes headers ++ payload ∧ HeaderChain payload next headers last ∧
        NoHeader payload last := by
  induction bound generalizing bytes next with
  | zero =>
    have hnone : NoHeader bytes next := fun n hn => absurd (hr n hn) (Nat.not_lt_zero _)
    exact ⟨[], next, bytes, rfl, .done next, hnone⟩
  | succ bound ih =>
    by_cases hno : NoHeader bytes next
    · exact ⟨[], next, bytes, rfl, .done next, hno⟩
    · simp only [NoHeader, not_forall, not_not] at hno
      obtain ⟨what, hwhat, h, hvalid, rest, rfl⟩ := hno
      cases hwhat
      have hnext : ∀ n ∈ h.layer.announces rest.length, n.rank < bound := by
        intro n hn
        have hrank := announces_rank hvalid.kind rest.length n hn
        have hwhat := hr what rfl
        omega
      obtain ⟨headers, last, payload, rfl, hchain, hends⟩ := ih rest hnext
      exact ⟨h :: headers, last, payload, (List.append_assoc _ _ _).symm, .header hvalid hchain,
        hends⟩

section Frames

variable {raw : RawPacket}

theorem toUInt8_shift_28 (a b c d : UInt8) : (be32 a b c d >>> 28).toUInt8 = a >>> 4 := by
  have ha := a.toNat_lt
  have hb := b.toNat_lt
  have hc := c.toNat_lt
  have hd := d.toNat_lt
  rw [← UInt8.toNat_inj, UInt32.toNat_toUInt8, UInt32.toNat_shiftRight, UInt8.toNat_shiftRight,
    Nat.shiftRight_eq_div_pow, Nat.shiftRight_eq_div_pow, be32, UInt32.toNat_ofNat']
  simp only [UInt32.reduceToNat, UInt8.reduceToNat, Nat.reduceMod, Nat.reducePow]
  omega

theorem initialDecode_of_begins {first : NextDecode} (hb : raw.linktype.Begins first)
    (hfits : first.FitsAt raw.data 0) : initialDecode raw.data raw.linktype = some first := by
  cases hlink : raw.linktype with
  | other lt =>
    rw [hlink] at hb
    exact hb.elim
  | ethernet =>
    rw [hlink] at hb
    cases hb
    rfl
  | rawIp =>
    rw [hlink] at hb
    have hhead (hpos : 0 < raw.data.length) : raw.data.head? = some (peek raw.data 0) := by
      rw [List.head?_eq_getElem?, List.getElem?_eq_getElem hpos, peek_eq_getElem hpos]
    rcases hb with rfl | rfl
    · have hversion : peek raw.data 0 >>> 4 = 4 := hfits.kind.1
      have hpos := hfits.fixed
      simp only [NextDecode.fixedBytes] at hpos
      simp [initialDecode, hhead (by omega), hversion]
    · have hkind : (be32 (peek raw.data 0) (peek raw.data (0 + 1)) (peek raw.data (0 + 2))
        (peek raw.data (0 + 3)) >>> 28).toUInt8 = 6 := hfits.kind
      have hversion := (toUInt8_shift_28 _ _ _ _).symm.trans hkind
      have hpos := hfits.fixed
      simp only [NextDecode.fixedBytes] at hpos
      simp [initialDecode, hhead (by omega), hversion]

theorem begins_of_initialDecode {first : NextDecode}
    (h : initialDecode raw.data raw.linktype = some first) : raw.linktype.Begins first := by
  cases hlink : raw.linktype with
  | other lt =>
    rw [hlink] at h
    cases h
  | ethernet =>
    rw [hlink] at h
    cases h
    rfl
  | rawIp =>
    rw [hlink] at h
    have hall : ∀ n ∈ initialDecode raw.data .rawIp, n = .ipv4 ∨ n = .ipv6 :=
      forall_mem_ite (fun _ => .inl rfl) (forall_mem_ite (fun _ => .inr rfl) nofun)
    exact hall first h

variable [Digests]

/-- A packet gives back the headers that it was sent as, and what stands behind them. -/
theorem SentFrame.layers_decodePacket (f : SentFrame raw) :
    ∃ pkt app, decodePacket raw = ok pkt ∧ pkt.layers = f.layers ++ app ∧
      Behind f.last (headerBytes (f.head :: f.headers)).length raw.data.length app := by
  have hs := raw.fits
  have hvalid : f.head.Valid f.first := by
    cases f.chain with
    | header valid rest => exact valid
  have hstands : StandsAt raw.data 0 f.head.bytes := by
    rw [f.data_eq, headerBytes_cons, List.append_assoc]
    exact standsAt_of_append [] _ _
  have hinitial := initialDecode_of_begins f.begins (hvalid.result_eq hstands).1
  have hrank := rank_of_initialDecode hinitial
  have hdata : raw.data = [] ++ (headerBytes (f.head :: f.headers) ++ f.payload) := f.data_eq
  obtain ⟨app, happ, hbehind⟩ := f.chain.layersFrom f.ends hs hdata (by decide : 0 < 5)
      (fun n hn => by cases hn; omega) (fun n hn hzero => by cases hn; omega)
  obtain ⟨pkt, hpkt⟩ := decodePacket_returns raw
  have hlayers := layers_of_decodePacket hpkt
  rw [decodeLayers, hinitial] at hlayers
  rw [List.length_nil, Nat.zero_add] at hbehind
  refine ⟨pkt, app, hpkt, ?_, hbehind⟩
  exact (Parse.ok.inj (happ.symm.trans hlayers)).symm

/-- A datagram of three bytes behind an IPv4 header with options. -/
def optionPacket : RawPacket where
  number := 0
  timestamp := 0
  wireLen := 35
  data := [0x46, 0, 0, 35, 0, 1, 0, 0, 64, 17, 0, 0, 10, 0, 0, 1, 10, 0, 0, 2, 1, 1, 1, 0,
    0x9c, 0x40, 0x1f, 0x90, 0, 11, 0, 0, 7, 8, 9]
  linktype := .rawIp
  fits := by decide

def optionHeader : SentHeader where
  layer := .ipv4 ⟨4, 6, 0, 0, 35, 1, 0, 0, 64, 17, 0, 0x0a000001, 0x0a000002, (0, 0)⟩
  dropped := 0
  options := [1, 1, 1, 0]

def datagramHeader : SentHeader where
  layer := .udp ⟨40000, 8080, 11, 0, (0, 0)⟩
  dropped := 0
  options := []

omit [Digests] in
theorem valid_optionHeader : optionHeader.Valid .ipv4 := ⟨⟨rfl, by decide⟩, by decide, rfl⟩

omit [Digests] in
theorem valid_datagramHeader : datagramHeader.Valid .udp := ⟨trivial, by decide, rfl⟩

def optionFrame : SentFrame optionPacket where
  first := .ipv4
  head := optionHeader
  headers := [datagramHeader]
  last := some (.applicationPayload ⟨40000, 8080, false⟩)
  payload := [7, 8, 9]
  begins := Or.inl rfl
  chain := .header valid_optionHeader (.header valid_datagramHeader (.done _))
  ends := by
    rintro what ⟨⟩ h hvalid
    exact hvalid.kind.elim
  data_eq := by decide

omit [Digests] in
theorem SentFrame.layers_decodePacket_options : ∃ _ : Digests,
    optionFrame.layers =
        [.ipv4 ⟨4, 6, 0, 0, 35, 1, 0, 0, 64, 17, 0, 0x0a000001, 0x0a000002, (0, 24)⟩,
          .udp ⟨40000, 8080, 11, 0, (24, 32)⟩] ∧
      ∃ pkt app, decodePacket optionPacket = ok pkt ∧ pkt.layers = optionFrame.layers ++ app ∧
        Behind optionFrame.last 32 35 app := by
  let digests : Digests := ⟨fun _ => Vector.replicate 16 0, fun _ => Vector.replicate 32 0⟩
  have hlen : (headerBytes (optionFrame.head :: optionFrame.headers)).length = 32 := by decide
  have hread := optionFrame.layers_decodePacket
  rw [hlen] at hread
  exact ⟨digests, by decide, hread⟩

theorem exists_sentFrame {pkt : DecodedPacket} (hpkt : decodePacket raw = ok pkt)
    (hlayers : pkt.layers ≠ []) : Nonempty (SentFrame raw) := by
  have hs := raw.fits
  have hdecode := layers_of_decodePacket hpkt
  cases hfirst : initialDecode raw.data raw.linktype with
  | none =>
    rw [decodeLayers, hfirst] at hdecode
    exact absurd (Parse.ok.inj hdecode).symm hlayers
  | some first =>
    obtain ⟨l, ls, hl⟩ := List.exists_cons_of_ne_nil hlayers
    have hheader : 0 < first.rank := by
      have := (rank_of_initialDecode hfirst).1
      omega
    rw [decodeLayers, hfirst, hl] at hdecode
    obtain ⟨dr, hdr, -, -⟩ := layersFrom_cons hheader hdecode
    obtain ⟨head, hvalid, hstands, -⟩ := (decode_iff hs).mp hdr
    obtain ⟨rest, hrest⟩ := (standsAt_prefix_iff.mp hstands).2
    have hrank : ∀ n ∈ head.layer.announces rest.length, n.rank < first.rank := by
      intro n hn
      have := announces_rank hvalid.kind rest.length n hn
      omega
    obtain ⟨headers, last, payload, rfl, hchain, hends⟩ := exists_headerChain rest hrank
    exact ⟨{
      first, head, headers, last, payload
      begins := begins_of_initialDecode hfirst
      chain := .header hvalid hchain
      ends := hends
      data_eq := by rw [headerBytes_cons, List.append_assoc, hrest, List.drop_zero] }⟩

/-- Nothing of the headers is lost: the bytes of a packet are those of the headers that its layers
are, up to the bits that no decoder keeps, their options and the payload. -/
theorem decodePacket_lossless (raw : RawPacket) : ∃ pkt, decodePacket raw = ok pkt ∧
    (pkt.layers = [] ∨ ∃ (f : SentFrame raw) (app : List Layer),
      pkt.layers = f.layers ++ app ∧ ∀ l ∈ app, l.headerRange = none) := by
  obtain ⟨pkt, hpkt⟩ := decodePacket_returns raw
  refine ⟨pkt, hpkt, or_iff_not_imp_left.mpr fun hlayers => ?_⟩
  obtain ⟨f⟩ := exists_sentFrame hpkt hlayers
  obtain ⟨pkt', app, hpkt', happ, hbehind⟩ := f.layers_decodePacket
  rw [hpkt] at hpkt'
  cases hpkt'
  exact ⟨f, app, happ, hbehind.headerRange⟩

end Frames

end Pktscope

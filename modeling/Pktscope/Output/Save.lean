import Pktscope.Output.Writers

/-! # Saving a capture

The terminal interface saves the decoded packets as they arrive. A decoded packet does
not say what link it was captured on, and the file is always one of Ethernet frames.
-/

namespace Pktscope

open Library Parse CaptureFile

/-- `impl From<pcap::Linktype> for Linktype` -/
def Linktype.ofPcap (lt : ℕ) : Linktype :=
  if lt = 1 then .ethernet
  else if lt = 101 ∨ lt = 228 then .rawIp
  else .other (UInt16.ofNat lt)

/-- The writer for `-w`. -/
inductive SaveWriter where
  | pcap (w : PcapWriter)
  | pcapng (w : PcapngWriter)

namespace SaveWriter

/-- The writer that `run_tui` creates. -/
def new (pcapng : Bool) : SaveWriter :=
  let lt := Linktype.ethernet
  if pcapng then .pcapng (.new lt 65535) else .pcap (.new lt 65535)

/-- What `drain_packets` does with a packet. -/
def writePacket (w : SaveWriter) (pkt : DecodedPacket) : SaveWriter :=
  match w with
  | .pcap w => .pcap (w.writePacket ⟨pkt.timestamp, pkt.data, pkt.wireLen⟩)
  | .pcapng w => .pcapng (w.writePacket ⟨pkt.timestamp, pkt.data, pkt.wireLen⟩)

def bytes : SaveWriter → List UInt8
  | .pcap w => w.writer
  | .pcapng w => w.writer

end SaveWriter

/-- The file that is saved of some packets. -/
def savedFile (pcapng : Bool) (pkts : List DecodedPacket) : List UInt8 :=
  (pkts.foldl SaveWriter.writePacket (.new pcapng)).bytes

/-- The packets of a file of either format, each with its link type. -/
def readCapture (file : List UInt8) : Option (List (ℕ × Packet)) :=
  match readPcap file with
  | some (interface, packets) => some (packets.map fun p => (interface.linkType, p))
  | none => (readPcapng file).map fun r => r.2.map fun p => (p.1.linkType, p.2)

/-- A packet of a file decoded for its link type. -/
def decodeRead [Digests] (p : ℕ × Packet) : Parse (List Layer) :=
  decodeLayers p.2.data (Linktype.ofPcap p.1)

/-- The capture is decoded, the decoded packets are saved, and each packet of the file decodes to the
layers that it had. -/
def SavedAgrees [Digests] (pcapng : Bool) (raws : List RawPacket) : Prop :=
  ∃ pkts, List.Forall₂ (fun raw pkt => decodePacket raw = ok pkt) raws pkts ∧
    ∃ read, readCapture (savedFile pcapng pkts) = some read ∧
      List.Forall₂ (fun p (pkt : DecodedPacket) => decodeRead p = ok pkt.layers) read pkts

def DecodedPacket.written (pkt : DecodedPacket) : WrittenPacket :=
  ⟨pkt.timestamp, pkt.data, pkt.wireLen⟩

section Files

theorem savedFile_eq (pcapng : Bool) (pkts : List DecodedPacket) : savedFile pcapng pkts =
    if pcapng then pcapngFile .ethernet 65535 (pkts.map DecodedPacket.written)
    else pcapFile .ethernet 65535 (pkts.map DecodedPacket.written) := by
  have hpcap (w : PcapWriter) : (pkts.foldl SaveWriter.writePacket (.pcap w)).bytes =
      ((pkts.map DecodedPacket.written).foldl PcapWriter.writePacket w).writer := by
    induction pkts generalizing w with
    | nil => rfl
    | cons pkt pkts ih => exact ih _
  have hpcapng (w : PcapngWriter) : (pkts.foldl SaveWriter.writePacket (.pcapng w)).bytes =
      ((pkts.map DecodedPacket.written).foldl PcapngWriter.writePacket w).writer := by
    clear hpcap
    induction pkts generalizing w with
    | nil => rfl
    | cons pkt pkts ih => exact ih _
  cases pcapng with
  | false => exact hpcap _
  | true => exact hpcapng _

theorem readPcap_pcapngFile (linktype : Linktype) (snaplen : UInt32) {packets : List WrittenPacket}
    (h : ∀ p ∈ packets, p.Short) : readPcap (pcapngFile linktype snaplen packets) = none := by
  have horder : orderOf 0xa1b2c3d4 (toLe 4 sectionKind) = none := by decide
  have hkind : shbBlock.kind = sectionKind := rfl
  rw [pcapngFile_eq linktype snaplen h, List.flatMap_cons, blockBytes, hkind]
  unfold readPcap readPcapHeader
  simp only [List.append_assoc, cut_append (length_toLe 4 _), Option.bind_eq_bind, Option.bind_some,
    horder, Option.bind_none]

theorem readCapture_savedFile (pcapng : Bool) {pkts : List DecodedPacket}
    (h : ∀ pkt ∈ pkts, pkt.written.Short) : ∃ read, readCapture (savedFile pcapng pkts) = some read ∧
      List.Forall₂ (fun p (pkt : DecodedPacket) => p.1 = 1 ∧ p.2.data = pkt.data) read pkts := by
  have hshort : ∀ p ∈ pkts.map DecodedPacket.written, p.Short := by
    intro p hp
    obtain ⟨pkt, hpkt, rfl⟩ := List.mem_map.mp hp
    exact h pkt hpkt
  have hlink : Linktype.ethernet.toPcapLinktype.toNat = 1 := rfl
  rw [savedFile_eq]
  unfold readCapture
  cases pcapng with
  | false =>
    refine ⟨_, by rw [if_neg Bool.false_ne_true, readPcap_pcapFile .ethernet 65535 hshort], ?_⟩
    rw [List.map_map, List.map_map, List.forall₂_map_left_iff, List.forall₂_same]
    intro pkt _
    exact ⟨rfl, rfl⟩
  | true =>
    refine ⟨_, by rw [if_pos rfl, readPcap_pcapngFile .ethernet 65535 hshort,
      readPcapng_pcapngFile .ethernet 65535 hshort]; rfl, ?_⟩
    dsimp only
    rw [List.map_map, List.map_map, List.forall₂_map_left_iff, List.forall₂_same]
    intro pkt _
    exact ⟨rfl, rfl⟩

end Files

section Layers

def Layer.isEthernet : Layer → Bool
  | .ethernet _ => true
  | _ => false

variable {data : List UInt8}

theorem decodeEthernet_short (h : data.length < 14) : decodeEthernet data 0 = refuse := by
  rw [decodeEthernet, checkedSub, if_pos (Nat.zero_le _), ok_bind, Nat.sub_zero, if_pos h]

theorem decodeIpv4_short (h : data.length < 20) : decodeIpv4 data 0 = refuse := by
  rw [decodeIpv4, checkedSub, if_pos (Nat.zero_le _), ok_bind, Nat.sub_zero, if_pos h]

theorem decodeIpv6_short (h : data.length < 40) : decodeIpv6 data 0 = refuse := by
  rw [decodeIpv6, checkedSub, if_pos (Nat.zero_le _), ok_bind, Nat.sub_zero, if_pos h]

variable [Digests]

/-- A packet too short for a header has no layers, whatever the link. -/
theorem decodeLayers_short {linktype : Linktype} (h : data.length < 14) :
    decodeLayers data linktype = ok [] := by
  unfold decodeLayers
  cases linktype with
  | ethernet =>
    rw [initialDecode, layersFrom_header data 4 (by decide)]
    change ((decodeEthernet data 0).attempt >>= _) = _
    rw [decodeEthernet_short h]
    rfl
  | rawIp =>
    dsimp only [initialDecode]
    split
    · rw [layersFrom_header data 4 (by decide)]
      change ((decodeIpv4 data 0).attempt >>= _) = _
      rw [decodeIpv4_short (by omega)]
      rfl
    split
    · rw [layersFrom_header data 4 (by decide)]
      change ((decodeIpv6 data 0).attempt >>= _) = _
      rw [decodeIpv6_short (by omega)]
      rfl
    · rfl
  | other lt => rfl

variable (hs : data.length < maxBytes)
include hs

theorem returns_layersFrom_head {what : NextDecode} (hrank : 0 < what.rank) (hdepth : what.rank ≤ 3) :
    Returns (layersFrom data 5 (some what) 0) fun layers =>
      match what.decode data 0 with
      | ok r => layers.head? = some r.layer
      | _ => layers = [] := by
  rw [layersFrom_header data 4 hrank]
  have hdecode := holds_decode hs 0 what
  cases hx : what.decode data 0 with
  | ok dr =>
    rw [hx] at hdecode
    have hrest : Returns (layersFrom data 4 dr.next dr.nextOffset) fun _ => True := by
      apply returns_layersFrom hs (by decide)
      intro n hn
      have hdescends := hdecode.2.descends n hn
      omega
    change Returns (layersFrom data 4 dr.next dr.nextOffset >>= _) _
    apply hrest.bind
    intro layers _
    exact returns_ok rfl
  | refuse => exact returns_ok rfl
  | fault f =>
    rw [hx] at hdecode
    exact hdecode.elim

theorem returns_ethernet (h : 14 ≤ data.length) : Returns (decodeLayers data .ethernet) fun layers =>
    ∃ l, layers.head? = some l ∧ l.isEthernet = true := by
  obtain ⟨r, hr, hlayer⟩ : Returns (decodeEthernet data 0) fun r => r.layer.isEthernet = true := by
    rw [decodeEthernet, checkedSub, if_pos (Nat.zero_le _), ok_bind, Nat.sub_zero, if_neg (by omega)]
    simp (disch := omega) only [be16At_eq hs, bytesAt_eq hs, addUsize_eq hs]
    exact returns_ok rfl
  obtain ⟨layers, hlayers, hhead⟩ := returns_layersFrom_head hs (show 0 < NextDecode.ethernet.rank by decide) (by decide)
  change match decodeEthernet data 0 with | ok r => layers.head? = some r.layer | _ => layers = [] at hhead
  rw [hr] at hhead
  exact ⟨layers, hlayers, r.layer, hhead, hlayer⟩

omit [Digests] in
theorem holds_decodeIpv4_layer : Holds (decodeIpv4 data 0) fun r => r.layer.isEthernet = false := by
  refine (holds_decodeIpv4 hs).mono fun r hr => ?_
  obtain ⟨-, -, header, hlayer, -⟩ := hr
  rw [hlayer]
  rfl

omit [Digests] in
theorem holds_decodeIpv6_layer : Holds (decodeIpv6 data 0) fun r => r.layer.isEthernet = false := by
  refine (holds_decodeIpv6 hs).mono fun r hr => ?_
  obtain ⟨-, -, header, hlayer⟩ := hr
  rw [hlayer]
  rfl

theorem returns_rawIp : Returns (decodeLayers data .rawIp) fun layers =>
    ∀ l ∈ layers.head?, l.isEthernet = false := by
  have hchain {what : NextDecode} (hrank : 0 < what.rank) (hdepth : what.rank ≤ 3)
      (hlayer : Holds (what.decode data 0) fun r => r.layer.isEthernet = false) :
      Returns (layersFrom data 5 (some what) 0) fun layers => ∀ l ∈ layers.head?, l.isEthernet = false := by
    obtain ⟨layers, hlayers, hhead⟩ := returns_layersFrom_head hs hrank hdepth
    refine ⟨layers, hlayers, fun l hl => ?_⟩
    cases hx : what.decode data 0 with
    | ok r =>
      rw [hx] at hhead hlayer
      cases hhead.symm.trans hl
      exact hlayer
    | refuse =>
      rw [hx] at hhead
      cases hhead
      cases hl
    | fault f =>
      rw [hx] at hlayer
      exact hlayer.elim
  unfold decodeLayers
  dsimp only [initialDecode]
  split
  · exact hchain (by decide) (by decide) (holds_decodeIpv4_layer hs)
  split
  · exact hchain (by decide) (by decide) (holds_decodeIpv6_layer hs)
  · exact returns_ok fun l hl => by cases hl

theorem decodeLayers_agree_iff :
    decodeLayers data .ethernet = decodeLayers data .rawIp ↔ data.length < 14 := by
  constructor
  · intro heq
    by_contra hlong
    obtain ⟨layers, hlayers, l, hl, hframe⟩ := returns_ethernet hs (not_lt.mp hlong)
    obtain ⟨layers', hlayers', hother⟩ := returns_rawIp hs
    rw [heq, hlayers'] at hlayers
    cases hlayers
    rw [hother l hl] at hframe
    cases hframe
  · intro hshort
    rw [decodeLayers_short hshort, decodeLayers_short hshort]

end Layers

section Agreement

variable [Digests]

theorem decodePacket_layers {raw : RawPacket} {pkt : DecodedPacket} (h : decodePacket raw = ok pkt) :
    decodeLayers raw.data raw.linktype = ok pkt.layers ∧ pkt.data = raw.data := by
  obtain ⟨layers, hlayers, -⟩ := returns_decodeLayers raw.fits raw.linktype
  rw [decodePacket, hlayers, ok_bind] at h
  cases h
  exact ⟨hlayers, rfl⟩

theorem exists_decoded (raws : List RawPacket) :
    ∃ pkts, List.Forall₂ (fun raw pkt => decodePacket raw = ok pkt) raws pkts := by
  induction raws with
  | nil => exact ⟨[], .nil⟩
  | cons raw raws ih =>
    obtain ⟨pkts, hpkts⟩ := ih
    obtain ⟨pkt, hpkt⟩ := decodePacket_returns raw
    exact ⟨pkt :: pkts, .cons hpkt hpkts⟩

theorem short_decoded {raws : List RawPacket} {pkts : List DecodedPacket}
    (hpkts : List.Forall₂ (fun raw pkt => decodePacket raw = ok pkt) raws pkts)
    (hshort : ∀ raw ∈ raws, raw.data.length < 2 ^ 32 - 36) : ∀ pkt ∈ pkts, pkt.written.Short := by
  induction hpkts with
  | nil => exact fun pkt hpkt => absurd hpkt List.not_mem_nil
  | @cons raw pkt raws pkts hpkt _ ih =>
    rw [List.forall_mem_cons] at hshort ⊢
    refine ⟨?_, ih hshort.2⟩
    change pkt.data.length < 2 ^ 32 - 36
    rw [(decodePacket_layers hpkt).2]
    exact hshort.1

theorem decodeRead_iff {raws : List RawPacket} {pkts : List DecodedPacket} {read : List (ℕ × Packet)}
    (hpkts : List.Forall₂ (fun raw pkt => decodePacket raw = ok pkt) raws pkts)
    (hread : List.Forall₂ (fun p (pkt : DecodedPacket) => p.1 = 1 ∧ p.2.data = pkt.data) read pkts) :
    List.Forall₂ (fun p (pkt : DecodedPacket) => decodeRead p = ok pkt.layers) read pkts ↔
      ∀ raw ∈ raws, decodeLayers raw.data .ethernet = decodeLayers raw.data raw.linktype := by
  induction hpkts generalizing read with
  | nil =>
    cases hread
    exact iff_of_true .nil fun raw hraw => absurd hraw List.not_mem_nil
  | @cons raw pkt raws pkts hpkt _ ih =>
    cases hread with
    | @cons p _ read _ hp hrest =>
      obtain ⟨hlayers, hdata⟩ := decodePacket_layers hpkt
      have hframe : decodeRead p = decodeLayers raw.data .ethernet := by
        rw [decodeRead, hp.1, hp.2, hdata]
        rfl
      rw [List.forall₂_cons, List.forall_mem_cons, ih hrest, hframe, hlayers]

theorem savedAgrees_iff_frames (pcapng : Bool) {raws : List RawPacket}
    (hshort : ∀ raw ∈ raws, raw.data.length < 2 ^ 32 - 36) :
    SavedAgrees pcapng raws ↔
      ∀ raw ∈ raws, decodeLayers raw.data .ethernet = decodeLayers raw.data raw.linktype := by
  constructor
  · rintro ⟨pkts, hpkts, read, hfile, hall⟩
    obtain ⟨read', hfile', hread⟩ := readCapture_savedFile pcapng (short_decoded hpkts hshort)
    rw [hfile] at hfile'
    cases hfile'
    exact (decodeRead_iff hpkts hread).mp hall
  · intro hall
    obtain ⟨pkts, hpkts⟩ := exists_decoded raws
    obtain ⟨read, hfile, hread⟩ := readCapture_savedFile pcapng (short_decoded hpkts hshort)
    exact ⟨pkts, hpkts, read, hfile, (decodeRead_iff hpkts hread).mpr hall⟩

/-- The saved file agrees with the capture exactly when the capture is one of Ethernet frames, or no
packet of it is long enough for a header. -/
theorem savedAgrees_iff (pcapng : Bool) {linktype : Linktype}
    (hlink : linktype = .ethernet ∨ linktype = .rawIp) {raws : List RawPacket}
    (hraws : ∀ raw ∈ raws, raw.linktype = linktype)
    (hshort : ∀ raw ∈ raws, raw.data.length < 2 ^ 32 - 36) :
    SavedAgrees pcapng raws ↔ linktype = .ethernet ∨ ∀ raw ∈ raws, raw.data.length < 14 := by
  rw [savedAgrees_iff_frames pcapng hshort]
  constructor
  · intro hall
    rcases hlink with rfl | rfl
    · exact Or.inl rfl
    · refine Or.inr fun raw hraw => (decodeLayers_agree_iff raw.fits).mp ?_
      rw [hall raw hraw, hraws raw hraw]
  · rintro (rfl | hall) raw hraw
    · rw [hraws raw hraw]
    · rw [decodeLayers_short (hall raw hraw), decodeLayers_short (hall raw hraw)]

end Agreement

/-- An IPv4 packet with an ICMP echo request, from a link without headers. -/
def echoRequest : RawPacket where
  number := 0
  timestamp := 0
  wireLen := 28
  data := [0x45, 0, 0, 28, 0, 1, 0, 0, 64, 1, 0, 0, 10, 0, 0, 1, 10, 0, 0, 2, 8, 0, 0, 0, 0, 1, 0, 1]
  linktype := .rawIp
  fits := by decide

/-- A raw IP packet is read back as an Ethernet frame. -/
theorem echoRequest_saved : ¬∀ (_ : Digests) (pcapng : Bool) (linktype : Linktype)
    (raws : List RawPacket), linktype = .ethernet ∨ linktype = .rawIp →
    (∀ raw ∈ raws, raw.linktype = linktype) → (∀ raw ∈ raws, raw.data.length < 2 ^ 32 - 36) →
    SavedAgrees pcapng raws := by
  intro h
  let digests : Digests := ⟨fun _ => Vector.replicate 16 0, fun _ => Vector.replicate 32 0⟩
  have hshort : ∀ raw ∈ [echoRequest], raw.data.length < 2 ^ 32 - 36 := by
    simp [echoRequest]
  have hagrees := h digests false .rawIp [echoRequest] (Or.inr rfl)
    (fun raw hraw => List.mem_singleton.mp hraw ▸ rfl) hshort
  have hlayers := (savedAgrees_iff_frames false hshort).mp hagrees echoRequest List.mem_cons_self
  have hlong := (decodeLayers_agree_iff echoRequest.fits).mp hlayers
  revert hlong
  decide

theorem savedAgrees_iff_echo : ∃ _ : Digests,
    SavedAgrees true [{ echoRequest with linktype := .ethernet }] := by
  let digests : Digests := ⟨fun _ => Vector.replicate 16 0, fun _ => Vector.replicate 32 0⟩
  have hlink : Linktype.ethernet = .ethernet ∨ Linktype.ethernet = .rawIp := Or.inl rfl
  refine ⟨digests, (savedAgrees_iff true hlink ?_ ?_).mpr (Or.inl rfl)⟩
  · simp
  · simp [echoRequest]

end Pktscope

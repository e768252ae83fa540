import Pktscope.Decode.Chain
import Pktscope.Library.CaptureFile

/-! # The capture file writers

The writers for pcap and pcapng, writing into memory. A reader of each format finds in
the file what was written: the link type, the snap length and the packets.
-/

namespace Pktscope

open Library CaptureFile

def Linktype.toPcapLinktype : Linktype → UInt32
  | .ethernet => 1
  | .rawIp => 101
  | .other v => v.toUInt32

/-- A packet as it is handed to a writer. -/
structure WrittenPacket where
  timestamp : DateTime
  data : List UInt8
  wireLen : UInt32

structure PcapWriter where
  writer : List UInt8

namespace PcapWriter

def new (linktype : Linktype) (snaplen : UInt32) : PcapWriter where
  writer := toLe 4 0xa1b2c3d4 ++ (toLe 2 2 ++ (toLe 2 4 ++ (toLe 4 0 ++ (toLe 4 0 ++
    (toLe 4 snaplen.toNat ++ toLe 4 linktype.toPcapLinktype.toNat)))))

/-- What a packet adds to the file. -/
def packetBytes (p : WrittenPacket) : List UInt8 :=
  let tsSecs := UInt32.ofInt p.timestamp.timestamp
  let tsUsecs := p.timestamp.timestampSubsecMicros
  let caplen := UInt32.ofNat p.data.length
  toLe 4 tsSecs.toNat ++ (toLe 4 tsUsecs.toNat ++ (toLe 4 caplen.toNat ++
    (toLe 4 p.wireLen.toNat ++ p.data)))

def writePacket (w : PcapWriter) (p : WrittenPacket) : PcapWriter where
  writer := w.writer ++ packetBytes p

end PcapWriter

structure PcapngWriter where
  writer : List UInt8

namespace PcapngWriter

/-- The section header: magic number, version 1.0, and a length that is not known. -/
def shbBytes : List UInt8 :=
  let total := 28
  toLe 4 0x0a0d0d0a ++ (toLe 4 total ++ (toLe 4 0x1a2b3c4d ++ (toLe 2 1 ++ (toLe 2 0 ++
    (List.replicate 8 0xff ++ toLe 4 total)))))

def idbBytes (linktype : UInt16) (snaplen : UInt32) : List UInt8 :=
  let total := 20
  toLe 4 0x00000001 ++ (toLe 4 total ++ (toLe 2 linktype.toNat ++ (toLe 2 0 ++
    (toLe 4 snaplen.toNat ++ toLe 4 total))))

def new (linktype : Linktype) (snaplen : UInt32) : PcapngWriter where
  writer := shbBytes ++ idbBytes linktype.toPcapLinktype.toUInt16 snaplen

/-- The bytes of padding behind a packet. -/
def padding (data : List UInt8) : ℕ := (4 - data.length % 4) % 4

/-- What a packet adds to the file. -/
def packetBytes (p : WrittenPacket) : List UInt8 :=
  let micros := (max p.timestamp.timestampMicros 0).toNat
  let tsHigh := UInt32.ofNat (micros / 2 ^ 32)
  let tsLow := UInt32.ofNat (micros % 2 ^ 32)
  let caplen := UInt32.ofNat p.data.length
  let pad := padding p.data
  let total := UInt32.ofNat (32 + p.data.length + pad)
  toLe 4 0x00000006 ++ (toLe 4 total.toNat ++ (toLe 4 0 ++ (toLe 4 tsHigh.toNat ++
    (toLe 4 tsLow.toNat ++ (toLe 4 caplen.toNat ++ (toLe 4 p.wireLen.toNat ++ (p.data ++
      (List.replicate pad 0 ++ toLe 4 total.toNat))))))))

def writePacket (w : PcapngWriter) (p : WrittenPacket) : PcapngWriter where
  writer := w.writer ++ packetBytes p

end PcapngWriter

/-- The files that the writers make of some packets. -/
def pcapFile (linktype : Linktype) (snaplen : UInt32) (packets : List WrittenPacket) : List UInt8 :=
  (packets.foldl PcapWriter.writePacket (.new linktype snaplen)).writer

def pcapngFile (linktype : Linktype) (snaplen : UInt32) (packets : List WrittenPacket) : List UInt8 :=
  (packets.foldl PcapngWriter.writePacket (.new linktype snaplen)).writer

namespace WrittenPacket

/-- The length of a packet leaves room for the block around it. -/
def Short (p : WrittenPacket) : Prop := p.data.length < 2 ^ 32 - 36

instance decidableShort (p : WrittenPacket) : Decidable p.Short :=
  inferInstanceAs (Decidable (p.data.length < 2 ^ 32 - 36))

/-- A packet that the formats can hold: its time is in the range of the seconds as well. -/
structure Fits (p : WrittenPacket) : Prop where
  early : 0 ≤ p.timestamp
  late : p.timestamp < 2 ^ 32 * 1000000000
  short : p.Short

/-- What is to be read of a packet. -/
def asRead (p : WrittenPacket) : Packet :=
  ⟨p.timestamp.timestampMicros.toNat, p.data, p.wireLen.toNat⟩

/-- What is read of a packet in a pcap file, whatever its time. -/
def pcapRead (p : WrittenPacket) : Packet :=
  ⟨(UInt32.ofInt p.timestamp.timestamp).toNat * 1000000 + p.timestamp.timestampSubsecMicros.toNat,
    p.data, p.wireLen.toNat⟩

/-- The two words of the time in a pcapng file. -/
def tsHigh (p : WrittenPacket) : UInt32 :=
  UInt32.ofNat ((max p.timestamp.timestampMicros 0).toNat / 2 ^ 32)

def tsLow (p : WrittenPacket) : UInt32 :=
  UInt32.ofNat ((max p.timestamp.timestampMicros 0).toNat % 2 ^ 32)

/-- What is read of a packet in a pcapng file, whatever its time. -/
def pcapngRead (p : WrittenPacket) : Packet :=
  ⟨p.tsHigh.toNat * 2 ^ 32 + p.tsLow.toNat, p.data, p.wireLen.toNat⟩

end WrittenPacket

section Pcap

variable {p : WrittenPacket}

theorem lt_of_uint32 (n : UInt32) : n.toNat < 256 ^ 4 := n.toNat_lt

theorem WrittenPacket.Short.toNat_length (h : p.Short) :
    (UInt32.ofNat p.data.length).toNat = p.data.length := by
  unfold WrittenPacket.Short at h
  rw [UInt32.toNat_ofNat', Nat.mod_eq_of_lt (by omega)]

theorem timestampSubsecMicros_toNat (t : DateTime) :
    t.timestampSubsecMicros.toNat = (t % 1000000000 / 1000).toNat := by
  have hlt : (t % 1000000000 / 1000).toNat < 1000000 := by
    omega
  rw [DateTime.timestampSubsecMicros, UInt32.toNat_ofNat', Nat.mod_eq_of_lt (by omega)]

theorem timestampSubsecMicros_lt (t : DateTime) : t.timestampSubsecMicros.toNat < 1000000 := by
  rw [timestampSubsecMicros_toNat]
  omega

/-- Seconds and microseconds are together the time in microseconds. -/
theorem WrittenPacket.Fits.pcapRead_eq (h : p.Fits) : p.pcapRead = p.asRead := by
  obtain ⟨t, ht⟩ := Int.eq_ofNat_of_zero_le h.early
  have hlate := h.late
  unfold pcapRead asRead
  rw [timestampSubsecMicros_toNat]
  rw [ht] at hlate ⊢
  have hlt : t < 2 ^ 32 * 1000000000 := by exact_mod_cast hlate
  have hsecs : (UInt32.ofInt (DateTime.timestamp (t : ℤ))).toNat = t / 1000000000 := by
    have hdiv : (DateTime.timestamp (t : ℤ) % 2 ^ 32).toNat = t / 1000000000 := by
      unfold DateTime.timestamp
      omega
    rw [UInt32.ofInt, hdiv, UInt32.toNat_ofNat', Nat.mod_eq_of_lt (by omega)]
  have hsub : ((t : ℤ) % 1000000000 / 1000).toNat = t % 1000000000 / 1000 := by omega
  have hmicros : (DateTime.timestampMicros (t : ℤ)).toNat = t / 1000 := by
    unfold DateTime.timestampMicros
    omega
  have hsum : t / 1000000000 * 1000000 + t % 1000000000 / 1000 = t / 1000 := by omega
  rw [hsecs, hsub, hmicros, hsum]

theorem WrittenPacket.Fits.pcapngRead_eq (h : p.Fits) : p.pcapngRead = p.asRead := by
  obtain ⟨t, ht⟩ := Int.eq_ofNat_of_zero_le h.early
  have hlate := h.late
  unfold pcapngRead asRead tsHigh tsLow
  rw [ht] at hlate ⊢
  have hlt : t < 2 ^ 32 * 1000000000 := by exact_mod_cast hlate
  have hmicros : (DateTime.timestampMicros (t : ℤ)).toNat = t / 1000 := by
    unfold DateTime.timestampMicros
    omega
  have hmax : (max (DateTime.timestampMicros (t : ℤ)) 0).toNat = t / 1000 := by
    unfold DateTime.timestampMicros
    omega
  have hsum : t / 1000 / 2 ^ 32 * 2 ^ 32 + t / 1000 % 2 ^ 32 = t / 1000 := by omega
  rw [hmax, hmicros, UInt32.toNat_ofNat', UInt32.toNat_ofNat', Nat.mod_eq_of_lt (by omega),
    Nat.mod_eq_of_lt (by omega), hsum]

theorem readPcapPacket_packetBytes (h : p.Short) (rest : List UInt8) :
    readPcapPacket .little (PcapWriter.packetBytes p ++ rest) = some (p.pcapRead, rest) := by
  have hsub := timestampSubsecMicros_lt p.timestamp
  have hlen : p.data.length < 256 ^ 4 := Nat.lt_of_lt_of_le h (by decide)
  unfold readPcapPacket PcapWriter.packetBytes
  simp only [List.append_assoc, readNum_toLe (lt_of_uint32 _), Option.bind_eq_bind, Option.bind_some,
    h.toNat_length, readNum_toLe hlen, cut_append, if_pos hsub]
  rfl

theorem PcapWriter.length_packetBytes_pos (p : WrittenPacket) : 0 < (packetBytes p).length := by
  simp only [packetBytes, List.length_append, length_toLe]
  omega

theorem length_le_flatMap {α : Type} {f : α → List UInt8} (hf : ∀ a, 0 < (f a).length) (l : List α) :
    l.length ≤ (l.flatMap f).length := by
  induction l with
  | nil => exact Nat.zero_le _
  | cons a l ih =>
    have ha := hf a
    rw [List.flatMap_cons, List.length_append, List.length_cons]
    omega

theorem readPcapPackets_packetBytes {packets : List WrittenPacket} (h : ∀ p ∈ packets, p.Short)
    {rounds : ℕ} (hr : packets.length ≤ rounds) :
    readPcapPackets .little rounds (packets.flatMap PcapWriter.packetBytes) =
      some (packets.map WrittenPacket.pcapRead) := by
  induction packets generalizing rounds with
  | nil =>
    cases rounds with
    | zero => rfl
    | succ rounds => rfl
  | cons p packets ih =>
    obtain ⟨rounds, rfl⟩ := Nat.exists_eq_succ_of_ne_zero (Nat.ne_of_gt (Nat.zero_lt_of_lt hr))
    have hhead := readPcapPacket_packetBytes (h p List.mem_cons_self)
      (packets.flatMap PcapWriter.packetBytes)
    have htail := ih (fun q hq => h q (List.mem_cons_of_mem p hq)) (Nat.le_of_succ_le_succ hr)
    rw [List.flatMap_cons]
    cases hbytes : PcapWriter.packetBytes p ++ packets.flatMap PcapWriter.packetBytes with
    | nil =>
      have hpos := PcapWriter.length_packetBytes_pos p
      rw [(List.append_eq_nil_iff.mp hbytes).1] at hpos
      cases hpos
    | cons b bytes =>
      rw [readPcapPackets, ← hbytes, hhead]
      simp only [Option.bind_eq_bind, Option.bind_some, htail]
      rfl

theorem pcapFile_eq (linktype : Linktype) (snaplen : UInt32) (packets : List WrittenPacket) :
    pcapFile linktype snaplen packets =
      (PcapWriter.new linktype snaplen).writer ++ packets.flatMap PcapWriter.packetBytes := by
  unfold pcapFile
  generalize PcapWriter.new linktype snaplen = w
  induction packets generalizing w with
  | nil => rw [List.flatMap_nil, List.append_nil]; rfl
  | cons p packets ih =>
    rw [List.foldl_cons, ih, List.flatMap_cons, ← List.append_assoc]
    rfl

theorem toPcapLinktype_lt (linktype : Linktype) : linktype.toPcapLinktype.toNat < 2 ^ 16 := by
  cases linktype with
  | ethernet => decide
  | rawIp => decide
  | other v => exact v.toNat_lt

/-- A reader of a pcap file finds what was written. -/
theorem readPcap_pcapFile (linktype : Linktype) (snaplen : UInt32) {packets : List WrittenPacket}
    (h : ∀ p ∈ packets, p.Short) : readPcap (pcapFile linktype snaplen packets) =
      some (⟨linktype.toPcapLinktype.toNat, snaplen.toNat⟩, packets.map WrittenPacket.pcapRead) := by
  have hmagic : orderOf 0xa1b2c3d4 (toLe 4 0xa1b2c3d4) = some .little := orderOf_toLe (by decide)
  have hpackets := readPcapPackets_packetBytes h
    (length_le_flatMap PcapWriter.length_packetBytes_pos packets)
  rw [pcapFile_eq]
  unfold readPcap readPcapHeader PcapWriter.new
  simp only [List.append_assoc, readNum_toLe (lt_of_uint32 _), Option.bind_eq_bind, Option.bind_some,
    cut_append (length_toLe 4 _), hmagic, readNum_toLe (show 2 < 256 ^ 2 by decide),
    readNum_toLe (show 4 < 256 ^ 2 by decide), readNum_toLe (show 0 < 256 ^ 4 by decide),
    Nat.mod_eq_of_lt (toPcapLinktype_lt linktype), if_true, hpackets]
  rfl

end Pcap

section Pcapng

variable {p : WrittenPacket}

/-- The blocks of a pcapng file. -/
def shbBlock : CaptureFile.Block :=
  ⟨.little, sectionKind, toLe 4 0x1a2b3c4d ++ (toLe 2 1 ++ (toLe 2 0 ++ List.replicate 8 0xff))⟩

def idbBlock (linktype : UInt16) (snaplen : UInt32) : CaptureFile.Block :=
  ⟨.little, 1, toLe 2 linktype.toNat ++ (toLe 2 0 ++ toLe 4 snaplen.toNat)⟩

def epbBlock (p : WrittenPacket) : CaptureFile.Block :=
  ⟨.little, 6, toLe 4 0 ++ (toLe 4 p.tsHigh.toNat ++ (toLe 4 p.tsLow.toNat ++
    (toLe 4 p.data.length ++ (toLe 4 p.wireLen.toNat ++ (p.data ++
      List.replicate (PcapngWriter.padding p.data) 0)))))⟩

theorem fits_shb : shbBlock.Fits := ⟨rfl, by decide, by decide, by decide⟩

theorem fits_idb (linktype : UInt16) (snaplen : UInt32) : (idbBlock linktype snaplen).Fits := by
  constructor
  · rfl
  · change 1 < 256 ^ 4
    decide
  · simp [idbBlock]
  · simp [idbBlock]

theorem length_epb (p : WrittenPacket) :
    (epbBlock p).body.length = 20 + p.data.length + PcapngWriter.padding p.data := by
  simp only [epbBlock, List.length_append, length_toLe, List.length_replicate]
  omega

theorem fits_epb (h : p.Short) : (epbBlock p).Fits := by
  have hlen := length_epb p
  unfold WrittenPacket.Short at h
  have hpad : PcapngWriter.padding p.data = (4 - p.data.length % 4) % 4 := rfl
  constructor
  · rfl
  · change 6 < 256 ^ 4
    decide
  · omega
  · omega

theorem shbBytes_eq : PcapngWriter.shbBytes = blockBytes shbBlock := by decide

theorem idbBytes_eq (linktype : UInt16) (snaplen : UInt32) :
    PcapngWriter.idbBytes linktype snaplen = blockBytes (idbBlock linktype snaplen) := by
  have hlen : 12 + (idbBlock linktype snaplen).body.length = 20 := by simp [idbBlock]
  rw [blockBytes, hlen]
  simp only [PcapngWriter.idbBytes, idbBlock, List.append_assoc]

theorem packetBytes_eq (h : p.Short) : PcapngWriter.packetBytes p = blockBytes (epbBlock p) := by
  have hlen : 12 + (epbBlock p).body.length = 32 + p.data.length + PcapngWriter.padding p.data := by
    rw [length_epb]
    omega
  have hpad : PcapngWriter.padding p.data = (4 - p.data.length % 4) % 4 := rfl
  have htotal : (UInt32.ofNat (32 + p.data.length + PcapngWriter.padding p.data)).toNat =
      32 + p.data.length + PcapngWriter.padding p.data := by
    unfold WrittenPacket.Short at h
    rw [UInt32.toNat_ofNat', Nat.mod_eq_of_lt (by omega)]
  unfold PcapngWriter.packetBytes blockBytes
  simp only [hlen, htotal, h.toNat_length]
  simp only [epbBlock, WrittenPacket.tsHigh, WrittenPacket.tsLow, List.append_assoc]

theorem pcapngFile_eq (linktype : Linktype) (snaplen : UInt32) {packets : List WrittenPacket}
    (h : ∀ p ∈ packets, p.Short) : pcapngFile linktype snaplen packets =
      (shbBlock :: idbBlock linktype.toPcapLinktype.toUInt16 snaplen ::
        packets.map epbBlock).flatMap blockBytes := by
  have hfold (w : PcapngWriter) : (packets.foldl PcapngWriter.writePacket w).writer =
      w.writer ++ (packets.map epbBlock).flatMap blockBytes := by
    induction packets generalizing w with
    | nil => rw [List.map_nil, List.flatMap_nil, List.append_nil]; rfl
    | cons p packets ih =>
      rw [List.foldl_cons, ih fun q hq => h q (List.mem_cons_of_mem p hq), List.map_cons,
        List.flatMap_cons, ← packetBytes_eq (h p List.mem_cons_self), ← List.append_assoc]
      rfl
  rw [pcapngFile, hfold, PcapngWriter.new, shbBytes_eq, idbBytes_eq, List.flatMap_cons,
    List.flatMap_cons, List.append_assoc]

theorem readEnhanced_epb (h : p.Short) (interface : Interface) :
    readEnhanced [interface] (epbBlock p) = some (interface, p.pcapngRead) := by
  have hpad : PcapngWriter.padding p.data = (4 - p.data.length % 4) % 4 := rfl
  have hlen : p.data.length < 256 ^ 4 := Nat.lt_of_lt_of_le h (by decide)
  unfold readEnhanced epbBlock
  simp only [Option.bind_eq_bind, Option.bind_some, readNum_toLe (show 0 < 256 ^ 4 by decide),
    readNum_toLe hlen, readNum_toLe (lt_of_uint32 _), cut_append, List.getElem?_cons_zero]
  rw [if_pos (by rw [List.length_replicate]; omega)]
  rfl

theorem readContents_epb (interface : Interface) {packets : List WrittenPacket}
    (h : ∀ p ∈ packets, p.Short) : readContents [interface] (packets.map epbBlock) =
      some ([interface], packets.map fun p => (interface, p.pcapngRead)) := by
  induction packets with
  | nil => rfl
  | cons p packets ih =>
    have hsection : (epbBlock p).kind ≠ sectionKind := by change 6 ≠ 0x0a0d0d0a; decide
    have hother : (epbBlock p).kind ≠ 1 := by change 6 ≠ 1; decide
    have hkind : (epbBlock p).kind = 6 := rfl
    rw [List.map_cons, readContents, if_neg hsection, if_neg hother, if_pos hkind,
      readEnhanced_epb (h p List.mem_cons_self), ih fun q hq => h q (List.mem_cons_of_mem p hq)]
    rfl

theorem readInterface_idb (linktype : UInt16) (snaplen : UInt32) :
    readInterface (idbBlock linktype snaplen) = some ⟨linktype.toNat, snaplen.toNat⟩ := by
  have hlink : linktype.toNat < 256 ^ 2 := linktype.toNat_lt
  have hsnap : readNum .little 4 (toLe 4 snaplen.toNat ++ []) = some (snaplen.toNat, []) :=
    readNum_toLe (lt_of_uint32 snaplen)
  rw [List.append_nil] at hsnap
  unfold readInterface idbBlock
  simp only [Option.bind_eq_bind, Option.bind_some, readNum_toLe hlink,
    readNum_toLe (show 0 < 256 ^ 2 by decide), hsnap, if_true]

theorem readBlocks_pcapngFile (linktype : UInt16) (snaplen : UInt32) {packets : List WrittenPacket}
    (h : ∀ p ∈ packets, p.Short) {rounds : ℕ} (hr : packets.length + 2 ≤ rounds) :
    readBlocks rounds none ((shbBlock :: idbBlock linktype snaplen ::
        packets.map epbBlock).flatMap blockBytes) =
      some (shbBlock :: idbBlock linktype snaplen :: packets.map epbBlock) := by
  obtain ⟨rounds, rfl⟩ := Nat.exists_eq_succ_of_ne_zero (Nat.ne_of_gt (Nat.zero_lt_of_lt hr))
  have hfits : ∀ b ∈ idbBlock linktype snaplen :: packets.map epbBlock, b.Fits := by
    intro b hb
    rcases List.mem_cons.mp hb with rfl | hb
    · exact fits_idb linktype snaplen
    · obtain ⟨p, hp, rfl⟩ := List.mem_map.mp hb
      exact fits_epb (h p hp)
  have hkinds : ∀ b ∈ idbBlock linktype snaplen :: packets.map epbBlock, b.kind ≠ sectionKind := by
    intro b hb
    rcases List.mem_cons.mp hb with rfl | hb
    · change 1 ≠ 0x0a0d0d0a
      decide
    · obtain ⟨p, hp, rfl⟩ := List.mem_map.mp hb
      change 6 ≠ 0x0a0d0d0a
      decide
  have hlen : (idbBlock linktype snaplen :: packets.map epbBlock).length ≤ rounds := by
    rw [List.length_cons, List.length_map]
    omega
  have hmagic (rest : List UInt8) :
      blockOrder none (blockBytes shbBlock ++ rest) = some .little :=
    blockOrder_section rfl rfl none rest
  rw [List.flatMap_cons, readBlocks_cons fits_shb (hmagic _),
    readBlocks_blockBytes hfits hkinds hlen]
  rfl

/-- A reader of a pcapng file finds what was written. -/
theorem readPcapng_pcapngFile (linktype : Linktype) (snaplen : UInt32) {packets : List WrittenPacket}
    (h : ∀ p ∈ packets, p.Short) : readPcapng (pcapngFile linktype snaplen packets) =
      some ([⟨linktype.toPcapLinktype.toNat, snaplen.toNat⟩],
        packets.map fun p => (⟨linktype.toPcapLinktype.toNat, snaplen.toNat⟩, p.pcapngRead)) := by
  have hlink : linktype.toPcapLinktype.toUInt16.toNat = linktype.toPcapLinktype.toNat := by
    rw [UInt32.toNat_toUInt16, Nat.mod_eq_of_lt (toPcapLinktype_lt linktype)]
  have hrounds := length_le_flatMap (fun b => List.length_pos_of_ne_nil
    (by simpa using blockBytes_ne_nil b [])) (shbBlock ::
      idbBlock linktype.toPcapLinktype.toUInt16 snaplen :: packets.map epbBlock)
  simp only [List.length_cons, List.length_map] at hrounds
  have hsection : readSection shbBlock = some () := by decide
  rw [pcapngFile_eq linktype snaplen h, readPcapng, readBlocks_pcapngFile _ snaplen h hrounds]
  have hkind : (idbBlock linktype.toPcapLinktype.toUInt16 snaplen).kind ≠ sectionKind := by
    change 1 ≠ 0x0a0d0d0a
    decide
  have hidb : (idbBlock linktype.toPcapLinktype.toUInt16 snaplen).kind = 1 := rfl
  have hshb : shbBlock.kind = sectionKind := rfl
  simp only [Option.bind_eq_bind, Option.bind_some, readContents, if_pos hshb, hsection,
    if_neg hkind, if_pos hidb, readInterface_idb, List.nil_append, readContents_epb _ h, hlink]

end Pcapng

/-- Some bytes are a row of blocks, each between two copies of its length, a multiple of four. -/
def InBlocks (bytes : List UInt8) : Prop :=
  ∃ blocks : List CaptureFile.Block, bytes = blocks.flatMap blockBytes ∧
    ∀ b ∈ blocks, (12 + b.body.length) % 4 = 0 ∧ 12 + b.body.length < 2 ^ 32

/-- Both files are read back as they were written, and the pcapng file is made of whole blocks. -/
theorem files_read_back (linktype : Linktype) (snaplen : UInt32) {packets : List WrittenPacket}
    (h : ∀ p ∈ packets, p.Fits) :
    readPcap (pcapFile linktype snaplen packets) =
        some (⟨linktype.toPcapLinktype.toNat, snaplen.toNat⟩, packets.map WrittenPacket.asRead) ∧
      readPcapng (pcapngFile linktype snaplen packets) =
        some ([⟨linktype.toPcapLinktype.toNat, snaplen.toNat⟩],
          packets.map fun p => (⟨linktype.toPcapLinktype.toNat, snaplen.toNat⟩, p.asRead)) ∧
      InBlocks (pcapngFile linktype snaplen packets) := by
  have hshort : ∀ p ∈ packets, p.Short := fun p hp => (h p hp).short
  refine ⟨?_, ?_, _, pcapngFile_eq linktype snaplen hshort, fun b hb => ?_⟩
  · rw [readPcap_pcapFile linktype snaplen hshort,
      List.map_congr_left fun p hp => (h p hp).pcapRead_eq]
  · rw [readPcapng_pcapngFile linktype snaplen hshort,
      List.map_congr_left fun p hp => by rw [(h p hp).pcapngRead_eq]]
  · have hfits : b.Fits := by
      rcases List.mem_cons.mp hb with rfl | hb
      · exact fits_shb
      rcases List.mem_cons.mp hb with rfl | hb
      · exact fits_idb _ snaplen
      · obtain ⟨p, hp, rfl⟩ := List.mem_map.mp hb
        exact fits_epb (hshort p hp)
    have haligned := hfits.aligned
    exact ⟨by omega, hfits.total⟩

theorem files_read_back_two : readPcap (pcapFile .rawIp 65535
      [⟨1700000000123456789, [0xde, 0xad, 0xbe, 0xef, 1], 60⟩, ⟨0, [], 0⟩]) =
    some (⟨101, 65535⟩, [⟨1700000000123456, [0xde, 0xad, 0xbe, 0xef, 1], 60⟩, ⟨0, [], 0⟩]) := by
  have hfits : ∀ p ∈ ([⟨1700000000123456789, [0xde, 0xad, 0xbe, 0xef, 1], 60⟩, ⟨0, [], 0⟩] :
      List WrittenPacket), p.Fits := by
    simp only [List.forall_mem_cons]
    exact ⟨⟨by decide, by decide, by decide⟩, ⟨by decide, by decide, by decide⟩,
      fun p hp => absurd hp List.not_mem_nil⟩
  exact (files_read_back .rawIp 65535 hfits).1

end Pktscope

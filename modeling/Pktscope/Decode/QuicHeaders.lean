import Pktscope.Decode.Quic
import Pktscope.Library.Spans
import Pktscope.Library.Utf8

/-! # QUIC long headers on the wire

A long header has a version and two connection ids, each behind its length. The
decoder accepts the datagrams that begin with one and no others, and finds in
them what the header says.
-/

namespace Pktscope

open Library Parse

/-- A long header: the form bit of its first byte is set, and the ids have at most 20 bytes. -/
structure QuicLongHeader where
  first : UInt8
  version : UInt32
  dcid : List UInt8
  scid : List UInt8
  long : first &&& 0x80 ≠ 0
  dcid_fits : dcid.length ≤ 20
  scid_fits : scid.length ≤ 20

namespace QuicLongHeader

variable (h : QuicLongHeader)

def bytes : List UInt8 := h.first :: (toBe32 h.version ++ (vec8 h.dcid ++ vec8 h.scid))

/-- What is shown of a header at a place. -/
def info (offset : ℕ) : QuicInfo where
  longHeader := true
  version := some h.version
  packetType := quicPacketType h.first h.version
  dcid := h.dcid
  scid := h.scid
  sni := none
  headerRange := (offset, offset + h.bytes.length)

theorem length_bytes : h.bytes.length = 7 + h.dcid.length + h.scid.length := by
  simp only [bytes, List.length_cons, List.length_append, length_toBe32, length_vec8]
  omega

end QuicLongHeader

section Ids

variable {d : List UInt8} (hs : d.length < maxBytes)
include hs

theorem readCid_eq_ok {pos next : ℕ} {cid : List UInt8} :
    readCid d pos = ok (cid, next) ↔
      StandsAt d pos (vec8 cid) ∧ cid.length ≤ 20 ∧ next = pos + (1 + cid.length) := by
  have hmax : maxBytes = 2 ^ 63 := rfl
  constructor
  · intro h
    unfold readCid at h
    by_cases hpos : pos < d.length
    · have hlen := (d[pos]).toNat_lt
      rw [List.getElem?_eq_getElem hpos, ofOption, ok_bind,
        addUsize_eq hs (Nat.le_of_lt hpos) (by omega), ok_bind] at h
      split_ifs at h with hlong
      rw [addUsize_eq hs (by omega) (by omega), ok_bind] at h
      split_ifs at h with hshort
      rw [sliceAt, if_pos ⟨Nat.le_add_right _ _, by omega⟩, ok_bind] at h
      cases h
      have hlength : (slice d (pos + 1) (pos + 1 + (d[pos]).toNat)).length = (d[pos]).toNat := by
        rw [length_slice (by omega)]
        omega
      have htwenty : (20 : UInt8).toNat = 20 := rfl
      rw [UInt8.not_lt, UInt8.le_iff_toNat_le] at hlong
      refine ⟨?_, by omega, by omega⟩
      rw [vec8, hlength, UInt8.ofNat_toNat, standsAt_cons]
      constructor
      · have hpeek := standsAt_peek hpos
        rwa [peek_eq_getElem hpos] at hpeek
      · exact standsAt_slice (Nat.le_add_right _ _) (by omega)
    · rw [List.getElem?_eq_none (not_lt.mp hpos)] at h
      cases h
  · rintro ⟨hat, hfits, rfl⟩
    have hle := hat.le
    rw [length_vec8] at hle
    have hbyte : (UInt8.ofNat cid.length).toNat = cid.length := toNat_ofNat_byte (by omega)
    have htwenty : ¬((20 : UInt8) < UInt8.ofNat cid.length) := by
      rw [UInt8.not_lt, UInt8.le_iff_toNat_le, hbyte]
      exact hfits
    have hslice : sliceAt d (pos + 1) (pos + 1 + cid.length) = ok cid :=
      (StandsAt.tail hat).sliceAt rfl
    have hget : d[pos]? = some (UInt8.ofNat cid.length) := StandsAt.getElem? hat
    rw [readCid, hget, ofOption, ok_bind, addUsize_eq hs (by omega) (by omega), ok_bind,
      if_neg htwenty, hbyte, addUsize_eq hs (by omega) (by omega), ok_bind, if_neg (by omega),
      hslice, ok_bind]
    have hend : pos + 1 + cid.length = pos + (1 + cid.length) := by omega
    rw [hend]
    rfl

theorem standsAt_be32 {pos : ℕ} {n : UInt32} (hpos : pos + 3 < d.length)
    (h : be32At d pos 0 = ok n) : StandsAt d pos (toBe32 n) := by
  rw [be32At_eq hs (by omega)] at h
  obtain rfl := ok.inj h
  have ha : StandsAt d pos [peek d pos] := standsAt_peek (by omega)
  have hb : StandsAt d (pos + 1) [peek d (pos + 1)] := standsAt_peek (by omega)
  have hc : StandsAt d (pos + 2) [peek d (pos + 2)] := standsAt_peek (by omega)
  have hd : StandsAt d (pos + 3) [peek d (pos + 3)] := standsAt_peek hpos
  rw [toBe32_be32]
  exact standsAt_cons.mpr ⟨ha, standsAt_cons.mpr ⟨hb, standsAt_cons.mpr ⟨hc, hd⟩⟩⟩

end Ids

section Headers

variable {data : List UInt8} (hs : data.length < maxBytes)
include hs

theorem tryDecodeQuic_of_standsAt (h : QuicLongHeader) {offset : ℕ}
    (hat : StandsAt data offset h.bytes) : tryDecodeQuic data offset = ok (h.info offset) := by
  have hmax : maxBytes = 2 ^ 63 := rfl
  have hlen := h.length_bytes
  obtain ⟨front, back, rfl, rfl⟩ := hat
  have hd : getSlice (front ++ (h.bytes ++ back)) front.length
      (front ++ (h.bytes ++ back)).length = ok (h.bytes ++ back) := by
    have hrest : StandsAt (front ++ (h.bytes ++ back)) front.length (h.bytes ++ back) :=
      ⟨front, [], rfl, by rw [List.append_nil]⟩
    exact hrest.getSlice List.length_append
  rw [List.length_append] at hs
  have hwhole : StandsAt (h.bytes ++ back) 0 h.bytes := ⟨[], back, rfl, rfl⟩
  have hlong : (h.bytes ++ back).length = h.bytes.length + back.length := List.length_append
  generalize h.bytes ++ back = d at *
  have hsmall : d.length < maxBytes := by omega
  have hrest : StandsAt d 1 (toBe32 h.version ++ (vec8 h.dcid ++ vec8 h.scid)) := hwhole.tail
  have hids : StandsAt d 5 (vec8 h.dcid ++ vec8 h.scid) := hrest.right
  have hscid : StandsAt d (5 + (1 + h.dcid.length)) (vec8 h.scid) := by
    have hright := hids.right
    rwa [length_vec8, Nat.add_comm _ 1] at hright
  have hversion : be32At d 1 0 = ok h.version := StandsAt.be32At hsmall hrest
  have hfirst := (readCid_eq_ok hsmall).mpr ⟨hids.left, h.dcid_fits, rfl⟩
  have hsecond := (readCid_eq_ok hsmall).mpr ⟨hscid, h.scid_fits, rfl⟩
  have hstop : addUsize front.length
      (min (5 + (1 + h.dcid.length) + (1 + h.scid.length)) d.length) =
        ok (front.length + h.bytes.length) := by
    have hmin : min (5 + (1 + h.dcid.length) + (1 + h.scid.length)) d.length = h.bytes.length := by
      omega
    rw [hmin]
    exact if_pos (by omega)
  rw [tryDecodeQuic, hd, ok_bind, if_neg (by omega), StandsAt.index hwhole, ok_bind,
    if_neg h.long, hversion, ok_bind, hfirst, ok_bind]
  dsimp only
  rw [hsecond, ok_bind]
  dsimp only
  rw [hstop]
  rfl

theorem standsAt_of_tryDecodeQuic {offset : ℕ} {q : QuicInfo}
    (h : tryDecodeQuic data offset = ok q) :
    ∃ header : QuicLongHeader, StandsAt data offset header.bytes ∧ q = header.info offset := by
  have hmax : maxBytes = 2 ^ 63 := rfl
  unfold tryDecodeQuic at h
  obtain ⟨d, hd, h⟩ := bind_eq_ok.mp h
  rw [getSlice] at hd
  split_ifs at hd with hrange
  obtain rfl := ok.inj hd
  have hat := standsAt_slice hrange.1 hrange.2
  have hsize : (slice data offset data.length).length = data.length - offset :=
    length_slice le_rfl
  generalize slice data offset data.length = d at *
  have hsmall : d.length < maxBytes := by omega
  split_ifs at h with hshort
  obtain ⟨first, hfirst, h⟩ := bind_eq_ok.mp h
  split_ifs at h with hlong
  obtain ⟨version, hversion, h⟩ := bind_eq_ok.mp h
  obtain ⟨⟨dcid, pos⟩, hdcid, h⟩ := bind_eq_ok.mp h
  obtain ⟨⟨scid, last⟩, hscid, h⟩ := bind_eq_ok.mp h
  obtain ⟨stop, hstop, h⟩ := bind_eq_ok.mp h
  obtain ⟨hdat, hdfits, rfl⟩ := (readCid_eq_ok hsmall).mp hdcid
  obtain ⟨hsat, hsfits, rfl⟩ := (readCid_eq_ok hsmall).mp hscid
  have hfirstAt : StandsAt d 0 [first] := by
    rw [index_eq_peek (by omega)] at hfirst
    obtain rfl := ok.inj hfirst
    exact standsAt_peek (by omega)
  have hversionAt : StandsAt d 1 (toBe32 version) := standsAt_be32 hsmall (by omega) hversion
  let header : QuicLongHeader := ⟨first, version, dcid, scid, hlong, hdfits, hsfits⟩
  have hheader : StandsAt d 0 header.bytes := by
    change StandsAt d 0 (first :: (toBe32 version ++ (vec8 dcid ++ vec8 scid)))
    rw [standsAt_cons, standsAt_append, standsAt_append]
    refine ⟨hfirstAt, hversionAt, hdat, ?_⟩
    have hplace : 0 + 1 + 4 + (dcid.length + 1) = 5 + (1 + dcid.length) := by omega
    rw [length_toBe32, length_vec8, hplace]
    exact hsat
  have hlength : header.bytes.length = 7 + dcid.length + scid.length := header.length_bytes
  have hle := hheader.le
  refine ⟨header, ?_, ?_⟩
  · obtain ⟨front, back, hfront, hsplit⟩ := hheader
    obtain rfl := List.eq_nil_of_length_eq_zero hfront
    rw [hsplit, List.nil_append] at hat
    exact hat.left
  · have hmin : min (5 + (1 + dcid.length) + (1 + scid.length)) d.length =
        header.bytes.length := by omega
    have hroom : addUsize offset header.bytes.length = ok (offset + header.bytes.length) :=
      if_pos (by omega)
    rw [hmin] at hstop
    obtain rfl := ok.inj (hroom.symm.trans hstop)
    exact (ok.inj h).symm

end Headers

section Samples

/-- An initial packet with one id. -/
def sampleDatagram : List UInt8 := [0xc0, 0, 0, 0, 1, 2, 7, 8, 0, 9]

end Samples

end Pktscope

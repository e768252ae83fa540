import Pktscope.Decode.Layers
import Pktscope.Library.Bytes

/-! # QUIC long headers -/

namespace Pktscope

open Library Parse

/-- A connection id behind its length, with the place behind it. -/
def readCid (d : List UInt8) (pos : ℕ) : Parse (List UInt8 × ℕ) := do
  let len ← ofOption d[pos]?
  let start ← addUsize pos 1
  if 20 < len then refuse
  else do
    let stop ← addUsize start len.toNat
    if d.length < stop then refuse
    else do
      let cid ← sliceAt d start stop
      return (cid, stop)

def quicPacketType (b0 : UInt8) (version : UInt32) : QuicPacketType :=
  if version = 0 then .versionNegotiation
  else
    let bits := (b0 &&& 0x30) >>> 4
    if bits = 0 then .initial
    else if bits = 1 then .zeroRtt
    else if bits = 2 then .handshake
    else .retry

def tryDecodeQuic (data : List UInt8) (offset : ℕ) : Parse QuicInfo := do
  let d ← getSlice data offset data.length
  if d.length < 6 then refuse
  else do
    let b0 ← index d 0
    if b0 &&& 0x80 = 0 then refuse
    else do
      let version ← be32At d 1 0
      let (dcid, pos) ← readCid d 5
      let (scid, pos) ← readCid d pos
      let stop ← addUsize offset (min pos d.length)
      return {
        longHeader := true
        version := some version
        packetType := quicPacketType b0 version
        dcid, scid
        sni := none
        headerRange := (offset, stop) }

section Safe

variable {data : List UInt8} (hs : data.length < maxBytes)
include hs

theorem holds_readCid (pos : ℕ) : Holds (readCid data pos) fun _ => True := by
  have hmax : maxBytes = 2 ^ 63 := rfl
  unfold readCid
  by_cases hpos : pos < data.length
  · rw [List.getElem?_eq_getElem hpos]
    change Holds (addUsize pos 1 >>= _) _
    have hlen := (data[pos]).toNat_lt
    rw [holds_bind, holds_addUsize (by omega)]
    refine holds_ite (fun _ => trivial) fun _ => ?_
    rw [holds_bind, holds_addUsize (by omega)]
    refine holds_ite (fun _ => trivial) fun hstop => ?_
    rw [holds_bind, holds_sliceAt (Nat.le_add_right _ _) (by omega)]
    trivial
  · rw [List.getElem?_eq_none (not_lt.mp hpos)]
    trivial

/-- No datagram makes the decoder fail. -/
theorem holds_tryDecodeQuic (offset : ℕ) :
    Holds (tryDecodeQuic data offset) fun q => RangeFrom offset data.length q.headerRange := by
  have hmax : maxBytes = 2 ^ 63 := rfl
  unfold tryDecodeQuic
  rw [holds_bind]
  refine holds_getSlice fun hoff _ => holds_ite (fun _ => trivial) fun hlen => ?_
  have hd := (length_slice_le data offset data.length).trans_lt hs
  rw [index_eq_peek (by omega)]
  refine holds_ite (fun _ => trivial) fun _ => ?_
  rw [be32At_eq hd (by omega)]
  refine (holds_readCid hd 5).bind fun r _ => (holds_readCid hd r.2).bind fun s _ => ?_
  have hmin := min_le_right s.2 (slice data offset data.length).length
  have hslice := length_slice (a := offset) (Nat.le_refl data.length)
  rw [holds_bind, holds_addUsize (by omega)]
  exact ⟨rfl, Nat.le_add_right _ _, by dsimp only; omega⟩

end Safe

end Pktscope

import Mathlib.Algebra.BigOperators.Group.List.Basic
import Pktscope.Decode.Layers
import Pktscope.Library.Bytes
import Pktscope.Library.Utf8

/-! # HTTP/2 frames and HPACK

Cleartext HTTP/2 behind the connection preface, with a header decompressor whose
dynamic table lives through the frames. Strings in Huffman code are not expanded.
-/

namespace Pktscope

open Library Parse

/-- `"PRI * HTTP/2.0\r\n\r\nSM\r\n\r\n"` -/
def preface : List UInt8 := utf8Bytes "PRI * HTTP/2.0\r\n\r\nSM\r\n\r\n"

abbrev Header := String × String

/-- The static table, counted from one. -/
def staticTable : List Header :=
  [(":authority", ""), (":method", "GET"), (":method", "POST"), (":path", "/"),
    (":path", "/index.html"), (":scheme", "http"), (":scheme", "https"), (":status", "200"),
    (":status", "204"), (":status", "206"), (":status", "304"), (":status", "400"),
    (":status", "404"), (":status", "500"), ("accept-charset", ""),
    ("accept-encoding", "gzip, deflate"), ("accept-language", ""), ("accept-ranges", ""),
    ("accept", ""), ("access-control-allow-origin", ""), ("age", ""), ("allow", ""),
    ("authorization", ""), ("cache-control", ""), ("content-disposition", ""),
    ("content-encoding", ""), ("content-language", ""), ("content-length", ""),
    ("content-location", ""), ("content-range", ""), ("content-type", ""), ("cookie", ""),
    ("date", ""), ("etag", ""), ("expect", ""), ("expires", ""), ("from", ""), ("host", ""),
    ("if-match", ""), ("if-modified-since", ""), ("if-none-match", ""), ("if-range", ""),
    ("if-unmodified-since", ""), ("last-modified", ""), ("link", ""), ("location", ""),
    ("max-forwards", ""), ("proxy-authenticate", ""), ("proxy-authorization", ""),
    ("range", ""), ("referer", ""), ("refresh", ""), ("retry-after", ""), ("server", ""),
    ("set-cookie", ""), ("strict-transport-security", ""), ("transfer-encoding", ""),
    ("user-agent", ""), ("vary", ""), ("via", ""), ("www-authenticate", "")]

structure Hpack where
  /-- Newest first. -/
  dynamic : List Header
  maxSize : ℕ
  size : ℕ

/-- The rounds of the loop over the bytes of an integer: its shift is 0, 7, 14, 21, 28. -/
def intLoop (buf : List UInt8) : ℕ → ℕ → ℕ → ℕ → Parse (ℕ × ℕ)
  | 0, _, _, _ => fault .rounds
  | rounds + 1, pos, value, shift => do
    let b ← ofOption buf[pos]?
    let pos ← addUsize pos 1
    let value ← addUsize value ((b &&& 0x7f).toNat * 2 ^ shift)
    let shift := shift + 7
    if b &&& 0x80 = 0 then return (value, pos)
    else if 28 < shift then refuse
    else intLoop buf rounds pos value shift

def decodeInt (buf : List UInt8) (pos bits : ℕ) : Parse (ℕ × ℕ) := do
  let mask := 2 ^ bits - 1
  let first ← ofOption buf[pos]?
  let value := first.toNat % 2 ^ bits
  let pos ← addUsize pos 1
  if value < mask then return (value, pos)
  else intLoop buf 5 pos value 0

def decodeStr (buf : List UInt8) (pos : ℕ) : Parse (String × ℕ) := do
  let first ← ofOption buf[pos]?
  let (len, p) ← decodeInt buf pos 7
  let stop ← addUsize p len
  let bytes ← getSlice buf p stop
  let s := if first &&& 0x80 != 0 then s!"<huffman:{bytes.length}b>" else fromUtf8Lossy bytes
  return (s, stop)

/-- What an entry of the dynamic table counts for. -/
def Header.cost (h : Header) : ℕ := h.1.utf8ByteSize + h.2.utf8ByteSize + 32

namespace Hpack

def new : Hpack := ⟨[], 4096, 0⟩

/-- Drop entries from the old end while the table is too large. -/
def evictFrom (maxSize : ℕ) : List Header → ℕ → Parse (List Header × ℕ)
  | [], size => return ([], size)
  | oldest :: newer, size =>
    if maxSize < size then do
      let size ← subUsize size oldest.cost
      evictFrom maxSize newer size
    else return (oldest :: newer, size)

def evict (h : Hpack) : Parse Hpack := do
  let (kept, size) ← evictFrom h.maxSize h.dynamic.reverse h.size
  return { h with dynamic := kept.reverse, size }

def insert (h : Hpack) (header : Header) : Parse Hpack := do
  let lens ← addUsize header.1.utf8ByteSize header.2.utf8ByteSize
  let cost ← addUsize lens 32
  let size ← addUsize h.size cost
  evict { h with dynamic := header :: h.dynamic, size }

def indexed (h : Hpack) (idx : ℕ) : Parse Header :=
  if idx = 0 then refuse
  else if idx ≤ staticTable.length then do
    let i ← subUsize idx 1
    index staticTable i
  else do
    let i ← subUsize idx staticTable.length
    let i ← subUsize i 1
    ofOption h.dynamic[i]?

/-- The name of a literal field, given by an index or in full. -/
def literalName (h : Hpack) (block : List UInt8) (pos bits : ℕ) : Parse (String × ℕ) := do
  let (idx, p) ← decodeInt block pos bits
  if idx = 0 then decodeStr block p
  else do
    let entry ← h.indexed idx
    return (entry.1, p)

def literal (h : Hpack) (block : List UInt8) (pos bits : ℕ) : Parse (Header × ℕ) := do
  let (name, p) ← h.literalName block pos bits
  let (value, np) ← decodeStr block p
  return ((name, value), np)

/-- The state of the loop over a block: the table, the place, and the headers so far. -/
abbrev Progress := Hpack × ℕ × List Header

/-- One field of a block; a refusal ends the block. -/
def field (block : List UInt8) (h : Hpack) (i : ℕ) (headers : List Header) : Parse Progress := do
  let b ← index block i
  if b &&& 0x80 != 0 then do
    let (idx, ni) ← decodeInt block i 7
    if idx = 0 then refuse
    else match ← (h.indexed idx).attempt with
      | some header => return (h, ni, headers ++ [header])
      | none => return (h, ni, headers)
  else if b &&& 0x40 != 0 then do
    let (header, ni) ← h.literal block i 6
    let h ← h.insert header
    return (h, ni, headers ++ [header])
  else if b &&& 0x20 != 0 then do
    let (sz, ni) ← decodeInt block i 5
    let h ← evict { h with maxSize := sz }
    return (h, ni, headers)
  else do
    let (header, ni) ← h.literal block i 4
    return (h, ni, headers ++ [header])

/-- The loop over the fields of a block. -/
def fieldLoop (block : List UInt8) : ℕ → Progress → Parse (Hpack × List Header)
  | 0, _ => fault .rounds
  | rounds + 1, (h, i, headers) =>
    if i < block.length then do
      match ← (field block h i headers).attempt with
      | some next => fieldLoop block rounds next
      | none => return (h, headers)
    else return (h, headers)

def decode (h : Hpack) (block : List UInt8) : Parse (Hpack × List Header) :=
  fieldLoop block (block.length + 1) (h, 0, [])

end Hpack

/-- The headers of a frame; only those of a HEADERS frame without PADDED and PRIORITY are read. -/
def frameHeaders (hpack : Hpack) (frameType flags : UInt8) (payload : List UInt8) :
    Parse (Hpack × List Header) :=
  if frameType = 0x1 ∧ flags &&& 0x08 = 0 ∧ flags &&& 0x20 = 0 then hpack.decode payload
  else return (hpack, [])

/-- The loop over the frames. -/
def frameLoop (stream : List UInt8) : ℕ → ℕ → Hpack → List Http2Frame → Parse (List Http2Frame)
  | 0, _, _, _ => fault .rounds
  | rounds + 1, pos, hpack, frames => do
    let start ← addUsize pos 9
    if start ≤ stream.length ∧ frames.length < 128 then do
      let length ← be24At stream pos 0
      let frameType ← byteAt stream pos 3
      let flags ← byteAt stream pos 4
      let streamWord ← be32At stream pos 5
      let streamId := streamWord &&& 0x7fffffff
      let stop ← addUsize start length
      match ← (getSlice stream start stop).attempt with
      | none => return frames
      | some payload => do
        let (hpack, headers) ← frameHeaders hpack frameType flags payload
        frameLoop stream rounds stop hpack
          (frames ++ [⟨streamId, frameType, flags, UInt32.ofNat length, headers⟩])
    else return frames

/-- Parse a stream that begins with the connection preface. -/
def tryDecodeHttp2 (stream : List UInt8) : Parse (List Http2Frame) :=
  if preface.isPrefixOf stream then frameLoop stream 129 preface.length .new []
  else refuse

section Safe

variable {buf : List UInt8} (hs : buf.length < maxBytes)

theorem holds_getByte {P : UInt8 → Prop} {pos : ℕ} (h : pos < buf.length → ∀ b, P b) :
    Holds (ofOption buf[pos]?) P := by
  by_cases hpos : pos < buf.length
  · rw [List.getElem?_eq_getElem hpos]
    exact h hpos _
  · rw [List.getElem?_eq_none (not_lt.mp hpos)]
    trivial

omit hs in
theorem size_toString (n : ℕ) : (toString n).utf8ByteSize ≤ 4 * n + 4 := by
  have hle : (Nat.toDigits 10 n).length ≤ n + 1 :=
    (Nat.length_toDigits_le_iff (by decide) (Nat.succ_pos n)).mpr
      ((Nat.lt_pow_self (by decide)).trans (Nat.pow_lt_pow_right (by decide) (Nat.lt_succ_self n)))
  have hsize := utf8ByteSize_ofList_le (Nat.toDigits 10 n)
  exact hsize.trans (by omega)

include hs

/-- An integer of up to five more bytes stays far below the machine's range. -/
theorem holds_intLoop {rounds pos value shift : ℕ} (hr : shift + 7 * rounds = 35)
    (hpos : 0 < rounds) (hv : value < 2 ^ shift * 256) :
    Holds (intLoop buf rounds pos value shift) fun r =>
      r.1 < 2 ^ 43 ∧ pos < r.2 ∧ r.2 ≤ buf.length := by
  have hmax : maxBytes = 2 ^ 63 := rfl
  induction rounds generalizing pos value shift with
  | zero => exact absurd hpos (Nat.lt_irrefl 0)
  | succ rounds ih =>
    unfold intLoop
    rw [holds_bind]
    refine holds_getByte fun hlt b => ?_
    have hpow : 2 ^ shift ≤ 2 ^ 28 := Nat.pow_le_pow_right (by decide) (by omega)
    have hnext : 2 ^ (shift + 7) = 2 ^ shift * 128 := Nat.pow_add 2 shift 7
    have hlow : (b &&& 0x7f).toNat ≤ 127 := by
      rw [UInt8.toNat_and]
      exact Nat.and_le_right
    have hadd : (b &&& 0x7f).toNat * 2 ^ shift ≤ 127 * 2 ^ shift := Nat.mul_le_mul_right _ hlow
    rw [holds_bind, holds_addUsize (by omega), holds_bind, holds_addUsize (by omega)]
    refine holds_ite (fun _ => ?_) fun _ => holds_ite (fun _ => trivial) fun hshift => ?_
    · refine ⟨?_, Nat.lt_succ_self pos, hlt⟩
      dsimp only
      omega
    · refine (ih (by omega) (by omega) (by omega)).mono fun r hrest => ⟨hrest.1, ?_, hrest.2.2⟩
      exact (Nat.lt_succ_self pos).trans hrest.2.1

theorem holds_decodeInt {pos bits : ℕ} (hbits : bits ≤ 7) :
    Holds (decodeInt buf pos bits) fun r => r.1 < 2 ^ 43 ∧ pos < r.2 ∧ r.2 ≤ buf.length := by
  have hmax : maxBytes = 2 ^ 63 := rfl
  unfold decodeInt
  dsimp only
  rw [holds_bind]
  refine holds_getByte fun hlt b => ?_
  have hb := Nat.mod_lt b.toNat (Nat.two_pow_pos bits)
  have hpow : 2 ^ bits ≤ 2 ^ 7 := Nat.pow_le_pow_right (by decide) hbits
  rw [holds_bind, holds_addUsize (by omega)]
  refine holds_ite (fun hval => ?_) fun _ => ?_
  · refine ⟨?_, Nat.lt_succ_self pos, hlt⟩
    dsimp only
    omega
  · refine (holds_intLoop hs rfl (by decide) (by omega)).mono fun r hr => ⟨hr.1, ?_, hr.2.2⟩
    exact (Nat.lt_succ_self pos).trans hr.2.1

theorem holds_decodeStr {pos : ℕ} : Holds (decodeStr buf pos) fun r =>
    r.1.utf8ByteSize ≤ 4 * min buf.length (2 ^ 43) + 64 ∧ pos < r.2 ∧ r.2 ≤ buf.length := by
  have hmax : maxBytes = 2 ^ 63 := rfl
  unfold decodeStr
  rw [holds_bind]
  refine holds_getByte fun _ b => (holds_decodeInt hs (Nat.le_refl 7)).bind fun r hr => ?_
  dsimp only
  rw [holds_bind, holds_addUsize (by omega), holds_bind]
  refine holds_getSlice fun hle hstop => ?_
  refine ⟨?_, by omega, hstop⟩
  have hlen := length_slice (a := r.2) hstop
  dsimp only
  split
  · have hshown := size_toString (slice buf r.2 (r.2 + r.1)).length
    change (("<huffman:" ++ toString (slice buf r.2 (r.2 + r.1)).length) ++ "b>").utf8ByteSize ≤ _
    rw [String.utf8ByteSize_append, String.utf8ByteSize_append]
    have hhead : "<huffman:".utf8ByteSize = 9 := by decide
    have htail : "b>".utf8ByteSize = 2 := by decide
    omega
  · have hlossy := utf8ByteSize_lossy_le (slice buf r.2 (r.2 + r.1))
    omega

end Safe

section Table

variable {bound : ℕ}

/-- Both strings of a header have a size within a bound. -/
def Header.Fits (bound : ℕ) (h : Header) : Prop :=
  h.1.utf8ByteSize ≤ bound ∧ h.2.utf8ByteSize ≤ bound

def tableSize (l : List Header) : ℕ := (l.map Header.cost).sum

/-- The size of the dynamic table is that of its entries and within its limit. -/
structure Hpack.Sized (bound : ℕ) (h : Hpack) : Prop where
  size : h.size = tableSize h.dynamic
  cap : h.size ≤ h.maxSize
  limit : h.maxSize < 2 ^ 43
  fits : ∀ e ∈ h.dynamic, e.Fits bound

theorem Hpack.sized_new (bound : ℕ) : Hpack.new.Sized bound :=
  ⟨rfl, Nat.zero_le _, by decide, fun _ h => absurd h List.not_mem_nil⟩

theorem holds_evictFrom (maxSize : ℕ) (l : List Header) :
    Holds (Hpack.evictFrom maxSize l (tableSize l)) fun r =>
      r.2 = tableSize r.1 ∧ r.2 ≤ maxSize ∧ r.1 <:+ l := by
  induction l with
  | nil => exact ⟨rfl, Nat.zero_le _, List.suffix_refl _⟩
  | cons oldest newer ih =>
    have hsum : tableSize (oldest :: newer) = oldest.cost + tableSize newer := List.sum_cons
    unfold Hpack.evictFrom
    refine holds_ite (fun _ => ?_) fun hfits => ⟨rfl, not_lt.mp hfits, List.suffix_refl _⟩
    rw [holds_bind, holds_subUsize (by omega), hsum, Nat.add_sub_cancel_left]
    exact ih.mono fun r hr => ⟨hr.1, hr.2.1, hr.2.2.trans (List.suffix_cons _ _)⟩

theorem tableSize_reverse (l : List Header) : tableSize l.reverse = tableSize l := by
  rw [tableSize, List.map_reverse, List.sum_reverse]
  rfl

namespace Hpack

theorem holds_evict {h : Hpack} (hsize : h.size = tableSize h.dynamic) (hlimit : h.maxSize < 2 ^ 43)
    (hfits : ∀ e ∈ h.dynamic, e.Fits bound) : Holds h.evict (Sized bound) := by
  unfold evict
  rw [hsize, ← tableSize_reverse]
  refine (holds_evictFrom h.maxSize h.dynamic.reverse).bind fun r hr => ?_
  refine ⟨hr.1.trans (tableSize_reverse _).symm, hr.2.1, hlimit, fun e he => hfits e ?_⟩
  exact List.mem_reverse.mp (hr.2.2.mem (List.mem_reverse.mp he))

theorem holds_insert (hbound : bound < 2 ^ 60) {h : Hpack} (hh : h.Sized bound) {header : Header}
    (hfit : header.Fits bound) : Holds (h.insert header) (Sized bound) := by
  have hcap := hh.cap
  have hlimit := hh.limit
  have hname := hfit.1
  have hvalue := hfit.2
  unfold insert
  rw [holds_bind, holds_addUsize (by omega), holds_bind, holds_addUsize (by omega), holds_bind,
    holds_addUsize (by omega)]
  refine holds_evict ?_ hlimit ?_
  · change h.size + _ = tableSize (header :: h.dynamic)
    rw [hh.size, Nat.add_comm]
    exact List.sum_cons.symm
  · rintro e he
    rcases List.mem_cons.mp he with rfl | he
    · exact hfit
    · exact hh.fits e he

theorem fits_static (hbound : 64 ≤ bound) {e : Header} (he : e ∈ staticTable) : e.Fits bound := by
  have hall : staticTable.all fun e => decide (e.1.utf8ByteSize ≤ 64 ∧ e.2.utf8ByteSize ≤ 64) := by
    decide
  have hsmall := of_decide_eq_true (List.all_eq_true.mp hall e he)
  exact ⟨hsmall.1.trans hbound, hsmall.2.trans hbound⟩

theorem holds_indexed (hbound : 64 ≤ bound) {h : Hpack} (hh : h.Sized bound) (idx : ℕ) :
    Holds (h.indexed idx) (Header.Fits bound) := by
  unfold indexed
  refine holds_ite (fun _ => trivial) fun hzero => holds_ite (fun hstatic => ?_) fun hdyn => ?_
  · rw [holds_bind, holds_subUsize (by omega)]
    exact holds_index (by omega) fun e he => fits_static hbound (List.mem_of_getElem? he)
  · rw [holds_bind, holds_subUsize (by omega), holds_bind, holds_subUsize (by omega)]
    exact holds_ofOption fun e he => hh.fits e (List.mem_of_getElem? he)

variable {block : List UInt8} (hs : block.length < maxBytes) (hblock : 4 * min block.length (2 ^ 43) + 64 ≤ bound)
include hs hblock

theorem holds_literal {h : Hpack} (hh : h.Sized bound) {pos bits : ℕ} (hbits : bits ≤ 7) :
    Holds (h.literal block pos bits) fun r =>
      r.1.Fits bound ∧ pos < r.2 ∧ r.2 ≤ block.length := by
  have hname : Holds (h.literalName block pos bits) fun r =>
      r.1.utf8ByteSize ≤ bound ∧ pos < r.2 ∧ r.2 ≤ block.length := by
    refine (holds_decodeInt hs hbits).bind fun r hr => holds_ite (fun _ => ?_) fun _ => ?_
    · exact (holds_decodeStr hs).mono fun s hstr =>
        ⟨hstr.1.trans hblock, hr.2.1.trans hstr.2.1, hstr.2.2⟩
    · exact (holds_indexed (by omega) hh _).bind fun e he => ⟨he.1, hr.2⟩
  refine hname.bind fun n hn => (holds_decodeStr hs).bind fun v hv => ?_
  exact ⟨⟨hn.1, hv.1.trans hblock⟩, hn.2.1.trans hv.2.1, hv.2.2⟩

/-- A field keeps the table within its limit and moves on inside the block. -/
theorem holds_field (hbound : bound < 2 ^ 60) {h : Hpack} (hh : h.Sized bound) {i : ℕ}
    (hi : i < block.length) (headers : List Header) :
    Holds (field block h i headers) fun r =>
      r.1.Sized bound ∧ i < r.2.1 ∧ r.2.1 ≤ block.length := by
  unfold field
  rw [index_eq_peek hi]
  refine holds_ite (fun _ => ?_) fun _ => holds_ite (fun _ => ?_) fun _ => holds_ite (fun _ => ?_)
    fun _ => ?_
  · refine (holds_decodeInt hs (Nat.le_refl 7)).bind fun r hr => holds_ite (fun _ => trivial) fun _ => ?_
    refine (holds_indexed (by omega) hh _).attempt.bind fun o _ => ?_
    cases o with
    | none => exact ⟨hh, hr.2⟩
    | some e => exact ⟨hh, hr.2⟩
  · refine (holds_literal hs hblock hh (by decide)).bind fun r hr => ?_
    exact (holds_insert hbound hh hr.1).bind fun h' hh' => ⟨hh', hr.2⟩
  · refine (holds_decodeInt hs (by decide)).bind fun r hr => ?_
    have hevict : Holds (evict { h with maxSize := r.1 }) (Sized bound) :=
      holds_evict hh.size hr.1 hh.fits
    exact hevict.bind fun h' hh' => ⟨hh', hr.2⟩
  · exact (holds_literal hs hblock hh (by decide)).bind fun r hr => ⟨hh, hr.2⟩

theorem holds_fieldLoop (hbound : bound < 2 ^ 60) {h : Hpack} (hh : h.Sized bound) {rounds i : ℕ}
    (hpos : 0 < rounds) (hr : block.length < i + rounds) (headers : List Header) :
    Holds (fieldLoop block rounds (h, i, headers)) fun r => r.1.Sized bound := by
  induction rounds generalizing h i headers with
  | zero => exact absurd hpos (Nat.lt_irrefl 0)
  | succ rounds ih =>
    unfold fieldLoop
    refine holds_ite (fun hi => ?_) fun _ => hh
    refine (holds_field hs hblock hbound hh hi headers).attempt.bind fun o ho => ?_
    cases o with
    | none => exact hh
    | some r =>
      obtain ⟨h', ni, headers'⟩ := r
      obtain ⟨hh', hlt, hle⟩ : h'.Sized bound ∧ i < ni ∧ ni ≤ block.length := ho _ rfl
      exact ih hh' (by omega) (by omega) _

theorem holds_decode (hbound : bound < 2 ^ 60) {h : Hpack} (hh : h.Sized bound) :
    Holds (h.decode block) fun r => r.1.Sized bound :=
  holds_fieldLoop hs hblock hbound hh (Nat.succ_pos _) (by omega) []

end Hpack

end Table

section Frames

variable {stream : List UInt8} (hs : stream.length < maxBytes)
include hs

/-- The most bytes that the length of a frame can tell, as text. -/
def frameBound : ℕ := 4 * 2 ^ 24 + 64

theorem holds_frameLoop {rounds pos : ℕ} {hpack : Hpack} {frames : List Http2Frame}
    (hh : hpack.Sized frameBound) (hpos : pos ≤ stream.length) (hr : frames.length + rounds = 129)
    (hlen : frames.length ≤ 128) : Holds (frameLoop stream rounds pos hpack frames) fun _ => True := by
  have hmax : maxBytes = 2 ^ 63 := rfl
  have hbound : frameBound = 4 * 2 ^ 24 + 64 := rfl
  induction rounds generalizing pos hpack frames with
  | zero => omega
  | succ rounds ih =>
    unfold frameLoop
    rw [holds_bind, holds_addUsize (by omega)]
    refine holds_ite (fun hroom => ?_) fun _ => trivial
    have hx := (peek stream (pos + 0)).toNat_lt
    have hy := (peek stream (pos + 0 + 1)).toNat_lt
    have hz := (peek stream (pos + 0 + 2)).toNat_lt
    simp (disch := omega) only [ok_bind, be24At_eq hs, byteAt_eq hs, be32At_eq hs]
    rw [holds_bind, holds_addUsize (by omega)]
    have hpayload : Holds (getSlice stream (pos + 9) (pos + 9 +
        (((peek stream (pos + 0)).toNat * 256 + (peek stream (pos + 0 + 1)).toNat) * 256 +
          (peek stream (pos + 0 + 2)).toNat))) fun p =>
        p.length < 2 ^ 24 ∧ pos + 9 + (((peek stream (pos + 0)).toNat * 256 +
          (peek stream (pos + 0 + 1)).toNat) * 256 + (peek stream (pos + 0 + 2)).toNat) ≤
          stream.length := by
      refine holds_getSlice fun _ hstop => ⟨?_, hstop⟩
      rw [length_slice hstop]
      omega
    refine hpayload.attempt.bind fun o ho => ?_
    cases o with
    | none => trivial
    | some payload =>
      obtain ⟨hsmall, hstop⟩ := ho payload rfl
      have hheaders (frameType flags : UInt8) :
          Holds (frameHeaders hpack frameType flags payload) fun r => r.1.Sized frameBound :=
        holds_ite (fun _ => Hpack.holds_decode (by omega) (by omega) (by decide) hh) fun _ => hh
      refine (hheaders _ _).bind fun r hr' => ?_
      refine ih hr' hstop ?_ ?_
      · rw [List.length_append, List.length_singleton]
        omega
      · rw [List.length_append, List.length_singleton]
        omega

/-- No byte stream makes the frame parser or the decompressor fail. -/
theorem holds_tryDecodeHttp2 : Holds (tryDecodeHttp2 stream) fun _ => True := by
  refine holds_ite (fun h => ?_) fun _ => trivial
  have hlen := (List.isPrefixOf_iff_prefix.mp h).length_le
  exact holds_frameLoop hs (Hpack.sized_new _) hlen rfl (Nat.zero_le _)

end Frames

end Pktscope

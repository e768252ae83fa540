import Pktscope.Decode.Fingerprint
import Pktscope.Decode.Layers

/-! # TLS handshakes

One handshake message in one record: the ClientHello with its extensions and
fingerprints, the ServerHello, and the number of certificates.
-/

namespace Pktscope

open Library Parse

structure TlsRecord where
  handshakeType : UInt8
  body : List UInt8
  stop : ℕ

/-- The record and handshake headers at an offset, with the body of the message. -/
def parseTlsRecord (data : List UInt8) (offset : ℕ) : Parse TlsRecord := do
  let remaining ← checkedSub data.length offset
  if remaining < 6 then refuse
  else do
    let contentType ← index data offset
    if contentType ≠ 0x16 then refuse
    else do
      let recordLen ← be16At data offset 3
      let recordStop ← addUsize 5 recordLen.toNat
      if remaining < recordStop ∨ recordLen < 4 then refuse
      else do
        let hs ← addUsize offset 5
        let handshakeType ← index data hs
        let hsLen ← be24At data hs 1
        let bodyStart ← addUsize hs 4
        let bodyEnd ← addUsize bodyStart hsLen
        if data.length < bodyEnd then refuse
        else do
          let body ← sliceAt data bodyStart bodyEnd
          return ⟨handshakeType, body, bodyEnd⟩

structure ExtData where
  types : List UInt16
  sni : Option String
  alpn : List String
  groups : List UInt16
  formats : List UInt8
  sigAlgs : List UInt16
  versions : List UInt16

def ExtData.default : ExtData := ⟨[], none, [], [], [], [], []⟩

section Lists

variable (edata : List UInt8)

/-- The loop over the entries of a server name list. -/
def sniLoop : ℕ → ℕ → Parse (Option String)
  | 0, _ => fault .rounds
  | rounds + 1, p => do
    let head ← addUsize p 3
    if head ≤ edata.length then do
      let nameType ← index edata p
      let nameLen ← be16At edata p 1
      let next ← addUsize head nameLen.toNat
      if edata.length < next then return none
      else if nameType = 0 then do
        let name ← sliceAt edata head next
        return fromUtf8 name
      else sniLoop rounds next
    else return none

def parseSni : Parse (Option String) :=
  if edata.length < 5 then return none else sniLoop edata (edata.length + 1) 2

/-- The loop over the names of a protocol list. -/
def alpnLoop : ℕ → ℕ → List String → Parse (List String)
  | 0, _, _ => fault .rounds
  | rounds + 1, p, out =>
    if p < edata.length then do
      let len ← index edata p
      let start ← addUsize p 1
      let next ← addUsize start len.toNat
      if edata.length < next then return out
      else do
        let name ← sliceAt edata start next
        alpnLoop rounds next (out ++ [fromUtf8Lossy name])
    else return out

def parseAlpn : Parse (List String) :=
  if edata.length < 2 then return [] else alpnLoop edata (edata.length + 1) 2 []

/-- The loop over numbers of two bytes each from a place on. -/
def u16Loop (base stop : ℕ) : ℕ → ℕ → List UInt16 → Parse (List UInt16)
  | 0, _, _ => fault .rounds
  | rounds + 1, i, out => do
    let next ← addUsize i 1
    if next < stop then do
      let v ← be16At edata base i
      let i ← addUsize i 2
      u16Loop base stop rounds i (out ++ [v])
    else return out

def parseU16s (byteLen : ℕ) : Parse (List UInt16) :=
  u16Loop edata 0 (min byteLen edata.length) (edata.length + 1) 0 []

/-- A list of numbers behind its length in two bytes. -/
def parseU16List2 : Parse (List UInt16) :=
  if edata.length < 2 then return []
  else do
    let len ← be16At edata 0 0
    let rest ← sliceAt edata 2 edata.length
    parseU16s rest len.toNat

/-- A list of numbers behind its length in one byte. -/
def parseU16List1 : Parse (List UInt16) :=
  if edata.isEmpty then return []
  else do
    let len ← index edata 0
    let rest ← sliceAt edata 1 edata.length
    parseU16s rest len.toNat

def parseU8List1 : Parse (List UInt8) :=
  if edata.isEmpty then return []
  else do
    let len ← index edata 0
    let most ← subUsize edata.length 1
    let stop ← addUsize 1 (min len.toNat most)
    sliceAt edata 1 stop

end Lists

/-- What one extension says. -/
def readExtension (out : ExtData) (etype : UInt16) (edata : List UInt8) : Parse ExtData :=
  if etype = 0x0000 then do
    let sni ← parseSni edata
    return { out with sni }
  else if etype = 0x000a then do
    let groups ← parseU16List2 edata
    return { out with groups }
  else if etype = 0x000b then do
    let formats ← parseU8List1 edata
    return { out with formats }
  else if etype = 0x000d then do
    let sigAlgs ← parseU16List2 edata
    return { out with sigAlgs }
  else if etype = 0x0010 then do
    let alpn ← parseAlpn edata
    return { out with alpn }
  else if etype = 0x002b then do
    let versions ← parseU16List1 edata
    return { out with versions }
  else return out

/-- The loop over the extensions. -/
def extensionLoop (ext : List UInt8) : ℕ → ℕ → ExtData → Parse ExtData
  | 0, _, _ => fault .rounds
  | rounds + 1, p, out => do
    let head ← addUsize p 4
    if head ≤ ext.length then do
      let etype ← be16At ext p 0
      let elen ← be16At ext p 2
      let next ← addUsize head elen.toNat
      if ext.length < next then return out
      else do
        let edata ← sliceAt ext head next
        let out ← readExtension { out with types := out.types ++ [etype] } etype edata
        extensionLoop ext rounds next out
    else return out

def parseExtensions (ext : List UInt8) : Parse ExtData :=
  extensionLoop ext (ext.length + 1) 0 .default

/-- The extensions behind their length, if there are any. -/
def extensionsAt (body : List UInt8) (p : ℕ) : Parse (Option ExtData) := do
  let start ← addUsize p 2
  if start ≤ body.length then do
    let extLen ← be16At body p 0
    let stop ← addUsize start extLen.toNat
    let ext ← sliceAt body start (min stop body.length)
    let exts ← parseExtensions ext
    return some exts
  else return none

/-- The loop over the certificate entries. -/
def certLoop (body : List UInt8) (stop : ℕ) : ℕ → ℕ → ℕ → Parse ℕ
  | 0, _, _ => fault .rounds
  | rounds + 1, p, count => do
    let head ← addUsize p 3
    if head ≤ stop then do
      let len ← be24At body p 0
      let entry ← addUsize 3 len
      let next ← addUsize p entry
      if stop < next then return count
      else do
        let count ← addUsize count 1
        certLoop body stop rounds next count
    else return count

def countCerts (body : List UInt8) : Parse ℕ :=
  if body.length < 3 then return 0
  else do
    let total ← be24At body 0 0
    let stop ← addUsize 3 total
    certLoop body (min stop body.length) (body.length + 1) 3 0

def parseServerHello (body : List UInt8) : Parse TlsHandshakeMessage :=
  if body.length < 34 then return .serverHello 0 0 []
  else do
    let version ← be16At body 0 0
    if body.length ≤ 34 then return .serverHello version 0 []
    else do
      let sidLen ← index body 34
      let skip ← addUsize 1 sidLen.toNat
      let p ← addUsize 34 skip
      let stop ← addUsize p 2
      if body.length < stop then return .serverHello version 0 []
      else do
        let cipherSuite ← be16At body p 0
        let p ← addUsize p 3
        match ← extensionsAt body p with
        | none => return .serverHello version cipherSuite []
        | some exts =>
          return .serverHello ((exts.versions.find? fun v => !isGrease v).getD version) cipherSuite
            exts.alpn

/-- Decode a handshake record other than a ClientHello. -/
def tryDecodeTlsHandshake (data : List UInt8) (offset : ℕ) : Parse TlsHandshakeInfo := do
  let rec ← parseTlsRecord data offset
  let range := (offset, min rec.stop data.length)
  if rec.handshakeType = 0x01 then refuse
  else if rec.handshakeType = 0x02 then do
    let message ← parseServerHello rec.body
    return ⟨[message], range⟩
  else if rec.handshakeType = 0x0b then do
    let certCount ← countCerts rec.body
    return ⟨[.certificate certCount], range⟩
  else return ⟨[.other rec.handshakeType], range⟩

section ClientHello

variable [Digests]

/-- The ClientHello of which only the version could be read. -/
def minimalHello (legacyVersion : UInt16) (range : ByteRange) : TlsClientHelloInfo :=
  ⟨none, [], [], [], [], [], [], [], legacyVersion, none, none, range⟩

/-- The part of a ClientHello behind its cipher suites. -/
def finishHello (body : List UInt8) (range : ByteRange) (legacyVersion : UInt16)
    (cipherSuites : List UInt16) (p : ℕ) : Parse TlsClientHelloInfo :=
  if body.length ≤ p then return minimalHello legacyVersion range
  else do
    let cmLen ← index body p
    let skip ← addUsize 1 cmLen.toNat
    let p ← addUsize p skip
    let found ← extensionsAt body p
    let exts := found.getD .default
    let offered := exts.versions.filter fun v => !isGrease v
    let bestVersion := offered.max?.getD legacyVersion
    let ja3 := ja3Hash (ja3String legacyVersion cipherSuites exts.types exts.groups exts.formats)
    let ja4 ← ja4 bestVersion false exts.sni.isSome cipherSuites exts.types exts.sigAlgs
      exts.alpn.head?
    return {
      sni := exts.sni
      alpn := exts.alpn
      cipherSuites
      extensions := exts.types
      supportedGroups := exts.groups
      ecPointFormats := exts.formats
      signatureAlgorithms := exts.sigAlgs
      supportedVersions := exts.versions
      legacyVersion
      ja3 := some ja3
      ja4 := some ja4
      headerRange := range }

def tryDecodeTlsClientHello (data : List UInt8) (offset : ℕ) : Parse TlsClientHelloInfo := do
  let rec ← parseTlsRecord data offset
  if rec.handshakeType ≠ 0x01 then refuse
  else
    let body := rec.body
    let range := (offset, min rec.stop data.length)
    if body.length < 34 then return minimalHello 0 range
    else do
      let legacyVersion ← be16At body 0 0
      if body.length ≤ 34 then return minimalHello legacyVersion range
      else do
        let sidLen ← index body 34
        let skip ← addUsize 1 sidLen.toNat
        let p ← addUsize 34 skip
        let start ← addUsize p 2
        if body.length < start then return minimalHello legacyVersion range
        else do
          let csLen ← be16At body p 0
          let stop ← addUsize start csLen.toNat
          if body.length < stop then return minimalHello legacyVersion range
          else do
            let cipherSuites ← u16Loop body start csLen.toNat (csLen.toNat + 1) 0 []
            finishHello body range legacyVersion cipherSuites stop

end ClientHello

section Safe

variable {data : List UInt8} (hs : data.length < maxBytes)
include hs

theorem holds_parseTlsRecord (offset : ℕ) :
    Holds (parseTlsRecord data offset) fun r =>
      r.body.length ≤ data.length ∧ RangeFrom offset data.length (offset, r.stop) := by
  have hmax : maxBytes = 2 ^ 63 := rfl
  unfold parseTlsRecord
  rw [holds_bind]
  refine holds_checkedSub fun ho => holds_ite (fun _ => trivial) fun hlen => ?_
  rw [index_eq_peek (by omega)]
  refine holds_ite (fun _ => trivial) fun _ => ?_
  have hrec := (be16 (peek data (offset + 3)) (peek data (offset + 3 + 1))).toNat_lt
  simp (disch := omega) only [ok_bind, be16At_eq hs]
  rw [holds_bind, holds_addUsize (by omega)]
  refine holds_ite (fun _ => trivial) fun hrecord => ?_
  rw [not_or, not_lt, UInt16.lt_iff_toNat_lt, not_lt] at hrecord
  have hfour : (4 : UInt16).toNat = 4 := rfl
  simp (disch := omega) only [ok_bind, addUsize_eq hs, index_eq_peek, be24At_eq hs]
  have ha := (peek data (offset + 5 + 1)).toNat_lt
  have hb := (peek data (offset + 5 + 1 + 1)).toNat_lt
  have hc := (peek data (offset + 5 + 1 + 2)).toNat_lt
  rw [holds_bind, holds_addUsize (by omega)]
  refine holds_ite (fun _ => trivial) fun hbody => ?_
  rw [holds_bind, holds_sliceAt (Nat.le_add_right _ _) (by omega)]
  exact ⟨length_slice_le _ _ _, rfl, by dsimp only; omega, by dsimp only; omega⟩

theorem holds_sniLoop {rounds p : ℕ} (hpos : 0 < rounds) (hr : data.length < p + rounds)
    (hp : p ≤ data.length) : Holds (sniLoop data rounds p) fun _ => True := by
  have hmax : maxBytes = 2 ^ 63 := rfl
  induction rounds generalizing p with
  | zero => exact absurd hpos (Nat.lt_irrefl 0)
  | succ rounds ih =>
    unfold sniLoop
    rw [holds_bind, holds_addUsize (by omega)]
    refine holds_ite (fun hhead => ?_) fun _ => trivial
    have hlen := (be16 (peek data (p + 1)) (peek data (p + 1 + 1))).toNat_lt
    simp (disch := omega) only [ok_bind, index_eq_peek, be16At_eq hs]
    rw [holds_bind, holds_addUsize (by omega)]
    refine holds_ite (fun _ => trivial) fun hnext => holds_ite (fun _ => ?_) fun _ => ?_
    · rw [holds_bind, holds_sliceAt (Nat.le_add_right _ _) (by omega)]
      trivial
    · exact ih (by omega) (by omega) (by omega)

theorem holds_parseSni : Holds (parseSni data) fun _ => True :=
  holds_ite (fun _ => trivial) fun _ =>
    holds_sniLoop hs (Nat.succ_pos _) (by omega) (by omega)

theorem holds_alpnLoop {rounds p : ℕ} (hpos : 0 < rounds) (hr : data.length < p + rounds)
    (out : List String) : Holds (alpnLoop data rounds p out) fun _ => True := by
  have hmax : maxBytes = 2 ^ 63 := rfl
  induction rounds generalizing p out with
  | zero => exact absurd hpos (Nat.lt_irrefl 0)
  | succ rounds ih =>
    unfold alpnLoop
    refine holds_ite (fun hlt => ?_) fun _ => trivial
    have hlen := (peek data p).toNat_lt
    simp (disch := omega) only [ok_bind, index_eq_peek, addUsize_eq hs]
    refine holds_ite (fun _ => trivial) fun hnext => ?_
    rw [holds_bind, holds_sliceAt (Nat.le_add_right _ _) (by omega)]
    exact ih (by omega) (by omega) _

theorem holds_parseAlpn : Holds (parseAlpn data) fun _ => True :=
  holds_ite (fun _ => trivial) fun _ => holds_alpnLoop hs (Nat.succ_pos _) (by omega) []

theorem holds_u16Loop {base stop : ℕ} (hstop : base + stop ≤ data.length) {rounds i : ℕ}
    (hpos : 0 < rounds) (hr : stop < i + rounds) (hi : i ≤ stop + 1) (out : List UInt16) :
    Holds (u16Loop data base stop rounds i out) fun _ => True := by
  have hmax : maxBytes = 2 ^ 63 := rfl
  induction rounds generalizing i out with
  | zero => exact absurd hpos (Nat.lt_irrefl 0)
  | succ rounds ih =>
    unfold u16Loop
    rw [holds_bind, holds_addUsize (by omega)]
    refine holds_ite (fun hlt => ?_) fun _ => trivial
    rw [be16At_eq hs (by omega)]
    change Holds (addUsize i 2 >>= _) _
    rw [holds_bind, holds_addUsize (by omega)]
    exact ih (by omega) (by omega) (by omega) _

theorem holds_parseU16s (byteLen : ℕ) : Holds (parseU16s data byteLen) fun _ => True := by
  have hmin := min_le_right byteLen data.length
  exact holds_u16Loop hs (by omega) (Nat.succ_pos _) (by omega) (Nat.zero_le _) []

theorem holds_parseU16List2 : Holds (parseU16List2 data) fun _ => True := by
  refine holds_ite (fun _ => trivial) fun hlen => ?_
  simp (disch := omega) only [ok_bind, be16At_eq hs]
  rw [holds_bind, holds_sliceAt (by omega) (Nat.le_refl _)]
  exact holds_parseU16s ((length_slice_le _ _ _).trans_lt hs) _

omit hs in
theorem nonempty_of_isEmpty (h : ¬data.isEmpty = true) : 0 < data.length := by
  rw [List.length_pos_iff]
  simpa using h

theorem holds_parseU16List1 : Holds (parseU16List1 data) fun _ => True := by
  refine holds_ite (fun _ => trivial) fun hne => ?_
  have hlen := nonempty_of_isEmpty hne
  rw [index_eq_peek hlen, ok_bind, holds_bind, holds_sliceAt hlen (Nat.le_refl _)]
  exact holds_parseU16s ((length_slice_le _ _ _).trans_lt hs) _

theorem holds_parseU8List1 : Holds (parseU8List1 data) fun _ => True := by
  have hmax : maxBytes = 2 ^ 63 := rfl
  refine holds_ite (fun _ => trivial) fun hne => ?_
  have hlen := nonempty_of_isEmpty hne
  have hmin := min_le_right (peek data 0).toNat (data.length - 1)
  rw [index_eq_peek hlen, ok_bind, holds_bind, holds_subUsize hlen, holds_bind,
    holds_addUsize (by omega), holds_sliceAt (Nat.le_add_right _ _) (by omega)]
  trivial

theorem holds_readExtension (out : ExtData) (etype : UInt16) :
    Holds (readExtension out etype data) fun _ => True := by
  unfold readExtension
  refine holds_ite (fun _ => ?_) fun _ => holds_ite (fun _ => ?_) fun _ => holds_ite (fun _ => ?_)
    fun _ => holds_ite (fun _ => ?_) fun _ => holds_ite (fun _ => ?_) fun _ => holds_ite (fun _ => ?_)
    fun _ => trivial
  · exact (holds_parseSni hs).bind fun _ _ => trivial
  · exact (holds_parseU16List2 hs).bind fun _ _ => trivial
  · exact (holds_parseU8List1 hs).bind fun _ _ => trivial
  · exact (holds_parseU16List2 hs).bind fun _ _ => trivial
  · exact (holds_parseAlpn hs).bind fun _ _ => trivial
  · exact (holds_parseU16List1 hs).bind fun _ _ => trivial

theorem holds_extensionLoop {rounds p : ℕ} (hpos : 0 < rounds) (hr : data.length < p + rounds)
    (hp : p ≤ data.length) (out : ExtData) :
    Holds (extensionLoop data rounds p out) fun _ => True := by
  have hmax : maxBytes = 2 ^ 63 := rfl
  induction rounds generalizing p out with
  | zero => exact absurd hpos (Nat.lt_irrefl 0)
  | succ rounds ih =>
    unfold extensionLoop
    rw [holds_bind, holds_addUsize (by omega)]
    refine holds_ite (fun hhead => ?_) fun _ => trivial
    have hlen := (be16 (peek data (p + 2)) (peek data (p + 2 + 1))).toNat_lt
    simp (disch := omega) only [ok_bind, be16At_eq hs]
    rw [holds_bind, holds_addUsize (by omega)]
    refine holds_ite (fun _ => trivial) fun hnext => ?_
    rw [holds_bind, holds_sliceAt (Nat.le_add_right _ _) (by omega)]
    refine (holds_readExtension ((length_slice_le _ _ _).trans_lt hs) _ _).bind fun out _ => ?_
    exact ih (by omega) (by omega) (by omega) out

theorem holds_extensionsAt {p : ℕ} (hp : p + 2 < 2 ^ 64) :
    Holds (extensionsAt data p) fun _ => True := by
  have hmax : maxBytes = 2 ^ 63 := rfl
  unfold extensionsAt
  rw [holds_bind, holds_addUsize hp]
  refine holds_ite (fun hstart => ?_) fun _ => trivial
  have hlen := (be16 (peek data (p + 0)) (peek data (p + 0 + 1))).toNat_lt
  rw [be16At_eq hs (by omega), ok_bind, holds_bind, holds_addUsize (by omega), holds_bind,
    holds_sliceAt (by omega) (min_le_right _ _)]
  have hext := (length_slice_le data (p + 2)
    (min (p + 2 + (be16 (peek data (p + 0)) (peek data (p + 0 + 1))).toNat) data.length)).trans_lt hs
  exact (holds_extensionLoop hext (Nat.succ_pos _) (by omega) (Nat.zero_le _) _).bind
    fun _ _ => trivial

theorem holds_certLoop {stop : ℕ} (hstop : stop ≤ data.length) {rounds p count : ℕ}
    (hpos : 0 < rounds) (hr : stop < p + rounds) (hp : p ≤ stop + 3) (hc : count ≤ p) :
    Holds (certLoop data stop rounds p count) fun _ => True := by
  have hmax : maxBytes = 2 ^ 63 := rfl
  induction rounds generalizing p count with
  | zero => exact absurd hpos (Nat.lt_irrefl 0)
  | succ rounds ih =>
    unfold certLoop
    rw [holds_bind, holds_addUsize (by omega)]
    refine holds_ite (fun hhead => ?_) fun _ => trivial
    have hx := (peek data (p + 0)).toNat_lt
    have hy := (peek data (p + 0 + 1)).toNat_lt
    have hz := (peek data (p + 0 + 2)).toNat_lt
    rw [be24At_eq hs (by omega), ok_bind, holds_bind, holds_addUsize (by omega), holds_bind,
      holds_addUsize (by omega)]
    refine holds_ite (fun _ => trivial) fun hnext => ?_
    rw [holds_bind, holds_addUsize (by omega)]
    exact ih (by omega) (by omega) (by omega) (by omega)

theorem holds_countCerts : Holds (countCerts data) fun _ => True := by
  have hmax : maxBytes = 2 ^ 63 := rfl
  refine holds_ite (fun _ => trivial) fun hlen => ?_
  have hx := (peek data (0 + 0)).toNat_lt
  have hy := (peek data (0 + 0 + 1)).toNat_lt
  have hz := (peek data (0 + 0 + 2)).toNat_lt
  rw [be24At_eq hs (by omega), ok_bind, holds_bind, holds_addUsize (by omega)]
  exact holds_certLoop hs (min_le_right _ _) (Nat.succ_pos _) (by omega) (by omega) (Nat.zero_le _)

theorem holds_parseServerHello : Holds (parseServerHello data) fun _ => True := by
  have hmax : maxBytes = 2 ^ 63 := rfl
  refine holds_ite (fun _ => trivial) fun hlen => ?_
  rw [be16At_eq hs (by omega)]
  refine holds_ite (fun _ => trivial) fun hmore => ?_
  have hsid := (peek data 34).toNat_lt
  rw [index_eq_peek (by omega), ok_bind, holds_bind, holds_addUsize (by omega), holds_bind,
    holds_addUsize (by omega), holds_bind, holds_addUsize (by omega)]
  refine holds_ite (fun _ => trivial) fun hstop => ?_
  rw [be16At_eq hs (by omega), ok_bind, holds_bind, holds_addUsize (by omega)]
  refine (holds_extensionsAt hs (by omega)).bind fun o _ => ?_
  cases o <;> trivial

omit hs in
theorem rangeFrom_min {offset stop : ℕ} (h : RangeFrom offset data.length (offset, stop)) :
    RangeFrom offset data.length (offset, min stop data.length) :=
  ⟨rfl, le_min h.forward (h.forward.trans h.inside), min_le_right _ _⟩

/-- No handshake record makes the decoder fail. -/
theorem holds_tryDecodeTlsHandshake (offset : ℕ) :
    Holds (tryDecodeTlsHandshake data offset) fun i =>
      RangeFrom offset data.length i.headerRange := by
  refine (holds_parseTlsRecord hs offset).bind fun r hr => ?_
  have hbody := hr.1.trans_lt hs
  have hrange := rangeFrom_min hr.2
  refine holds_ite (fun _ => trivial) fun _ => holds_ite (fun _ => ?_) fun _ =>
    holds_ite (fun _ => ?_) fun _ => hrange
  · exact (holds_parseServerHello hbody).bind fun _ _ => hrange
  · exact (holds_countCerts hbody).bind fun _ _ => hrange

variable [Digests]

theorem holds_finishHello (range : ByteRange) (legacyVersion : UInt16) (cipherSuites : List UInt16)
    (p : ℕ) : Holds (finishHello data range legacyVersion cipherSuites p) fun i =>
      i.headerRange = range := by
  have hmax : maxBytes = 2 ^ 63 := rfl
  refine holds_ite (fun _ => rfl) fun hp => ?_
  have hcm := (peek data p).toNat_lt
  rw [index_eq_peek (by omega), ok_bind, holds_bind, holds_addUsize (by omega), holds_bind,
    holds_addUsize (by omega)]
  exact (holds_extensionsAt hs (by omega)).bind fun _ _ => (holds_ja4 ..).bind fun _ _ => rfl

/-- No ClientHello makes the decoder fail. -/
theorem holds_tryDecodeTlsClientHello (offset : ℕ) :
    Holds (tryDecodeTlsClientHello data offset) fun i =>
      RangeFrom offset data.length i.headerRange := by
  have hmax : maxBytes = 2 ^ 63 := rfl
  refine (holds_parseTlsRecord hs offset).bind fun r hr => ?_
  have hbody := hr.1.trans_lt hs
  have hrange := rangeFrom_min hr.2
  refine holds_ite (fun _ => trivial) fun _ => holds_ite (fun _ => hrange) fun hlen => ?_
  rw [be16At_eq hbody (by omega)]
  refine holds_ite (fun _ => hrange) fun hmore => ?_
  have hsid := (peek r.body 34).toNat_lt
  rw [index_eq_peek (by omega), ok_bind, holds_bind, holds_addUsize (by omega), holds_bind,
    holds_addUsize (by omega), holds_bind, holds_addUsize (by omega)]
  refine holds_ite (fun _ => hrange) fun hstart => ?_
  rw [be16At_eq hbody (by omega), ok_bind]
  have hcs := (be16 (peek r.body (34 + (1 + (peek r.body 34).toNat) + 0))
    (peek r.body (34 + (1 + (peek r.body 34).toNat) + 0 + 1))).toNat_lt
  rw [holds_bind, holds_addUsize (by omega)]
  refine holds_ite (fun _ => hrange) fun hstop => ?_
  refine (holds_u16Loop hbody (by omega) (Nat.succ_pos _) (by omega) (Nat.zero_le _) []).bind
    fun suites _ => ?_
  exact (holds_finishHello hbody _ _ _ _).mono fun i hi => hi ▸ hrange

end Safe

end Pktscope

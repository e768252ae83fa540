import Pktscope.Decode.Tls

/-! # The bytes of a TLS record

The handshake message in a record has a length of its own. The decoders check it
against the end of the buffer and not against the end of the record, so a message that
is longer than its record is completed from the bytes behind.
-/

namespace Pktscope

open Library Parse

section Accepts

variable (data : List UInt8)

theorem accepts_sniLoop (rounds p : ℕ) : Accepts (sniLoop data rounds p) := by
  induction rounds generalizing p with
  | zero => exact accepts_fault _
  | succ rounds ih =>
    refine (accepts_addUsize _ _).bind fun head => accepts_ite ?_ (accepts_ok _)
    refine (accepts_index _ _).bind fun nameType => (accepts_be16At _ _ _).bind fun nameLen => ?_
    refine (accepts_addUsize _ _).bind fun next => accepts_ite (accepts_ok _) (accepts_ite ?_ (ih _))
    exact (accepts_sliceAt _ _ _).bind fun _ => accepts_ok _

theorem accepts_alpnLoop (rounds p : ℕ) (out : List String) :
    Accepts (alpnLoop data rounds p out) := by
  induction rounds generalizing p out with
  | zero => exact accepts_fault _
  | succ rounds ih =>
    refine accepts_ite ?_ (accepts_ok _)
    refine (accepts_index _ _).bind fun len => (accepts_addUsize _ _).bind fun start => ?_
    refine (accepts_addUsize _ _).bind fun next => accepts_ite (accepts_ok _) ?_
    exact (accepts_sliceAt _ _ _).bind fun _ => ih _ _

theorem accepts_u16Loop (base stop rounds i : ℕ) (out : List UInt16) :
    Accepts (u16Loop data base stop rounds i out) := by
  induction rounds generalizing i out with
  | zero => exact accepts_fault _
  | succ rounds ih =>
    refine (accepts_addUsize _ _).bind fun next => accepts_ite ?_ (accepts_ok _)
    refine (accepts_be16At _ _ _).bind fun v => (accepts_addUsize _ _).bind fun i => ih _ _

theorem accepts_parseU16List2 : Accepts (parseU16List2 data) :=
  accepts_ite (accepts_ok _) ((accepts_be16At _ _ _).bind fun _ =>
    (accepts_sliceAt _ _ _).bind fun _ => accepts_u16Loop _ _ _ _ _ _)

theorem accepts_parseU16List1 : Accepts (parseU16List1 data) :=
  accepts_ite (accepts_ok _) ((accepts_index _ _).bind fun _ =>
    (accepts_sliceAt _ _ _).bind fun _ => accepts_u16Loop _ _ _ _ _ _)

theorem accepts_parseU8List1 : Accepts (parseU8List1 data) :=
  accepts_ite (accepts_ok _) ((accepts_index _ _).bind fun _ => (accepts_subUsize _ _).bind fun _ =>
    (accepts_addUsize _ _).bind fun _ => accepts_sliceAt _ _ _)

theorem accepts_readExtension (out : ExtData) (etype : UInt16) :
    Accepts (readExtension out etype data) := by
  unfold readExtension
  refine accepts_ite ?_ (accepts_ite ?_ (accepts_ite ?_ (accepts_ite ?_ (accepts_ite ?_
    (accepts_ite ?_ (accepts_ok _))))))
  · exact (accepts_ite (accepts_ok _) (accepts_sniLoop _ _ _)).bind fun _ => accepts_ok _
  · exact (accepts_parseU16List2 data).bind fun _ => accepts_ok _
  · exact (accepts_parseU8List1 data).bind fun _ => accepts_ok _
  · exact (accepts_parseU16List2 data).bind fun _ => accepts_ok _
  · exact (accepts_ite (accepts_ok _) (accepts_alpnLoop _ _ _ _)).bind fun _ => accepts_ok _
  · exact (accepts_parseU16List1 data).bind fun _ => accepts_ok _

theorem accepts_extensionLoop (rounds p : ℕ) (out : ExtData) :
    Accepts (extensionLoop data rounds p out) := by
  induction rounds generalizing p out with
  | zero => exact accepts_fault _
  | succ rounds ih =>
    refine (accepts_addUsize _ _).bind fun head => accepts_ite ?_ (accepts_ok _)
    refine (accepts_be16At _ _ _).bind fun etype => (accepts_be16At _ _ _).bind fun elen => ?_
    refine (accepts_addUsize _ _).bind fun next => accepts_ite (accepts_ok _) ?_
    exact (accepts_sliceAt _ _ _).bind fun edata =>
      (accepts_readExtension edata _ etype).bind fun _ => ih _ _

theorem accepts_extensionsAt (p : ℕ) : Accepts (extensionsAt data p) := by
  refine (accepts_addUsize _ _).bind fun start => accepts_ite ?_ (accepts_ok _)
  refine (accepts_be16At _ _ _).bind fun extLen => (accepts_addUsize _ _).bind fun stop => ?_
  exact (accepts_sliceAt _ _ _).bind fun ext =>
    (accepts_extensionLoop ext _ _ _).bind fun _ => accepts_ok _

theorem accepts_certLoop (stop rounds p count : ℕ) :
    Accepts (certLoop data stop rounds p count) := by
  induction rounds generalizing p count with
  | zero => exact accepts_fault _
  | succ rounds ih =>
    refine (accepts_addUsize _ _).bind fun head => accepts_ite ?_ (accepts_ok _)
    refine (accepts_be24At _ _ _).bind fun len => (accepts_addUsize _ _).bind fun entry => ?_
    refine (accepts_addUsize _ _).bind fun next => accepts_ite (accepts_ok _) ?_
    exact (accepts_addUsize _ _).bind fun count => ih _ _

theorem accepts_countCerts : Accepts (countCerts data) :=
  accepts_ite (accepts_ok _) ((accepts_be24At _ _ _).bind fun _ => (accepts_addUsize _ _).bind
    fun _ => accepts_certLoop _ _ _ _ _)

theorem accepts_parseServerHello : Accepts (parseServerHello data) := by
  refine accepts_ite (accepts_ok _) ((accepts_be16At _ _ _).bind fun version => ?_)
  refine accepts_ite (accepts_ok _) ((accepts_index _ _).bind fun sidLen => ?_)
  refine (accepts_addUsize _ _).bind fun skip => (accepts_addUsize _ _).bind fun p => ?_
  refine (accepts_addUsize _ _).bind fun stop => accepts_ite (accepts_ok _) ?_
  refine (accepts_be16At _ _ _).bind fun cipherSuite => (accepts_addUsize _ _).bind fun p => ?_
  refine (accepts_extensionsAt _ _).bind fun exts => ?_
  cases exts <;> exact accepts_ok _

variable [Digests]

omit [Digests] in
theorem accepts_strHead (s : String) (n : ℕ) : Accepts (strHead s n) :=
  accepts_ite (accepts_ok _) (accepts_fault _)

theorem accepts_ja4 (version : UInt16) (overQuic sniPresent : Bool)
    (ciphers exts sigAlgs : List UInt16) (alpnFirst : Option String) :
    Accepts (ja4 version overQuic sniPresent ciphers exts sigAlgs alpnFirst) := by
  have halpn : Accepts (ja4Alpn alpnFirst) := by
    cases alpnFirst with
    | none => exact accepts_ok _
    | some s =>
      refine accepts_ite (accepts_ok _) ((accepts_index _ _).bind fun head => ?_)
      exact (accepts_subUsize _ _).bind fun last => (accepts_index _ _).bind fun _ => accepts_ok _
  have hsha (s : String) (empty : Bool) : Accepts (sha12 s empty) :=
    accepts_ite (accepts_ok _) (accepts_strHead _ _)
  exact halpn.bind fun _ => (hsha _ _).bind fun _ => (hsha _ _).bind fun _ => accepts_ok _

theorem accepts_finishHello (range : ByteRange) (legacyVersion : UInt16)
    (cipherSuites : List UInt16) (p : ℕ) :
    Accepts (finishHello data range legacyVersion cipherSuites p) := by
  refine accepts_ite (accepts_ok _) ((accepts_index _ _).bind fun cmLen => ?_)
  refine (accepts_addUsize _ _).bind fun skip => (accepts_addUsize _ _).bind fun p => ?_
  exact (accepts_extensionsAt _ _).bind fun found => (accepts_ja4 _ _ _ _ _ _ _).bind fun _ => accepts_ok _

end Accepts

/-- The length of the record at an offset. -/
def recordLength (data : List UInt8) (o : ℕ) : ℕ :=
  (be16 (peek data (o + 3)) (peek data (o + 3 + 1))).toNat

/-- The length that the handshake message in the record claims. -/
def messageLength (data : List UInt8) (o : ℕ) : ℕ :=
  ((peek data (o + 5 + 1)).toNat * 256 + (peek data (o + 5 + 1 + 1)).toNat) * 256 +
    (peek data (o + 5 + 1 + 2)).toNat

/-- Bytes that end with a whole record. -/
structure RecordPrefix where
  bytes : List UInt8
  offset : ℕ
  header : offset + 5 ≤ bytes.length
  whole : bytes.length = offset + 5 + recordLength bytes offset
  fits : bytes.length < maxBytes

section Parse

variable {data : List UInt8} (hs : data.length < maxBytes) {o : ℕ}
include hs

/-- The record and the message in it, where the bytes of the record are there. -/
theorem parseTlsRecord_eq (hrecord : o + 5 + recordLength data o ≤ data.length) :
    parseTlsRecord data o =
      if peek data o ≠ 0x16 ∨ recordLength data o < 4 ∨
        data.length < o + 9 + messageLength data o then refuse
      else ok ⟨peek data (o + 5), slice data (o + 9) (o + 9 + messageLength data o),
        o + 9 + messageLength data o⟩ := by
  have hmax : maxBytes = 2 ^ 63 := rfl
  have hshort : be16 (peek data (o + 3)) (peek data (o + 3 + 1)) < 4 ↔ recordLength data o < 4 := by
    rw [UInt16.lt_iff_toNat_lt]
    rfl
  have hlength : recordLength data o < 2 ^ 16 := UInt16.toNat_lt _
  rw [parseTlsRecord, checkedSub, if_pos (by omega), ok_bind]
  by_cases hsix : data.length - o < 6
  · rw [if_pos hsix, if_pos (.inr (.inl (by omega)))]
  rw [if_neg hsix, index_eq_peek (by omega), ok_bind]
  by_cases htype : peek data o ≠ 0x16
  · rw [if_pos htype, if_pos (.inl htype)]
  rw [if_neg htype, be16At_eq hs (by omega), ok_bind, addUsize,
    if_pos (by unfold recordLength at hlength; omega), ok_bind]
  by_cases hfour : recordLength data o < 4
  · rw [if_pos (.inr (hshort.mpr hfour)), if_pos (.inr (.inl hfour))]
  have hkept : ¬(data.length - o < 5 + (be16 (peek data (o + 3)) (peek data (o + 3 + 1))).toNat ∨
      be16 (peek data (o + 3)) (peek data (o + 3 + 1)) < 4) := by
    rw [hshort]
    unfold recordLength at *
    omega
  rw [if_neg hkept]
  have ha := (peek data (o + 5 + 1)).toNat_lt
  have hb := (peek data (o + 5 + 1 + 1)).toNat_lt
  have hc := (peek data (o + 5 + 1 + 2)).toNat_lt
  have hmessage : messageLength data o < 2 ^ 24 := by
    unfold messageLength
    omega
  simp (disch := omega) only [ok_bind, addUsize_eq hs, index_eq_peek, be24At_eq hs]
  have hbody : o + 5 + 4 + (((peek data (o + 5 + 1)).toNat * 256 +
      (peek data (o + 5 + 1 + 1)).toNat) * 256 + (peek data (o + 5 + 1 + 2)).toNat) =
      o + 9 + messageLength data o := rfl
  rw [hbody]
  by_cases hinside : data.length < o + 9 + messageLength data o
  · rw [if_pos hinside, if_pos (.inr (.inr hinside))]
  · rw [if_neg hinside, if_neg (by tauto), sliceAt, if_pos ⟨by omega, by omega⟩]
    rfl

end Parse

section Decoders

variable [Digests] {data data' : List UInt8} {o : ℕ}

theorem decoders_congr (hs : data.length < maxBytes) (hs' : data'.length < maxBytes)
    (h : parseTlsRecord data o = parseTlsRecord data' o) :
    tryDecodeTlsClientHello data o = tryDecodeTlsClientHello data' o ∧
      tryDecodeTlsHandshake data o = tryDecodeTlsHandshake data' o := by
  have hstop := holds_parseTlsRecord hs o
  have hstop' := holds_parseTlsRecord hs' o
  rw [h] at hstop
  unfold tryDecodeTlsClientHello tryDecodeTlsHandshake
  cases hrecord : parseTlsRecord data' o with
  | refuse =>
    rw [h, hrecord]
    constructor
    · rw [refuse_bind, refuse_bind]
    · rw [refuse_bind, refuse_bind]
  | fault f =>
    rw [hrecord] at hstop
    exact hstop.elim
  | ok r =>
    rw [hrecord] at hstop hstop'
    have hmin : min r.stop data.length = r.stop := min_eq_left hstop.2.inside
    have hmin' : min r.stop data'.length = r.stop := min_eq_left hstop'.2.inside
    rw [h, hrecord]
    constructor
    · rw [ok_bind, ok_bind, hmin, hmin']
    · rw [ok_bind, ok_bind, hmin, hmin']

theorem decoders_accept {r : TlsRecord} (h : parseTlsRecord data o = ok r) :
    Accepts (tryDecodeTlsClientHello data o) ∨ Accepts (tryDecodeTlsHandshake data o) := by
  unfold tryDecodeTlsClientHello tryDecodeTlsHandshake
  rw [h, ok_bind, ok_bind]
  by_cases htype : r.handshakeType = 0x01
  · left
    rw [if_neg (not_not_intro htype)]
    refine accepts_ite (accepts_ok _) ((accepts_be16At _ _ _).bind fun legacyVersion => ?_)
    refine accepts_ite (accepts_ok _) ((accepts_index _ _).bind fun sidLen => ?_)
    refine (accepts_addUsize _ _).bind fun skip => (accepts_addUsize _ _).bind fun p => ?_
    refine (accepts_addUsize _ _).bind fun start => accepts_ite (accepts_ok _) ?_
    refine (accepts_be16At _ _ _).bind fun csLen => (accepts_addUsize _ _).bind fun stop => ?_
    exact accepts_ite (accepts_ok _) ((accepts_u16Loop _ _ _ _ _ _).bind fun cipherSuites =>
      accepts_finishHello _ _ _ _ _)
  · right
    dsimp only
    rw [if_neg htype]
    refine accepts_ite ?_ (accepts_ite ?_ (accepts_ok _))
    · exact (accepts_parseServerHello _).bind fun _ => accepts_ok _
    · exact (accepts_countCerts _).bind fun _ => accepts_ok _

end Decoders

namespace RecordPrefix

variable (r : RecordPrefix)

/-- Two buffers that begin with the bytes up to the end of the record decode alike. -/
def Confined [Digests] : Prop :=
  ∀ data data' : List UInt8, data.length < maxBytes → data'.length < maxBytes →
    r.bytes <+: data → r.bytes <+: data' →
    tryDecodeTlsClientHello data r.offset = tryDecodeTlsClientHello data' r.offset ∧
      tryDecodeTlsHandshake data r.offset = tryDecodeTlsHandshake data' r.offset

/-- There is no handshake message, or it ends inside the record, or no buffer could hold it. -/
def MessageInside : Prop :=
  peek r.bytes r.offset ≠ 0x16 ∨ recordLength r.bytes r.offset < 4 ∨
    messageLength r.bytes r.offset + 4 ≤ recordLength r.bytes r.offset ∨
    maxBytes ≤ r.offset + 9 + messageLength r.bytes r.offset

variable {data : List UInt8}

theorem parseTlsRecord_eq (hs : data.length < maxBytes) (h : r.bytes <+: data) :
    parseTlsRecord data r.offset =
      if peek r.bytes r.offset ≠ 0x16 ∨ recordLength r.bytes r.offset < 4 ∨
        data.length < r.offset + 9 + messageLength r.bytes r.offset then refuse
      else ok ⟨peek r.bytes (r.offset + 5),
        slice data (r.offset + 9) (r.offset + 9 + messageLength r.bytes r.offset),
        r.offset + 9 + messageLength r.bytes r.offset⟩ := by
  have hwhole := r.whole
  have hlen := h.length_le
  have hpeek : ∀ i, i < r.bytes.length → peek data i = peek r.bytes i :=
    fun i hi => peek_of_prefix h hi
  have hlength : recordLength data r.offset = recordLength r.bytes r.offset := by
    have hheader := r.header
    rw [recordLength, recordLength, hpeek _ (by omega), hpeek _ (by omega)]
  rw [Pktscope.parseTlsRecord_eq hs (by omega), hlength, hpeek _ (by have := r.header; omega)]
  by_cases hshort : recordLength r.bytes r.offset < 4
  · rw [if_pos (.inr (.inl hshort)), if_pos (.inr (.inl hshort))]
  · have hmessage : messageLength data r.offset = messageLength r.bytes r.offset := by
      rw [messageLength, messageLength, hpeek _ (by omega), hpeek _ (by omega), hpeek _ (by omega)]
    rw [hmessage, hpeek _ (by omega)]

/-- A record confines what is decoded from it exactly when its message ends inside it. -/
theorem confined_iff [Digests] : r.Confined ↔ r.MessageInside := by
  have hwhole := r.whole
  constructor
  · intro h
    by_contra hout
    unfold MessageInside at hout
    push Not at hout
    obtain ⟨htype, hfour, hlong, hroom⟩ := hout
    let k := r.offset + 9 + messageLength r.bytes r.offset - r.bytes.length
    have hlen : (r.bytes ++ List.replicate k 0).length =
        r.offset + 9 + messageLength r.bytes r.offset := by
      rw [List.length_append, List.length_replicate]
      omega
    have hfits : (r.bytes ++ List.replicate k 0).length < maxBytes := hlen ▸ hroom
    obtain ⟨hhello, hhandshake⟩ := h r.bytes (r.bytes ++ List.replicate k 0) r.fits hfits
      (List.prefix_refl _) (List.prefix_append _ _)
    have hshort := r.parseTlsRecord_eq r.fits (List.prefix_refl _)
    have hcomplete := r.parseTlsRecord_eq hfits (List.prefix_append _ _)
    rw [if_pos (.inr (.inr (by omega)))] at hshort
    rw [if_neg (by rw [hlen]; push Not; exact ⟨htype, hfour, le_rfl⟩)] at hcomplete
    rw [tryDecodeTlsClientHello, hshort, refuse_bind] at hhello
    rw [tryDecodeTlsHandshake, hshort, refuse_bind] at hhandshake
    rcases decoders_accept hcomplete with haccept | haccept
    · exact haccept hhello.symm
    · exact haccept hhandshake.symm
  · intro h data data' hs hs' hdata hdata'
    apply decoders_congr hs hs'
    rw [r.parseTlsRecord_eq hs hdata, r.parseTlsRecord_eq hs' hdata']
    have hlen := hdata.length_le
    have hlen' := hdata'.length_le
    rcases h with h | h | h | h
    · rw [if_pos (.inl h), if_pos (.inl h)]
    · rw [if_pos (.inr (.inl h)), if_pos (.inr (.inl h))]
    · by_cases hout : peek r.bytes r.offset ≠ 0x16 ∨ recordLength r.bytes r.offset < 4
      · rw [if_pos (by tauto), if_pos (by tauto)]
      · obtain ⟨t, rfl⟩ := hdata
        obtain ⟨t', rfl⟩ := hdata'
        have hinside : r.offset + 9 + messageLength r.bytes r.offset ≤ r.bytes.length := by omega
        have hkept {n : ℕ} (hn : r.bytes.length ≤ n) :
            ¬(peek r.bytes r.offset ≠ 0x16 ∨ recordLength r.bytes r.offset < 4 ∨
              n < r.offset + 9 + messageLength r.bytes r.offset) := by
          rintro (htype | hfour | hshort)
          · exact hout (.inl htype)
          · exact hout (.inr hfour)
          · omega
        rw [if_neg (hkept hlen), if_neg (hkept hlen'), slice_append_of_le (by omega),
          slice_append_of_le (by omega)]
    · rw [if_pos (.inr (.inr (by omega))), if_pos (.inr (.inr (by omega)))]

end RecordPrefix

/-- A record of four bytes with a message that claims one more. -/
def shortRecord : RecordPrefix where
  bytes := [0x16, 3, 1, 0, 4, 14, 0, 0, 1]
  offset := 0
  header := by decide
  whole := by decide
  fits := by decide

/-- The message is completed from the byte behind the record. -/
theorem shortRecord_not_confined : ∃ _ : Digests, ¬shortRecord.Confined := by
  let digests : Digests := ⟨fun _ => Vector.replicate 16 0, fun _ => Vector.replicate 32 0⟩
  refine ⟨digests, ?_⟩
  intro h
  have hsame := (h shortRecord.bytes (shortRecord.bytes ++ [0]) shortRecord.fits (by decide)
    (List.prefix_refl _) (List.prefix_append _ _)).2
  have hcompleted : tryDecodeTlsHandshake (shortRecord.bytes ++ [0]) 0 =
      ok ⟨[.other 14], (0, 10)⟩ := by decide +kernel
  have hrefused : tryDecodeTlsHandshake shortRecord.bytes 0 = refuse := by decide +kernel
  change tryDecodeTlsHandshake _ 0 = tryDecodeTlsHandshake _ 0 at hsame
  rw [hcompleted, hrefused] at hsame
  cases hsame

end Pktscope

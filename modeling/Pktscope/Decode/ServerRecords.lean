import Pktscope.Decode.HelloExtensions
import Pktscope.Decode.HelloRecords
import Pktscope.Decode.RecordConfinement
import Pktscope.Library.ServerFormat

/-! # Reading the answer of a server back

The decoder finds in a record what a server says: the version of its hello, its
cipher suite and its protocol, and the number of its certificates. It looks for
a list of versions where a server puts a single one, and so never sees the
version that the server selects.
-/

namespace Pktscope

open Library Parse

section Extensions

theorem splitExtensions_typedBytes {es : List (UInt16 × List UInt8)}
    (hfits : ∀ e ∈ es, e.2.length < 2 ^ 16) {fuel : ℕ} (hfuel : es.length ≤ fuel) :
    splitExtensions fuel (es.flatMap typedBytes) = es := by
  induction es generalizing fuel with
  | nil => exact splitExtensions_of_short fuel (by simp)
  | cons e es ih =>
    obtain ⟨fuel, rfl⟩ : ∃ n, fuel = n + 1 := ⟨fuel - 1, by simp at hfuel; omega⟩
    have he := hfits e List.mem_cons_self
    have hrest : splitExtensions fuel (es.flatMap typedBytes) = es :=
      ih (fun e he => hfits e (List.mem_cons_of_mem _ he)) (by simpa using hfuel)
    have hbytes : (e :: es).flatMap typedBytes =
        UInt8.ofNat (e.1.toNat / 2 ^ 8) :: UInt8.ofNat e.1.toNat ::
          UInt8.ofNat ((UInt16.ofNat e.2.length).toNat / 2 ^ 8) ::
            UInt8.ofNat (UInt16.ofNat e.2.length).toNat :: (e.2 ++ es.flatMap typedBytes) := by
      simp [typedBytes, vec16, toBe16]
    rw [hbytes, splitExtensions, be16_toBe16, be16_toBe16, toNat_ofNat_16 he, if_neg (by simp),
      List.take_left, List.drop_left, hrest]

theorem extensionsOf_typedBytes {es : List (UInt16 × List UInt8)}
    (hfits : ∀ e ∈ es, e.2.length < 2 ^ 16) : extensionsOf (es.flatMap typedBytes) = es :=
  splitExtensions_typedBytes hfits (count_le_typedBytes es)

theorem read_versions {out out' : ExtData} {e : UInt16 × List UInt8} (h : out.read e = ok out') :
    if e.1 = 0x002b then parseU16List1 e.2 = ok out'.versions
    else out'.versions = out.versions := by
  unfold ExtData.read readExtension at h
  split_ifs with hversions
  · rw [if_neg (by simp [hversions]), if_neg (by simp [hversions]), if_neg (by simp [hversions]),
      if_neg (by simp [hversions]), if_neg (by simp [hversions]), if_pos hversions,
      bind_eq_ok] at h
    obtain ⟨versions, hread, hout⟩ := h
    cases hout
    exact hread
  · split_ifs at h
    all_goals
      first
      | obtain ⟨x, -, hout⟩ := bind_eq_ok.mp h
        cases hout
        rfl
      | cases h
        rfl

theorem parseU16List1_toBe16 (version : UInt16) : parseU16List1 (toBe16 version) = ok [] := by
  have hstop : min (UInt8.ofNat (version.toNat / 2 ^ 8)).toNat 1 ≤ 1 := Nat.min_le_right _ _
  have hnext : addUsize 0 1 = ok 1 := if_pos (by decide)
  have hlen : index (toBe16 version) 0 = ok (UInt8.ofNat (version.toNat / 2 ^ 8)) := rfl
  have hrest : sliceAt (toBe16 version) 1 (toBe16 version).length =
      ok [UInt8.ofNat version.toNat] := rfl
  rw [parseU16List1, if_neg (by simp [toBe16]), hlen, ok_bind, hrest, ok_bind, parseU16s,
    List.length_singleton, u16Loop, hnext, ok_bind, if_neg (by omega)]
  rfl

theorem foldlM_read_versions {es : List (UInt16 × List UInt8)} {out out' : ExtData}
    (hes : ∀ e ∈ es, e.1 = 0x002b → ∃ version, e.2 = toBe16 version)
    (h : es.foldlM ExtData.read out = ok out') (hout : out.versions = []) :
    out'.versions = [] := by
  induction es generalizing out with
  | nil =>
    cases h
    exact hout
  | cons e es ih =>
    rw [List.foldlM_cons, bind_eq_ok] at h
    obtain ⟨next, hnext, hrest⟩ := h
    refine ih (fun e he => hes e (List.mem_cons_of_mem _ he)) hrest ?_
    have hread := read_versions hnext
    split_ifs at hread with ht
    · obtain ⟨version, hversion⟩ := hes e List.mem_cons_self ht
      rw [hversion, parseU16List1_toBe16] at hread
      exact (ok.inj hread).symm
    · exact hread.trans hout

variable {h : ServerHello}

theorem alpnData_typed :
    alpnData (h.extensions.map ServerExtension.typed) =
      h.protocols.getLast?.map fun p => vec16 (vec8 (utf8Bytes p)) := by
  have hfilter : ∀ es : List ServerExtension, (∀ e ∈ es, e.Fits) →
      (((es.map ServerExtension.typed).filter fun e => e.1 == 0x0010).map Prod.snd) =
        (es.filterMap ServerExtension.protocol?).map fun p => vec16 (vec8 (utf8Bytes p)) := by
    intro es hfits
    induction es with
    | nil => rfl
    | cons e es ih =>
      have hrest := ih fun e he => hfits e (List.mem_cons_of_mem _ he)
      have he := hfits e List.mem_cons_self
      cases e with
      | alpn p => simpa [ServerExtension.typed, ServerExtension.type, ServerExtension.data,
          ServerExtension.protocol?] using hrest
      | selectedVersion v => simpa [ServerExtension.typed, ServerExtension.type,
          ServerExtension.protocol?, List.filterMap_cons] using hrest
      | other type data =>
        have htype : type ≠ 0x0010 := by
          rintro rfl
          exact he List.mem_cons_self
        simpa [ServerExtension.typed, ServerExtension.type, ServerExtension.protocol?,
          List.filterMap_cons, htype] using hrest
  rw [alpnData, ← List.getLast?_map, hfilter _ h.fits, List.getLast?_map]
  rfl

theorem versions_typed : ∀ e ∈ h.extensions.map ServerExtension.typed, e.1 = 0x002b →
    ∃ version, e.2 = toBe16 version := by
  intro e he ht
  obtain ⟨e, hmem, rfl⟩ := List.mem_map.mp he
  cases e with
  | alpn p => exact absurd ht (by simp [ServerExtension.typed, ServerExtension.type])
  | selectedVersion v => exact ⟨v, rfl⟩
  | other type data =>
    obtain rfl : type = 0x002b := ht
    exact absurd (h.fits _ hmem) (by simp [ServerExtension.Fits])

theorem read_extensions {exts : ExtData}
    (hexts : (h.extensions.map ServerExtension.typed).foldlM ExtData.read .default = ok exts) :
    exts.versions = [] ∧ exts.alpn = h.protocols.getLast?.toList := by
  constructor
  · exact foldlM_read_versions versions_typed hexts rfl
  · have halpn := foldlM_read_alpn hexts
    rw [alpnData_typed] at halpn
    cases hlast : h.protocols.getLast? with
    | none =>
      rw [hlast] at halpn
      exact halpn
    | some p =>
      rw [hlast] at halpn
      have hmem : ServerExtension.alpn p ∈ h.extensions := by
        obtain ⟨e, he, hp⟩ := List.mem_filterMap.mp (List.mem_of_getLast? hlast)
        cases e with
        | alpn q =>
          obtain rfl : q = p := Option.some.inj hp
          exact he
        | selectedVersion v => cases hp
        | other type data => cases hp
      have hfit : (utf8Bytes p).length < 2 ^ 8 := h.fits _ hmem
      have hparse : parseAlpn (vec16 (HelloExtension.protocolBytes [p])) = ok [p] :=
        parseAlpn_bytes (by simp [HelloExtension.protocolBytes]; omega) (by simpa using hfit)
      simp only [HelloExtension.protocolBytes, List.flatMap_cons, List.flatMap_nil,
        List.append_nil] at hparse
      rw [Option.map_some] at halpn
      exact (ok.inj (hparse.symm.trans halpn)).symm

end Extensions

section Messages

theorem certLoop_standsAt {body : List UInt8} (hs : body.length < 2 ^ 24)
    (chain : List (List UInt8)) :
    ∀ {p rounds count : ℕ}, StandsAt body p (chain.flatMap vec24) →
      body.length = p + (chain.flatMap vec24).length → chain.length < rounds →
        count + chain.length < 2 ^ 63 →
          certLoop body body.length rounds p count = ok (count + chain.length) := by
  have hmax : maxBytes = 2 ^ 63 := rfl
  induction chain with
  | nil =>
    intro p rounds count _ hend hr _
    obtain ⟨rounds, rfl⟩ : ∃ m, rounds = m + 1 := ⟨rounds - 1, by simp at hr; omega⟩
    rw [certLoop, addUsize_eq (hs.trans (by omega)) (by simp at hend; omega) (by omega), ok_bind,
      if_neg (by simp at hend; omega)]
    rfl
  | cons cert chain ih =>
    intro p rounds count h hend hr hcount
    obtain ⟨rounds, rfl⟩ : ∃ m, rounds = m + 1 := ⟨rounds - 1, by simp at hr; omega⟩
    rw [List.flatMap_cons] at h hend
    rw [List.length_cons] at hr hcount ⊢
    have hle := h.le
    rw [List.length_append, length_vec24] at hle hend
    have hcert : StandsAt body p (toBe24 cert.length ++ cert) := h.left
    have hrest : StandsAt body (p + (3 + cert.length)) (chain.flatMap vec24) := by
      have hright := h.right
      rwa [length_vec24, Nat.add_comm _ 3] at hright
    have hlen : be24At body p 0 = ok cert.length :=
      StandsAt.be24At (hs.trans (by omega)) hcert (by omega)
    have hentry : addUsize 3 cert.length = ok (3 + cert.length) := if_pos (by omega)
    have hnext : addUsize count 1 = ok (count + 1) := if_pos (by omega)
    have hloop : certLoop body body.length rounds (p + (3 + cert.length)) (count + 1) =
        ok (count + 1 + chain.length) := ih hrest (by omega) (by omega) (by omega)
    rw [certLoop, addUsize_eq (hs.trans (by omega)) (by omega) (by omega), ok_bind,
      if_pos (by omega), hlen, ok_bind, hentry, ok_bind,
      addUsize_eq (hs.trans (by omega)) (by omega) (by omega), ok_bind, if_neg (by omega), hnext,
      ok_bind, hloop]
    congr 1
    omega

theorem count_le_vec24 (chain : List (List UInt8)) :
    chain.length ≤ (chain.flatMap vec24).length := by
  induction chain with
  | nil => simp
  | cons cert chain ih =>
    rw [List.flatMap_cons, List.length_append, length_vec24, List.length_cons]
    omega

theorem countCerts_chain {chain : List (List UInt8)}
    (hs : (vec24 (chain.flatMap vec24)).length < 2 ^ 24) :
    countCerts (vec24 (chain.flatMap vec24)) = ok chain.length := by
  have hmax : maxBytes = 2 ^ 63 := rfl
  have hcount := count_le_vec24 chain
  have hwhole := standsAt_whole (vec24 (chain.flatMap vec24))
  have hlen := length_vec24 (chain.flatMap vec24)
  have hinner : StandsAt (vec24 (chain.flatMap vec24)) 3 (chain.flatMap vec24) := by
    have hright := StandsAt.right (a := toBe24 (chain.flatMap vec24).length) hwhole
    simpa using hright
  have htotal : be24At (vec24 (chain.flatMap vec24)) 0 0 = ok (chain.flatMap vec24).length :=
    StandsAt.be24At (hs.trans (by omega)) hwhole (by omega)
  have hstop : addUsize 3 (chain.flatMap vec24).length = ok (3 + (chain.flatMap vec24).length) :=
    if_pos (by omega)
  have hend : min (3 + (chain.flatMap vec24).length) (vec24 (chain.flatMap vec24)).length =
      (vec24 (chain.flatMap vec24)).length := by omega
  have hloop : certLoop (vec24 (chain.flatMap vec24)) (vec24 (chain.flatMap vec24)).length
      ((vec24 (chain.flatMap vec24)).length + 1) 3 0 = ok (0 + chain.length) :=
    certLoop_standsAt hs chain hinner (by omega) (by omega) (by omega)
  rw [countCerts, if_neg (by omega), htotal, ok_bind, hstop, ok_bind, hend, hloop, Nat.zero_add]

theorem extensionsAt_block {h : ServerHello} {omitted : Bool} {body : List UInt8}
    (hs : body.length < 2 ^ 24) {p : ℕ} (hat : StandsAt body p (h.extensionBlock omitted))
    (hend : body.length = p + (h.extensionBlock omitted).length)
    (hlen : (h.extensionBlock omitted).length < 2 ^ 16) :
    ∃ found, extensionsAt body p = ok found ∧
      (found.getD .default).versions = [] ∧
        (found.getD .default).alpn = h.protocols.getLast?.toList := by
  have hmax : maxBytes = 2 ^ 63 := rfl
  have hsmall : body.length < maxBytes := by omega
  by_cases ho : (omitted && h.extensions.isEmpty) = true
  · -- nothing behind the compression method
    rw [ServerHello.extensionBlock, if_pos ho, List.length_nil] at hend
    refine ⟨none, ?_, rfl, ?_⟩
    · rw [extensionsAt, addUsize_eq hsmall (by omega) (by omega), ok_bind, if_neg (by omega)]
      rfl
    · have hnil : h.extensions = [] := by
        rw [Bool.and_eq_true, List.isEmpty_iff] at ho
        exact ho.2
      rw [ServerHello.protocols, hnil]
      rfl
  · rw [ServerHello.extensionBlock, if_neg ho] at hat hend hlen
    have hsize :
        ((h.extensions.map ServerExtension.typed).flatMap typedBytes).length < maxBytes := by
      rw [length_vec16] at hlen
      omega
    have hparse := parseExtensions_eq hsize
    have hfits : ∀ e ∈ h.extensions.map ServerExtension.typed, e.2.length < 2 ^ 16 := by
      intro e he
      have hle := length_le_typedBytes he
      rw [length_vec16] at hlen
      omega
    rw [extensionsOf_typedBytes hfits] at hparse
    generalize hflat : (h.extensions.map ServerExtension.typed).flatMap typedBytes = flat at *
    rw [length_vec16] at hend hlen
    obtain ⟨exts, hexts⟩ : ∃ exts, parseExtensions flat = ok exts := by
      have hholds : Holds (parseExtensions flat) fun _ => True :=
        holds_extensionLoop (by omega) (by omega) (by omega) (Nat.zero_le _) _
      have haccepts : Accepts (parseExtensions flat) := accepts_extensionLoop _ _ _ _
      cases hx : parseExtensions flat with
      | ok exts => exact ⟨exts, rfl⟩
      | refuse => exact absurd hx haccepts
      | fault e =>
        rw [hx] at hholds
        exact hholds.elim
    obtain ⟨hversions, halpn⟩ := read_extensions (hparse.symm.trans hexts)
    have hnum : be16At body p 0 = ok (UInt16.ofNat flat.length) := StandsAt.be16At hsmall hat
    have hslice : sliceAt body (p + 2) (p + 2 + flat.length) = ok flat := hat.right.sliceAt rfl
    refine ⟨some exts, ?_, hversions, halpn⟩
    rw [extensionsAt, addUsize_eq hsmall (by omega) (by omega), ok_bind, if_pos (by omega), hnum,
      ok_bind, toNat_ofNat_16 (by omega), addUsize_eq hsmall (by omega) (by omega), ok_bind,
      Nat.min_eq_left (by omega), hslice, ok_bind, hexts]
    rfl

/-- A hello is read as its version, its cipher suite and its protocol. -/
theorem parseServerHello_body (h : ServerHello) {omitted : Bool}
    (hs : (h.body omitted).length < 2 ^ 16) :
    parseServerHello (h.body omitted) =
      ok (.serverHello h.version h.cipherSuite h.protocols.getLast?.toList) := by
  have hmax : maxBytes = 2 ^ 63 := rfl
  have hsession := h.session_fits
  have hlen : (h.body omitted).length =
      38 + h.sessionId.length + (h.extensionBlock omitted).length := by
    simp only [ServerHello.body, List.length_append, length_toBe16, h.random_length, length_vec8,
      List.length_cons]
    omega
  have hwhole := standsAt_whole (h.body omitted)
  generalize hbody : h.body omitted = body at hs hlen hwhole
  nth_rewrite 2 [← hbody] at hwhole
  have hsmall : body.length < maxBytes := by omega
  have hsid : StandsAt body 34 (vec8 h.sessionId ++ (toBe16 h.cipherSuite ++
      (h.compressionMethod :: h.extensionBlock omitted))) := by
    have hright := hwhole.right.right
    rwa [length_toBe16, h.random_length] at hright
  have hcipher : StandsAt body (34 + (1 + h.sessionId.length)) (toBe16 h.cipherSuite ++
      (h.compressionMethod :: h.extensionBlock omitted)) := by
    have hright := hsid.right
    rwa [length_vec8, Nat.add_comm _ 1] at hright
  have hblock : StandsAt body (34 + (1 + h.sessionId.length) + 3) (h.extensionBlock omitted) :=
    hcipher.right.tail
  have hversion : be16At body 0 0 = ok h.version := StandsAt.be16At hsmall hwhole
  have hsuite : be16At body (34 + (1 + h.sessionId.length)) 0 = ok h.cipherSuite :=
    StandsAt.be16At hsmall hcipher
  have hskip : addUsize 1 h.sessionId.length = ok (1 + h.sessionId.length) := if_pos (by omega)
  obtain ⟨found, hfound, hversions, halpn⟩ :=
    extensionsAt_block (hs.trans (by omega)) hblock (by omega) (by omega)
  rw [parseServerHello, if_neg (by omega), hversion, ok_bind, if_neg (by omega), hsid.index,
    ok_bind, toNat_ofNat_byte hsession, hskip, ok_bind,
    addUsize_eq hsmall (by omega) (by omega), ok_bind,
    addUsize_eq hsmall (by omega) (by omega), ok_bind, if_neg (by omega), hsuite, ok_bind,
    addUsize_eq hsmall (by omega) (by omega), ok_bind, hfound, ok_bind]
  cases found with
  | none =>
    rw [← halpn]
    rfl
  | some exts =>
    have hversions : exts.versions = [] := hversions
    have halpn : exts.alpn = h.protocols.getLast?.toList := halpn
    simp only [hversions, halpn, List.find?_nil, Option.getD_none]
    rfl

/-- What is shown of a message: a hello has the version in its head, whatever version it selects. -/
def shownMessage : ServerMessage → TlsHandshakeMessage
  | .hello h _ => .serverHello h.version h.cipherSuite h.protocols.getLast?.toList
  | .certificates chain => .certificate chain.length
  | .other type _ => .other type

/-- Decoding undoes encoding: what a server says is found in its record, whatever is around it. -/
theorem tryDecodeTlsHandshake_record (recordVersion : UInt16) {m : ServerMessage} (hm : m.Fits)
    (front back : List UInt8) (hfits : m.body.length + 4 < 2 ^ 16)
    (hs : (front ++ (m.record recordVersion ++ back)).length < maxBytes) :
    tryDecodeTlsHandshake (front ++ (m.record recordVersion ++ back)) front.length =
      ok ⟨[shownMessage m], (front.length, front.length + (m.record recordVersion).length)⟩ := by
  have hrec := parseTlsRecord_handshake recordVersion m.type front back hfits hs
  have hrange : min (front.length + (m.record recordVersion).length)
      (front ++ (m.record recordVersion ++ back)).length =
        front.length + (m.record recordVersion).length := by
    simp only [List.length_append]
    omega
  rw [tryDecodeTlsHandshake, ServerMessage.record, hrec, ok_bind]
  simp only [ServerMessage.record] at hrange
  simp only [hrange]
  cases m with
  | hello h omitted =>
    have htype : (ServerMessage.hello h omitted).type = 0x02 := rfl
    rw [if_neg (by simp [htype]), if_pos htype]
    change (parseServerHello (h.body omitted) >>= _) = _
    rw [parseServerHello_body h (by change (h.body omitted).length + 4 < _ at hfits; omega)]
    rfl
  | certificates chain =>
    have htype : (ServerMessage.certificates chain).type = 0x0b := rfl
    rw [if_neg (by simp [htype]), if_neg (by simp [htype]), if_pos htype]
    change (countCerts (vec24 (chain.flatMap vec24)) >>= _) = _
    rw [countCerts_chain (by
      change (vec24 (chain.flatMap vec24)).length + 4 < _ at hfits
      omega)]
    rfl
  | other type body =>
    have htype : type ∉ [(0x01 : UInt8), 0x02, 0x0b] := hm
    simp only [List.mem_cons, List.not_mem_nil, or_false, not_or] at htype
    change (if type = 0x01 then _ else if type = 0x02 then _ else if type = 0x0b then _ else _) = _
    rw [if_neg htype.1, if_neg htype.2.1, if_neg htype.2.2]
    rfl

end Messages

section Samples

def sampleExtensions : List ServerExtension :=
  [.selectedVersion 0x0304, .alpn "h2", .other 0x0033 [1, 2]]

theorem fits_sampleExtensions : ∀ e ∈ sampleExtensions, e.Fits := by
  simp only [sampleExtensions, List.mem_cons, List.not_mem_nil, or_false, forall_eq_or_imp,
    forall_eq]
  refine ⟨trivial, ?_, ?_⟩
  · simp only [ServerExtension.Fits]
    decide
  · simp [ServerExtension.Fits]

/-- A server that selects a cipher suite, a protocol and version 1.3. -/
def sampleAnswer : ServerHello where
  version := 0x0303
  random := List.replicate 32 1
  sessionId := [7]
  cipherSuite := 0x1301
  compressionMethod := 0
  extensions := sampleExtensions
  random_length := rfl
  session_fits := by decide
  fits := fits_sampleExtensions

theorem tryDecodeTlsHandshake_record_sample :
    tryDecodeTlsHandshake
        ([0x17] ++ ((ServerMessage.hello sampleAnswer false).record 0x0303 ++ [0x18])) 1 =
      ok ⟨[.serverHello 0x0303 0x1301 ["h2"]], (1, 72)⟩ := by
  have hrecord : ((ServerMessage.hello sampleAnswer false).record 0x0303).length = 71 := by
    decide +kernel
  have hread := tryDecodeTlsHandshake_record 0x0303 (m := .hello sampleAnswer false) trivial
    [0x17] [0x18] (by decide +kernel) (by
      rw [List.length_append, List.length_append, hrecord]
      decide)
  rw [hrecord] at hread
  exact hread

end Samples

end Pktscope

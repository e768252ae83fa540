import Pktscope.Decode.Tls
import Pktscope.Library.HelloFormat

/-! # Reading a ClientHello back

The decoder finds in a record what the hello says: each list of an extension by
induction on the list, the extensions by induction on their sequence, and the
value of an extension that occurs once by what overwrites its register.
-/

namespace Pktscope

open Library Parse HelloExtension

section Lists

variable {data : List UInt8}

theorem toNat_ofNat_16 {n : ℕ} (h : n < 2 ^ 16) : (UInt16.ofNat n).toNat = n := by
  rw [UInt16.toNat_ofNat']
  exact Nat.mod_eq_of_lt h

theorem u16Loop_standsAt (hs : data.length < maxBytes) {base : ℕ} (l : List UInt16) :
    ∀ {i rounds : ℕ} {out : List UInt16}, StandsAt data (base + i) (u16Bytes l) →
      l.length < rounds →
        u16Loop data base (i + 2 * l.length) rounds i out = ok (out ++ l) := by
  have hmax : maxBytes = 2 ^ 63 := rfl
  induction l with
  | nil =>
    intro i rounds out h hr
    obtain ⟨rounds, rfl⟩ : ∃ m, rounds = m + 1 := ⟨rounds - 1, by simp at hr; omega⟩
    have hle := h.le
    rw [u16Loop, addUsize_eq hs (by omega) (by omega), ok_bind, if_neg (by simp), List.append_nil]
    rfl
  | cons n l ih =>
    intro i rounds out h hr
    obtain ⟨rounds, rfl⟩ : ∃ m, rounds = m + 1 := ⟨rounds - 1, by simp at hr; omega⟩
    have hle := h.le
    have hnum : be16At data base i = ok n := StandsAt.be16At hs h
    have hrest : StandsAt data (base + (i + 2)) (u16Bytes l) := StandsAt.right h
    rw [u16Loop, addUsize_eq hs (by omega) (by omega), ok_bind,
      if_pos (by rw [List.length_cons]; omega), hnum, ok_bind,
      addUsize_eq hs (by omega) (by omega), ok_bind]
    have hnext : u16Loop data base (i + 2 + 2 * l.length) rounds (i + 2) (out ++ [n]) =
        ok (out ++ [n] ++ l) := ih hrest (by simpa using hr)
    rw [show i + 2 * (n :: l).length = i + 2 + 2 * l.length by rw [List.length_cons]; omega, hnext,
      List.append_assoc]
    rfl

theorem parseU16s_bytes {l : List UInt16} (hl : (u16Bytes l).length < maxBytes) :
    parseU16s (u16Bytes l) (u16Bytes l).length = ok l := by
  have hloop : u16Loop (u16Bytes l) 0 (0 + 2 * l.length) ((u16Bytes l).length + 1) 0 [] =
      ok ([] ++ l) :=
    u16Loop_standsAt hl l (standsAt_whole _) (by simp only [length_u16Bytes]; omega)
  simp only [parseU16s, Nat.min_self]
  simpa using hloop

theorem parseU16List2_bytes {l : List UInt16} (hl : (u16Bytes l).length < 2 ^ 16) :
    parseU16List2 (vec16 (u16Bytes l)) = ok l := by
  have hmax : maxBytes = 2 ^ 63 := rfl
  have hs : (vec16 (u16Bytes l)).length < maxBytes := by
    rw [length_vec16]
    omega
  have hwhole := standsAt_whole (vec16 (u16Bytes l))
  have hlen : be16At (vec16 (u16Bytes l)) 0 0 = ok (UInt16.ofNat (u16Bytes l).length) :=
    StandsAt.be16At hs hwhole
  have hrest : sliceAt (vec16 (u16Bytes l)) 2 (vec16 (u16Bytes l)).length = ok (u16Bytes l) :=
    hwhole.right.sliceAt (by rw [length_vec16, length_toBe16]; omega)
  rw [parseU16List2, if_neg (by rw [length_vec16]; omega), hlen, ok_bind, hrest, ok_bind,
    toNat_ofNat_16 hl, parseU16s_bytes (by omega)]

theorem parseU16List1_bytes {l : List UInt16} (hl : (u16Bytes l).length < 2 ^ 8) :
    parseU16List1 (vec8 (u16Bytes l)) = ok l := by
  have hmax : maxBytes = 2 ^ 63 := rfl
  have hwhole := standsAt_whole (vec8 (u16Bytes l))
  have hlen : index (vec8 (u16Bytes l)) 0 = ok (UInt8.ofNat (u16Bytes l).length) := hwhole.index
  have hrest : sliceAt (vec8 (u16Bytes l)) 1 (vec8 (u16Bytes l)).length = ok (u16Bytes l) :=
    hwhole.tail.sliceAt (by rw [length_vec8]; omega)
  rw [parseU16List1, if_neg (by simp [vec8]), hlen, ok_bind, hrest, ok_bind,
    toNat_ofNat_byte hl, parseU16s_bytes (by omega)]

theorem parseU8List1_bytes {l : List UInt8} (hl : l.length < 2 ^ 8) :
    parseU8List1 (vec8 l) = ok l := by
  have hwhole := standsAt_whole (vec8 l)
  have hlen : index (vec8 l) 0 = ok (UInt8.ofNat l.length) := hwhole.index
  have hmost : subUsize (vec8 l).length 1 = ok l.length := by
    rw [subUsize, length_vec8, if_pos (by omega), Nat.add_sub_cancel]
  have hstop : addUsize 1 l.length = ok (1 + l.length) := if_pos (by omega)
  have hrest : sliceAt (vec8 l) 1 (1 + l.length) = ok l := hwhole.tail.sliceAt (by omega)
  rw [parseU8List1, if_neg (by simp [vec8]), hlen, ok_bind, hmost, ok_bind, toNat_ofNat_byte hl,
    Nat.min_self, hstop, ok_bind, hrest]

theorem alpnLoop_standsAt (hs : data.length < maxBytes) (ps : List String) :
    ∀ {p rounds : ℕ} {out : List String}, StandsAt data p (protocolBytes ps) →
      data.length = p + (protocolBytes ps).length → (∀ q ∈ ps, (utf8Bytes q).length < 2 ^ 8) →
        ps.length < rounds → alpnLoop data rounds p out = ok (out ++ ps) := by
  have hmax : maxBytes = 2 ^ 63 := rfl
  induction ps with
  | nil =>
    intro p rounds out h hend _ hr
    obtain ⟨rounds, rfl⟩ : ∃ m, rounds = m + 1 := ⟨rounds - 1, by simp at hr; omega⟩
    rw [alpnLoop, if_neg (by simp [hend, protocolBytes]), List.append_nil]
    rfl
  | cons q ps ih =>
    intro p rounds out h hend hfit hr
    obtain ⟨rounds, rfl⟩ : ∃ m, rounds = m + 1 := ⟨rounds - 1, by simp at hr; omega⟩
    have hq := hfit q (by simp)
    have hlen : (protocolBytes (q :: ps)).length =
        1 + (utf8Bytes q).length + (protocolBytes ps).length := by
      simp only [protocolBytes, List.flatMap_cons, List.length_append, length_vec8]
      omega
    have hfirst : StandsAt data p (UInt8.ofNat (utf8Bytes q).length :: utf8Bytes q) :=
      StandsAt.left h
    have hrest : StandsAt data (p + 1 + (utf8Bytes q).length) (protocolBytes ps) := by
      have hright : StandsAt data (p + (vec8 (utf8Bytes q)).length) (protocolBytes ps) :=
        StandsAt.right h
      rwa [length_vec8, Nat.add_comm _ 1, ← Nat.add_assoc] at hright
    have hle := hrest.le
    have hname : sliceAt data (p + 1) (p + 1 + (utf8Bytes q).length) = ok (utf8Bytes q) :=
      hfirst.tail.sliceAt rfl
    have hnext : alpnLoop data rounds (p + 1 + (utf8Bytes q).length) (out ++ [q]) =
        ok (out ++ [q] ++ ps) :=
      ih hrest (by omega) (fun r hr => hfit r (by simp [hr])) (by simpa using hr)
    rw [alpnLoop, if_pos (by omega), hfirst.index, ok_bind, addUsize_eq hs (by omega) (by omega),
      ok_bind, toNat_ofNat_byte hq, addUsize_eq hs (by omega) (by omega), ok_bind,
      if_neg (by omega), hname, ok_bind, fromUtf8Lossy_utf8Bytes, hnext, List.append_assoc]
    rfl

theorem length_le_protocolBytes (ps : List String) : ps.length ≤ (protocolBytes ps).length := by
  induction ps with
  | nil => exact Nat.zero_le _
  | cons q ps ih =>
    simp only [protocolBytes, List.flatMap_cons, List.length_append, length_vec8,
      List.length_cons] at *
    omega

theorem parseAlpn_bytes {ps : List String} (hl : (protocolBytes ps).length < 2 ^ 16)
    (hfit : ∀ q ∈ ps, (utf8Bytes q).length < 2 ^ 8) :
    parseAlpn (vec16 (protocolBytes ps)) = ok ps := by
  have hmax : maxBytes = 2 ^ 63 := rfl
  have hlen := length_vec16 (protocolBytes ps)
  have hcount := length_le_protocolBytes ps
  have hloop : alpnLoop (vec16 (protocolBytes ps)) ((vec16 (protocolBytes ps)).length + 1) 2 [] =
      ok ([] ++ ps) :=
    alpnLoop_standsAt (by omega) ps (standsAt_whole _).right (by omega) hfit (by omega)
  rw [parseAlpn, if_neg (by omega), hloop, List.nil_append]

theorem parseSni_bytes {host : String} (hl : (utf8Bytes host).length < 2 ^ 16 - 3) :
    parseSni (vec16 (0x00 :: vec16 (utf8Bytes host))) = ok (some host) := by
  have hmax : maxBytes = 2 ^ 63 := rfl
  generalize hdata : vec16 (0x00 :: vec16 (utf8Bytes host)) = data
  have hlen : data.length = (utf8Bytes host).length + 5 := by
    rw [← hdata]
    simp only [length_vec16, List.length_cons]
  have hs : data.length < maxBytes := by omega
  have hwhole : StandsAt data 0 (vec16 (0x00 :: vec16 (utf8Bytes host))) := by
    rw [hdata]
    exact standsAt_whole data
  have hentry : StandsAt data 2 (0x00 :: vec16 (utf8Bytes host)) := hwhole.right
  have hvec : StandsAt data (2 + 1) (vec16 (utf8Bytes host)) := hentry.tail
  have hname : StandsAt data (2 + 3) (utf8Bytes host) := hvec.right
  have hnum : be16At data 2 1 = ok (UInt16.ofNat (utf8Bytes host).length) :=
    StandsAt.be16At hs hvec
  have hslice : sliceAt data (2 + 3) (2 + 3 + (utf8Bytes host).length) = ok (utf8Bytes host) :=
    hname.sliceAt rfl
  rw [parseSni, if_neg (by omega), sniLoop, addUsize_eq hs (by omega) (by omega), ok_bind,
    if_pos (by omega), hentry.index, ok_bind, hnum, ok_bind, toNat_ofNat_16 (by omega),
    addUsize_eq hs (by omega) (by omega), ok_bind, if_neg (by omega), if_pos rfl, hslice, ok_bind,
    fromUtf8_utf8Bytes]
  rfl

end Lists

section Extensions

/-- What an extension adds to what the ones before it said. -/
def ExtData.keep (out : ExtData) (e : HelloExtension) : ExtData where
  types := out.types ++ [e.type]
  sni := e.host?.or out.sni
  alpn := e.protocols?.getD out.alpn
  groups := e.groups?.getD out.groups
  formats := e.formats?.getD out.formats
  sigAlgs := e.algorithms?.getD out.sigAlgs
  versions := e.versions?.getD out.versions

theorem readExtension_data {e : HelloExtension} (hfit : e.Fits) (hlen : e.data.length < 2 ^ 16)
    (out : ExtData) :
    readExtension { out with types := out.types ++ [e.type] } e.type e.data = ok (out.keep e) := by
  cases e with
  | serverName host =>
    have hl : (utf8Bytes host).length < 2 ^ 16 - 3 := by
      simp only [HelloExtension.data, length_vec16, List.length_cons] at hlen
      omega
    simp only [readExtension, HelloExtension.type, HelloExtension.data, parseSni_bytes hl]
    rfl
  | supportedGroups groups =>
    have hl : (u16Bytes groups).length < 2 ^ 16 := by
      simp only [HelloExtension.data, length_vec16] at hlen
      omega
    simp only [readExtension, HelloExtension.type, HelloExtension.data, parseU16List2_bytes hl]
    rfl
  | ecPointFormats formats =>
    simp only [readExtension, HelloExtension.type, HelloExtension.data, parseU8List1_bytes hfit]
    rfl
  | signatureAlgorithms algorithms =>
    have hl : (u16Bytes algorithms).length < 2 ^ 16 := by
      simp only [HelloExtension.data, length_vec16] at hlen
      omega
    simp only [readExtension, HelloExtension.type, HelloExtension.data, parseU16List2_bytes hl]
    rfl
  | alpn protocols =>
    have hl : (protocolBytes protocols).length < 2 ^ 16 := by
      simp only [HelloExtension.data, length_vec16] at hlen
      omega
    simp only [readExtension, HelloExtension.type, HelloExtension.data, parseAlpn_bytes hl hfit]
    rfl
  | supportedVersions versions =>
    have hl : (u16Bytes versions).length < 2 ^ 8 := by
      rw [length_u16Bytes]
      exact hfit
    simp only [readExtension, HelloExtension.type, HelloExtension.data, parseU16List1_bytes hl]
    rfl
  | other type data =>
    simp only [Fits, knownTypes, List.mem_cons, List.not_mem_nil, or_false, not_or] at hfit
    obtain ⟨h0, ha, hb, hd, h10, h2b⟩ := hfit
    simp only [readExtension, HelloExtension.type, HelloExtension.data, h0, ha, hb, hd, h10, h2b,
      if_false]
    rfl

theorem length_bytes (e : HelloExtension) : e.bytes.length = e.data.length + 4 := by
  simp only [HelloExtension.bytes, List.length_append, length_toBe16, length_vec16]
  omega

/-- The loop over the extensions, up to the end. -/
theorem extensionLoop_standsAt {ext : List UInt8} (hs : ext.length < maxBytes)
    (es : List HelloExtension) :
    ∀ {p rounds : ℕ} {out : ExtData}, StandsAt ext p (es.flatMap HelloExtension.bytes) →
      ext.length = p + (es.flatMap HelloExtension.bytes).length → (∀ e ∈ es, e.Fits) →
        (∀ e ∈ es, e.data.length < 2 ^ 16) → es.length < rounds →
          extensionLoop ext rounds p out = ok (es.foldl ExtData.keep out) := by
  have hmax : maxBytes = 2 ^ 63 := rfl
  induction es with
  | nil =>
    intro p rounds out h hend _ _ hr
    obtain ⟨rounds, rfl⟩ : ∃ m, rounds = m + 1 := ⟨rounds - 1, by simp at hr; omega⟩
    have hle := h.le
    simp only [List.flatMap_nil, List.length_nil] at hend
    rw [extensionLoop, addUsize_eq hs (by omega) (by omega), ok_bind, if_neg (by omega)]
    rfl
  | cons e es ih =>
    intro p rounds out h hend hfits hlens hr
    obtain ⟨rounds, rfl⟩ : ∃ m, rounds = m + 1 := ⟨rounds - 1, by simp at hr; omega⟩
    have hfit := hfits e (by simp)
    have hlen := hlens e (by simp)
    have hbytes := length_bytes e
    rw [List.flatMap_cons] at h hend
    rw [List.length_append] at hend
    have hfirst : StandsAt ext p (toBe16 e.type ++ vec16 e.data) := h.left
    have hvec : StandsAt ext (p + 2) (vec16 e.data) := hfirst.right
    have hdata : StandsAt ext (p + 4) e.data := hvec.right
    have hrest : StandsAt ext (p + 4 + e.data.length) (es.flatMap HelloExtension.bytes) := by
      have hright := h.right
      rwa [hbytes, Nat.add_comm _ 4, ← Nat.add_assoc] at hright
    have htype : be16At ext p 0 = ok e.type := StandsAt.be16At hs hfirst
    have hnum : be16At ext p 2 = ok (UInt16.ofNat e.data.length) := StandsAt.be16At hs hvec
    have hslice : sliceAt ext (p + 4) (p + 4 + e.data.length) = ok e.data := hdata.sliceAt rfl
    have hle := hdata.le
    have hnext : extensionLoop ext rounds (p + 4 + e.data.length) (out.keep e) =
        ok (es.foldl ExtData.keep (out.keep e)) :=
      ih hrest (by omega) (fun f hf => hfits f (by simp [hf])) (fun f hf => hlens f (by simp [hf]))
        (by simpa using hr)
    rw [extensionLoop, addUsize_eq hs (by omega) (by omega), ok_bind, if_pos (by omega), htype,
      ok_bind, hnum, ok_bind, toNat_ofNat_16 hlen, addUsize_eq hs (by omega) (by omega), ok_bind,
      if_neg (by omega), hslice, ok_bind, readExtension_data hfit hlen out, ok_bind, hnext]
    rfl

theorem length_le_flatMap_bytes (es : List HelloExtension) :
    es.length ≤ (es.flatMap HelloExtension.bytes).length := by
  induction es with
  | nil => exact Nat.zero_le _
  | cons e es ih =>
    rw [List.flatMap_cons, List.length_append, length_bytes, List.length_cons]
    omega

theorem data_le_flatMap_bytes {es : List HelloExtension} {e : HelloExtension} (he : e ∈ es) :
    e.data.length ≤ (es.flatMap HelloExtension.bytes).length := by
  have hsub : e.bytes.length ≤ (es.flatMap HelloExtension.bytes).length := by
    induction es with
    | nil => cases he
    | cons f es ih =>
      rw [List.flatMap_cons, List.length_append]
      rcases List.mem_cons.mp he with rfl | he
      · omega
      · have := ih he
        omega
  rw [length_bytes] at hsub
  omega

/-- The block of extensions at the end of a body, or no block at all. -/
theorem extensionsAt_standsAt {body : List UInt8} (hs : body.length < maxBytes) {p : ℕ}
    {h : ClientHello} {omitted : Bool} (hp : StandsAt body p (h.extensionBlock omitted))
    (hend : body.length = p + (h.extensionBlock omitted).length)
    (hlen : (h.extensionBlock omitted).length < 2 ^ 16) :
    ∃ found, extensionsAt body p = ok found ∧
      found.getD .default = h.extensions.foldl ExtData.keep .default := by
  have hmax : maxBytes = 2 ^ 63 := rfl
  have hle := hp.le
  by_cases ho : (omitted && h.extensions.isEmpty) = true
  · -- nothing behind the compression methods
    rw [ClientHello.extensionBlock, if_pos ho] at hend
    refine ⟨none, ?_, ?_⟩
    · rw [extensionsAt, addUsize_eq hs (by omega) (by omega), ok_bind,
        if_neg (by simp at hend; omega)]
      rfl
    · have hnil : h.extensions = [] := by
        simp only [Bool.and_eq_true, List.isEmpty_iff] at ho
        exact ho.2
      rw [hnil]
      rfl
  · rw [ClientHello.extensionBlock, if_neg ho] at hp hend hlen
    generalize hflat : h.extensions.flatMap HelloExtension.bytes = flat at hp hend hlen
    rw [length_vec16] at hend hlen
    have hcount := length_le_flatMap_bytes h.extensions
    rw [hflat] at hcount
    have hnum : be16At body p 0 = ok (UInt16.ofNat flat.length) := StandsAt.be16At hs hp
    have hslice : sliceAt body (p + 2) (p + 2 + flat.length) = ok flat := hp.right.sliceAt rfl
    have hloop : extensionLoop flat (flat.length + 1) 0 .default =
        ok (h.extensions.foldl ExtData.keep .default) := by
      apply extensionLoop_standsAt (by omega) h.extensions
      · rw [hflat]
        exact standsAt_whole flat
      · rw [hflat, Nat.zero_add]
      · exact h.fits
      · intro e he
        have := data_le_flatMap_bytes he
        rw [hflat] at this
        omega
      · omega
    refine ⟨some (h.extensions.foldl ExtData.keep .default), ?_, rfl⟩
    rw [extensionsAt, addUsize_eq hs (by omega) (by omega), ok_bind, if_pos (by omega), hnum,
      ok_bind, toNat_ofNat_16 (by omega), addUsize_eq hs (by omega) (by omega), ok_bind,
      Nat.min_eq_left (by omega), hslice, ok_bind, parseExtensions, hloop]
    rfl

end Extensions

section Fingerprints

theorem returns_ja4Alpn (first : Option String) : Returns (ja4Alpn first) fun _ => True := by
  cases first with
  | none => exact returns_ok trivial
  | some s =>
    apply returns_ite
    · exact fun _ => returns_ok trivial
    · intro hne
      have hpos : 0 < (utf8Bytes s).length := by
        rw [List.length_pos_iff]
        simpa using hne
      have hlast : subUsize (utf8Bytes s).length 1 = ok ((utf8Bytes s).length - 1) := if_pos hpos
      rw [index_eq_peek hpos, ok_bind, hlast, ok_bind, index_eq_peek (by omega), ok_bind]
      exact returns_ok trivial

theorem returns_sha12 [Digests] (s : String) (empty : Bool) :
    Returns (sha12 s empty) fun _ => True := by
  apply returns_ite
  · exact fun _ => returns_ok trivial
  · intro _
    have hlen := length_hex (Digests.sha256 (utf8Bytes s)).toList
    rw [Vector.length_toList] at hlen
    rw [strHead, if_pos (by omega)]
    exact returns_ok trivial

theorem returns_ja4 [Digests] (version : UInt16) (overQuic sniPresent : Bool)
    (ciphers exts sigAlgs : List UInt16) (alpnFirst : Option String) :
    Returns (ja4 version overQuic sniPresent ciphers exts sigAlgs alpnFirst) fun _ => True :=
  (returns_ja4Alpn alpnFirst).bind fun _ _ => (returns_sha12 _ _).bind fun _ _ =>
    (returns_sha12 _ _).bind fun _ _ => returns_ok trivial

end Fingerprints

section Registers

variable (h : ClientHello)

theorem types_foldl_keep (es : List HelloExtension) : ∀ out : ExtData,
    (es.foldl ExtData.keep out).types = out.types ++ es.map HelloExtension.type := by
  induction es with
  | nil => intro out; simp
  | cons e es ih =>
    intro out
    rw [List.foldl_cons, ih]
    simp [ExtData.keep]

theorem foldl_keep_register {α : Type} {w : HelloExtension → Option α} {t : UInt16}
    (ht : t ∈ knownTypes) (hw : ∀ e, (w e).isSome → e.type = t) (g : ExtData → α)
    (hg : ∀ out e, g (out.keep e) = (w e).getD (g out)) :
    g (h.extensions.foldl ExtData.keep .default) = (h.find w).getD (g .default) := by
  have hstep : ∀ out e, True → True → some (g (ExtData.keep out e)) = (w e).or (some (g out)) := by
    intro out e _ _
    rw [hg]
    cases w e <;> rfl
  have hreg : some (g (h.extensions.foldl ExtData.keep .default)) =
      (h.extensions.filterMap w).getLast?.or (some (g .default)) :=
    foldl_register (f := ExtData.keep) (g := fun out => some (g out)) (w := w) (P := fun _ => True)
      (I := fun _ => True) (fun _ _ _ _ => trivial) hstep (fun _ _ => trivial) trivial
  rw [ClientHello.getLast?_filterMap ht hw] at hreg
  cases hf : h.find w with
  | none =>
    rw [hf] at hreg
    exact Option.some.inj hreg
  | some a =>
    rw [hf] at hreg
    exact Option.some.inj hreg

/-- What the extensions say, in registers. -/
structure ExtData.Says (exts : ExtData) : Prop where
  types : exts.types = h.extensions.map HelloExtension.type
  sni : exts.sni = h.find HelloExtension.host?
  alpn : exts.alpn = (h.find HelloExtension.protocols?).getD []
  groups : exts.groups = (h.find HelloExtension.groups?).getD []
  formats : exts.formats = (h.find HelloExtension.formats?).getD []
  sigAlgs : exts.sigAlgs = (h.find HelloExtension.algorithms?).getD []
  versions : exts.versions = (h.find HelloExtension.versions?).getD []

theorem findSome?_map_some {α : Type} (w : HelloExtension → Option α) :
    ((h.find fun e => (w e).map some).getD none) = h.find w := by
  simp only [ClientHello.find]
  induction h.extensions with
  | nil => rfl
  | cons e es ih =>
    rw [List.findSome?_cons, List.findSome?_cons]
    cases w e with
    | none => exact ih
    | some a => rfl

theorem says_foldl_keep : (h.extensions.foldl ExtData.keep .default).Says h := by
  constructor
  · exact types_foldl_keep h.extensions .default
  · rw [← findSome?_map_some]
    apply foldl_keep_register h (t := 0x0000) (by decide) _ ExtData.sni
    · intro out e
      cases e <;> rfl
    · intro e he
      cases e with
      | serverName host => rfl
      | _ => cases he
  · apply foldl_keep_register h (t := 0x0010) (by decide) _ ExtData.alpn (fun _ _ => rfl)
    intro e he
    cases e with
    | alpn protocols => rfl
    | _ => cases he
  · apply foldl_keep_register h (t := 0x000a) (by decide) _ ExtData.groups (fun _ _ => rfl)
    intro e he
    cases e with
    | supportedGroups groups => rfl
    | _ => cases he
  · apply foldl_keep_register h (t := 0x000b) (by decide) _ ExtData.formats (fun _ _ => rfl)
    intro e he
    cases e with
    | ecPointFormats formats => rfl
    | _ => cases he
  · apply foldl_keep_register h (t := 0x000d) (by decide) _ ExtData.sigAlgs (fun _ _ => rfl)
    intro e he
    cases e with
    | signatureAlgorithms algorithms => rfl
    | _ => cases he
  · apply foldl_keep_register h (t := 0x002b) (by decide) _ ExtData.versions (fun _ _ => rfl)
    intro e he
    cases e with
    | supportedVersions versions => rfl
    | _ => cases he

end Registers

section Records

/-- What a decoded hello says of the hello on the wire. -/
structure Describes (info : TlsClientHelloInfo) (h : ClientHello) : Prop where
  legacyVersion : info.legacyVersion = h.version
  cipherSuites : info.cipherSuites = h.cipherSuites
  extensions : info.extensions = h.extensions.map HelloExtension.type
  sni : info.sni = h.find HelloExtension.host?
  alpn : info.alpn = (h.find HelloExtension.protocols?).getD []
  supportedGroups : info.supportedGroups = (h.find HelloExtension.groups?).getD []
  ecPointFormats : info.ecPointFormats = (h.find HelloExtension.formats?).getD []
  signatureAlgorithms : info.signatureAlgorithms = (h.find HelloExtension.algorithms?).getD []
  supportedVersions : info.supportedVersions = (h.find HelloExtension.versions?).getD []

/-- A handshake message in a record, with anything before it and behind. -/
theorem parseTlsRecord_handshake (recordVersion : UInt16) (type : UInt8)
    {body : List UInt8} (front back : List UInt8) (hfits : body.length + 4 < 2 ^ 16)
    (hs : (front ++ (handshakeRecord recordVersion type body ++ back)).length < maxBytes) :
    parseTlsRecord (front ++ (handshakeRecord recordVersion type body ++ back)) front.length =
      ok ⟨type, body, front.length + (handshakeRecord recordVersion type body).length⟩ := by
  have hmax : maxBytes = 2 ^ 63 := rfl
  generalize hmsg : type :: toBe24 body.length ++ body = message
  have hmlen : message.length = body.length + 4 := by
    rw [← hmsg]
    simp only [List.cons_append, List.length_cons, List.length_append, length_toBe24]
    omega
  have hrecord : handshakeRecord recordVersion type body =
      0x16 :: (toBe16 recordVersion ++ vec16 message) := by
    rw [← hmsg]
    rfl
  have hrlen : (handshakeRecord recordVersion type body).length = body.length + 9 := by
    rw [hrecord, List.length_cons, List.length_append, length_toBe16, length_vec16, hmlen]
    omega
  have hat := standsAt_of_append front (handshakeRecord recordVersion type body) back
  rw [hrlen]
  generalize front ++ (handshakeRecord recordVersion type body ++ back) = data at hs hat
  generalize front.length = o at hat
  rw [hrecord] at hat
  have hvec : StandsAt data (o + 3) (vec16 message) := hat.tail.right
  have hmessage : StandsAt data (o + 5) message := hvec.right
  have hhead : StandsAt data (o + 5) (type :: (toBe24 body.length ++ body)) := by
    rw [← hmsg] at hmessage
    exact hmessage
  have hnum : be16At data o 3 = ok (UInt16.ofNat message.length) := StandsAt.be16At hs hvec
  have hlen24 : be24At data (o + 5) 1 = ok body.length := StandsAt.be24At hs hhead.tail (by omega)
  have hinner : StandsAt data (o + 5 + 4) body := hhead.tail.right
  have hslice : sliceAt data (o + 5 + 4) (o + 5 + 4 + body.length) = ok body := hinner.sliceAt rfl
  have hle := hinner.le
  have hstop : addUsize 5 message.length = ok (5 + message.length) := if_pos (by omega)
  have hshort : ¬(UInt16.ofNat message.length < 4) := by
    rw [UInt16.lt_iff_toNat_lt, toNat_ofNat_16 (by omega)]
    have hfour : (4 : UInt16).toNat = 4 := rfl
    omega
  rw [parseTlsRecord, checkedSub, if_pos (by omega), ok_bind, if_neg (by omega), hat.index, ok_bind,
    if_neg (by simp), hnum, ok_bind, toNat_ofNat_16 (by omega), hstop, ok_bind,
    if_neg (not_or.mpr ⟨by omega, hshort⟩), addUsize_eq hs (by omega) (by omega), ok_bind,
    hhead.index, ok_bind, hlen24, ok_bind, addUsize_eq hs (by omega) (by omega), ok_bind,
    addUsize_eq hs (by omega) (by omega), ok_bind, if_neg (by omega), hslice]
  have hend : o + 5 + 4 + body.length = o + (body.length + 9) := by omega
  rw [hend]
  rfl

variable (h : ClientHello) (omitted : Bool)

theorem parseTlsRecord_record (recordVersion : UInt16) (front back : List UInt8)
    (hfits : (h.body omitted).length + 4 < 2 ^ 16)
    (hs : (front ++ (h.record recordVersion omitted ++ back)).length < maxBytes) :
    ∃ stop, parseTlsRecord (front ++ (h.record recordVersion omitted ++ back)) front.length =
      ok ⟨0x01, h.body omitted, stop⟩ :=
  ⟨_, parseTlsRecord_handshake recordVersion 0x01 front back hfits hs⟩

variable [Digests]

theorem finishHello_body {body : List UInt8} (hs : body.length < 2 ^ 16) {p : ℕ} (range : ByteRange)
    (hat : StandsAt body p (vec8 h.compressionMethods ++ h.extensionBlock omitted))
    (hend : body.length = p + (vec8 h.compressionMethods ++ h.extensionBlock omitted).length) :
    ∃ info, finishHello body range h.version h.cipherSuites p = ok info ∧ Describes info h := by
  have hmax : maxBytes = 2 ^ 63 := rfl
  have hlen : (vec8 h.compressionMethods ++ h.extensionBlock omitted).length =
      1 + h.compressionMethods.length + (h.extensionBlock omitted).length := by
    simp only [List.length_append, length_vec8]
    omega
  have hblock : StandsAt body (p + (1 + h.compressionMethods.length)) (h.extensionBlock omitted) := by
    have hright := hat.right
    rwa [length_vec8, Nat.add_comm _ 1] at hright
  obtain ⟨found, hfound, hsaid⟩ := extensionsAt_standsAt (by omega) hblock
    (by omega) (by omega)
  have hsays := says_foldl_keep h
  rw [← hsaid] at hsays
  obtain ⟨ja4, hja4, -⟩ := returns_ja4
    (((found.getD .default).versions.filter fun v => !isGrease v).max?.getD h.version) false
    (found.getD .default).sni.isSome h.cipherSuites (found.getD .default).types
    (found.getD .default).sigAlgs (found.getD .default).alpn.head?
  have hskip : addUsize 1 h.compressionMethods.length = ok (1 + h.compressionMethods.length) :=
    if_pos (by have := h.compression_fits; omega)
  rw [finishHello, if_neg (by omega), StandsAt.index hat, ok_bind,
    toNat_ofNat_byte h.compression_fits, hskip, ok_bind,
    addUsize_eq (hs.trans (by omega)) (by omega) (by omega), ok_bind, hfound, ok_bind]
  simp only [hja4, ok_bind]
  refine ⟨_, rfl, ?_⟩
  constructor
  · rfl
  · rfl
  · exact hsays.types
  · exact hsays.sni
  · exact hsays.alpn
  · exact hsays.groups
  · exact hsays.formats
  · exact hsays.sigAlgs
  · exact hsays.versions

/-- Decoding undoes encoding: every hello is found in its record, whatever is around it. -/
theorem tryDecodeTlsClientHello_record (recordVersion : UInt16) (front back : List UInt8)
    (hfits : (h.body omitted).length + 4 < 2 ^ 16)
    (hs : (front ++ (h.record recordVersion omitted ++ back)).length < maxBytes) :
    ∃ info, tryDecodeTlsClientHello (front ++ (h.record recordVersion omitted ++ back))
      front.length = ok info ∧ Describes info h := by
  obtain ⟨stop, hrec⟩ := parseTlsRecord_record h omitted recordVersion front back hfits hs
  rw [tryDecodeTlsClientHello, hrec, ok_bind, if_neg (by simp)]
  generalize hbody : h.body omitted = body at hfits
  have hmax : maxBytes = 2 ^ 63 := rfl
  have hshort : body.length < maxBytes := by omega
  have hwhole : StandsAt body 0 (toBe16 h.version ++ (h.random ++ (vec8 h.sessionId ++
      (vec16 (u16Bytes h.cipherSuites) ++ (vec8 h.compressionMethods ++
        h.extensionBlock omitted))))) := by
    have hself := standsAt_whole body
    nth_rewrite 2 [← hbody] at hself
    simpa only [ClientHello.body, List.append_assoc] using hself
  have hlen : body.length = 37 + h.sessionId.length + (2 * h.cipherSuites.length) +
      (vec8 h.compressionMethods ++ h.extensionBlock omitted).length := by
    rw [← hbody]
    simp only [ClientHello.body, List.length_append, length_toBe16, h.random_length, length_vec8,
      length_vec16, length_u16Bytes]
    omega
  have hsession : StandsAt body 34 (vec8 h.sessionId ++ (vec16 (u16Bytes h.cipherSuites) ++
      (vec8 h.compressionMethods ++ h.extensionBlock omitted))) := by
    have hright := hwhole.right.right
    rwa [length_toBe16, h.random_length] at hright
  have hsuites : StandsAt body (34 + (1 + h.sessionId.length)) (vec16 (u16Bytes h.cipherSuites) ++
      (vec8 h.compressionMethods ++ h.extensionBlock omitted)) := by
    have hright := hsession.right
    rwa [length_vec8, Nat.add_comm _ 1] at hright
  have hlist : StandsAt body (34 + (1 + h.sessionId.length) + 2) (u16Bytes h.cipherSuites) :=
    hsuites.left.right
  have hrest : StandsAt body (34 + (1 + h.sessionId.length) + 2 + 2 * h.cipherSuites.length)
      (vec8 h.compressionMethods ++ h.extensionBlock omitted) := by
    have hright := hsuites.right
    rwa [length_vec16, length_u16Bytes, Nat.add_comm _ 2, ← Nat.add_assoc] at hright
  have hversion : be16At body 0 0 = ok h.version := StandsAt.be16At hshort hwhole
  have hcount : be16At body (34 + (1 + h.sessionId.length)) 0 =
      ok (UInt16.ofNat (u16Bytes h.cipherSuites).length) :=
    StandsAt.be16At hshort hsuites.left
  have hskip : addUsize 1 h.sessionId.length = ok (1 + h.sessionId.length) :=
    if_pos (by have := h.session_fits; omega)
  have hloop : u16Loop body (34 + (1 + h.sessionId.length) + 2) (0 + 2 * h.cipherSuites.length)
      (2 * h.cipherSuites.length + 1) 0 [] = ok ([] ++ h.cipherSuites) :=
    u16Loop_standsAt hshort h.cipherSuites hlist (by omega)
  rw [Nat.zero_add, List.nil_append] at hloop
  obtain ⟨info, hinfo, hdescribes⟩ := finishHello_body h omitted (by omega)
    (front.length, min stop (front ++ (h.record recordVersion omitted ++ back)).length) hrest
    (by omega)
  refine ⟨info, ?_, hdescribes⟩
  dsimp only
  rw [if_neg (by omega), hversion, ok_bind, if_neg (by omega), hsession.index, ok_bind,
    toNat_ofNat_byte h.session_fits, hskip, ok_bind, addUsize_eq hshort (by omega) (by omega),
    ok_bind, addUsize_eq hshort (by omega) (by omega), ok_bind, if_neg (by omega), hcount, ok_bind,
    toNat_ofNat_16 (by rw [length_u16Bytes]; omega), length_u16Bytes,
    addUsize_eq hshort (by omega) (by omega), ok_bind, if_neg (by omega), hloop, ok_bind]
  exact hinfo

/-- A hello with one cipher suite and a server name. -/
def shortHello : ClientHello where
  version := 0x0303
  random := List.replicate 32 0
  sessionId := []
  cipherSuites := [0x1301]
  compressionMethods := [0]
  extensions := [.serverName "a"]
  random_length := rfl
  session_fits := by decide
  compression_fits := by decide
  fits := by simp [Fits]
  once := fun _ _ => List.count_le_length

omit [Digests] in
theorem tryDecodeTlsClientHello_record_short : ∃ (_ : Digests) (info : TlsClientHelloInfo),
    tryDecodeTlsClientHello ([0x17] ++ (shortHello.record 0x0301 false ++ [0x18, 0x19]))
      [(0x17 : UInt8)].length = ok info ∧ Describes info shortHello := by
  let md5 : Vector UInt8 16 := #v[0x1e, 0x7c, 0x62, 0x20, 0x32, 0xb0, 0xcb, 0x79, 0x40, 0x1b, 0x0f,
    0x7b, 0xe3, 0x79, 0x3a, 0x1a]
  let sha256 : Vector UInt8 32 := #v[0x0f, 0x2c, 0xb4, 0x41, 0x70, 0xf4, 0x2c, 0xc9, 0x66, 0x53,
    0x5f, 0x39, 0x2a, 0x10, 0xdc, 0xd4, 0x49, 0x94, 0x26, 0xdf, 0x69, 0xdc, 0x47, 0x6f, 0x1b, 0xf3,
    0x66, 0x09, 0xf7, 0xfa, 0x8c, 0x1e]
  let digests : Digests := ⟨fun _ => md5, fun _ => sha256⟩
  have hbody : (shortHello.body false).length = 53 := by decide
  have hrecord : (shortHello.record 0x0301 false).length = 62 := by decide
  refine ⟨digests, tryDecodeTlsClientHello_record shortHello false 0x0301 [0x17] [0x18, 0x19] ?_ ?_⟩
  · rw [hbody]
    decide
  · have hmax : maxBytes = 2 ^ 63 := rfl
    simp only [List.length_append, List.length_cons, List.length_nil, hrecord]
    omega

end Records

end Pktscope

import Pktscope.Library.Folds
import Pktscope.Decode.Ja3
import Pktscope.Decode.Ja4Shape

/-! # GREASE and order

A client inserts reserved values into its lists, and may send its cipher suites and
extensions in any order. The fingerprints are to see neither. They see a reserved
value in one list, that of the signature algorithms.
-/

namespace Pktscope

open Library Parse

/-- What the code reads from one extension. -/
inductive ExtContent where
  | serverName (host : Option String)
  | supportedGroups (groups : List UInt16)
  | ecPointFormats (formats : List UInt8)
  | signatureAlgorithms (algorithms : List UInt16)
  | alpn (protocols : List String)
  | supportedVersions (versions : List UInt16)
  | other (type : UInt16)

namespace ExtContent

def type : ExtContent → UInt16
  | serverName _ => 0x0000
  | supportedGroups _ => 0x000a
  | ecPointFormats _ => 0x000b
  | signatureAlgorithms _ => 0x000d
  | alpn _ => 0x0010
  | supportedVersions _ => 0x002b
  | other type => type

def host? : ExtContent → Option (Option String)
  | serverName host => some host
  | _ => none

def groups? : ExtContent → Option (List UInt16)
  | supportedGroups groups => some groups
  | _ => none

def formats? : ExtContent → Option (List UInt8)
  | ecPointFormats formats => some formats
  | _ => none

def algorithms? : ExtContent → Option (List UInt16)
  | signatureAlgorithms algorithms => some algorithms
  | _ => none

def protocols? : ExtContent → Option (List String)
  | alpn protocols => some protocols
  | _ => none

def versions? : ExtContent → Option (List UInt16)
  | supportedVersions versions => some versions
  | _ => none

/-- Read the contents of an extension by its type. -/
def readAs (etype : UInt16) (edata : List UInt8) : Parse ExtContent :=
  if etype = 0x0000 then serverName <$> parseSni edata
  else if etype = 0x000a then supportedGroups <$> parseU16List2 edata
  else if etype = 0x000b then ecPointFormats <$> parseU8List1 edata
  else if etype = 0x000d then signatureAlgorithms <$> parseU16List2 edata
  else if etype = 0x0010 then alpn <$> parseAlpn edata
  else if etype = 0x002b then supportedVersions <$> parseU16List1 edata
  else ok (other etype)

end ExtContent

/-- Take down what one extension says. -/
def ExtData.put (out : ExtData) (c : ExtContent) : ExtData where
  types := out.types ++ [c.type]
  sni := c.host?.getD out.sni
  groups := c.groups?.getD out.groups
  formats := c.formats?.getD out.formats
  sigAlgs := c.algorithms?.getD out.sigAlgs
  alpn := c.protocols?.getD out.alpn
  versions := c.versions?.getD out.versions

theorem read_eq (out : ExtData) (e : UInt16 × List UInt8) :
    out.read e = (ExtContent.readAs e.1 e.2 >>= fun c => ok (out.put c)) := by
  unfold ExtData.read readExtension ExtContent.readAs
  split_ifs with h0 ha hb hd h10 h2b
  · rw [h0]
    cases parseSni e.2 <;> rfl
  · rw [ha]
    cases parseU16List2 e.2 <;> rfl
  · rw [hb]
    cases parseU8List1 e.2 <;> rfl
  · rw [hd]
    cases parseU16List2 e.2 <;> rfl
  · rw [h10]
    cases parseAlpn e.2 <;> rfl
  · rw [h2b]
    cases parseU16List1 e.2 <;> rfl
  · rfl

theorem foldlM_read_eq (es : List (UInt16 × List UInt8)) (out : ExtData) :
    es.foldlM ExtData.read out =
      (es.mapM (fun e => ExtContent.readAs e.1 e.2) >>= fun cs => ok (cs.foldl ExtData.put out)) := by
  induction es generalizing out with
  | nil => rfl
  | cons e es ih =>
    rw [List.foldlM_cons, read_eq, List.mapM_cons]
    cases ExtContent.readAs e.1 e.2 with
    | ok c =>
      rw [ok_bind, ok_bind, ok_bind, ih]
      cases es.mapM (fun e => ExtContent.readAs e.1 e.2) <;> rfl
    | refuse => rfl
    | fault f => rfl

/-- The lists of a ClientHello from which its fingerprints are computed. -/
structure HelloLists where
  legacyVersion : UInt16
  cipherSuites : List UInt16
  extensions : List ExtContent

namespace HelloLists

/-- The signature algorithms of the last extension that lists any. -/
def signatureAlgorithms (h : HelloLists) : List UInt16 :=
  ((h.extensions.filterMap ExtContent.algorithms?).getLast?).getD []

def exts (h : HelloLists) : ExtData := h.extensions.foldl ExtData.put .default

/-- The highest version offered, or else the one in front. -/
def best (legacyVersion : UInt16) (versions : List UInt16) : UInt16 :=
  (versions.filter fun v => !isGrease v).max?.getD legacyVersion

section Fingerprints

variable [Digests] (h : HelloLists)

def ja3 : String :=
  ja3Hash (ja3String h.legacyVersion h.cipherSuites h.exts.types h.exts.groups h.exts.formats)

def ja4 : Parse String :=
  Pktscope.ja4 (best h.legacyVersion h.exts.versions) false h.exts.sni.isSome h.cipherSuites
    h.exts.types h.exts.sigAlgs h.exts.alpn.head?

end Fingerprints

end HelloLists

theorem fingerprints_of_hello [Digests] {data : List UInt8} (hs : data.length < maxBytes)
    {offset : ℕ} {info : TlsClientHelloInfo} {fingerprint : String}
    (h : tryDecodeTlsClientHello data offset = ok info) (hinfo : info.ja4 = some fingerprint) :
    ∃ (r : TlsRecord) (contents : List ExtContent), parseTlsRecord data offset = ok r ∧
      (extensionsOf (extensionBlock r.body)).mapM (fun e => ExtContent.readAs e.1 e.2) =
        ok contents ∧
      info.ja3 = some (HelloLists.ja3 ⟨info.legacyVersion, info.cipherSuites, contents⟩) ∧
      HelloLists.ja4 ⟨info.legacyVersion, info.cipherSuites, contents⟩ = ok fingerprint := by
  obtain ⟨r, exts, hr, -, hexts, hja3, hja4⟩ := tryDecodeTlsClientHello_ok hs h hinfo
  rw [foldlM_read_eq, bind_eq_ok] at hexts
  obtain ⟨contents, hcontents, hput⟩ := hexts
  cases hput
  exact ⟨r, contents, hr, hcontents, hja3, hja4⟩

section Insertion

/-- A list with reserved values inserted anywhere. -/
abbrev Greased : List UInt16 → List UInt16 → Prop := Inserted isGrease

/-- An extension with reserved values inserted into its list. -/
inductive ExtContent.GreasedTo : ExtContent → ExtContent → Prop where
  | same (c : ExtContent) : GreasedTo c c
  | groups {l l' : List UInt16} : Greased l l' →
      GreasedTo (supportedGroups l) (supportedGroups l')
  | algorithms {l l' : List UInt16} : Greased l l' →
      GreasedTo (signatureAlgorithms l) (signatureAlgorithms l')
  | versions {l l' : List UInt16} : Greased l l' →
      GreasedTo (supportedVersions l) (supportedVersions l')

/-- Extensions with reserved values in their lists and between them. -/
inductive GreasedExts : List ExtContent → List ExtContent → Prop where
  | nil : GreasedExts [] []
  | keep {c c' : ExtContent} {cs cs' : List ExtContent} : c.GreasedTo c' → GreasedExts cs cs' →
      GreasedExts (c :: cs) (c' :: cs')
  | insert {t : UInt16} {cs cs' : List ExtContent} : isGrease t = true → GreasedExts cs cs' →
      GreasedExts cs (.other t :: cs')

/-- A hello with reserved values inserted into any of its lists. -/
structure HelloLists.GreasedTo (h h' : HelloLists) : Prop where
  legacyVersion : h'.legacyVersion = h.legacyVersion
  cipherSuites : Greased h.cipherSuites h'.cipherSuites
  extensions : GreasedExts h.extensions h'.extensions

/-- What is read from extensions between which reserved values were inserted. -/
structure ExtData.GreasedTo (out out' : ExtData) : Prop where
  types : Greased out.types out'.types
  sni : out'.sni = out.sni
  groups : Greased out.groups out'.groups
  formats : out'.formats = out.formats
  sigAlgs : Greased out.sigAlgs out'.sigAlgs
  alpn : out'.alpn = out.alpn
  versions : Greased out.versions out'.versions

namespace ExtData.GreasedTo

variable {out out' : ExtData}

theorem refl (out : ExtData) : out.GreasedTo out where
  types := .refl _
  sni := rfl
  groups := .refl _
  formats := rfl
  sigAlgs := .refl _
  alpn := rfl
  versions := .refl _

theorem getD {l l' : List UInt16} (h : Greased l l') (o : Option (List UInt16)) :
    Greased (o.getD l) (o.getD l') := by
  cases o with
  | none => exact h
  | some m => exact .refl m

theorem put (h : out.GreasedTo out') {c c' : ExtContent} (hc : c.GreasedTo c') :
    (out.put c).GreasedTo (out'.put c') := by
  cases hc with
  | same c =>
    exact ⟨h.types.append (.refl _), congrArg c.host?.getD h.sni, getD h.groups c.groups?,
      congrArg c.formats?.getD h.formats, getD h.sigAlgs c.algorithms?,
      congrArg c.protocols?.getD h.alpn, getD h.versions c.versions?⟩
  | groups hl =>
    exact ⟨h.types.append (.refl _), h.sni, hl, h.formats, h.sigAlgs, h.alpn, h.versions⟩
  | algorithms hl =>
    exact ⟨h.types.append (.refl _), h.sni, h.groups, h.formats, hl, h.alpn, h.versions⟩
  | versions hl => exact ⟨h.types.append (.refl _), h.sni, h.groups, h.formats, h.sigAlgs, h.alpn, hl⟩

theorem put_other (h : out.GreasedTo out') {t : UInt16} (ht : isGrease t = true) :
    out.GreasedTo (out'.put (.other t)) where
  types := by
    have happ : Greased (out.types ++ []) (out'.types ++ [t]) := h.types.append (.insert ht .nil)
    rwa [List.append_nil] at happ
  sni := h.sni
  groups := h.groups
  formats := h.formats
  sigAlgs := h.sigAlgs
  alpn := h.alpn
  versions := h.versions

theorem foldl {cs cs' : List ExtContent} (hcs : GreasedExts cs cs') (h : out.GreasedTo out') :
    (cs.foldl ExtData.put out).GreasedTo (cs'.foldl ExtData.put out') := by
  induction hcs generalizing out out' with
  | nil => exact h
  | keep hc _ ih => exact ih (h.put hc)
  | insert ht _ ih => exact ih (h.put_other ht)

end ExtData.GreasedTo

theorem HelloLists.GreasedTo.exts {h h' : HelloLists} (hg : h.GreasedTo h') :
    h.exts.GreasedTo h'.exts := ExtData.GreasedTo.foldl hg.extensions (.refl _)

variable {l l' : List UInt16}

theorem ungreased_of_greased (h : Greased l l') : ungreased l' = ungreased l :=
  h.filter_eq fun v hv => by simp [hv]

theorem countText_of_greased (h : Greased l l') : countText l' = countText l := by
  have hl := ungreased_of_greased h
  unfold ungreased at hl
  rw [countText, countText, List.countP_eq_length_filter, List.countP_eq_length_filter, hl]

theorem sortedCiphers_of_greased (h : Greased l l') : sortedCiphers l' = sortedCiphers l := by
  have hl := ungreased_of_greased h
  unfold ungreased at hl
  rw [sortedCiphers, sortedCiphers, hl]

theorem sortedExts_of_greased (h : Greased l l') : sortedExts l' = sortedExts l := by
  rw [sortedExts, sortedExts, h.filter_eq fun v hv => by simp [hv]]

theorem best_of_greased (h : Greased l l') (legacyVersion : UInt16) :
    HelloLists.best legacyVersion l' = HelloLists.best legacyVersion l := by
  have hl := ungreased_of_greased h
  unfold ungreased at hl
  rw [HelloLists.best, HelloLists.best, hl]

theorem HelloLists.GreasedTo.ja3_eq [Digests] {h h' : HelloLists} (hg : h.GreasedTo h') :
    h'.ja3 = h.ja3 := by
  have hexts := hg.exts
  unfold HelloLists.ja3
  rw [hg.legacyVersion, hexts.formats, ja3String_congr (ungreased_of_greased hg.cipherSuites)
    (ungreased_of_greased hexts.types) (ungreased_of_greased hexts.groups)]

/-- The first part of the JA4 fingerprint of a hello. -/
def HelloLists.head (h : HelloLists) : List Char :=
  ja4Head (best h.legacyVersion h.exts.versions) false h.exts.sni.isSome h.cipherSuites h.exts.types
    h.exts.alpn.head?

theorem HelloLists.GreasedTo.head_eq {h h' : HelloLists} (hg : h.GreasedTo h') :
    h'.head = h.head := by
  have hexts := hg.exts
  unfold HelloLists.head ja4Head
  rw [hg.legacyVersion, best_of_greased hexts.versions, hexts.sni, hexts.alpn,
    countText_of_greased hg.cipherSuites, countText_of_greased hexts.types]

end Insertion

section Marks

/-- Hashes that tell one text from all others. -/
abbrev marking (x : String) : Digests where
  md5 _ := Vector.replicate 16 0
  sha256 bytes := if bytes = utf8Bytes x then Vector.replicate 32 0xff else Vector.replicate 32 0

theorem sha12_marked (x : String) : @sha12 (marking x) x false = ok "ffffffffffff" := by
  have hhash : (marking x).sha256 (utf8Bytes x) = Vector.replicate 32 0xff := if_pos rfl
  unfold sha12
  rw [if_neg (by simp), hhash]
  decide +kernel

theorem sha12_unmarked {x y : String} (h : y ≠ x) (empty : Bool) :
    @sha12 (marking x) y empty = ok "000000000000" := by
  have hhash : (marking x).sha256 (utf8Bytes y) = Vector.replicate 32 0 :=
    if_neg fun he => h (utf8Bytes_injective he)
  unfold sha12
  rw [hhash]
  cases empty with
  | true => rfl
  | false => decide +kernel

theorem hexList_injective : Function.Injective hexList := by
  refine intercalate_map_inj (c := ',') rfl ?_ ?_
  · intro v w h
    have hlist : (hexPad 4 v.toNat).toList = (hexPad 4 w.toNat).toList := congrArg String.toList h
    rw [hexPad, hexPad, String.toList_ofList, String.toList_ofList] at hlist
    exact UInt16.toNat_inj.mp (leftpad_toDigits_inj (by decide) (by decide) hlist)
  · intro v
    constructor
    · intro hnil
      have hlen := length_hexPad 4 v.toNat
      rw [hnil] at hlen
      cases hlen
    · intro hc
      obtain ⟨d, hd, hdigit⟩ := isLowerHex_of_mem_hexPad hc
      have hall : ∀ d < 16, ',' ≠ Nat.digitChar d := by decide
      exact hall d hd hdigit

/-- What the third part of a fingerprint is the hash of. -/
def sigText (exts sigAlgs : List UInt16) : String :=
  hexList (sortedExts exts) ++ "_" ++ hexList sigAlgs

theorem sigText_inj {exts exts' sigAlgs sigAlgs' : List UInt16}
    (he : sortedExts exts' = sortedExts exts) (h : sigText exts' sigAlgs' = sigText exts sigAlgs) :
    sigAlgs' = sigAlgs := by
  unfold sigText at h
  rw [he] at h
  exact hexList_injective (String.append_right_inj _ |>.mp h)

theorem length_alpnChars (first : Option String) : (alpnChars first).length = 2 := by
  unfold alpnChars
  split
  · rfl
  · rfl

theorem length_countText (xs : List UInt16) : (countText xs).length = 2 := by
  obtain ⟨c₁, c₂, h, -, -⟩ := countText_digits xs
  rw [h]
  rfl

theorem length_versionCode (v : UInt16) : (ja4VersionCode v).toList.length = 2 := by
  obtain ⟨v₁, v₂, h, -, -⟩ := ja4VersionCode_plain v
  rw [h]
  rfl

theorem length_ja4Head (version : UInt16) (quic sni : Bool) (ciphers exts : List UInt16)
    (first : Option String) : (ja4Head version quic sni ciphers exts first).length = 10 := by
  simp only [ja4Head, List.length_cons, List.length_append, length_versionCode, length_countText,
    length_alpnChars]

section

variable [Digests] {version version' : UInt16} {quic quic' sni sni' : Bool}
  {ciphers ciphers' exts exts' sigAlgs sigAlgs' : List UInt16} {first first' : Option String}

/-- Equal fingerprints have equal first and third parts. -/
theorem ja4_parts_eq
    (h : ja4 version quic sni ciphers exts sigAlgs first =
      ja4 version' quic' sni' ciphers' exts' sigAlgs' first') :
    ja4Head version quic sni ciphers exts first = ja4Head version' quic' sni' ciphers' exts' first' ∧
      sha12 (sigText exts sigAlgs) ((sortedExts exts).isEmpty && sigAlgs.isEmpty) =
        sha12 (sigText exts' sigAlgs') ((sortedExts exts').isEmpty && sigAlgs'.isEmpty) := by
  rw [ja4_eq, ja4_eq] at h
  obtain ⟨b, hb, hbd⟩ := returns_digest (hexList (sortedCiphers ciphers))
    (sortedCiphers ciphers).isEmpty
  obtain ⟨b', hb', hbd'⟩ := returns_digest (hexList (sortedCiphers ciphers'))
    (sortedCiphers ciphers').isEmpty
  obtain ⟨c, hc, hcd⟩ := returns_digest (sigText exts sigAlgs)
    ((sortedExts exts).isEmpty && sigAlgs.isEmpty)
  obtain ⟨c', hc', hcd'⟩ := returns_digest (sigText exts' sigAlgs')
    ((sortedExts exts').isEmpty && sigAlgs'.isEmpty)
  unfold sigText at hc hc' ⊢
  rw [hb, ok_bind, hc, ok_bind, hb', ok_bind, hc', ok_bind] at h
  have hlist := congrArg String.toList (Parse.ok.inj h)
  rw [toList_joined, toList_joined] at hlist
  obtain ⟨hhead, hrest⟩ := List.append_inj hlist (by rw [length_ja4Head, length_ja4Head])
  obtain ⟨-, hlast⟩ := List.append_inj (List.cons.inj hrest).2 (by rw [hbd.length, hbd'.length])
  constructor
  · exact hhead
  · rw [hc, hc', String.toList_inj.mp (List.cons.inj hlast).2]

end

/-- Fingerprints that agree under every hash come from the same signature algorithms. -/
theorem sigAlgs_eq {version version' : UInt16} {quic quic' sni sni' : Bool}
    {ciphers ciphers' exts exts' sigAlgs sigAlgs' : List UInt16} {first first' : Option String}
    (he : sortedExts exts' = sortedExts exts)
    (h : ∀ _ : Digests, ja4 version quic sni ciphers exts sigAlgs first =
      ja4 version' quic' sni' ciphers' exts' sigAlgs' first') :
    sigAlgs' = sigAlgs := by
  by_contra hne
  have htext : sigText exts' sigAlgs' ≠ sigText exts sigAlgs := fun ht => hne (sigText_inj he ht)
  have hdiff : ("ffffffffffff" : String) ≠ "000000000000" := by decide
  -- mark the text of a list that is not empty
  by_cases hnil : sigAlgs = []
  · have hcons : sigAlgs'.isEmpty = false := by
      cases sigAlgs' with
      | nil => exact absurd hnil.symm hne
      | cons v l => rfl
    have hparts := (@ja4_parts_eq (marking (sigText exts' sigAlgs')) _ _ _ _ _ _ _ _ _ _ _ _ _ _
      (h _)).2
    rw [sha12_unmarked (Ne.symm htext), hcons, Bool.and_false, sha12_marked] at hparts
    exact hdiff (Parse.ok.inj hparts).symm
  · have hcons : sigAlgs.isEmpty = false := by simpa using hnil
    have hparts := (@ja4_parts_eq (marking (sigText exts sigAlgs)) _ _ _ _ _ _ _ _ _ _ _ _ _ _
      (h _)).2
    rw [sha12_unmarked htext, hcons, Bool.and_false, sha12_marked] at hparts
    exact hdiff (Parse.ok.inj hparts)

end Marks

section Grease

theorem fingerprints_greased_iff {h h' : HelloLists} (hg : h.GreasedTo h') :
    (∀ _ : Digests, h'.ja3 = h.ja3 ∧ h'.ja4 = h.ja4) ↔ h'.exts.sigAlgs = h.exts.sigAlgs := by
  have hexts := hg.exts
  have hsorted : sortedExts h'.exts.types = sortedExts h.exts.types :=
    sortedExts_of_greased hexts.types
  constructor
  · intro hall
    exact sigAlgs_eq hsorted fun digests => (hall digests).2.symm
  · intro hsig digests
    refine ⟨hg.ja3_eq, ?_⟩
    have hhead := hg.head_eq
    unfold HelloLists.head at hhead
    unfold HelloLists.ja4
    rw [ja4_eq, ja4_eq, hhead, hsorted, sortedCiphers_of_greased hg.cipherSuites, hsig]

end Grease

section Order

theorem insertionSort_eq_of_perm {l l' : List UInt16} (h : l'.Perm l) :
    l'.insertionSort (· ≤ ·) = l.insertionSort (· ≤ ·) :=
  ((List.perm_insertionSort _ l').trans (h.trans (List.perm_insertionSort _ l).symm)).eq_of_pairwise'
    (List.pairwise_insertionSort _ l') (List.pairwise_insertionSort _ l)

theorem countText_of_perm {l l' : List UInt16} (h : l'.Perm l) : countText l' = countText l := by
  rw [countText, countText, h.countP_eq]

theorem ja4_ciphers_perm [Digests] (h : HelloLists) {ciphers : List UInt16}
    (hp : ciphers.Perm h.cipherSuites) :
    HelloLists.ja4 { h with cipherSuites := ciphers } = h.ja4 := by
  have hsorted : sortedCiphers ciphers = sortedCiphers h.cipherSuites :=
    insertionSort_eq_of_perm (hp.filter _)
  unfold HelloLists.ja4
  rw [ja4_eq, ja4_eq, hsorted]
  unfold ja4Head
  rw [countText_of_perm hp]
  rfl

/-- Two extensions that say the same where one could be read in place of the other. -/
structure ExtContent.Agree (legacyVersion : UInt16) (c c' : ExtContent) : Prop where
  host : ∀ x ∈ c.host?, ∀ y ∈ c'.host?, x.isSome = y.isSome
  algorithms : ∀ x ∈ c.algorithms?, ∀ y ∈ c'.algorithms?, x = y
  protocols : ∀ x ∈ c.protocols?, ∀ y ∈ c'.protocols?, alpnChars x.head? = alpnChars y.head?
  versions : ∀ x ∈ c.versions?, ∀ y ∈ c'.versions?,
    ja4VersionCode (HelloLists.best legacyVersion x) = ja4VersionCode (HelloLists.best legacyVersion y)

variable {h : HelloLists} {es : List ExtContent}

theorem types_foldl_put (cs : List ExtContent) (out : ExtData) :
    (cs.foldl ExtData.put out).types = out.types ++ cs.map ExtContent.type := by
  induction cs generalizing out with
  | nil => exact (List.append_nil _).symm
  | cons c cs ih => rw [List.foldl_cons, ih, ExtData.put, List.append_assoc, List.map_cons]; rfl

/-- The last extension with a value is the one that counts. -/
structure ExtData.Last (exts : ExtData) (cs : List ExtContent) : Prop where
  types : exts.types = cs.map ExtContent.type
  sni : exts.sni = ((cs.filterMap ExtContent.host?).getLast?).getD none
  sigAlgs : exts.sigAlgs = ((cs.filterMap ExtContent.algorithms?).getLast?).getD []
  alpn : exts.alpn = ((cs.filterMap ExtContent.protocols?).getLast?).getD []
  versions : exts.versions = ((cs.filterMap ExtContent.versions?).getLast?).getD []

theorem last_exts (h : HelloLists) : h.exts.Last h.extensions where
  types := types_foldl_put _ _
  sni := foldl_cell (g := ExtData.sni) (fun _ _ => rfl) _ _
  sigAlgs := foldl_cell (g := ExtData.sigAlgs) (fun _ _ => rfl) _ _
  alpn := foldl_cell (g := ExtData.alpn) (fun _ _ => rfl) _ _
  versions := foldl_cell (g := ExtData.versions) (fun _ _ => rfl) _ _

theorem sortedExts_of_perm (hp : es.Perm h.extensions) :
    sortedExts (HelloLists.exts { h with extensions := es }).types = sortedExts h.exts.types := by
  rw [(last_exts h).types, (last_exts { h with extensions := es }).types]
  exact insertionSort_eq_of_perm ((hp.map _).filter _)

/-- The extensions of which one could be read in place of the other agree. -/
def HelloLists.Consistent (h : HelloLists) : Prop :=
  ∀ c ∈ h.extensions, ∀ c' ∈ h.extensions, c.Agree h.legacyVersion c'

theorem use_getD_of_perm {β γ : Type} {w : ExtContent → Option β} (u : β → γ) (d : β)
    (hp : es.Perm h.extensions)
    (hu : ∀ c ∈ h.extensions, ∀ c' ∈ h.extensions, ∀ x ∈ w c, ∀ y ∈ w c', u x = u y) :
    u (((es.filterMap w).getLast?).getD d) = u (((h.extensions.filterMap w).getLast?).getD d) := by
  have hmap : ∀ o : Option β, u (o.getD d) = (o.map u).getD (u d) := by
    intro o
    cases o with
    | none => rfl
    | some x => rfl
  rw [hmap, hmap, getLast?_of_perm hp.symm hu]

theorem ja4_exts_perm [Digests] (hc : h.Consistent) (hp : es.Perm h.extensions) :
    HelloLists.ja4 { h with extensions := es } = h.ja4 := by
  have hlast := last_exts h
  have hlast' := last_exts { h with extensions := es }
  have hsorted := sortedExts_of_perm hp
  have hcount : countText (HelloLists.exts { h with extensions := es }).types =
      countText h.exts.types := by
    rw [hlast.types, hlast'.types]
    exact countText_of_perm (hp.map _)
  have hsni : (HelloLists.exts { h with extensions := es }).sni.isSome = h.exts.sni.isSome := by
    rw [hlast.sni, hlast'.sni]
    exact use_getD_of_perm Option.isSome none hp fun c hc₁ c' hc₂ => (hc c hc₁ c' hc₂).host
  have hsig : (HelloLists.exts { h with extensions := es }).sigAlgs = h.exts.sigAlgs := by
    rw [hlast.sigAlgs, hlast'.sigAlgs]
    exact use_getD_of_perm id [] hp fun c hc₁ c' hc₂ => (hc c hc₁ c' hc₂).algorithms
  have halpn : alpnChars (HelloLists.exts { h with extensions := es }).alpn.head? =
      alpnChars h.exts.alpn.head? := by
    rw [hlast.alpn, hlast'.alpn]
    exact use_getD_of_perm (fun l => alpnChars l.head?) [] hp
      fun c hc₁ c' hc₂ => (hc c hc₁ c' hc₂).protocols
  have hversion : ja4VersionCode (HelloLists.best h.legacyVersion
      (HelloLists.exts { h with extensions := es }).versions) =
        ja4VersionCode (HelloLists.best h.legacyVersion h.exts.versions) := by
    rw [hlast.versions, hlast'.versions]
    exact use_getD_of_perm (fun l => ja4VersionCode (HelloLists.best h.legacyVersion l)) [] hp
      fun c hc₁ c' hc₂ => (hc c hc₁ c' hc₂).versions
  unfold HelloLists.ja4
  rw [ja4_eq, ja4_eq, hsorted, hsig]
  unfold ja4Head
  rw [hcount, hsni, halpn, hversion]

theorem ja4Head_inj {version version' : UInt16} {quic quic' sni sni' : Bool}
    {ciphers ciphers' exts exts' : List UInt16} {first first' : Option String}
    (h : ja4Head version quic sni ciphers exts first =
      ja4Head version' quic' sni' ciphers' exts' first') :
    ja4VersionCode version = ja4VersionCode version' ∧ sni = sni' ∧
      alpnChars first = alpnChars first' := by
  unfold ja4Head at h
  obtain ⟨hversion, hrest⟩ := List.append_inj (List.cons.inj h).2
    (by rw [length_versionCode, length_versionCode])
  obtain ⟨hsni, hcounts⟩ := List.cons.inj hrest
  obtain ⟨-, hcounts⟩ := List.append_inj hcounts (by rw [length_countText, length_countText])
  obtain ⟨-, halpn⟩ := List.append_inj hcounts (by rw [length_countText, length_countText])
  refine ⟨String.toList_inj.mp hversion, ?_, halpn⟩
  cases sni <;> cases sni'
  · rfl
  · exact absurd hsni (by decide)
  · exact absurd hsni (by decide)
  · rfl

theorem exists_perm_last {c : ExtContent} (hc : c ∈ h.extensions) :
    ∃ es, (es ++ [c]).Perm h.extensions := by
  obtain ⟨front, back, hes⟩ := List.append_of_mem hc
  refine ⟨front ++ back, ?_⟩
  rw [hes, List.append_assoc]
  exact (List.perm_append_singleton c back).append_left front

theorem getD_last {β : Type} {w : ExtContent → Option β} {c : ExtContent} {x : β} (hx : x ∈ w c)
    (es : List ExtContent) (d : β) : (((es ++ [c]).filterMap w).getLast?).getD d = x := by
  rw [List.filterMap_append, List.filterMap_cons, Option.mem_def.mp hx, List.filterMap_nil,
    List.getLast?_concat, Option.getD_some]

/-- When no order of the extensions shows, any two of them agree. -/
theorem consistent_of_ja4_eq
    (hall : ∀ _ : Digests, ∀ es, es.Perm h.extensions →
      HelloLists.ja4 { h with extensions := es } = h.ja4) : h.Consistent := by
  intro c hc c' hc'
  obtain ⟨es, hp⟩ := exists_perm_last hc
  obtain ⟨es', hp'⟩ := exists_perm_last hc'
  have hlast := last_exts { h with extensions := es ++ [c] }
  have hlast' := last_exts { h with extensions := es' ++ [c'] }
  have hja4 : ∀ _ : Digests, HelloLists.ja4 { h with extensions := es ++ [c] } =
      HelloLists.ja4 { h with extensions := es' ++ [c'] } := fun digests =>
    (hall digests _ hp).trans (hall digests _ hp').symm
  obtain ⟨hversion, hsni, halpn⟩ := ja4Head_inj (@ja4_parts_eq (marking "") _ _ _ _ _ _ _ _ _ _ _ _ _ _
    (hja4 _)).1
  have hsig := sigAlgs_eq ((sortedExts_of_perm hp').trans (sortedExts_of_perm hp).symm) hja4
  constructor
  · intro x hx y hy
    rwa [hlast.sni, hlast'.sni, getD_last hx, getD_last hy] at hsni
  · intro x hx y hy
    rw [hlast.sigAlgs, hlast'.sigAlgs, getD_last hx, getD_last hy] at hsig
    exact hsig.symm
  · intro x hx y hy
    rwa [hlast.alpn, hlast'.alpn, getD_last hx, getD_last hy] at halpn
  · intro x hx y hy
    rwa [hlast.versions, hlast'.versions, getD_last hx, getD_last hy] at hversion

end Order

/-- The fingerprints are independent of reserved values and of order except where reserved values
are inserted into the signature algorithms, and where extensions of one type that differ in what
they say change places. -/
theorem fingerprints_independent_iff (h : HelloLists) :
    (∀ h' : HelloLists, h.GreasedTo h' →
      ((∀ _ : Digests, h'.ja3 = h.ja3 ∧ h'.ja4 = h.ja4) ↔
        h'.signatureAlgorithms = h.signatureAlgorithms)) ∧
    (∀ ciphers : List UInt16, ciphers.Perm h.cipherSuites →
      ∀ _ : Digests, HelloLists.ja4 { h with cipherSuites := ciphers } = h.ja4) ∧
    ((∀ _ : Digests, ∀ es, es.Perm h.extensions →
      HelloLists.ja4 { h with extensions := es } = h.ja4) ↔ h.Consistent) := by
  refine ⟨?_, ?_, ?_⟩
  · intro h' hg
    have hiff := fingerprints_greased_iff hg
    rw [(last_exts h).sigAlgs, (last_exts h').sigAlgs] at hiff
    exact hiff
  · intro ciphers hp _
    exact ja4_ciphers_perm h hp
  · constructor
    · exact consistent_of_ja4_eq
    · intro hc _ es hp
      exact ja4_exts_perm hc hp

section Example

/-- A digest by its bytes. -/
def digestOf {n : ℕ} (bytes : List UInt8) : Vector UInt8 n := Vector.ofFn fun i => bytes.getD i 0

/-- The hashes of the texts of the two hellos below. -/
abbrev algorithmDigests : Digests where
  md5 _ := digestOf [0x81, 0xf2, 0x81, 0xa1, 0x05, 0xcd, 0xe2, 0x2d, 0x97, 0x62, 0x2c, 0x20, 0x96, 0xba,
    0x9a, 0x80]
  sha256 bytes :=
    if bytes = utf8Bytes "000d_0403" then
      digestOf [0x79, 0xc5, 0x09, 0x02, 0x41, 0x9d, 0x82, 0x05, 0x94, 0x7a, 0x47, 0xc7, 0xdc, 0x7a, 0x01,
        0xf4, 0x05, 0xbb, 0xd2, 0xc9, 0xb2, 0x8f, 0xe4, 0x1f, 0x81, 0xd9, 0xd7, 0xbc, 0x88, 0xaf,
        0x6b, 0xd4]
    else if bytes = utf8Bytes "000d_0a0a,0403" then
      digestOf [0x47, 0x7e, 0x35, 0x98, 0x90, 0xff, 0x0b, 0xf8, 0x95, 0x73, 0x5d, 0x2d, 0x7f, 0x21, 0x90,
        0x42, 0x2b, 0xbb, 0xeb, 0x97, 0xab, 0x88, 0x2f, 0x23, 0xc9, 0xa0, 0x56, 0xdb, 0xa5, 0x31,
        0x0f, 0x15]
    else
      digestOf [0x0f, 0x2c, 0xb4, 0x41, 0x70, 0xf4, 0x2c, 0xc9, 0x66, 0x53, 0x5f, 0x39, 0x2a, 0x10, 0xdc,
        0xd4, 0x49, 0x94, 0x26, 0xdf, 0x69, 0xdc, 0x47, 0x6f, 0x1b, 0xf3, 0x66, 0x09, 0xf7, 0xfa,
        0x8c, 0x1e]

/-- A hello with one cipher suite and some signature algorithms. -/
def algorithmHello (algorithms : List UInt16) : HelloLists :=
  ⟨0x0303, [0x1301], [.signatureAlgorithms algorithms]⟩

/-- A reserved value among the signature algorithms changes the JA4 fingerprint. -/
theorem fingerprints_see_grease :
    ¬∀ (h h' : HelloLists), h.GreasedTo h' → ∀ _ : Digests, h'.ja3 = h.ja3 ∧ h'.ja4 = h.ja4 := by
  intro hall
  have hgreased : (algorithmHello [0x0403]).GreasedTo (algorithmHello [0x0a0a, 0x0403]) := by
    constructor
    · rfl
    · exact .refl _
    · exact .keep (.algorithms (.insert rfl (.refl _))) .nil
  have hdiff : @HelloLists.ja4 algorithmDigests (algorithmHello [0x0a0a, 0x0403]) ≠
      @HelloLists.ja4 algorithmDigests (algorithmHello [0x0403]) := by decide +kernel
  exact hdiff (hall _ _ hgreased algorithmDigests).2

end Example

end Pktscope

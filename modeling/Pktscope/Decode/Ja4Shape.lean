import Pktscope.Library.LossyText
import Pktscope.Library.Text
import Pktscope.Decode.HelloExtensions

/-! # The shape of a JA4 fingerprint

Three parts between underscores: ten characters that describe the hello, and two
hashes of twelve digits. The last two of the ten characters are the first and the
last byte of the first protocol name, which the client is free to choose.
-/

namespace Pktscope

open Library Parse

/-- A lower-case hexadecimal digit. -/
def IsLowerHex (c : Char) : Prop := ∃ d < 16, c = Nat.digitChar d

/-- Twelve lower-case hexadecimal digits. -/
structure IsDigest12 (l : List Char) : Prop where
  length : l.length = 12
  digits : ∀ c ∈ l, IsLowerHex c

/-- Protocol, version, `d` or `i`, two counts of two digits and two characters for the protocol
name, all of them ASCII. -/
structure IsJa4Head (l : List Char) : Prop where
  fields : ∃ proto v₁ v₂ sni c₁ c₂ e₁ e₂ p₁ p₂, l = [proto, v₁, v₂, sni, c₁, c₂, e₁, e₂, p₁, p₂] ∧
    (proto = 'q' ∨ proto = 't') ∧ (sni = 'd' ∨ sni = 'i') ∧
    c₁.isDigit = true ∧ c₂.isDigit = true ∧ e₁.isDigit = true ∧ e₂.isDigit = true
  ascii : ∀ c ∈ l, c.toNat < 0x80

/-- The three parts of a fingerprint. -/
def IsJa4 (s : String) : Prop :=
  ∃ a b c, s.toList.splitOn '_' = [a, b, c] ∧ IsJa4Head a ∧ IsDigest12 b ∧ IsDigest12 c

/-- A byte that is a character of its own other than the separator. -/
def PlainByte (b : UInt8) : Prop := b.toNat < 0x80 ∧ b ≠ 0x5f

/-- A name that starts and ends with such a byte, if it has any. -/
def PlainEnds (name : List UInt8) : Prop :=
  (∀ b ∈ name.head?, PlainByte b) ∧ ∀ b ∈ name.getLast?, PlainByte b

/-- The first name in the protocol list of the hello at an offset. -/
def helloProtocol (data : List UInt8) (offset : ℕ) : Option (List UInt8) :=
  match parseTlsRecord data offset with
  | ok r => (alpnData (extensionsOf (extensionBlock r.body))).bind firstProtocol
  | _ => none

section Digits

theorem isLowerHex_of_mem_hexPad {width n : ℕ} {c : Char} (h : c ∈ (hexPad width n).toList) :
    IsLowerHex c := by
  rw [hexPad, String.toList_ofList, List.leftpad, List.mem_append] at h
  rcases h with h | h
  · exact ⟨0, by decide, List.eq_of_mem_replicate h⟩
  · exact exists_digit (by decide) h

theorem isLowerHex_of_mem_hex {bytes : List UInt8} {c : Char} (h : c ∈ (hex bytes).toList) :
    IsLowerHex c := by
  induction bytes with
  | nil => cases h
  | cons b bytes ih =>
    rw [hex, List.map_cons, String.join_cons, String.toList_append, List.mem_append] at h
    rcases h with h | h
    · exact isLowerHex_of_mem_hexPad h
    · exact ih h

theorem underscore_not_lowerHex : ¬IsLowerHex '_' := by
  rintro ⟨d, hd, h⟩
  have hall : ∀ d < 16, '_' ≠ Nat.digitChar d := by decide
  exact hall d hd h

theorem IsDigest12.not_mem {l : List Char} (h : IsDigest12 l) : '_' ∉ l :=
  fun hm => underscore_not_lowerHex (h.digits _ hm)

variable [Digests]

theorem returns_digest (s : String) (empty : Bool) :
    Returns (sha12 s empty) fun t => IsDigest12 t.toList := by
  unfold sha12
  refine returns_ite (fun _ => returns_ok ?_) fun _ => ?_
  · constructor
    · rfl
    · intro c hc
      have hzero : c = '0' := by
        have hlist : "000000000000".toList = List.replicate 12 '0' := rfl
        rw [hlist] at hc
        exact List.eq_of_mem_replicate hc
      exact ⟨0, by decide, hzero⟩
  · have hlen := length_hex (Digests.sha256 (utf8Bytes s)).toList
    rw [Vector.length_toList] at hlen
    rw [strHead, if_pos (by omega)]
    refine returns_ok ?_
    rw [String.toList_ofList]
    constructor
    · rw [List.length_take]
      omega
    · intro c hc
      exact isLowerHex_of_mem_hex (List.mem_of_mem_take hc)

omit [Digests] in
theorem decPad_two {n : ℕ} (h : n ≤ 99) :
    ∃ c₁ c₂, (decPad 2 n).toList = [c₁, c₂] ∧ c₁.isDigit = true ∧ c₂.isDigit = true := by
  have hdigit : ∀ d < 10, (Nat.digitChar d).isDigit = true := by decide
  rw [decPad, String.toList_ofList, Nat.toDigits_eq_if (by decide)]
  split_ifs with hone
  · exact ⟨'0', Nat.digitChar n, rfl, rfl, hdigit n hone⟩
  · rw [Nat.toDigits_eq_if (by decide), if_pos (by omega)]
    exact ⟨Nat.digitChar (n / 10), Nat.digitChar (n % 10), rfl, hdigit _ (by omega),
      hdigit _ (by omega)⟩

end Digits

section Protocol

/-- The characters for the first protocol. -/
def alpnChars (first : Option String) : List Char :=
  match (first.map utf8Bytes).getD [] with
  | [] => ['0', '0']
  | b :: rest => [Char.ofNat b.toNat, Char.ofNat (rest.getLast?.getD b).toNat]

theorem ja4Alpn_eq (first : Option String) :
    ja4Alpn first = ok (String.ofList (alpnChars first)) := by
  cases first with
  | none => rfl
  | some s =>
    unfold ja4Alpn alpnChars
    dsimp only
    rw [Option.map_some, Option.getD_some]
    cases hb : utf8Bytes s with
    | nil => rfl
    | cons b rest =>
      have hfirst : index (b :: rest) 0 = ok b := rfl
      have hsub : subUsize (b :: rest).length 1 = ok rest.length := rfl
      have hlast : index (b :: rest) rest.length = ok (rest.getLast?.getD b) := by
        have hget : (b :: rest)[rest.length]? = (b :: rest).getLast? := by
          rw [List.getLast?_eq_getElem?, List.length_cons, Nat.add_sub_cancel]
        rw [index, hget, List.getLast?_cons]
      rw [if_neg (by simp), hfirst, ok_bind, hsub, ok_bind, hlast, ok_bind]
      rfl

/-- A character of one of the first 128 bytes other than the separator. -/
def PlainChar (c : Char) : Prop := c.toNat < 0x80 ∧ c ≠ '_'

theorem plainChar_of_isDigit {c : Char} (h : c.isDigit = true) : PlainChar c := by
  have hbound : c.toNat ≤ 57 := by
    have hval : c.val ≤ 57 := by
      simp only [Char.isDigit, Bool.and_eq_true, decide_eq_true_eq] at h
      exact h.2
    exact UInt32.le_iff_toNat_le.mp hval
  constructor
  · omega
  · rintro rfl
    cases h

theorem plainChar_ofNat_iff (b : UInt8) : PlainChar (Char.ofNat b.toNat) ↔ PlainByte b := by
  have hb := b.toNat_lt
  have hchar : (Char.ofNat b.toNat).toNat = b.toNat := toNat_ofNat_char (Or.inl (by omega))
  have hsep : Char.ofNat b.toNat = '_' ↔ b = 0x5f := by
    rw [← Char.toNat_inj, hchar, ← UInt8.toNat_inj]
    rfl
  rw [PlainChar, PlainByte, hchar, ne_eq, hsep]

theorem plainByte_iff_of_sameEdge {b x : UInt8} (h : SameEdge b x) : PlainByte x ↔ PlainByte b := by
  unfold SameEdge at h
  split_ifs at h with hb
  · rw [h]
  · constructor
    · intro hx
      exact absurd hx.1 (Nat.not_lt.mpr h)
    · intro hb'
      exact absurd hb'.1 hb

theorem plain_alpnChars_iff (name : Option (List UInt8)) :
    (∀ c ∈ alpnChars (name.map fromUtf8Lossy), PlainChar c) ↔ ∀ n ∈ name, PlainEnds n := by
  have hzero : ∀ c ∈ ['0', '0'], PlainChar c := by
    intro c hc
    obtain rfl : c = '0' := by simpa using hc
    exact ⟨by decide, by decide⟩
  rcases name with - | - | ⟨b, rest⟩
  · constructor
    · rintro - n ⟨⟩
    · exact fun _ => hzero
  · constructor
    · rintro - n ⟨⟩
      exact ⟨nofun, nofun⟩
    · exact fun _ => hzero
  · obtain ⟨last, hlast⟩ : ∃ last, (b :: rest).getLast? = some last := ⟨_, List.getLast?_cons⟩
    obtain ⟨x, hx, hbx⟩ := head?_lossy b rest
    obtain ⟨y, hy, hly⟩ := getLast?_lossy hlast
    obtain ⟨more, hmore⟩ := List.head?_eq_some_iff.mp hx
    have hchars : alpnChars (some (fromUtf8Lossy (b :: rest))) =
        [Char.ofNat x.toNat, Char.ofNat y.toNat] := by
      rw [hmore, List.getLast?_cons] at hy
      unfold alpnChars
      rw [Option.map_some, Option.getD_some, hmore]
      dsimp only
      rw [Option.some.inj hy]
    rw [Option.map_some, hchars]
    have hends : PlainEnds (b :: rest) ↔ PlainByte b ∧ PlainByte last := by
      unfold PlainEnds
      rw [hlast]
      simp
    simp only [Option.mem_some_iff, forall_eq', hends, List.mem_cons, List.not_mem_nil, or_false,
      forall_eq_or_imp, forall_eq, plainChar_ofNat_iff, plainByte_iff_of_sameEdge hbx,
      plainByte_iff_of_sameEdge hly]

end Protocol

section Parts

/-- Numbers of four hexadecimal digits between commas. -/
def hexList (xs : List UInt16) : String := ",".intercalate (xs.map fun v => hexPad 4 v.toNat)

def sortedCiphers (ciphers : List UInt16) : List UInt16 :=
  (ciphers.filter fun v => !isGrease v).insertionSort (· ≤ ·)

def sortedExts (exts : List UInt16) : List UInt16 :=
  (exts.filter fun v => !isGrease v && v != 0x0000 && v != 0x0010).insertionSort (· ≤ ·)

def countText (xs : List UInt16) : List Char :=
  (decPad 2 (min (xs.countP fun v => !isGrease v) 99)).toList

/-- The first part of a fingerprint. -/
def ja4Head (version : UInt16) (overQuic sniPresent : Bool) (ciphers exts : List UInt16)
    (first : Option String) : List Char :=
  (if overQuic then 'q' else 't') :: ((ja4VersionCode version).toList ++
    (if sniPresent then 'd' else 'i') :: (countText ciphers ++ (countText exts ++ alpnChars first)))

variable [Digests]

theorem ja4_eq (version : UInt16) (overQuic sniPresent : Bool) (ciphers exts sigAlgs : List UInt16)
    (first : Option String) :
    ja4 version overQuic sniPresent ciphers exts sigAlgs first =
      (sha12 (hexList (sortedCiphers ciphers)) (sortedCiphers ciphers).isEmpty >>= fun b =>
        sha12 (hexList (sortedExts exts) ++ "_" ++ hexList sigAlgs)
            ((sortedExts exts).isEmpty && sigAlgs.isEmpty) >>= fun c =>
          ok ("_".intercalate
            [String.ofList (ja4Head version overQuic sniPresent ciphers exts first), b, c])) := by
  have hproto : (if overQuic = true then "q" else "t").toList = [if overQuic then 'q' else 't'] := by
    cases overQuic <;> rfl
  have hsni : (if sniPresent = true then "d" else "i").toList = [if sniPresent then 'd' else 'i'] := by
    cases sniPresent <;> rfl
  have hhead : (if overQuic = true then "q" else "t") ++ ja4VersionCode version ++
      (if sniPresent = true then "d" else "i") ++
      decPad 2 (min (ciphers.countP fun v => !isGrease v) 99) ++
      decPad 2 (min (exts.countP fun v => !isGrease v) 99) ++ String.ofList (alpnChars first) =
        String.ofList (ja4Head version overQuic sniPresent ciphers exts first) := by
    apply String.toList_inj.mp
    simp only [String.toList_append, hproto, hsni, String.toList_ofList, ja4Head, countText,
      List.cons_append, List.nil_append, List.append_assoc]
  unfold ja4
  dsimp only
  rw [ja4Alpn_eq, ok_bind, hhead]
  rfl

omit [Digests] in
theorem toList_joined (head : List Char) (b c : String) :
    ("_".intercalate [String.ofList head, b, c]).toList =
      head ++ '_' :: (b.toList ++ '_' :: c.toList) := by
  rw [String.toList_intercalate]
  simp only [List.map_cons, List.map_nil, String.toList_ofList, List.intercalate_cons_cons,
    List.intercalate_singleton]
  simp

end Parts

section Shape

variable [Digests]

/-- A fingerprint with its first part taken apart: eight plain characters, then those of the
protocol. -/
structure Ja4Parts (first : Option String) (s : String) : Prop where
  parts : ∃ proto v₁ v₂ sni c₁ c₂ e₁ e₂ b c,
    s.toList = ([proto, v₁, v₂, sni, c₁, c₂, e₁, e₂] ++ alpnChars first) ++ '_' :: (b ++ '_' :: c) ∧
      IsDigest12 b ∧ IsDigest12 c ∧ (proto = 'q' ∨ proto = 't') ∧ (sni = 'd' ∨ sni = 'i') ∧
      c₁.isDigit = true ∧ c₂.isDigit = true ∧ e₁.isDigit = true ∧ e₂.isDigit = true ∧
      PlainChar v₁ ∧ PlainChar v₂

omit [Digests] in
theorem ja4VersionCode_plain (v : UInt16) :
    ∃ v₁ v₂, (ja4VersionCode v).toList = [v₁, v₂] ∧ PlainChar v₁ ∧ PlainChar v₂ := by
  unfold ja4VersionCode PlainChar
  split_ifs
  all_goals exact ⟨_, _, rfl, by decide, by decide⟩

omit [Digests] in
theorem countText_digits (xs : List UInt16) :
    ∃ c₁ c₂, countText xs = [c₁, c₂] ∧ c₁.isDigit = true ∧ c₂.isDigit = true :=
  decPad_two (Nat.min_le_right _ _)

theorem returns_ja4Parts (version : UInt16) (overQuic sniPresent : Bool)
    (ciphers exts sigAlgs : List UInt16) (first : Option String) :
    Returns (ja4 version overQuic sniPresent ciphers exts sigAlgs first) (Ja4Parts first) := by
  rw [ja4_eq]
  refine (returns_digest _ _).bind fun b hb => (returns_digest _ _).bind fun c hc => returns_ok ?_
  obtain ⟨v₁, v₂, hv, hv₁, hv₂⟩ := ja4VersionCode_plain version
  obtain ⟨c₁, c₂, hcount, hc₁, hc₂⟩ := countText_digits ciphers
  obtain ⟨e₁, e₂, hext, he₁, he₂⟩ := countText_digits exts
  refine ⟨if overQuic then 'q' else 't', v₁, v₂, if sniPresent then 'd' else 'i', c₁, c₂, e₁, e₂,
    b.toList, c.toList, ?_, hb, hc, ?_, ?_, hc₁, hc₂, he₁, he₂, hv₁, hv₂⟩
  · rw [toList_joined, ja4Head, hv, hcount, hext]
    rfl
  · cases overQuic
    · exact Or.inr rfl
    · exact Or.inl rfl
  · cases sniPresent
    · exact Or.inr rfl
    · exact Or.inl rfl

omit [Digests] in
/-- A fingerprint has its shape exactly when the characters for the protocol are plain. -/
theorem Ja4Parts.isJa4_iff {first : Option String} {s : String} (h : Ja4Parts first s) :
    IsJa4 s ↔ ∀ c ∈ alpnChars first, PlainChar c := by
  obtain ⟨proto, v₁, v₂, sni, c₁, c₂, e₁, e₂, b, c, hs, hb, hc, hproto, hsni, hc₁, hc₂, he₁, he₂,
    hv₁, hv₂⟩ := h.parts
  have hfront : ∀ d ∈ [proto, v₁, v₂, sni, c₁, c₂, e₁, e₂], PlainChar d := by
    simp only [List.mem_cons, List.not_mem_nil, or_false]
    rintro d (rfl | rfl | rfl | rfl | rfl | rfl | rfl | rfl)
    · rcases hproto with rfl | rfl
      · exact ⟨by decide, by decide⟩
      · exact ⟨by decide, by decide⟩
    · exact hv₁
    · exact hv₂
    · rcases hsni with rfl | rfl
      · exact ⟨by decide, by decide⟩
      · exact ⟨by decide, by decide⟩
    · exact plainChar_of_isDigit hc₁
    · exact plainChar_of_isDigit hc₂
    · exact plainChar_of_isDigit he₁
    · exact plainChar_of_isDigit he₂
  have hsplit : s.toList.splitOn '_' =
      ([proto, v₁, v₂, sni, c₁, c₂, e₁, e₂] ++ alpnChars first).splitOn '_' ++ [b, c] := by
    rw [hs, List.splitOn_append_cons_self, List.splitOn_append_cons_self,
      List.splitOn_eq_singleton hb.not_mem, List.splitOn_eq_singleton hc.not_mem]
    rfl
  have hchars : ∃ p₁ p₂, alpnChars first = [p₁, p₂] := by
    unfold alpnChars
    split
    · exact ⟨_, _, rfl⟩
    · exact ⟨_, _, rfl⟩
  obtain ⟨p₁, p₂, hp⟩ := hchars
  constructor
  · rintro ⟨a, b', c', h3, ha, -, -⟩
    rw [hsplit] at h3
    -- only one part stands before the two digests, so the head has no separator
    obtain ⟨head, hhead⟩ : ∃ head, ([proto, v₁, v₂, sni, c₁, c₂, e₁, e₂] ++
        alpnChars first).splitOn '_' = [head] := by
      rw [← List.length_eq_one_iff]
      have hlen := congrArg List.length h3
      rw [List.length_append] at hlen
      exact Nat.add_right_cancel hlen
    have hwhole : ['_'].intercalate
        (([proto, v₁, v₂, sni, c₁, c₂, e₁, e₂] ++ alpnChars first).splitOn '_') =
          [proto, v₁, v₂, sni, c₁, c₂, e₁, e₂] ++ alpnChars first := List.intercalate_splitOn '_'
    rw [hhead, List.intercalate_singleton] at hwhole
    rw [hhead] at h3
    obtain rfl : head = a := (List.cons.inj h3).1
    intro d hd
    have hmem : d ∈ head := by
      rw [hwhole]
      exact List.mem_append_right _ hd
    refine ⟨ha.ascii d hmem, ?_⟩
    rintro rfl
    exact not_mem_of_mem_splitOn (hhead ▸ List.mem_singleton_self head) hmem
  · intro hplain
    have hall : ∀ d ∈ [proto, v₁, v₂, sni, c₁, c₂, e₁, e₂] ++ alpnChars first, PlainChar d := by
      intro d hd
      rcases List.mem_append.mp hd with hd | hd
      · exact hfront d hd
      · exact hplain d hd
    have hone : ([proto, v₁, v₂, sni, c₁, c₂, e₁, e₂] ++ alpnChars first).splitOn '_' =
        [[proto, v₁, v₂, sni, c₁, c₂, e₁, e₂] ++ alpnChars first] :=
      List.splitOn_eq_singleton fun hm => (hall _ hm).2 rfl
    refine ⟨_, b, c, hsplit.trans (congrArg (· ++ [b, c]) hone), ?_, hb, hc⟩
    constructor
    · rw [hp]
      exact ⟨proto, v₁, v₂, sni, c₁, c₂, e₁, e₂, p₁, p₂, rfl, hproto, hsni, hc₁, hc₂, he₁, he₂⟩
    · exact fun d hd => (hall d hd).1

end Shape

section Hello

variable [Digests] {data : List UInt8} {offset : ℕ} {info : TlsClientHelloInfo} {s : String}

theorem ja4Parts_of_hello (hs : data.length < maxBytes)
    (h : tryDecodeTlsClientHello data offset = ok info) (hinfo : info.ja4 = some s) :
    Ja4Parts ((helloProtocol data offset).map fromUtf8Lossy) s := by
  obtain ⟨r, exts, hr, hlen, hexts, -, hja4⟩ :=
    tryDecodeTlsClientHello_ok hs h hinfo
  have hfirst : exts.alpn.head? = (helloProtocol data offset).map fromUtf8Lossy := by
    have halpn := foldlM_read_alpn hexts
    have hname : helloProtocol data offset =
        (alpnData (extensionsOf (extensionBlock r.body))).bind firstProtocol := by
      rw [helloProtocol, hr]
    rw [hname]
    cases hedata : alpnData (extensionsOf (extensionBlock r.body)) with
    | none =>
      rw [hedata] at halpn
      dsimp only at halpn
      rw [halpn]
      rfl
    | some edata =>
      rw [hedata] at halpn
      have hshort : edata.length < maxBytes :=
        ((length_alpnData_le hedata).trans hlen).trans_lt hs
      exact head?_parseAlpn hshort halpn
  obtain ⟨s', hs', hparts⟩ := returns_ja4Parts _ false exts.sni.isSome info.cipherSuites exts.types
    exts.sigAlgs exts.alpn.head?
  rw [hja4] at hs'
  cases hs'
  rwa [hfirst] at hparts

/-- The fingerprint has its three parts exactly when the first protocol name is empty or starts and
ends with an ASCII byte other than the separator. -/
theorem ja4_shape_iff (hs : data.length < maxBytes)
    (h : tryDecodeTlsClientHello data offset = ok info) (hinfo : info.ja4 = some s) :
    IsJa4 s ↔ ∀ name ∈ helloProtocol data offset, PlainEnds name := by
  rw [(ja4Parts_of_hello hs h hinfo).isJa4_iff, plain_alpnChars_iff]

end Hello

section Example

/-- The hashes of the JA3 string and of the cipher list of the hellos below. -/
abbrev protocolDigests : Digests where
  md5 _ := #v[0x79, 0xbe, 0xc9, 0xf8, 0xe9, 0xd9, 0x74, 0xa2, 0xec, 0x7c, 0xeb, 0x48, 0x11, 0x34,
    0xf4, 0x81]
  sha256 _ := #v[0x0f, 0x2c, 0xb4, 0x41, 0x70, 0xf4, 0x2c, 0xc9, 0x66, 0x53, 0x5f, 0x39, 0x2a, 0x10,
    0xdc, 0xd4, 0x49, 0x94, 0x26, 0xdf, 0x69, 0xdc, 0x47, 0x6f, 0x1b, 0xf3, 0x66, 0x09, 0xf7, 0xfa,
    0x8c, 0x1e]

/-- A hello with one cipher suite and one protocol name of two bytes. -/
def protocolHello (a b : UInt8) : List UInt8 :=
  [0x16, 3, 1, 0, 0x38, 1, 0, 0, 0x34, 3, 3] ++ List.replicate 32 0 ++
    [0, 0, 2, 0x13, 1, 1, 0, 0, 9, 0, 0x10, 0, 5, 0, 3, 2, a, b]

def protocolInfo (name fingerprint : String) : TlsClientHelloInfo where
  sni := none
  alpn := [name]
  cipherSuites := [0x1301]
  extensions := [0x10]
  supportedGroups := []
  ecPointFormats := []
  signatureAlgorithms := []
  supportedVersions := []
  legacyVersion := 0x0303
  ja3 := some "79bec9f8e9d974a2ec7ceb481134f481"
  ja4 := some fingerprint
  headerRange := (0, 61)

theorem ja4_shape_iff_h2 : IsJa4 "t12i0101h2_0f2cb44170f4_000000000000" := by
  have hread : @tryDecodeTlsClientHello protocolDigests (protocolHello 0x68 0x32) 0 =
      ok (protocolInfo "h2" "t12i0101h2_0f2cb44170f4_000000000000") := by decide +kernel
  refine (@ja4_shape_iff protocolDigests _ 0 _ _ ?_ hread rfl).mpr ?_
  · have hlen : (protocolHello 0x68 0x32).length = 61 := rfl
    have hmax : maxBytes = 2 ^ 63 := rfl
    omega
  · have hname : helloProtocol (protocolHello 0x68 0x32) 0 = some [0x68, 0x32] := by decide +kernel
    rw [hname]
    rintro name ⟨⟩
    unfold PlainEnds PlainByte
    constructor
    · rintro b ⟨⟩
      decide
    · rintro b ⟨⟩
      decide

/-- A name that starts with the separator makes a fourth part. -/
theorem ja4_shape_underscore :
    ¬∀ (_ : Digests) (data : List UInt8) (offset : ℕ) (info : TlsClientHelloInfo) (s : String),
      data.length < maxBytes → tryDecodeTlsClientHello data offset = ok info →
        info.ja4 = some s → IsJa4 s := by
  intro h
  have hread : @tryDecodeTlsClientHello protocolDigests (protocolHello 0x5f 0x78) 0 =
      ok (protocolInfo "_x" "t12i0101_x_0f2cb44170f4_000000000000") := by decide +kernel
  have hlen : (protocolHello 0x5f 0x78).length = 61 := rfl
  have hmax : maxBytes = 2 ^ 63 := rfl
  obtain ⟨a, b, c, hsplit, -, -, -⟩ := h protocolDigests _ 0 _ _ (by omega) hread rfl
  have hfour : ("t12i0101_x_0f2cb44170f4_000000000000".toList.splitOn '_').length = 4 := by
    decide +kernel
  rw [hsplit] at hfour
  cases hfour

end Example

end Pktscope

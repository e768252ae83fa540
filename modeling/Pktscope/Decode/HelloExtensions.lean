import Pktscope.Decode.Tls
import Pktscope.Library.Spans

/-! # The extensions of a ClientHello

The loop over the extensions reads each of them in turn, so what it leaves is a
fold over the list of types and contents that the block holds. The block, the list
and the first protocol name are found here from the bytes alone.
-/

namespace Pktscope

open Library Parse

/-- The types and contents of the extensions in a block, up to the first that does not fit. -/
def splitExtensions : ℕ → List UInt8 → List (UInt16 × List UInt8)
  | fuel + 1, t₁ :: t₂ :: l₁ :: l₂ :: rest =>
    if rest.length < (be16 l₁ l₂).toNat then []
    else
      (be16 t₁ t₂, rest.take (be16 l₁ l₂).toNat) ::
        splitExtensions fuel (rest.drop (be16 l₁ l₂).toNat)
  | _, _ => []

def extensionsOf (ext : List UInt8) : List (UInt16 × List UInt8) := splitExtensions ext.length ext

/-- What the extension block of a hello holds, from the place behind its cipher suites. -/
def blockAt (body : List UInt8) (p : ℕ) : List UInt8 :=
  let exts := (body.drop p).drop (1 + (peek body p).toNat)
  (exts.drop 2).take (be16 (exts.getD 0 0) (exts.getD 1 0)).toNat

/-- The extension block of a hello. -/
def extensionBlock (body : List UInt8) : List UInt8 :=
  let suites := 34 + (1 + (peek body 34).toNat)
  blockAt body (suites + 2 + (be16 (peek body suites) (peek body (suites + 1))).toNat)

/-- The first name of a protocol list. -/
def firstProtocol (edata : List UInt8) : Option (List UInt8) :=
  match edata.drop 2 with
  | [] => none
  | len :: rest => if rest.length < len.toNat then none else some (rest.take len.toNat)

/-- Read one extension. -/
def ExtData.read (out : ExtData) (e : UInt16 × List UInt8) : Parse ExtData :=
  readExtension { out with types := out.types ++ [e.1] } e.1 e.2

theorem drop_eq_peek {l : List UInt8} {p : ℕ} (h : p < l.length) :
    l.drop p = peek l p :: l.drop (p + 1) := by
  rw [List.drop_eq_getElem_cons h, peek_eq_getElem h]

theorem splitExtensions_of_short (fuel : ℕ) {l : List UInt8} (h : l.length < 4) :
    splitExtensions fuel l = [] := by
  unfold splitExtensions
  split
  · simp only [List.length_cons] at h
    omega
  · rfl

theorem length_le_of_mem_splitExtensions {fuel : ℕ} {l : List UInt8} {e : UInt16 × List UInt8}
    (h : e ∈ splitExtensions fuel l) : e.2.length ≤ l.length := by
  induction fuel, l using splitExtensions.induct with
  | case1 fuel t₁ t₂ l₁ l₂ rest hshort =>
    rw [splitExtensions, if_pos hshort] at h
    cases h
  | case2 fuel t₁ t₂ l₁ l₂ rest hfit ih =>
    rw [splitExtensions, if_neg hfit] at h
    simp only [List.length_cons]
    rcases List.mem_cons.mp h with rfl | h
    · rw [List.length_take]
      omega
    · have hrest := ih h
      rw [List.length_drop] at hrest
      omega
  | case3 fuel l hl =>
    rw [splitExtensions.eq_2 _ _ hl] at h
    cases h

theorem length_extensionBlock_le (body : List UInt8) :
    (extensionBlock body).length ≤ body.length := by
  unfold extensionBlock blockAt
  simp only [List.length_take, List.length_drop]
  omega

section Loop

variable {ext : List UInt8} (hs : ext.length < maxBytes)
include hs

theorem extensionLoop_eq {rounds p fuel : ℕ} {out : ExtData} (hp : p ≤ ext.length)
    (hr : ext.length < p + rounds) (hf : ext.length ≤ p + fuel) :
    extensionLoop ext rounds p out = (splitExtensions fuel (ext.drop p)).foldlM ExtData.read out := by
  have hmax : maxBytes = 2 ^ 63 := rfl
  induction rounds generalizing p fuel out with
  | zero => omega
  | succ rounds ih =>
    rw [extensionLoop, addUsize_eq hs hp (by omega), ok_bind]
    by_cases hhead : p + 4 ≤ ext.length
    · obtain ⟨fuel, rfl⟩ : ∃ n, fuel = n + 1 := ⟨fuel - 1, by omega⟩
      have hdrop : ext.drop p = peek ext p :: peek ext (p + 1) :: peek ext (p + 2) ::
          peek ext (p + 3) :: ext.drop (p + 4) := by
        rw [drop_eq_peek (by omega), drop_eq_peek (p := p + 1) (by omega),
          drop_eq_peek (p := p + 2) (by omega), drop_eq_peek (p := p + 3) (by omega)]
      have htype : be16At ext p 0 = ok (be16 (peek ext p) (peek ext (p + 1))) :=
        be16At_eq hs (by omega)
      have hnum : be16At ext p 2 = ok (be16 (peek ext (p + 2)) (peek ext (p + 3))) :=
        be16At_eq hs (by omega)
      rw [if_pos hhead, htype, ok_bind, hnum, ok_bind, hdrop, splitExtensions]
      generalize be16 (peek ext p) (peek ext (p + 1)) = etype
      generalize be16 (peek ext (p + 2)) (peek ext (p + 3)) = elen
      have hlen := elen.toNat_lt
      rw [addUsize_eq hs hhead (by omega), ok_bind, List.length_drop]
      by_cases hfit : ext.length < p + 4 + elen.toNat
      · rw [if_pos hfit, if_pos (by omega)]
        rfl
      · have hslice : sliceAt ext (p + 4) (p + 4 + elen.toNat) =
            ok ((ext.drop (p + 4)).take elen.toNat) := by
          rw [sliceAt, if_pos (by omega), slice, List.drop_take, Nat.add_sub_cancel_left]
        rw [if_neg hfit, if_neg (by omega), hslice, ok_bind, List.foldlM_cons, List.drop_drop]
        refine congrArg _ (funext fun next => ?_)
        exact ih (by omega) (by omega) (by omega)
    · rw [if_neg hhead, splitExtensions_of_short fuel (by rw [List.length_drop]; omega)]
      rfl

theorem parseExtensions_eq :
    parseExtensions ext = (extensionsOf ext).foldlM ExtData.read .default := by
  have hloop : extensionLoop ext (ext.length + 1) 0 .default =
      (splitExtensions ext.length (ext.drop 0)).foldlM ExtData.read .default :=
    extensionLoop_eq hs (Nat.zero_le _) (by omega) (by omega)
  rw [parseExtensions, hloop, List.drop_zero, extensionsOf]

end Loop

section Block

variable {body : List UInt8} (hs : body.length < maxBytes)
include hs

/-- The extensions of a hello are those of its block, wherever the bytes end. -/
theorem extensionsAt_eq {p : ℕ} (hp : p < body.length) :
    (extensionsAt body (p + (1 + (peek body p).toNat)) >>= fun found =>
        ok (found.getD ExtData.default)) =
      (extensionsOf (blockAt body p)).foldlM ExtData.read .default := by
  have hmax : maxBytes = 2 ^ 63 := rfl
  have hcm := (peek body p).toNat_lt
  have hget : ∀ q i, (body.drop q).getD i 0 = peek body (q + i) := by
    intro q i
    rw [List.getD_eq_getElem?_getD, List.getElem?_drop, ← List.getD_eq_getElem?_getD]
    rfl
  unfold blockAt
  dsimp only
  rw [List.drop_drop, hget, hget, Nat.add_zero]
  have hq : p + (1 + (peek body p).toNat) ≤ body.length + 256 := by omega
  generalize p + (1 + (peek body p).toNat) = q at hq ⊢
  have hstart : addUsize q 2 = ok (q + 2) := if_pos (by omega)
  rw [extensionsAt, hstart, ok_bind]
  by_cases hroom : q + 2 ≤ body.length
  · rw [if_pos hroom, be16At_eq hs (by omega), ok_bind, Nat.add_zero]
    generalize be16 (peek body q) (peek body (q + 1)) = extLen
    have hlen := extLen.toNat_lt
    have hslice : sliceAt body (q + 2) (min (q + 2 + extLen.toNat) body.length) =
        ok (((body.drop q).drop 2).take extLen.toNat) := by
      rw [sliceAt, if_pos (by omega), slice, List.drop_take, List.drop_drop]
      refine congrArg ok (List.take_eq_take_iff.mpr ?_)
      rw [List.length_drop]
      omega
    rw [addUsize_eq hs hroom (by omega), ok_bind, hslice, ok_bind,
      parseExtensions_eq (by rw [List.length_take, List.length_drop, List.length_drop]; omega)]
    cases (extensionsOf (((body.drop q).drop 2).take extLen.toNat)).foldlM ExtData.read .default with
    | ok exts => rfl
    | refuse => rfl
    | fault e => rfl
  · rw [if_neg hroom, List.drop_drop, List.drop_eq_nil_of_le (by omega), List.take_nil]
    rfl

theorem finishHello_ok [Digests] {range : ByteRange} {legacyVersion : UInt16}
    {cipherSuites : List UInt16} {p : ℕ} {info : TlsClientHelloInfo} {fingerprint : String}
    (h : finishHello body range legacyVersion cipherSuites p = ok info)
    (hinfo : info.ja4 = some fingerprint) :
    info.legacyVersion = legacyVersion ∧ info.cipherSuites = cipherSuites ∧
    ∃ exts, (extensionsOf (blockAt body p)).foldlM ExtData.read .default = ok exts ∧
      info.ja3 = some (ja3Hash
        (ja3String legacyVersion cipherSuites exts.types exts.groups exts.formats)) ∧
      ja4 ((exts.versions.filter fun v => !isGrease v).max?.getD legacyVersion) false
        exts.sni.isSome cipherSuites exts.types exts.sigAlgs exts.alpn.head? = ok fingerprint := by
  have hmax : maxBytes = 2 ^ 63 := rfl
  unfold finishHello at h
  split_ifs at h with hp
  · cases h
    cases hinfo
  · rw [Nat.not_le] at hp
    have hcm := (peek body p).toNat_lt
    have hskip : addUsize 1 (peek body p).toNat = ok (1 + (peek body p).toNat) :=
      if_pos (by omega)
    rw [index_eq_peek hp, ok_bind, hskip, ok_bind, addUsize_eq hs (by omega) (by omega), ok_bind,
      bind_eq_ok] at h
    obtain ⟨found, hfound, h⟩ := h
    obtain ⟨fingerprint', hja4, h⟩ := bind_eq_ok.mp h
    cases h
    cases hinfo
    refine ⟨rfl, rfl, found.getD .default, ?_, rfl, hja4⟩
    rw [← extensionsAt_eq hs hp, hfound]
    rfl

end Block

/-- A hello with a fingerprint is one whose extension block could be read. -/
theorem tryDecodeTlsClientHello_ok [Digests] {data : List UInt8} (hs : data.length < maxBytes)
    {offset : ℕ} {info : TlsClientHelloInfo} {fingerprint : String}
    (h : tryDecodeTlsClientHello data offset = ok info) (hinfo : info.ja4 = some fingerprint) :
    ∃ r exts, parseTlsRecord data offset = ok r ∧ r.body.length ≤ data.length ∧
      (extensionsOf (extensionBlock r.body)).foldlM ExtData.read .default = ok exts ∧
      info.ja3 = some (ja3Hash
        (ja3String info.legacyVersion info.cipherSuites exts.types exts.groups exts.formats)) ∧
      ja4 ((exts.versions.filter fun v => !isGrease v).max?.getD info.legacyVersion) false
        exts.sni.isSome info.cipherSuites exts.types exts.sigAlgs exts.alpn.head? =
          ok fingerprint := by
  have hmax : maxBytes = 2 ^ 63 := rfl
  obtain ⟨r, hr, h⟩ := bind_eq_ok.mp h
  have hlen : r.body.length ≤ data.length := by
    have hholds := holds_parseTlsRecord hs offset
    rw [hr] at hholds
    exact hholds.1
  have hbody : r.body.length < maxBytes := hlen.trans_lt hs
  dsimp only at h
  split_ifs at h with htype hshort hsid
  · cases h
    cases hinfo
  · obtain ⟨legacyVersion, -, h⟩ := bind_eq_ok.mp h
    cases h
    cases hinfo
  obtain ⟨legacyVersion, -, h⟩ := bind_eq_ok.mp h
  rw [Nat.not_le] at hsid
  have hsidLen := (peek r.body 34).toNat_lt
  have hskip : addUsize 1 (peek r.body 34).toNat = ok (1 + (peek r.body 34).toNat) :=
    if_pos (by omega)
  rw [index_eq_peek hsid, ok_bind, hskip, ok_bind, addUsize_eq hbody (by omega) (by omega),
    ok_bind] at h
  have hblock : extensionBlock r.body = blockAt r.body (34 + (1 + (peek r.body 34).toNat) + 2 +
      (be16 (peek r.body (34 + (1 + (peek r.body 34).toNat)))
        (peek r.body (34 + (1 + (peek r.body 34).toNat) + 1))).toNat) := rfl
  generalize 34 + (1 + (peek r.body 34).toNat) = suites at h hblock
  obtain ⟨start, hstart, h⟩ := bind_eq_ok.mp h
  obtain rfl : suites + 2 = start := by
    rw [addUsize] at hstart
    split_ifs at hstart
    exact Parse.ok.inj hstart
  split_ifs at h with hsuites
  · cases h
    cases hinfo
  rw [be16At_eq hbody (by omega), ok_bind, Nat.add_zero] at h
  generalize be16 (peek r.body suites) (peek r.body (suites + 1)) = csLen at h hblock
  have hcsLen := csLen.toNat_lt
  rw [addUsize_eq hbody (by omega) (by omega), ok_bind] at h
  split_ifs at h with hstop
  · cases h
    cases hinfo
  obtain ⟨cipherSuites, -, h⟩ := bind_eq_ok.mp h
  obtain ⟨rfl, rfl, exts, hexts, hja3, hja4⟩ := finishHello_ok hbody h hinfo
  rw [← hblock] at hexts
  exact ⟨r, exts, hr, hlen, hexts, hja3, hja4⟩

section Alpn

/-- The protocol list of the last extension that has one. -/
def alpnData (es : List (UInt16 × List UInt8)) : Option (List UInt8) :=
  ((es.filter fun e => e.1 == 0x0010).getLast?).map Prod.snd

theorem length_alpnData_le {body edata : List UInt8}
    (h : alpnData (extensionsOf (extensionBlock body)) = some edata) :
    edata.length ≤ body.length := by
  obtain ⟨e, he, rfl⟩ := Option.map_eq_some_iff.mp h
  have hmem := List.mem_of_mem_filter (List.mem_of_getLast? he)
  exact (length_le_of_mem_splitExtensions hmem).trans (length_extensionBlock_le body)

theorem read_alpn {out out' : ExtData} {e : UInt16 × List UInt8} (h : out.read e = ok out') :
    if e.1 = 0x0010 then parseAlpn e.2 = ok out'.alpn else out'.alpn = out.alpn := by
  unfold ExtData.read readExtension at h
  split_ifs with halpn
  · rw [if_neg (by simp [halpn]), if_neg (by simp [halpn]), if_neg (by simp [halpn]),
      if_neg (by simp [halpn]), if_pos halpn, bind_eq_ok] at h
    obtain ⟨names, hnames, hout⟩ := h
    cases hout
    exact hnames
  · split_ifs at h
    all_goals
      first
      | obtain ⟨x, -, hout⟩ := bind_eq_ok.mp h
        cases hout
        rfl
      | cases h
        rfl

theorem foldlM_read_alpn {es : List (UInt16 × List UInt8)} {out out' : ExtData}
    (h : es.foldlM ExtData.read out = ok out') :
    match alpnData es with
    | some edata => parseAlpn edata = ok out'.alpn
    | none => out'.alpn = out.alpn := by
  induction es generalizing out with
  | nil =>
    cases h
    rfl
  | cons e es ih =>
    rw [List.foldlM_cons, bind_eq_ok] at h
    obtain ⟨next, hnext, hrest⟩ := h
    have hread := read_alpn hnext
    have hlater := ih hrest
    unfold alpnData at hlater ⊢
    rw [List.filter_cons]
    by_cases ht : e.1 = 0x0010
    · rw [if_pos ht] at hread
      rw [if_pos (by simpa using ht), List.getLast?_cons]
      cases hl : (es.filter fun e => e.1 == 0x0010).getLast? with
      | some last =>
        rw [hl] at hlater
        exact hlater
      | none =>
        rw [hl] at hlater
        simp only [Option.map_none] at hlater
        simpa [hlater] using hread
    · rw [if_neg ht] at hread
      rw [if_neg (by simpa using ht)]
      cases hl : (es.filter fun e => e.1 == 0x0010).getLast? with
      | some last =>
        rw [hl] at hlater
        exact hlater
      | none =>
        rw [hl] at hlater
        simp only [Option.map_none] at hlater ⊢
        exact hlater.trans hread

variable {edata : List UInt8}

theorem alpnLoop_prefix {rounds p : ℕ} {out names : List String}
    (h : alpnLoop edata rounds p out = ok names) : out <+: names := by
  induction rounds generalizing p out with
  | zero => cases h
  | succ rounds ih =>
    rw [alpnLoop] at h
    split_ifs at h
    · obtain ⟨len, -, h⟩ := bind_eq_ok.mp h
      obtain ⟨start, -, h⟩ := bind_eq_ok.mp h
      obtain ⟨next, -, h⟩ := bind_eq_ok.mp h
      split_ifs at h
      · cases h
        exact List.prefix_rfl
      · obtain ⟨name, -, h⟩ := bind_eq_ok.mp h
        exact (List.prefix_append _ _).trans (ih h)
    · cases h
      exact List.prefix_rfl

theorem head?_parseAlpn (hs : edata.length < maxBytes) {names : List String}
    (h : parseAlpn edata = ok names) :
    names.head? = (firstProtocol edata).map fromUtf8Lossy := by
  have hmax : maxBytes = 2 ^ 63 := rfl
  unfold parseAlpn at h
  unfold firstProtocol
  split_ifs at h with hshort
  · cases h
    rw [List.drop_eq_nil_of_le (by omega)]
    rfl
  · rw [alpnLoop] at h
    split_ifs at h with hlt
    · rw [drop_eq_peek hlt]
      rw [index_eq_peek hlt, ok_bind, addUsize_eq hs (by omega) (by omega), ok_bind] at h
      have hlen := (peek edata 2).toNat_lt
      rw [addUsize_eq hs (by omega) (by omega), ok_bind] at h
      dsimp only
      rw [List.length_drop]
      split_ifs at h with hfit
      · cases h
        rw [if_pos (by omega)]
        rfl
      · obtain ⟨name, hname, h⟩ := bind_eq_ok.mp h
        rw [if_neg (by omega)]
        rw [sliceAt, if_pos (by omega), slice, List.drop_take, Nat.add_sub_cancel_left] at hname
        cases hname
        obtain ⟨more, rfl⟩ := alpnLoop_prefix h
        rfl
    · cases h
      rw [List.drop_eq_nil_of_le (by omega)]
      rfl

end Alpn

end Pktscope

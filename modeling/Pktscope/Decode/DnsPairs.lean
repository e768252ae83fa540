import Pktscope.Decode.DnsEntries

/-! # Entries in pairs

Two readings of one byte string, from two places and with pointers counted from two
starts, give the same questions and records exactly if their entries go in pairs: names
of one text, and the same bytes where an entry has numbers or plain data.
-/

namespace Pktscope

open Library Parse

section Pairs

variable (data : List UInt8) (b b' : ℕ)

/-- A number of bytes are the same from two places on. -/
def BytesAlike (k pos pos' : ℕ) : Prop := ∀ i < k, peek data (pos + i) = peek data (pos' + i)

instance (k pos pos' : ℕ) : Decidable (BytesAlike data k pos pos') :=
  inferInstanceAs (Decidable (∀ i < k, peek data (pos + i) = peek data (pos' + i)))

/-- Names of one text stand from two places to two others. -/
def NamesAlike (pos pos' stop stop' : ℕ) : Prop :=
  ∃ text, NameAt data b pos text stop ∧ NameAt data b' pos' text stop'

/-- Strings of one text stand in two TXT records. -/
def StringsAlike (stop stop' pos pos' next next' : ℕ) : Prop :=
  ∃ text, StringAt data stop pos text next ∧ StringAt data stop' pos' text next'

/-- The data of two records of a type: names of one text between the same numbers, strings of one
text, or the same bytes. -/
inductive DataAlike (rtype : UInt16) (pos len pos' len' : ℕ) : Prop
  | named {k stop stop' : ℕ} (hk : nameOffset rtype len = some k)
      (hk' : nameOffset rtype len' = some k) (hhead : BytesAlike data k pos pos')
      (hname : NamesAlike data b b' (pos + k) (pos' + k) stop stop')
  | soa {p p' q q' : ℕ} (htype : rtype = 6) (hm : NamesAlike data b b' pos pos' p p')
      (hr : NamesAlike data b b' p p' q q') (hfits : q + 20 ≤ data.length)
      (hfits' : q' + 20 ≤ data.length) (htail : BytesAlike data 20 q q')
  | strings {n : ℕ} (htype : rtype = 16)
      (h : Paired (StringsAlike data (pos + len) (pos' + len')) (StringsEnd data (pos + len))
        (StringsEnd data (pos' + len')) n pos pos' () ())
  | plain (htype : rtype ≠ 16) (hnone : ¬HasNames data b rtype pos len)
      (hnone' : ¬HasNames data b' rtype pos' len') (hlen : len = len')
      (hbytes : BytesAlike data len pos pos')

inductive QuestionsAlike (s s' t t' : RowState) : Prop
  | intro {stop stop' : ℕ} (hname : NamesAlike data b b' s.pos s'.pos stop stop')
      (hfits : stop + 4 ≤ data.length) (hfits' : stop' + 4 ≤ data.length)
      (hbytes : BytesAlike data 4 stop stop') (hleft : s.left = t.left + 1)
      (hleft' : s'.left = t'.left + 1) (hpos : t.pos = stop + 4) (hpos' : t'.pos = stop' + 4)

inductive RecordsAlike (s s' t t' : RowState) : Prop
  | intro {stop stop' : ℕ} (hname : NamesAlike data b b' s.pos s'.pos stop stop')
      (hfits : stop + 10 + (wordAt data (stop + 8)).toNat ≤ data.length)
      (hfits' : stop' + 10 + (wordAt data (stop' + 8)).toNat ≤ data.length)
      (hbytes : BytesAlike data 8 stop stop')
      (hdata : DataAlike data b b' (wordAt data stop) (stop + 10) (wordAt data (stop + 8)).toNat
        (stop' + 10) (wordAt data (stop' + 8)).toNat) (hleft : s.left = t.left + 1)
      (hleft' : s'.left = t'.left + 1)
      (hpos : t.pos = stop + 10 + (wordAt data (stop + 8)).toNat)
      (hpos' : t'.pos = stop' + 10 + (wordAt data (stop' + 8)).toNat)

/-- The numbers of entries that a header gives. -/
structure SectionCounts where
  questions : ℕ
  answers : ℕ
  authorities : ℕ
  additionals : ℕ

/-- Two rows of sections have the same entries: at least one question, and then records. -/
inductive SectionsAlike (pos pos' : ℕ) (c c' : SectionCounts) : Prop
  | intro {n i j k q q' a a' u u' e e' : ℕ} (hpos : 0 < n)
      (hquestions : Paired (QuestionsAlike data b b') (QuestionsEnd data b) (QuestionsEnd data b') n
        ⟨c.questions, pos⟩ ⟨c'.questions, pos'⟩ q q')
      (hanswers : Paired (RecordsAlike data b b') (RecordsEnd data b) (RecordsEnd data b') i
        ⟨c.answers, q⟩ ⟨c'.answers, q'⟩ a a')
      (hauthorities : Paired (RecordsAlike data b b') (RecordsEnd data b) (RecordsEnd data b') j
        ⟨c.authorities, a⟩ ⟨c'.authorities, a'⟩ u u')
      (hadditionals : Paired (RecordsAlike data b b') (RecordsEnd data b) (RecordsEnd data b') k
        ⟨c.additionals, u⟩ ⟨c'.additionals, u'⟩ e e')

end Pairs

section Bytes

variable {data : List UInt8} {k pos pos' : ℕ}

theorem be16_inj {x y z w : UInt8} (h : be16 x y = be16 z w) : x = z ∧ y = w := by
  have hx := x.toNat_lt
  have hy := y.toNat_lt
  have hz := z.toNat_lt
  have hw := w.toNat_lt
  have hnat := congrArg UInt16.toNat h
  rw [be16, be16, UInt16.toNat_ofNat', UInt16.toNat_ofNat'] at hnat
  rw [← UInt8.toNat_inj, ← UInt8.toNat_inj]
  omega

theorem be32_inj {x y z w x' y' z' w' : UInt8} (h : be32 x y z w = be32 x' y' z' w') :
    x = x' ∧ y = y' ∧ z = z' ∧ w = w' := by
  have hbytes := congrArg toBe32 h
  rw [toBe32_be32, toBe32_be32] at hbytes
  simpa using hbytes

theorem wordAt_inj {i j : ℕ} (h : wordAt data i = wordAt data j) : BytesAlike data 2 i j := by
  obtain ⟨h0, h1⟩ := be16_inj h
  intro n hn
  obtain rfl | rfl : n = 0 ∨ n = 1 := by omega
  · exact h0
  · exact h1

theorem dwordAt_inj {i j : ℕ} (h : dwordAt data i = dwordAt data j) : BytesAlike data 4 i j := by
  obtain ⟨h0, h1, h2, h3⟩ := be32_inj h
  intro n hn
  obtain rfl | rfl | rfl | rfl : n = 0 ∨ n = 1 ∨ n = 2 ∨ n = 3 := by omega
  · exact h0
  · exact h1
  · exact h2
  · exact h3

theorem BytesAlike.wordAt (h : BytesAlike data k pos pos') {i : ℕ} (hi : i + 1 < k) :
    wordAt data (pos + i) = wordAt data (pos' + i) := by
  rw [Pktscope.wordAt, Pktscope.wordAt, h i (by omega), Nat.add_assoc, Nat.add_assoc, h (i + 1) hi]

theorem BytesAlike.dwordAt (h : BytesAlike data k pos pos') {i : ℕ} (hi : i + 3 < k) :
    dwordAt data (pos + i) = dwordAt data (pos' + i) := by
  rw [Pktscope.dwordAt, Pktscope.dwordAt]
  simp only [Nat.add_assoc]
  rw [h i (by omega), h (i + 1) (by omega), h (i + 2) (by omega), h (i + 3) hi]

theorem bytesAlike_add {n : ℕ} : BytesAlike data (k + n) pos pos' ↔
    BytesAlike data k pos pos' ∧ BytesAlike data n (pos + k) (pos' + k) := by
  constructor
  · intro h
    refine ⟨fun i hi => h i (by omega), fun i hi => ?_⟩
    have hb := h (k + i) (by omega)
    rwa [← Nat.add_assoc, ← Nat.add_assoc] at hb
  · rintro ⟨hk, hn⟩ i hi
    rcases Nat.lt_or_ge i k with hlt | hge
    · exact hk i hlt
    · obtain ⟨j, rfl⟩ := Nat.exists_eq_add_of_le hge
      rw [← Nat.add_assoc, ← Nat.add_assoc]
      exact hn j (by omega)

theorem slice_eq_iff (hfits : pos + k ≤ data.length) (hfits' : pos' + k ≤ data.length) :
    slice data pos (pos + k) = slice data pos' (pos' + k) ↔ BytesAlike data k pos pos' := by
  constructor
  · intro h i hi
    rw [← peek_slice hfits (by omega), ← peek_slice hfits' (by omega), h]
  · intro h
    have hlen : (slice data pos (pos + k)).length = (slice data pos' (pos' + k)).length := by
      rw [length_slice hfits, length_slice hfits']
      omega
    refine List.ext_getElem hlen fun i hi hi' => ?_
    rw [length_slice hfits] at hi
    rw [← peek_eq_getElem, ← peek_eq_getElem, peek_slice hfits (by omega), peek_slice hfits' (by omega)]
    exact h i (by omega)

end Bytes

section Data

variable {data : List UInt8} {b b' : ℕ} {rtype : UInt16} {pos len pos' len' : ℕ}

theorem nameOffset_cases {k : ℕ} (h : nameOffset rtype len = some k) :
    (rtype = 5 ∨ rtype = 2 ∨ rtype = 12) ∧ k = 0 ∨ rtype = 15 ∧ k = 2 ∨ rtype = 33 ∧ k = 6 := by
  unfold nameOffset at h
  split_ifs at h with hname hmx hsrv
  · exact Or.inl ⟨hname, (Option.some.inj h).symm⟩
  · exact Or.inr (Or.inl ⟨hmx.1, (Option.some.inj h).symm⟩)
  · exact Or.inr (Or.inr ⟨hsrv.1, (Option.some.inj h).symm⟩)

theorem nameOffset_unique {k k' : ℕ} (h : nameOffset rtype len = some k)
    (h' : nameOffset rtype len' = some k') : k = k' := by
  have hne : ∀ x : UInt16, x = 5 ∨ x = 2 ∨ x = 12 → x ≠ 15 ∧ x ≠ 33 := by
    rintro x (rfl | rfl | rfl) <;> decide
  rcases nameOffset_cases h with ⟨hr, rfl⟩ | ⟨rfl, rfl⟩ | ⟨rfl, rfl⟩ <;>
    rcases nameOffset_cases h' with ⟨hr', rfl⟩ | ⟨hr', rfl⟩ | ⟨hr', rfl⟩
  · rfl
  · exact absurd hr' (hne _ hr).1
  · exact absurd hr' (hne _ hr).2
  · exact absurd rfl (hne _ hr').1
  · rfl
  · cases hr'
  · exact absurd rfl (hne _ hr').2
  · cases hr'
  · rfl

theorem namedData_inj {k : ℕ} {text text' : String} (hk : nameOffset rtype len = some k) :
    namedData data rtype pos k text = namedData data rtype pos' k text' ↔
      BytesAlike data k pos pos' ∧ text = text' := by
  have hempty : BytesAlike data 0 pos pos' := fun i hi => absurd hi (Nat.not_lt_zero i)
  rcases nameOffset_cases hk with ⟨rfl | rfl | rfl, rfl⟩ | ⟨rfl, rfl⟩ | ⟨rfl, rfl⟩
  · exact ⟨fun h => ⟨hempty, DnsRdata.cname.inj h⟩, fun h => congrArg DnsRdata.cname h.2⟩
  · exact ⟨fun h => ⟨hempty, DnsRdata.ns.inj h⟩, fun h => congrArg DnsRdata.ns h.2⟩
  · exact ⟨fun h => ⟨hempty, DnsRdata.ptr.inj h⟩, fun h => congrArg DnsRdata.ptr h.2⟩
  · constructor
    · intro h
      obtain ⟨hword, htext⟩ := DnsRdata.mx.inj h
      exact ⟨wordAt_inj hword, htext⟩
    · rintro ⟨hbytes, rfl⟩
      exact congrArg (DnsRdata.mx · text) (hbytes.wordAt (i := 0) (by decide))
  · constructor
    · intro h
      obtain ⟨hpriority, hweight, hport, htext⟩ := DnsRdata.srv.inj h
      have htail := (bytesAlike_add (k := 2) (n := 2)).mpr ⟨wordAt_inj hweight, wordAt_inj hport⟩
      exact ⟨(bytesAlike_add (k := 2) (n := 4)).mpr ⟨wordAt_inj hpriority, htail⟩, htext⟩
    · rintro ⟨hbytes, rfl⟩
      have hpriority := hbytes.wordAt (i := 0) (by decide)
      have hweight := hbytes.wordAt (i := 2) (by decide)
      have hport := hbytes.wordAt (i := 4) (by decide)
      change DnsRdata.srv _ _ _ _ = DnsRdata.srv _ _ _ _
      rw [hweight, hport]
      exact congrArg (DnsRdata.srv · _ _ text) hpriority

theorem plainData_cases (rtype : UInt16) (bytes : List UInt8) :
    bytes.length = 4 ∧ plainData rtype bytes = .a (dwordAt bytes 0) ∨
      bytes.length = 16 ∧ plainData rtype bytes = .aaaa (BitVec.ofNat 128 (beNat bytes)) ∨
      plainData rtype bytes = .unknown rtype bytes := by
  unfold plainData
  split_ifs with ha haaaa
  · exact Or.inl ⟨ha.2, rfl⟩
  · exact Or.inr (Or.inl ⟨haaaa.2, rfl⟩)
  · exact Or.inr (Or.inr rfl)

theorem plainData_inj {bytes bytes' : List UInt8} :
    plainData rtype bytes = plainData rtype bytes' ↔ bytes = bytes' := by
  constructor
  · intro h
    rcases plainData_cases rtype bytes with ⟨hlen, hd⟩ | ⟨hlen, hd⟩ | hd
    · rcases plainData_cases rtype bytes' with ⟨hlen', hd'⟩ | ⟨hlen', hd'⟩ | hd' <;> rw [hd, hd'] at h
      · obtain ⟨h0, h1, h2, h3⟩ := be32_inj (DnsRdata.a.inj h)
        refine List.ext_getElem (hlen.trans hlen'.symm) fun i hi hi' => ?_
        rw [← peek_eq_getElem hi, ← peek_eq_getElem hi']
        obtain rfl | rfl | rfl | rfl : i = 0 ∨ i = 1 ∨ i = 2 ∨ i = 3 := by omega
        · exact h0
        · exact h1
        · exact h2
        · exact h3
      · nomatch h
      · nomatch h
    · rcases plainData_cases rtype bytes' with ⟨hlen', hd'⟩ | ⟨hlen', hd'⟩ | hd' <;> rw [hd, hd'] at h
      · nomatch h
      · have hnat := congrArg BitVec.toNat (DnsRdata.aaaa.inj h)
        have hlt : beNat bytes < 2 ^ 128 := (beNat_lt bytes).trans_eq (by rw [hlen]; rfl)
        have hlt' : beNat bytes' < 2 ^ 128 := (beNat_lt bytes').trans_eq (by rw [hlen']; rfl)
        rw [BitVec.toNat_ofNat, BitVec.toNat_ofNat, Nat.mod_eq_of_lt hlt, Nat.mod_eq_of_lt hlt'] at hnat
        exact beNat_inj (hlen.trans hlen'.symm) hnat
      · nomatch h
    · rcases plainData_cases rtype bytes' with ⟨-, hd'⟩ | ⟨-, hd'⟩ | hd' <;> rw [hd, hd'] at h
      · nomatch h
      · nomatch h
      · exact (DnsRdata.unknown.inj h).2
  · rintro rfl
    rfl

theorem soaData_inj {q q' : ℕ} {mname rname mname' rname' : String} :
    soaData data q mname rname = soaData data q' mname' rname' ↔
      (mname = mname' ∧ rname = rname') ∧ BytesAlike data 20 q q' := by
  constructor
  · intro h
    obtain ⟨hm, hr, h0, h4, h8, h12, h16⟩ := DnsRdata.soa.inj h
    have hend := (bytesAlike_add (k := 4) (n := 4)).mpr ⟨dwordAt_inj h12, dwordAt_inj h16⟩
    have hrest := (bytesAlike_add (k := 4) (n := 8)).mpr ⟨dwordAt_inj h8, hend⟩
    have htail := (bytesAlike_add (k := 4) (n := 12)).mpr ⟨dwordAt_inj h4, hrest⟩
    exact ⟨⟨hm, hr⟩, (bytesAlike_add (k := 4) (n := 16)).mpr ⟨dwordAt_inj h0, htail⟩⟩
  · rintro ⟨⟨rfl, rfl⟩, h⟩
    have h0 := h.dwordAt (i := 0) (by decide)
    rw [Nat.add_zero, Nat.add_zero] at h0
    rw [soaData, soaData, h0, h.dwordAt (i := 4) (by decide), h.dwordAt (i := 8) (by decide),
      h.dwordAt (i := 12) (by decide), h.dwordAt (i := 16) (by decide)]

/-- How the data of a record is made. -/
inductive DataKind
  | named
  | soa
  | strings
  | plain

def dataKind : DnsRdata → DataKind
  | .cname _ | .ns _ | .ptr _ | .mx _ _ | .srv _ _ _ _ => .named
  | .soa _ _ _ _ _ _ _ => .soa
  | .txt _ => .strings
  | .a _ | .aaaa _ | .unknown _ _ => .plain

@[simp] theorem dataKind_namedData (data : List UInt8) (rtype : UInt16) (pos k : ℕ) (text : String) :
    dataKind (namedData data rtype pos k text) = .named := by
  unfold namedData
  split_ifs <;> rfl

@[simp] theorem dataKind_soaData (data : List UInt8) (q : ℕ) (mname rname : String) :
    dataKind (soaData data q mname rname) = .soa := rfl

@[simp] theorem dataKind_txt (l : List String) : dataKind (.txt l) = .strings := rfl

@[simp] theorem dataKind_plainData (rtype : UInt16) (bytes : List UInt8) :
    dataKind (plainData rtype bytes) = .plain := by
  unfold plainData
  split_ifs <;> rfl

end Data

section DataAlike

variable {data : List UInt8} {b b' : ℕ} {rtype : UInt16} {pos len pos' len' : ℕ}

/-- Two records of a type have the same data exactly if it goes in pairs. -/
theorem exists_dataAt_iff (hfits : pos + len ≤ data.length) (hfits' : pos' + len' ≤ data.length) :
    (∃ d, DataAt data b rtype pos len d ∧ DataAt data b' rtype pos' len' d) ↔
      DataAlike data b b' rtype pos len pos' len' := by
  constructor
  · rintro ⟨d, h, h'⟩
    cases h with
    | named hk hname =>
      generalize hd : namedData data rtype pos _ _ = d at h'
      have hkind := congrArg dataKind hd
      cases h' with
      | named hk' hname' =>
        obtain rfl := nameOffset_unique hk hk'
        obtain ⟨hhead, rfl⟩ := (namedData_inj hk).mp hd
        exact .named hk hk' hhead ⟨_, hname, hname'⟩
      | soa => simp at hkind
      | strings => simp at hkind
      | plain => simp at hkind
    | soa htype hm hr hq =>
      generalize hd : soaData data _ _ _ = d at h'
      have hkind := congrArg dataKind hd
      cases h' with
      | named => simp at hkind
      | soa htype' hm' hr' hq' =>
        obtain ⟨⟨rfl, rfl⟩, htail⟩ := soaData_inj.mp hd
        exact .soa htype ⟨_, hm, hm'⟩ ⟨_, hr, hr'⟩ hq hq' htail
      | strings => simp at hkind
      | plain => simp at hkind
    | strings htype hl =>
      generalize hd : DnsRdata.txt _ = d at h'
      have hkind := congrArg dataKind hd
      cases h' with
      | named => simp at hkind
      | soa => simp at hkind
      | strings htype' hl' =>
        obtain rfl := DnsRdata.txt.inj hd
        exact .strings htype ((exists_reads_iff_paired fun _ _ _ _ => Iff.rfl).mp ⟨_, rfl, hl, hl'⟩)
      | plain => simp at hkind
    | plain htype hnone =>
      generalize hd : plainData rtype _ = d at h'
      have hkind := congrArg dataKind hd
      cases h' with
      | named => simp at hkind
      | soa => simp at hkind
      | strings => simp at hkind
      | plain htype' hnone' =>
        have hbytes := plainData_inj.mp hd
        have hlen := congrArg List.length hbytes
        rw [length_slice hfits, length_slice hfits', Nat.add_sub_cancel_left, Nat.add_sub_cancel_left]
          at hlen
        subst hlen
        exact .plain htype hnone hnone' rfl ((slice_eq_iff hfits hfits').mp hbytes)
  · intro h
    cases h with
    | named hk hk' hhead hname =>
      obtain ⟨text, hname, hname'⟩ := hname
      have hdata := DataAt.named hk' hname'
      rw [← (namedData_inj hk).mpr ⟨hhead, rfl⟩] at hdata
      exact ⟨_, .named hk hname, hdata⟩
    | soa htype hm hr hq hq' htail =>
      obtain ⟨mname, hm, hm'⟩ := hm
      obtain ⟨rname, hr, hr'⟩ := hr
      have hdata : DataAt data b' rtype pos' len' _ := .soa htype hm' hr' hq'
      rw [← soaData_inj.mpr ⟨⟨rfl, rfl⟩, htail⟩] at hdata
      exact ⟨_, .soa htype hm hr hq, hdata⟩
    | strings htype h =>
      obtain ⟨l, -, hl, hl'⟩ := (exists_reads_iff_paired fun _ _ _ _ => Iff.rfl).mpr h
      exact ⟨_, .strings htype hl, .strings htype hl'⟩
    | plain htype hnone hnone' hlen hbytes =>
      subst hlen
      have hdata := DataAt.plain htype hnone'
      rw [← (slice_eq_iff hfits hfits').mpr hbytes] at hdata
      exact ⟨_, .plain htype hnone, hdata⟩

end DataAlike

section Entries

variable {data : List UInt8} {b b' : ℕ}

theorem questionsAlike_iff (s s' t t' : RowState) : QuestionsAlike data b b' s s' t t' ↔
    ∃ q, QuestionAt data b s q t ∧ QuestionAt data b' s' q t' := by
  constructor
  · rintro ⟨⟨text, hname, hname'⟩, hfits, hfits', hbytes, hleft, hleft', hpos, hpos'⟩
    exact ⟨⟨text, _, _⟩, ⟨hname, hfits, rfl, rfl, hleft, hpos⟩, hname', hfits',
      hbytes.wordAt (i := 0) (by decide), hbytes.wordAt (i := 2) (by decide), hleft', hpos'⟩
  · rintro ⟨q, ⟨hname, hfits, htype, hclass, hleft, hpos⟩, hname', hfits', htype', hclass', hleft', hpos'⟩
    have hbytes := (bytesAlike_add (k := 2) (n := 2)).mpr
      ⟨wordAt_inj (htype.symm.trans htype'), wordAt_inj (hclass.symm.trans hclass')⟩
    exact ⟨⟨_, hname, hname'⟩, hfits, hfits', hbytes, hleft, hleft', hpos, hpos'⟩

theorem recordsAlike_iff (s s' t t' : RowState) : RecordsAlike data b b' s s' t t' ↔
    ∃ r, RecordAt data b s r t ∧ RecordAt data b' s' r t' := by
  constructor
  · rintro ⟨⟨text, hname, hname'⟩, hfits, hfits', hbytes, hdata, hleft, hleft', hpos, hpos'⟩
    obtain ⟨d, hd, hd'⟩ := (exists_dataAt_iff hfits hfits').mpr hdata
    have htype := hbytes.wordAt (i := 0) (by decide)
    exact ⟨⟨text, _, _, _, d⟩, ⟨hname, hfits, rfl, rfl, rfl, hd, hleft, hpos⟩, hname', hfits', htype,
      hbytes.wordAt (i := 2) (by decide), hbytes.dwordAt (i := 4) (by decide), hd', hleft', hpos'⟩
  · rintro ⟨r, ⟨hname, hfits, htype, hclass, httl, hd, hleft, hpos⟩, hname', hfits', htype', hclass',
      httl', hd', hleft', hpos'⟩
    have htail := (bytesAlike_add (k := 2) (n := 4)).mpr
      ⟨wordAt_inj (hclass.symm.trans hclass'), dwordAt_inj (httl.symm.trans httl')⟩
    have hbytes := (bytesAlike_add (k := 2) (n := 6)).mpr
      ⟨wordAt_inj (htype.symm.trans htype'), htail⟩
    have hdata := (exists_dataAt_iff hfits hfits').mp ⟨_, hd, hd'⟩
    rw [htype] at hdata
    exact ⟨⟨_, hname, hname'⟩, hfits, hfits', hbytes, hdata, hleft, hleft', hpos, hpos'⟩

end Entries

section Sections

variable {data : List UInt8} {b b' : ℕ} (hs : data.length < maxBytes)
include hs

/-- The sections of a message are the rows of entries that stand behind one another. -/
theorem readSections_eq_ok_iff (hb : b ≤ data.length) (pos : ℕ) (c : SectionCounts) (r : DnsSections)
    (e : ℕ) : readSections data b pos c.questions c.answers c.authorities c.additionals = ok (r, e) ↔
      r.questions ≠ [] ∧ ∃ q a u,
        Reads (QuestionAt data b) (QuestionsEnd data b) ⟨c.questions, pos⟩ r.questions q ∧
        Reads (RecordAt data b) (RecordsEnd data b) ⟨c.answers, q⟩ r.answers a ∧
        Reads (RecordAt data b) (RecordsEnd data b) ⟨c.authorities, a⟩ r.authorities u ∧
        Reads (RecordAt data b) (RecordsEnd data b) ⟨c.additionals, u⟩ r.additionals e := by
  have hquestions (count pos e : ℕ) (l : List DnsQuestion) :
      parseQuestions data b count pos [] = ok (l, e) ↔
        Reads (QuestionAt data b) (QuestionsEnd data b) ⟨count, pos⟩ l e := by
    rw [parseQuestions_eq_ok_iff hs hb]
    simp
  have hrecords (count pos e : ℕ) (l : List DnsRecord) :
      parseRecords data b count pos [] = ok (l, e) ↔
        Reads (RecordAt data b) (RecordsEnd data b) ⟨count, pos⟩ l e := by
    rw [parseRecords_eq_ok_iff hs hb]
    simp
  rw [readSections]
  constructor
  · intro h
    obtain ⟨⟨qs, q⟩, hq, h⟩ := bind_eq_ok.mp h
    dsimp only at h
    split at h
    · cases h
    rename_i hne
    obtain ⟨⟨as, a⟩, ha, h⟩ := bind_eq_ok.mp h
    obtain ⟨⟨us, u⟩, hu, h⟩ := bind_eq_ok.mp h
    obtain ⟨⟨ds, d⟩, hd, h⟩ := bind_eq_ok.mp h
    cases h
    refine ⟨fun h => hne (List.isEmpty_iff.mpr h), q, a, u, ?_, ?_, ?_, ?_⟩
    · exact (hquestions _ _ _ _).mp hq
    · exact (hrecords _ _ _ _).mp ha
    · exact (hrecords _ _ _ _).mp hu
    · exact (hrecords _ _ _ _).mp hd
  · rintro ⟨hne, q, a, u, hq, ha, hu, hd⟩
    rw [(hquestions _ _ _ _).mpr hq, ok_bind]
    dsimp only
    rw [if_neg fun h => hne (List.isEmpty_iff.mp h), (hrecords _ _ _ _).mpr ha, ok_bind]
    dsimp only
    rw [(hrecords _ _ _ _).mpr hu, ok_bind]
    dsimp only
    rw [(hrecords _ _ _ _).mpr hd]
    rfl

/-- Two places give the same sections exactly if their entries go in pairs. -/
theorem exists_readSections_iff (hb : b ≤ data.length) (hb' : b' ≤ data.length) {pos pos' : ℕ}
    {c c' : SectionCounts} :
    (∃ r e e', readSections data b pos c.questions c.answers c.authorities c.additionals = ok (r, e) ∧
      readSections data b' pos' c'.questions c'.answers c'.authorities c'.additionals = ok (r, e')) ↔
        SectionsAlike data b b' pos pos' c c' := by
  simp only [readSections_eq_ok_iff hs hb, readSections_eq_ok_iff hs hb']
  constructor
  · rintro ⟨r, e, e', ⟨hne, q, a, u, hq, ha, hu, hd⟩, -, q', a', u', hq', ha', hu', hd'⟩
    exact ⟨List.length_pos_iff.mpr hne,
      (exists_reads_iff_paired questionsAlike_iff).mp ⟨_, rfl, hq, hq'⟩,
      (exists_reads_iff_paired recordsAlike_iff).mp ⟨_, rfl, ha, ha'⟩,
      (exists_reads_iff_paired recordsAlike_iff).mp ⟨_, rfl, hu, hu'⟩,
      (exists_reads_iff_paired recordsAlike_iff).mp ⟨_, rfl, hd, hd'⟩⟩
  · rintro ⟨hpos, hquestions, hanswers, hauthorities, hadditionals⟩
    obtain ⟨qs, rfl, hq, hq'⟩ := (exists_reads_iff_paired questionsAlike_iff).mpr hquestions
    obtain ⟨as, -, ha, ha'⟩ := (exists_reads_iff_paired recordsAlike_iff).mpr hanswers
    obtain ⟨us, -, hu, hu'⟩ := (exists_reads_iff_paired recordsAlike_iff).mpr hauthorities
    obtain ⟨ds, -, hd, hd'⟩ := (exists_reads_iff_paired recordsAlike_iff).mpr hadditionals
    have hne := List.length_pos_iff.mp hpos
    exact ⟨⟨qs, as, us, ds⟩, _, _, ⟨hne, _, _, _, hq, ha, hu, hd⟩, hne, _, _, _, hq', ha', hu', hd'⟩

end Sections

end Pktscope

import Pktscope.Decode.DnsShift
import Pktscope.Decode.RdataConfinement
import Pktscope.Library.BitFields
import Pktscope.Library.Rows

/-! # The entries of a message

What the loops of the DNS decoder take is said of the bytes: a question or a record is
an entry whose name, numbers and data stand behind one another, and a row of entries
ends by its count or where no entry stands.
-/

namespace Pktscope

open Library Parse

/-- How many entries are left to read, and where. -/
structure RowState where
  left : ℕ
  pos : ℕ

/-- The number of four bytes at a place. -/
def dwordAt (data : List UInt8) (i : ℕ) : UInt32 :=
  be32 (peek data i) (peek data (i + 1)) (peek data (i + 2)) (peek data (i + 3))

section Entries

variable (data : List UInt8) (base : ℕ)

/-- A name of a text stands between two places. -/
def NameAt (pos : ℕ) (text : String) (stop : ℕ) : Prop :=
  ∃ w : NameForm, w.Written data base pos ∧ w.pointers ≤ 128 ∧ text = nameText w ∧
    stop = pos + w.bytes.length

inductive QuestionAt (s : RowState) (q : DnsQuestion) (t : RowState) : Prop
  | intro {stop : ℕ} (hname : NameAt data base s.pos q.qname stop)
      (hfits : stop + 4 ≤ data.length) (htype : q.qtype = wordAt data stop)
      (hclass : q.qclass = wordAt data (stop + 2)) (hleft : s.left = t.left + 1)
      (hpos : t.pos = stop + 4)

/-- The questions end by their count, or with a name that the bytes end behind. -/
inductive QuestionsEnd (s : RowState) (stop : ℕ) : Prop
  | counted (hleft : s.left = 0) (hstop : stop = s.pos)
  | cut {text : String} (hleft : s.left ≠ 0) (hname : NameAt data base s.pos text stop)
      (hcut : data.length < stop + 4)

/-- A string of a TXT record that ends at a place. -/
structure StringAt (stop pos : ℕ) (text : String) (next : ℕ) : Prop where
  inside : pos < stop
  length : next = pos + 1 + (peek data pos).toNat
  fits : next ≤ stop
  lossy : text = fromUtf8Lossy (slice data (pos + 1) next)

def StringsEnd (stop pos : ℕ) (_ : Unit) : Prop :=
  pos < stop → stop < pos + 1 + (peek data pos).toNat

variable (rtype : UInt16) (pos rdlen : ℕ)

/-- Where the data of a type has its name, if it is long enough for the numbers in front of it. -/
def nameOffset : Option ℕ :=
  if rtype = 5 ∨ rtype = 2 ∨ rtype = 12 then some 0
  else if rtype = 15 ∧ 3 ≤ rdlen then some 2
  else if rtype = 33 ∧ 6 ≤ rdlen then some 6
  else none

/-- The data of a type with one name, behind the numbers in front of the name. -/
def namedData (k : ℕ) (text : String) : DnsRdata :=
  if rtype = 5 then .cname text
  else if rtype = 2 then .ns text
  else if rtype = 12 then .ptr text
  else if k = 2 then .mx (wordAt data pos) text
  else .srv (wordAt data pos) (wordAt data (pos + 2)) (wordAt data (pos + 4)) text

/-- Two names, and the numbers behind them. -/
def soaData (q : ℕ) (mname rname : String) : DnsRdata :=
  .soa mname rname (dwordAt data q) (dwordAt data (q + 4)) (dwordAt data (q + 8))
    (dwordAt data (q + 12)) (dwordAt data (q + 16))

/-- Data without names and strings. -/
def plainData (bytes : List UInt8) : DnsRdata :=
  if rtype = 1 ∧ bytes.length = 4 then .a (dwordAt bytes 0)
  else if rtype = 28 ∧ bytes.length = 16 then .aaaa (BitVec.ofNat 128 (beNat bytes))
  else .unknown rtype bytes

/-- The names that the data of a type is made of stand in it, or begin there. -/
def HasNames : Prop :=
  (∃ k, nameOffset rtype rdlen = some k ∧ HasName data base (pos + k)) ∨ rtype = 6 ∧ HasSoa data base pos

/-- The data of a record. -/
inductive DataAt : DnsRdata → Prop
  | named {k stop : ℕ} {text : String} (hk : nameOffset rtype rdlen = some k)
      (hname : NameAt data base (pos + k) text stop) : DataAt (namedData data rtype pos k text)
  | soa {mname rname : String} {p q : ℕ} (htype : rtype = 6) (hm : NameAt data base pos mname p)
      (hr : NameAt data base p rname q) (hfits : q + 20 ≤ data.length) :
      DataAt (soaData data q mname rname)
  | strings {l : List String} (htype : rtype = 16)
      (h : Reads (StringAt data (pos + rdlen)) (StringsEnd data (pos + rdlen)) pos l ()) :
      DataAt (.txt l)
  | plain (htype : rtype ≠ 16) (hnone : ¬HasNames data base rtype pos rdlen) :
      DataAt (plainData rtype (slice data pos (pos + rdlen)))

inductive RecordAt (s : RowState) (r : DnsRecord) (t : RowState) : Prop
  | intro {stop : ℕ} (hname : NameAt data base s.pos r.name stop)
      (hfits : stop + 10 + (wordAt data (stop + 8)).toNat ≤ data.length)
      (htype : r.rtype = wordAt data stop) (hclass : r.rclass = wordAt data (stop + 2))
      (httl : r.ttl = dwordAt data (stop + 4))
      (hdata : DataAt data base r.rtype (stop + 10) (wordAt data (stop + 8)).toNat r.rdata)
      (hleft : s.left = t.left + 1) (hpos : t.pos = stop + 10 + (wordAt data (stop + 8)).toNat)

/-- A name stands at a place, with room behind it for the rest of a record. -/
def HasRecord (pos : ℕ) : Prop :=
  ∃ text stop, NameAt data base pos text stop ∧
    stop + 10 + (wordAt data (stop + 8)).toNat ≤ data.length

def RecordsEnd (s : RowState) (stop : ℕ) : Prop :=
  (s.left ≠ 0 → ¬HasRecord data base s.pos) ∧ stop = s.pos

end Entries

section Names

variable {data : List UInt8} {base pos stop : ℕ} {text : String}

theorem hasName_iff : HasName data base pos ↔ ∃ text stop, NameAt data base pos text stop := by
  constructor
  · rintro ⟨w, hw, hfits⟩
    exact ⟨_, _, w, hw, hfits, rfl, rfl⟩
  · rintro ⟨_, _, w, hw, hfits, -, -⟩
    exact ⟨w, hw, hfits⟩

theorem hasSoa_iff : HasSoa data base pos ↔ ∃ mname rname p q, NameAt data base pos mname p ∧
    NameAt data base p rname q ∧ q + 20 ≤ data.length := by
  constructor
  · rintro ⟨m, r, hm, hmfits, hr, hrfits, hle⟩
    exact ⟨_, _, _, _, ⟨m, hm, hmfits, rfl, rfl⟩, ⟨r, hr, hrfits, rfl, rfl⟩, hle⟩
  · rintro ⟨_, _, _, _, ⟨m, hm, hmfits, rfl, rfl⟩, ⟨r, hr, hrfits, rfl, rfl⟩, hle⟩
    exact ⟨m, r, hm, hmfits, hr, hrfits, hle⟩

theorem NameAt.le (h : NameAt data base pos text stop) : stop ≤ data.length := by
  obtain ⟨w, hw, -, -, rfl⟩ := h
  exact hw.le

theorem NameAt.unique {text' : String} {stop' : ℕ} (h : NameAt data base pos text stop)
    (h' : NameAt data base pos text' stop') : text = text' ∧ stop = stop' := by
  obtain ⟨w, hw, -, rfl, rfl⟩ := h
  obtain ⟨w', hw', -, rfl, rfl⟩ := h'
  rw [hw.unique hw']
  exact ⟨rfl, rfl⟩

variable (hs : data.length < maxBytes) (hb : base ≤ data.length)
include hs hb

theorem dnsName_eq_ok_iff : dnsName data base pos = ok (text, stop) ↔ NameAt data base pos text stop := by
  rw [dnsName_ok_iff hs hb]
  simp only [NameAt, Prod.mk.injEq]

theorem dnsName_cases (pos : ℕ) : (∃ text stop, dnsName data base pos = ok (text, stop) ∧
    NameAt data base pos text stop) ∨ dnsName data base pos = refuse ∧ ¬HasName data base pos := by
  cases hread : dnsName data base pos with
  | ok r => exact Or.inl ⟨r.1, r.2, rfl, (dnsName_eq_ok_iff hs hb).mp hread⟩
  | refuse =>
    refine Or.inr ⟨rfl, fun h => ?_⟩
    exact (dnsName_accepts_iff hs hb pos).mpr h hread
  | fault f => exact absurd hread ((holds_dnsName hs hb pos).not_fault f)

end Names

section Rows

variable {data : List UInt8} {base count pos stop e : ℕ} {text : String}

theorem ok_done_iff {α : Type} {out r : List α} :
    ok (out, pos) = ok (r, e) ↔ ∃ l, r = out ++ l ∧ l = [] ∧ e = pos := by
  constructor
  · rintro ⟨⟩
    exact ⟨[], (List.append_nil _).symm, rfl, rfl⟩
  · rintro ⟨_, rfl, rfl, rfl⟩
    rw [List.append_nil]

theorem ok_whole_iff {α : Type} {out r : List α} : ok out = ok r ↔ ∃ l, r = out ++ l ∧ l = [] := by
  constructor
  · rintro ⟨⟩
    exact ⟨[], (List.append_nil _).symm, rfl⟩
  · rintro ⟨_, rfl, rfl⟩
    rw [List.append_nil]

theorem exists_append_cons_iff {α : Type} {out r : List α} {x : α} {P : List α → Prop} :
    (∃ rest, r = out ++ [x] ++ rest ∧ P rest) ↔
      ∃ l, r = out ++ l ∧ ∃ rest, l = x :: rest ∧ P rest := by
  constructor
  · rintro ⟨rest, rfl, h⟩
    exact ⟨_, List.append_assoc _ _ _, rest, rfl, h⟩
  · rintro ⟨_, rfl, rest, rfl, h⟩
    exact ⟨rest, (List.append_assoc out [x] rest).symm, h⟩

variable {questions : List DnsQuestion} {records : List DnsRecord} {strings : List String}

theorem reads_questions_zero :
    Reads (QuestionAt data base) (QuestionsEnd data base) ⟨0, pos⟩ questions e ↔
      questions = [] ∧ e = pos := by
  constructor
  · intro h
    cases h with
    | ends hend =>
      cases hend with
      | counted _ hstop => exact ⟨rfl, hstop⟩
      | cut hleft => exact absurd rfl hleft
    | item hitem =>
      obtain ⟨-, -, -, -, hleft, -⟩ := hitem
      cases hleft
  · rintro ⟨rfl, rfl⟩
    exact .ends (.counted rfl rfl)

theorem reads_questions_cut (hname : NameAt data base pos text stop) (hcut : data.length < stop + 4) :
    Reads (QuestionAt data base) (QuestionsEnd data base) ⟨count + 1, pos⟩ questions e ↔
      questions = [] ∧ e = stop := by
  constructor
  · intro h
    cases h with
    | ends hend =>
      cases hend with
      | counted hleft => cases hleft
      | cut _ hname' _ =>
        obtain ⟨-, rfl⟩ := hname.unique hname'
        exact ⟨rfl, rfl⟩
    | item hitem =>
      obtain ⟨hname', hfits⟩ := hitem
      obtain ⟨-, rfl⟩ := hname.unique hname'
      omega
  · rintro ⟨rfl, rfl⟩
    exact .ends (.cut (Nat.succ_ne_zero _) hname hcut)

theorem reads_questions_cons (hname : NameAt data base pos text stop)
    (hfits : stop + 4 ≤ data.length) :
    Reads (QuestionAt data base) (QuestionsEnd data base) ⟨count + 1, pos⟩ questions e ↔
      ∃ rest, questions = ⟨text, wordAt data stop, wordAt data (stop + 2)⟩ :: rest ∧
        Reads (QuestionAt data base) (QuestionsEnd data base) ⟨count, stop + 4⟩ rest e := by
  constructor
  · intro h
    cases h with
    | ends hend =>
      cases hend with
      | counted hleft => cases hleft
      | cut _ hname' hcut =>
        obtain ⟨-, rfl⟩ := hname.unique hname'
        omega
    | @item _ t q l _ hitem hrest =>
      obtain ⟨hname', -, htype, hclass, hleft, hpos⟩ := hitem
      obtain ⟨htext, rfl⟩ := hname.unique hname'
      obtain ⟨left, p⟩ := t
      obtain ⟨qname, qtype, qclass⟩ := q
      cases hleft
      cases hpos
      cases htext
      cases htype
      cases hclass
      exact ⟨l, rfl, hrest⟩
  · rintro ⟨rest, rfl, hrest⟩
    exact .item (t := ⟨count, stop + 4⟩) ⟨hname, hfits, rfl, rfl, rfl, rfl⟩ hrest

theorem not_reads_questions (hnone : ¬HasName data base pos) :
    ¬Reads (QuestionAt data base) (QuestionsEnd data base) ⟨count + 1, pos⟩ questions e := by
  intro h
  cases h with
  | ends hend =>
    cases hend with
    | counted hleft => cases hleft
    | cut _ hname => exact hnone (hasName_iff.mpr ⟨_, _, hname⟩)
  | item hitem =>
    obtain ⟨hname⟩ := hitem
    exact hnone (hasName_iff.mpr ⟨_, _, hname⟩)

theorem reads_strings_ends (hend : StringsEnd data stop pos ()) :
    Reads (StringAt data stop) (StringsEnd data stop) pos strings () ↔ strings = [] := by
  constructor
  · intro h
    cases h with
    | ends _ => rfl
    | item hitem =>
      obtain ⟨hin, hnext, hfits, -⟩ := hitem
      have hcut := hend hin
      omega
  · rintro rfl
    exact .ends hend

theorem reads_strings_cons (hin : pos < stop) (hfits : pos + 1 + (peek data pos).toNat ≤ stop) :
    Reads (StringAt data stop) (StringsEnd data stop) pos strings () ↔
      ∃ rest, strings = fromUtf8Lossy (slice data (pos + 1) (pos + 1 + (peek data pos).toNat)) :: rest ∧
        Reads (StringAt data stop) (StringsEnd data stop) (pos + 1 + (peek data pos).toNat) rest () := by
  constructor
  · intro h
    cases h with
    | ends hend => exact absurd (hend hin) (not_lt.mpr hfits)
    | item hitem hrest =>
      obtain ⟨-, rfl, -, rfl⟩ := hitem
      exact ⟨_, rfl, hrest⟩
  · rintro ⟨rest, rfl, hrest⟩
    exact .item ⟨hin, rfl, hfits, rfl⟩ hrest

theorem reads_records_ends (hend : count ≠ 0 → ¬HasRecord data base pos) :
    Reads (RecordAt data base) (RecordsEnd data base) ⟨count, pos⟩ records e ↔
      records = [] ∧ e = pos := by
  constructor
  · intro h
    cases h with
    | ends h => exact ⟨rfl, h.2⟩
    | item hitem =>
      obtain ⟨hname, hfits, -, -, -, -, hleft, -⟩ := hitem
      have hne : count ≠ 0 := by
        rintro rfl
        cases hleft
      exact absurd ⟨_, _, hname, hfits⟩ (hend hne)
  · rintro ⟨rfl, rfl⟩
    exact .ends ⟨hend, rfl⟩

end Rows

section Loops

variable {data : List UInt8} {base : ℕ} (hs : data.length < maxBytes) (hb : base ≤ data.length)
include hs hb

/-- The loop over the questions takes the questions that stand in its row. -/
theorem parseQuestions_eq_ok_iff (count pos : ℕ) (out r : List DnsQuestion) (e : ℕ) :
    parseQuestions data base count pos out = ok (r, e) ↔ ∃ l, r = out ++ l ∧
      Reads (QuestionAt data base) (QuestionsEnd data base) ⟨count, pos⟩ l e := by
  have hmax : maxBytes = 2 ^ 63 := rfl
  induction count generalizing pos out with
  | zero =>
    simp only [parseQuestions, reads_questions_zero]
    exact ok_done_iff
  | succ count ih =>
    rw [parseQuestions]
    rcases dnsName_cases hs hb pos with ⟨text, stop, hread, hname⟩ | ⟨hread, hnone⟩
    · have hle := hname.le
      rw [hread, ok_bind]
      dsimp only
      rw [addUsize_eq hs hle (by omega), ok_bind]
      by_cases hcut : data.length < stop + 4
      · simp only [if_pos hcut, reads_questions_cut hname hcut]
        exact ok_done_iff
      · rw [if_neg hcut, be16At_eq hs (by omega), ok_bind, be16At_eq hs (by omega), ok_bind]
        simp only [reads_questions_cons hname (not_lt.mp hcut)]
        exact (ih _ _).trans exists_append_cons_iff
    · rw [hread, refuse_bind]
      constructor
      · rintro ⟨⟩
      · rintro ⟨l, -, h⟩
        exact absurd h (not_reads_questions hnone)

omit hb in
theorem txtLoop_eq_ok_iff {stop : ℕ} (hstop : stop ≤ data.length) {rounds pos : ℕ}
    (hpos : 0 < rounds) (hr : stop < pos + rounds) (strings r : List String) :
    txtLoop data stop rounds pos strings = ok r ↔ ∃ l, r = strings ++ l ∧
      Reads (StringAt data stop) (StringsEnd data stop) pos l () := by
  have hmax : maxBytes = 2 ^ 63 := rfl
  induction rounds generalizing pos strings with
  | zero => exact absurd hpos (Nat.lt_irrefl 0)
  | succ rounds ih =>
    rw [txtLoop]
    by_cases hin : pos < stop
    · have hlen := (peek data pos).toNat_lt
      rw [if_pos hin, index_eq_peek (by omega), ok_bind, addUsize_eq hs (by omega) (by omega), ok_bind,
        addUsize_eq hs (by omega) (by omega), ok_bind]
      by_cases hcut : stop < pos + 1 + (peek data pos).toNat
      · simp only [if_pos hcut, reads_strings_ends fun _ => hcut]
        exact ok_whole_iff
      · rw [if_neg hcut, sliceAt, if_pos ⟨by omega, by omega⟩, ok_bind]
        simp only [reads_strings_cons hin (not_lt.mp hcut)]
        exact (ih (by omega) (by omega) _).trans exists_append_cons_iff
    · have hend : StringsEnd data stop pos () := fun h => absurd h hin
      simp only [if_neg hin, reads_strings_ends hend]
      exact ok_whole_iff

end Loops

section Rdata

variable {data : List UInt8} {base : ℕ} (hs : data.length < maxBytes)

theorem peek_slice {a b i : ℕ} (hb : b ≤ data.length) (hi : a + i < b) :
    peek (slice data a b) i = peek data (a + i) := by
  have hlen := @length_slice _ data a b hb
  rw [peek_eq_getElem (by omega), peek_eq_getElem (by omega)]
  simp [slice]

variable {pos rdlen : ℕ} (hr : pos + rdlen ≤ data.length) {rtype : UInt16}
include hs hr

theorem unknownRdata_eq_ok (rtype : UInt16) : unknownRdata data pos rdlen rtype =
    ok (.unknown rtype (slice data pos (pos + rdlen))) := by
  have hmax : maxBytes = 2 ^ 63 := rfl
  rw [unknownRdata, addUsize_eq hs (by omega) (by omega), ok_bind, sliceAt,
    if_pos ⟨Nat.le_add_right _ _, hr⟩]
  rfl

variable (hb : base ≤ data.length)
include hb

omit hr in
theorem nameRdata_of_nameAt {start stop : ℕ} {text : String} (h : NameAt data base start text stop)
    (rtype : UInt16) (mk : String → DnsRdata) :
    nameRdata data pos rdlen base rtype start mk = ok (mk text) := by
  rw [nameRdata, orUnknown, (dnsName_eq_ok_iff hs hb).mpr h]
  rfl

theorem nameRdata_of_not {start : ℕ} (h : ¬HasName data base start) (rtype : UInt16)
    (mk : String → DnsRdata) : nameRdata data pos rdlen base rtype start mk =
      ok (.unknown rtype (slice data pos (pos + rdlen))) := by
  have hread : dnsName data base start = refuse := by
    rcases dnsName_cases hs hb start with ⟨_, _, -, hname⟩ | ⟨hread, -⟩
    · exact absurd (hasName_iff.mpr ⟨_, _, hname⟩) h
    · exact hread
  rw [nameRdata, orUnknown, hread, ← unknownRdata_eq_ok hs hr rtype]
  rfl

omit hb in
theorem parseRdata_of_nameOffset {k : ℕ} (hk : nameOffset rtype rdlen = some k) (base : ℕ) :
    parseRdata data pos rdlen base rtype = nameRdata data pos rdlen base rtype (pos + k)
      (namedData data rtype pos k) := by
  have hmax : maxBytes = 2 ^ 63 := rfl
  unfold nameOffset at hk
  split_ifs at hk with hname hmx hsrv
  · cases hk
    rcases hname with rfl | rfl | rfl <;> rfl
  · cases hk
    obtain ⟨rfl, hlen⟩ := hmx
    have hread : parseRdata data pos rdlen base 15 =
        if (15 : UInt16) = 15 ∧ 3 ≤ rdlen then do
          let preference ← be16At data pos 0
          let start ← addUsize pos 2
          nameRdata data pos rdlen base 15 start (.mx preference)
        else unknownRdata data pos rdlen 15 := rfl
    rw [hread, if_pos ⟨rfl, hlen⟩, be16At_eq hs (by omega), ok_bind,
      addUsize_eq hs (by omega) (by omega), ok_bind]
    rfl
  · cases hk
    obtain ⟨rfl, hlen⟩ := hsrv
    have hread : parseRdata data pos rdlen base 33 =
        if (33 : UInt16) = 33 ∧ 6 ≤ rdlen then do
          let priority ← be16At data pos 0
          let weight ← be16At data pos 2
          let port ← be16At data pos 4
          let start ← addUsize pos 6
          nameRdata data pos rdlen base 33 start (.srv priority weight port)
        else unknownRdata data pos rdlen 33 := rfl
    rw [hread, if_pos ⟨rfl, hlen⟩, be16At_eq hs (by omega), ok_bind, be16At_eq hs (by omega), ok_bind,
      be16At_eq hs (by omega), ok_bind, addUsize_eq hs (by omega) (by omega), ok_bind]
    rfl

omit hr in
theorem soaRdata_of_not (h : ¬HasSoa data base pos) : soaRdata data pos base = refuse := by
  cases hread : soaRdata data pos base with
  | ok d =>
    have haccepts : Accepts (soaRdata data pos base) := by
      rw [hread]
      exact accepts_ok d
    exact absurd ((soaRdata_accepts_iff hs hb pos).mp haccepts) h
  | refuse => rfl
  | fault f =>
    have hholds : Holds (soaRdata data pos base) fun _ => True := holds_soaRdata hs hb
    rw [hread] at hholds
    exact hholds.elim

theorem parseRdata_plain (htype : rtype ≠ 16) (hnone : ¬HasNames data base rtype pos rdlen) :
    parseRdata data pos rdlen base rtype = ok (plainData rtype (slice data pos (pos + rdlen))) := by
  have hmax : maxBytes = 2 ^ 63 := rfl
  have hlen : (slice data pos (pos + rdlen)).length = rdlen := by
    rw [length_slice hr, Nat.add_sub_cancel_left]
  obtain ⟨hname, hsoa⟩ := not_or.mp hnone
  cases hk : nameOffset rtype rdlen with
  | some k =>
    have hnone : ¬HasName data base (pos + k) := fun h => hname ⟨k, hk, h⟩
    have hone : rtype ≠ 1 ∧ rtype ≠ 28 := by
      unfold nameOffset at hk
      split_ifs at hk with hname hmx hsrv
      · rcases hname with rfl | rfl | rfl <;> decide
      · rw [hmx.1]
        decide
      · rw [hsrv.1]
        decide
    rw [parseRdata_of_nameOffset hs hr hk, nameRdata_of_not hs hr hb hnone, plainData,
      if_neg fun h => hone.1 h.1, if_neg fun h => hone.2 h.1]
  | none =>
    unfold nameOffset at hk
    split_ifs at hk with hname hmx hsrv
    obtain ⟨hcname, hns, hptr⟩ : rtype ≠ 5 ∧ rtype ≠ 2 ∧ rtype ≠ 12 := by
      push Not at hname
      exact hname
    rw [parseRdata, plainData, hlen]
    by_cases ha : rtype = 1 ∧ rdlen = 4
    · rw [if_pos ha, if_pos ha, be32At_eq hs (by omega), ok_bind, dwordAt, peek_slice hr (by omega),
        peek_slice hr (by omega), peek_slice hr (by omega), peek_slice hr (by omega)]
      rfl
    by_cases haaaa : rtype = 28 ∧ rdlen = 16
    · rw [if_neg ha, if_neg ha, if_pos haaaa, if_pos haaaa, addUsize_eq hs (by omega) (by omega), ok_bind,
        sliceAt, if_pos ⟨by omega, by omega⟩, haaaa.2]
      rfl
    rw [if_neg ha, if_neg ha, if_neg haaaa, if_neg haaaa, if_neg hcname, if_neg hns, if_neg hptr,
      if_neg hmx, if_neg htype, if_neg hsrv]
    by_cases h6 : rtype = 6
    · rw [if_pos h6, orUnknown, soaRdata_of_not hs hb fun h => hsoa ⟨h6, h⟩,
        ← unknownRdata_eq_ok hs hr rtype]
      rfl
    · rw [if_neg h6, unknownRdata_eq_ok hs hr]

omit hb in
theorem parseRdata_txt (base : ℕ) : parseRdata data pos rdlen base 16 =
    txtLoop data (pos + rdlen) (rdlen + 1) pos [] >>= fun strings => ok (.txt strings) := by
  have hmax : maxBytes = 2 ^ 63 := rfl
  have hread : parseRdata data pos rdlen base 16 = (do
    let stop ← addUsize pos rdlen
    let strings ← txtLoop data stop (rdlen + 1) pos []
    return .txt strings) := rfl
  rw [hread, addUsize_eq hs (by omega) (by omega)]
  rfl

/-- What stands there as the data of a record is what `parse_rdata` gives. -/
theorem DataAt.parse {d : DnsRdata} (h : DataAt data base rtype pos rdlen d) :
    parseRdata data pos rdlen base rtype = ok d := by
  have hmax : maxBytes = 2 ^ 63 := rfl
  cases h with
  | named hk hname => rw [parseRdata_of_nameOffset hs hr hk, nameRdata_of_nameAt hs hb hname]
  | soa htype hm hrn hfits =>
    have hread : parseRdata data pos rdlen base 6 =
        orUnknown data pos rdlen 6 (soaRdata data pos base) := rfl
    have hp := hm.le
    have hq := hrn.le
    subst htype
    rw [hread, orUnknown, soaRdata, (dnsName_eq_ok_iff hs hb).mpr hm, ok_bind]
    dsimp only
    rw [(dnsName_eq_ok_iff hs hb).mpr hrn, ok_bind]
    dsimp only
    rw [addUsize_eq hs hq (by omega), ok_bind, if_neg (not_lt.mpr hfits)]
    simp (disch := omega) only [be32At_eq hs, ok_bind]
    rfl
  | strings htype h =>
    subst htype
    rw [parseRdata_txt hs hr, (txtLoop_eq_ok_iff hs hr (Nat.succ_pos _) (by omega) [] _).mpr ⟨_, rfl, h⟩]
    rfl
  | plain htype hnone => exact parseRdata_plain hs hr hb htype hnone

omit hb in
theorem exists_dataAt (base : ℕ) (rtype : UInt16) : ∃ d, DataAt data base rtype pos rdlen d := by
  by_cases htype : rtype = 16
  · have haccepts := accepts_txtLoop data (pos + rdlen) (rdlen + 1) pos []
    obtain ⟨r, hloop, -⟩ :=
      (holds_txtLoop hs hr [] (Nat.succ_pos rdlen) (by omega)).returns haccepts
    obtain ⟨l, -, hl⟩ := (txtLoop_eq_ok_iff hs hr (Nat.succ_pos _) (by omega) [] r).mp hloop
    exact ⟨_, .strings htype hl⟩
  by_cases hnames : HasNames data base rtype pos rdlen
  · rcases hnames with ⟨k, hk, hname⟩ | ⟨h6, hsoa⟩
    · obtain ⟨text, stop, hname⟩ := hasName_iff.mp hname
      exact ⟨_, .named hk hname⟩
    · obtain ⟨mname, rname, p, q, hm, hrn, hfits⟩ := hasSoa_iff.mp hsoa
      exact ⟨_, .soa h6 hm hrn hfits⟩
  · exact ⟨_, .plain htype hnames⟩

theorem parseRdata_eq_ok_iff (d : DnsRdata) :
    parseRdata data pos rdlen base rtype = ok d ↔ DataAt data base rtype pos rdlen d := by
  constructor
  · intro hread
    obtain ⟨d', hd'⟩ := exists_dataAt hs hr base rtype
    cases hread.symm.trans (hd'.parse hs hr hb)
    exact hd'
  · exact fun h => h.parse hs hr hb

end Rdata

section Records

variable {data : List UInt8} {base : ℕ} (hs : data.length < maxBytes) (hb : base ≤ data.length)
include hs hb

theorem parseRr_eq_ok_iff (start : ℕ) (r : DnsRecord) (next : ℕ) :
    parseRr data start base = ok (r, next) ↔
      RecordAt data base ⟨1, start⟩ r ⟨0, next⟩ := by
  have hmax : maxBytes = 2 ^ 63 := rfl
  rw [parseRr]
  rcases dnsName_cases hs hb start with ⟨text, stop, hread, hname⟩ | ⟨hread, hnone⟩
  · have hle := hname.le
    rw [hread, ok_bind]
    dsimp only
    rw [addUsize_eq hs hle (by omega), ok_bind]
    have hout (hcut : data.length < stop + 10 + (wordAt data (stop + 8)).toNat) :
        ¬RecordAt data base ⟨1, start⟩ r ⟨0, next⟩ := by
      rintro ⟨hname', hfits⟩
      obtain ⟨-, rfl⟩ := hname.unique hname'
      omega
    by_cases hhead : data.length < stop + 10
    · rw [if_pos hhead]
      refine iff_of_false ?_ (hout (by omega))
      rintro ⟨⟩
    rw [if_neg hhead]
    simp (disch := omega) only [be16At_eq hs, be32At_eq hs, ok_bind]
    change addUsize (stop + 10) (wordAt data (stop + 8)).toNat >>= _ = _ ↔ _
    have hlen := (wordAt data (stop + 8)).toNat_lt
    rw [addUsize_eq hs (by omega) (by omega), ok_bind]
    by_cases hcut : data.length < stop + 10 + (wordAt data (stop + 8)).toNat
    · rw [if_pos hcut]
      refine iff_of_false ?_ (hout hcut)
      rintro ⟨⟩
    rw [if_neg hcut, bind_eq_ok]
    constructor
    · rintro ⟨d, hd, ⟨⟩⟩
      exact ⟨hname, not_lt.mp hcut, rfl, rfl, rfl,
        (parseRdata_eq_ok_iff hs (not_lt.mp hcut) hb d).mp hd, rfl, rfl⟩
    · rintro ⟨hname', -, htype, hclass, httl, hdata, -, hnext⟩
      obtain ⟨htext, rfl⟩ := hname.unique hname'
      obtain ⟨name, rtype, rclass, ttl, rdata⟩ := r
      cases htext
      cases htype
      cases hclass
      cases httl
      cases hnext
      exact ⟨_, (parseRdata_eq_ok_iff hs (not_lt.mp hcut) hb _).mpr hdata, rfl⟩
  · rw [hread, refuse_bind]
    constructor
    · rintro ⟨⟩
    · rintro ⟨hname⟩
      exact (hnone (hasName_iff.mpr ⟨_, _, hname⟩)).elim

theorem parseRr_cases (start : ℕ) : (∃ r next, parseRr data start base = ok (r, next)) ∨
    parseRr data start base = refuse ∧ ¬HasRecord data base start := by
  cases hread : parseRr data start base with
  | ok p => exact Or.inl ⟨_, _, rfl⟩
  | refuse =>
    refine Or.inr ⟨rfl, ?_⟩
    rintro ⟨text, stop, hname, hfits⟩
    obtain ⟨d, hd⟩ := exists_dataAt hs hfits base (wordAt data stop)
    have hrecord : RecordAt data base ⟨1, start⟩
        ⟨text, wordAt data stop, wordAt data (stop + 2), dwordAt data (stop + 4), d⟩
        ⟨0, stop + 10 + (wordAt data (stop + 8)).toNat⟩ := ⟨hname, hfits, rfl, rfl, rfl, hd, rfl, rfl⟩
    rw [(parseRr_eq_ok_iff hs hb start _ _).mpr hrecord] at hread
    cases hread
  | fault f =>
    have hholds := holds_parseRr hs hb start
    rw [hread] at hholds
    exact hholds.elim

theorem reads_records_cons {count pos next e : ℕ} {rec : DnsRecord} {records : List DnsRecord}
    (hread : parseRr data pos base = ok (rec, next)) :
    Reads (RecordAt data base) (RecordsEnd data base) ⟨count + 1, pos⟩ records e ↔
      ∃ rest, records = rec :: rest ∧
        Reads (RecordAt data base) (RecordsEnd data base) ⟨count, next⟩ rest e := by
  have hrecord := (parseRr_eq_ok_iff hs hb pos rec next).mp hread
  constructor
  · intro h
    cases h with
    | ends hend =>
      obtain ⟨hname, hfits⟩ := hrecord
      exact absurd ⟨_, _, hname, hfits⟩ (hend.1 (Nat.succ_ne_zero _))
    | @item _ t rec' l _ hitem hrest =>
      obtain ⟨hname, hfits, htype, hclass, httl, hdata, hleft, hpos⟩ := hitem
      obtain ⟨left, p⟩ := t
      cases hleft
      have hrecord' : RecordAt data base ⟨1, pos⟩ rec' ⟨0, p⟩ :=
        ⟨hname, hfits, htype, hclass, httl, hdata, rfl, hpos⟩
      have hsame := hread.symm.trans ((parseRr_eq_ok_iff hs hb pos rec' p).mpr hrecord')
      cases hsame
      exact ⟨l, rfl, hrest⟩
  · rintro ⟨rest, rfl, hrest⟩
    obtain ⟨hname, hfits, htype, hclass, httl, hdata, -, hpos⟩ := hrecord
    exact .item (t := ⟨count, next⟩) ⟨hname, hfits, htype, hclass, httl, hdata, rfl, hpos⟩ hrest

/-- The loop over the records of a section takes the records that stand in its row. -/
theorem parseRecords_eq_ok_iff (count pos : ℕ) (out r : List DnsRecord) (e : ℕ) :
    parseRecords data base count pos out = ok (r, e) ↔ ∃ l, r = out ++ l ∧
      Reads (RecordAt data base) (RecordsEnd data base) ⟨count, pos⟩ l e := by
  induction count generalizing pos out with
  | zero =>
    have hend : 0 ≠ 0 → ¬HasRecord data base pos := fun h => absurd rfl h
    simp only [parseRecords, reads_records_ends hend]
    exact ok_done_iff
  | succ count ih =>
    rw [parseRecords]
    rcases parseRr_cases hs hb pos with ⟨rec, next, hread⟩ | ⟨hread, hnone⟩
    · rw [hread, attempt, ok_bind]
      simp only [reads_records_cons hs hb hread]
      exact (ih next _).trans exists_append_cons_iff
    · rw [hread, attempt, ok_bind]
      simp only [reads_records_ends fun _ => hnone]
      exact ok_done_iff

end Records

end Pktscope

import Mathlib.Data.List.TakeWhile
import Pktscope.Decode.DnsNames
import Pktscope.Library.DnsFormat

/-! # Decoding what is written

The decoder finds in a message what was written there, as long as every name ends
after at most 128 pointers.
-/

namespace Pktscope

open Library Parse

section Info

def questionInfo (q : WireQuestion String) : DnsQuestion := ⟨q.qname, q.qtype, q.qclass⟩

def rdataInfo : WireData String → DnsRdata
  | .a ip => .a ip
  | .aaaa ip => .aaaa ip
  | .cname name => .cname name
  | .ns name => .ns name
  | .ptr name => .ptr name
  | .mx preference exchange => .mx preference exchange
  | .txt strings => .txt strings
  | .srv priority weight port target => .srv priority weight port target
  | .soa mname rname serial refresh retry expire minimum =>
    .soa mname rname serial refresh retry expire minimum
  | .other rtype data => .unknown rtype data

def recordInfo (r : WireRecord String) : DnsRecord :=
  ⟨r.name, r.data.rtype, r.rclass, r.ttl, rdataInfo r.data⟩

/-- What the decoder shows of a message in a range. -/
def messageInfo (m : WireMessage String) (range : ByteRange) : DnsInfo where
  transactionId := m.header.id
  isResponse := m.header.response
  rcode := UInt8.ofNat m.header.rcode
  questions := m.questions.map questionInfo
  answers := m.answers.map recordInfo
  authorities := m.authorities.map recordInfo
  additionals := m.additionals.map recordInfo
  headerRange := range

end Info

/-- The names of the data that take too many pointers. -/
def Deep (d : WireData NameForm) : Prop := ∃ x ∈ d.places 0, 128 < x.2.pointers

instance (d : WireData NameForm) : Decidable (Deep d) :=
  inferInstanceAs (Decidable (∃ x ∈ d.places 0, 128 < x.2.pointers))

/-- What the decoder shows of the data of a record: bytes, if a name in it takes too many pointers. -/
def rdataShown (d : WireData NameForm) : DnsRdata :=
  if Deep d then .unknown d.rtype d.bytes else rdataInfo (d.map nameText)

def recordShown (r : WireRecord NameForm) : DnsRecord :=
  ⟨nameText r.name, r.data.rtype, r.rclass, r.ttl, rdataShown r.data⟩

/-- The records of a section up to the first whose name takes too many pointers. -/
def readRecords (l : List (WireRecord NameForm)) : List (WireRecord NameForm) :=
  l.takeWhile fun r => r.name.pointers ≤ 128

theorem readRecords_eq_iff {l : List (WireRecord NameForm)} :
    readRecords l = l ↔ ∀ r ∈ l, r.name.pointers ≤ 128 := by
  rw [readRecords, List.takeWhile_eq_self_iff]
  simp only [decide_eq_true_eq]

theorem readRecords_eq_of_length {l : List (WireRecord NameForm)}
    (h : (readRecords l).length = l.length) : readRecords l = l :=
  (List.takeWhile_prefix _).eq_of_length h

section Written

variable {data : List UInt8} {base pos : ℕ} (hs : data.length < maxBytes) (hb : base ≤ data.length)
include hs

theorem unknownRdata_written {bytes : List UInt8} (h : StandsAt data pos bytes) (rtype : UInt16) :
    unknownRdata data pos bytes.length rtype = ok (.unknown rtype bytes) := by
  have hle := h.le
  rw [unknownRdata, addUsize_eq hs (by omega) (by omega), ok_bind, h.sliceAt rfl]
  rfl

include hb

theorem nameRdata_written {bytes : List UInt8} (h : StandsAt data pos bytes) (rtype : UInt16)
    {start : ℕ} {w : NameForm} (hw : w.Written data base start) (mk : String → DnsRdata) :
    nameRdata data pos bytes.length base rtype start mk =
      ok (if 128 < w.pointers then .unknown rtype bytes else mk (nameText w)) := by
  rw [nameRdata, orUnknown]
  by_cases hdeep : 128 < w.pointers
  · rw [dnsName_deep hs hb hw hdeep, if_pos hdeep, ← unknownRdata_written hs h rtype]
    rfl
  · rw [dnsName_written hs hb hw (not_lt.mp hdeep), if_neg hdeep]
    rfl

omit hb in
theorem txtLoop_written {stop : ℕ} (l : List String) (hshort : ∀ s ∈ l, (utf8Bytes s).length < 2 ^ 8)
    (hat : StandsAt data pos (l.flatMap fun s => vec8 (utf8Bytes s)))
    (hstop : stop = pos + (l.flatMap fun s => vec8 (utf8Bytes s)).length) {rounds : ℕ}
    (hrounds : (l.flatMap fun s => vec8 (utf8Bytes s)).length < rounds) (strings : List String) :
    txtLoop data stop rounds pos strings = ok (strings ++ l) := by
  have hmax : maxBytes = 2 ^ 63 := rfl
  induction l generalizing pos rounds strings with
  | nil =>
    obtain ⟨rounds, rfl⟩ := Nat.exists_eq_succ_of_ne_zero (Nat.ne_of_gt hrounds)
    rw [txtLoop, if_neg (by rw [hstop]; exact Nat.lt_irrefl _), List.append_nil]
    rfl
  | cons s l ih =>
    obtain ⟨rounds, rfl⟩ := Nat.exists_eq_succ_of_ne_zero (Nat.ne_of_gt (Nat.zero_lt_of_lt hrounds))
    have hs8 := hshort s List.mem_cons_self
    have hle := hat.le
    rw [List.flatMap_cons] at hat hrounds hstop hle
    rw [List.length_append, length_vec8] at hrounds hstop hle
    have hhead : (UInt8.ofNat (utf8Bytes s).length).toNat = (utf8Bytes s).length := by
      rw [UInt8.toNat_ofNat', Nat.mod_eq_of_lt hs8]
    have htext : StandsAt data (pos + 1) (utf8Bytes s) := hat.left.tail
    rw [txtLoop, if_pos (by omega), StandsAt.index hat.left, ok_bind,
      addUsize_eq hs (by omega) (by omega), ok_bind, hhead, addUsize_eq hs (by omega) (by omega),
      ok_bind, if_neg (by omega), htext.sliceAt rfl, ok_bind, fromUtf8Lossy_utf8Bytes]
    have hrest : StandsAt data (pos + 1 + (utf8Bytes s).length)
        (l.flatMap fun s => vec8 (utf8Bytes s)) := by
      have hright := hat.right
      rwa [length_vec8, Nat.add_comm (utf8Bytes s).length, ← Nat.add_assoc] at hright
    rw [ih (fun s hs => hshort s (List.mem_cons_of_mem _ hs)) hrest (by omega) (by omega),
      List.append_assoc, List.singleton_append]

omit hs hb in
theorem rdataShown_single {d : WireData NameForm} {p : ℕ} {w : NameForm} (h : d.places 0 = [(p, w)]) :
    rdataShown d = if 128 < w.pointers then .unknown d.rtype d.bytes else rdataInfo (d.map nameText) := by
  have hdeep : Deep d ↔ 128 < w.pointers := by
    rw [Deep, h]
    constructor
    · rintro ⟨x, hx, hlt⟩
      rwa [List.mem_singleton.mp hx] at hlt
    · exact fun hlt => ⟨(p, w), List.mem_singleton_self _, hlt⟩
  rw [rdataShown, if_congr hdeep rfl rfl]

omit hs hb in
theorem rdataShown_nameless {d : WireData NameForm} (h : d.places 0 = []) :
    rdataShown d = rdataInfo (d.map nameText) := by
  rw [rdataShown, if_neg]
  rintro ⟨x, hx, -⟩
  rw [h] at hx
  cases hx

theorem soaRdata_written {m r : NameForm} (hm : m.Written data base pos)
    (hr : r.Written data base (pos + m.bytes.length)) {serial refresh retry expire minimum : UInt32}
    (hat : StandsAt data (pos + m.bytes.length + r.bytes.length) (toBe32 serial ++
      (toBe32 refresh ++ (toBe32 retry ++ (toBe32 expire ++ toBe32 minimum))))) :
    soaRdata data pos base = if 128 < m.pointers ∨ 128 < r.pointers then refuse
      else ok (.soa (nameText m) (nameText r) serial refresh retry expire minimum) := by
  have hmax : maxBytes = 2 ^ 63 := rfl
  rw [soaRdata]
  by_cases hdeep : 128 < m.pointers
  · rw [dnsName_deep hs hb hm hdeep, if_pos (.inl hdeep)]
    rfl
  by_cases hdeep' : 128 < r.pointers
  · rw [dnsName_written hs hb hm (not_lt.mp hdeep), ok_bind]
    dsimp only
    rw [dnsName_deep hs hb hr hdeep', if_pos (.inr hdeep')]
    rfl
  rw [dnsName_written hs hb hm (not_lt.mp hdeep), ok_bind]
  dsimp only
  rw [dnsName_written hs hb hr (not_lt.mp hdeep'), ok_bind, if_neg (not_or.mpr ⟨hdeep, hdeep'⟩)]
  dsimp only
  have hle := hat.le
  simp only [List.length_append, length_toBe32] at hle
  generalize pos + m.bytes.length + r.bytes.length = o at hat hle
  have h₁ := StandsAt.be32At hs (o := o) (k := 0) hat
  have h₂ := StandsAt.be32At hs (o := o) (k := 4) hat.right
  have h₃ := StandsAt.be32At hs (o := o) (k := 8) hat.right.right
  have h₄ := StandsAt.be32At hs (o := o) (k := 12) hat.right.right.right
  have hlast : StandsAt data (o + 16) (toBe32 minimum ++ []) := by
    rw [List.append_nil]
    exact hat.right.right.right.right
  have h₅ := StandsAt.be32At hs hlast
  rw [addUsize_eq hs (by omega) (by omega), ok_bind, if_neg (by omega), h₁, ok_bind, h₂, ok_bind, h₃,
    ok_bind, h₄, ok_bind, h₅]
  rfl

theorem parseRdata_written (d : WireData NameForm) (hfits : d.Fits) (hat : StandsAt data pos d.bytes)
    {p : ℕ} (hpos : pos = base + p) (hnames : ∀ x ∈ d.places p, x.2.Written data base (base + x.1)) :
    parseRdata data pos d.bytes.length base d.rtype = ok (rdataShown d) := by
  have hmax : maxBytes = 2 ^ 63 := rfl
  have hle := hat.le
  have hone {w : NameForm} {k : ℕ} {mk : String → DnsRdata} (hplaces : d.places p = [(p + k, w)])
      (hzero : d.places 0 = [(k, w)]) (hmk : rdataInfo (d.map nameText) = mk (nameText w)) :
      nameRdata data pos d.bytes.length base d.rtype (pos + k) mk = ok (rdataShown d) := by
    have hname := hnames (p + k, w) (by rw [hplaces]; exact List.mem_singleton_self _)
    rw [← Nat.add_assoc, ← hpos] at hname
    rw [nameRdata_written hs hb hat d.rtype hname, rdataShown_single hzero, hmk]
  cases d with
  | a ip =>
    have hread : StandsAt data (pos + 0) (toBe32 ip ++ []) := by
      rw [List.append_nil]
      exact hat
    change (be32At data pos 0 >>= _) = _
    rw [StandsAt.be32At hs hread, rdataShown_nameless rfl]
    rfl
  | aaaa ip =>
    have hlen : pos + 16 ≤ data.length := hle
    change (addUsize pos 16 >>= _) = _
    have hslice : sliceAt data pos (pos + 16) = ok (toBe 16 ip.toNat) := hat.sliceAt rfl
    rw [addUsize_eq hs (by omega) (by omega), ok_bind, hslice, ok_bind, rdataShown_nameless rfl]
    change ok (DnsRdata.aaaa (BitVec.ofNat 128 (beNat (toBe 16 ip.toNat)))) = _
    rw [beNat_toBe ip.isLt, BitVec.ofNat_toNat, BitVec.setWidth_eq]
    rfl
  | cname name => exact hone (k := 0) rfl rfl rfl
  | ns name => exact hone (k := 0) rfl rfl rfl
  | ptr name => exact hone (k := 0) rfl rfl rfl
  | mx preference exchange =>
    have hlong : 3 ≤ (WireData.mx preference exchange).bytes.length := by
      have := exchange.length_bytes_pos
      simp only [WireData.bytes, List.length_append, length_toBe16]
      omega
    change (if (15 : UInt16) = 15 ∧ 3 ≤ (WireData.mx preference exchange).bytes.length then _ else _)
      = _
    have hpreference : be16At data pos 0 = ok preference := StandsAt.be16At hs hat
    rw [if_pos ⟨rfl, hlong⟩, hpreference, ok_bind, addUsize_eq hs (by omega) (by omega), ok_bind]
    exact hone (k := 2) rfl rfl rfl
  | txt strings =>
    change (addUsize pos _ >>= _) = _
    have hstop := addUsize_eq hs (show pos ≤ data.length by omega)
      (show (WireData.txt strings).bytes.length ≤ maxBytes by omega)
    have hloop := txtLoop_written hs strings (hfits.strings strings rfl) hat rfl
      (Nat.lt_succ_self _) []
    rw [hstop, ok_bind]
    change (txtLoop data (pos + _) (_ + 1) pos [] >>= _) = _
    rw [WireData.bytes, hloop, rdataShown_nameless rfl]
    rfl
  | srv priority weight port target =>
    have hlong : 6 ≤ (WireData.srv priority weight port target).bytes.length := by
      simp only [WireData.bytes, List.length_append, length_toBe16]
      omega
    change parseRdata data pos _ base 33 = _
    have h₁ : be16At data pos 0 = ok priority := StandsAt.be16At hs hat
    have h₂ : be16At data pos 2 = ok weight := StandsAt.be16At hs hat.right
    have h₃ : be16At data pos 4 = ok port := StandsAt.be16At hs hat.right.right
    rw [parseRdata, if_neg fun h => absurd h.1 (by decide), if_neg fun h => absurd h.1 (by decide),
      if_neg (by decide), if_neg (by decide), if_neg (by decide),
      if_neg fun h => absurd h.1 (by decide), if_neg (by decide), if_pos ⟨rfl, hlong⟩, h₁, ok_bind,
      h₂, ok_bind, h₃, ok_bind, addUsize_eq hs (by omega) (by omega), ok_bind]
    exact hone (k := 6) rfl rfl rfl
  | soa mname rname serial refresh retry expire minimum =>
    have hm := hnames (p, mname) List.mem_cons_self
    have hr := hnames (p + mname.bytes.length, rname)
      (List.mem_cons_of_mem _ List.mem_cons_self)
    rw [← hpos] at hm
    rw [← Nat.add_assoc, ← hpos] at hr
    change orUnknown data pos _ 6 (soaRdata data pos base) = _
    have hunknown := unknownRdata_written hs hat 6
    rw [soaRdata_written hs hb hm hr hat.right.right, rdataShown]
    have hdeep : Deep (.soa mname rname serial refresh retry expire minimum) ↔
        128 < mname.pointers ∨ 128 < rname.pointers := by
      unfold Deep
      simp only [WireData.places, List.mem_cons, List.not_mem_nil, or_false, exists_eq_or_imp,
        exists_eq_left]
    by_cases h : 128 < mname.pointers ∨ 128 < rname.pointers
    · rw [if_pos h, if_pos (hdeep.mpr h)]
      exact hunknown
    · rw [if_neg h, if_neg (mt hdeep.mp h)]
      rfl
  | other rtype bytes =>
    have htype := hfits.type rtype bytes rfl
    simp only [formedTypes, List.mem_cons, List.not_mem_nil, or_false, not_or] at htype
    obtain ⟨h₁, h₂₈, h₅, h₂, h₁₂, h₁₅, h₁₆, h₃₃, h₆⟩ := htype
    have hread : unknownRdata data pos bytes.length rtype = ok (.unknown rtype bytes) :=
      unknownRdata_written hs hat rtype
    change parseRdata data pos bytes.length base rtype = _
    rw [parseRdata, if_neg fun h => h₁ h.1, if_neg fun h => h₂₈ h.1, if_neg h₅, if_neg h₂, if_neg h₁₂,
      if_neg fun h => h₁₅ h.1, if_neg h₁₆, if_neg fun h => h₃₃ h.1, if_neg h₆,
      hread, rdataShown_nameless rfl]
    rfl

theorem parseRr_written (r : WireRecord NameForm) (hfits : r.data.Fits) {p : ℕ}
    (hat : StandsAt data (base + p) r.bytes)
    (hnames : ∀ x ∈ r.places p, x.2.Written data base (base + x.1)) :
    parseRr data (base + p) base = if 128 < r.name.pointers then refuse
      else ok (recordShown r, base + p + r.bytes.length) := by
  have hmax : maxBytes = 2 ^ 63 := rfl
  have hname := hnames (p, r.name) List.mem_cons_self
  rw [parseRr]
  by_cases hdeep : 128 < r.name.pointers
  · rw [dnsName_deep hs hb hname hdeep, if_pos hdeep]
    rfl
  have hlength : r.bytes.length = r.name.bytes.length + 10 + r.data.bytes.length := by
    simp only [WireRecord.bytes, List.length_append, length_toBe16, length_toBe32, length_vec16]
    omega
  have hle := hat.le
  have hdata := hfits.length
  have hat' := hat.right
  rw [if_neg hdeep, dnsName_written hs hb hname (not_lt.mp hdeep), ok_bind]
  dsimp only
  have hpos : base + p + r.name.bytes.length = base + (p + r.name.bytes.length) := Nat.add_assoc _ _ _
  have h₁ : be16At data (base + p + r.name.bytes.length) 0 = ok r.data.rtype :=
    StandsAt.be16At hs hat'
  have h₂ : be16At data (base + p + r.name.bytes.length) 2 = ok r.rclass :=
    StandsAt.be16At hs hat'.right
  have h₃ : be32At data (base + p + r.name.bytes.length) 4 = ok r.ttl :=
    StandsAt.be32At hs hat'.right.right
  have h₄ : be16At data (base + p + r.name.bytes.length) 8 =
      ok (UInt16.ofNat r.data.bytes.length) := StandsAt.be16At hs hat'.right.right.right
  have hrdlen : (UInt16.ofNat r.data.bytes.length).toNat = r.data.bytes.length := by
    rw [UInt16.toNat_ofNat', Nat.mod_eq_of_lt hdata]
  have hrdata : StandsAt data (base + p + r.name.bytes.length + 10) r.data.bytes :=
    hat'.right.right.right.right
  have hread := parseRdata_written hs hb r.data hfits hrdata
    (p := p + r.name.bytes.length + 10) (by omega)
    fun x hx => hnames x (List.mem_cons_of_mem _ hx)
  rw [addUsize_eq hs (by omega) (by omega), ok_bind, if_neg (by omega), h₁, ok_bind, h₂, ok_bind, h₃,
    ok_bind, h₄, ok_bind, hrdlen, addUsize_eq hs (by omega) (by omega), ok_bind, if_neg (by omega),
    hread, hlength]
  change ok (recordShown r, _) = ok (recordShown r, _)
  congr 2
  omega

omit hs hb in
theorem accepts_parseRecords (count pos : ℕ) (out : List DnsRecord) :
    Accepts (parseRecords data base count pos out) := by
  induction count generalizing pos out with
  | zero => exact accepts_ok _
  | succ count ih =>
    unfold parseRecords
    have hattempt : Accepts (parseRr data pos base).attempt := by
      cases parseRr data pos base with
      | ok a => exact accepts_ok _
      | refuse => exact accepts_ok _
      | fault e => exact accepts_fault e
    refine hattempt.bind fun o => ?_
    cases o with
    | some r => exact ih _ _
    | none => exact accepts_ok _

theorem parseRecords_written (l : List (WireRecord NameForm)) (hfits : ∀ r ∈ l, r.data.Fits) {p : ℕ}
    (hat : StandsAt data (base + p) (l.flatMap WireRecord.bytes))
    (hnames : ∀ x ∈ placesFrom WireRecord.bytes WireRecord.places p l,
      x.2.Written data base (base + x.1)) (out : List DnsRecord) :
    parseRecords data base l.length (base + p) out =
      ok (out ++ (readRecords l).map recordShown,
        base + p + ((readRecords l).flatMap WireRecord.bytes).length) := by
  unfold readRecords
  induction l generalizing p out with
  | nil =>
    rw [List.takeWhile_nil, List.map_nil, List.append_nil]
    rfl
  | cons r l ih =>
    rw [List.flatMap_cons] at hat
    rw [placesFrom] at hnames
    rw [List.length_cons, parseRecords, parseRr_written hs hb r (hfits r List.mem_cons_self) hat.left
      fun x hx => hnames x (List.mem_append_left _ hx)]
    by_cases hdeep : 128 < r.name.pointers
    · rw [if_pos hdeep, List.takeWhile_cons_of_neg (by simpa using hdeep), List.map_nil,
        List.append_nil]
      rfl
    rw [if_neg hdeep, List.takeWhile_cons_of_pos (by simpa using not_lt.mp hdeep), List.map_cons,
      List.flatMap_cons, List.length_append]
    change parseRecords data base l.length (base + p + r.bytes.length) (out ++ [recordShown r]) = _
    have hright := hat.right
    rw [Nat.add_assoc] at hright ⊢
    rw [ih (fun r hr => hfits r (List.mem_cons_of_mem _ hr)) hright
      fun x hx => hnames x (List.mem_append_right _ hx), List.append_assoc, List.singleton_append]
    congr 2
    omega

def questionShown (q : WireQuestion NameForm) : DnsQuestion := ⟨nameText q.qname, q.qtype, q.qclass⟩

theorem parseQuestions_written (l : List (WireQuestion NameForm)) {p : ℕ}
    (hat : StandsAt data (base + p) (l.flatMap WireQuestion.bytes))
    (hnames : ∀ x ∈ placesFrom WireQuestion.bytes WireQuestion.places p l,
      x.2.Written data base (base + x.1)) (out : List DnsQuestion) :
    parseQuestions data base l.length (base + p) out =
      if ∃ q ∈ l, 128 < q.qname.pointers then refuse
      else ok (out ++ l.map questionShown, base + p + (l.flatMap WireQuestion.bytes).length) := by
  have hmax : maxBytes = 2 ^ 63 := rfl
  induction l generalizing p out with
  | nil =>
    rw [if_neg (by rintro ⟨q, hq, -⟩; cases hq), List.map_nil, List.append_nil]
    rfl
  | cons q l ih =>
    rw [List.flatMap_cons] at hat
    rw [placesFrom] at hnames
    have hname := hnames (p, q.qname) (List.mem_append_left _ List.mem_cons_self)
    rw [List.length_cons, parseQuestions]
    by_cases hdeep : 128 < q.qname.pointers
    · rw [dnsName_deep hs hb hname hdeep, if_pos ⟨q, List.mem_cons_self, hdeep⟩]
      rfl
    have hlength : q.bytes.length = q.qname.bytes.length + 4 := by
      simp only [WireQuestion.bytes, List.length_append, length_toBe16]
    have hle := hat.left.le
    have hat' := hat.left.right
    have h₁ : be16At data (base + p + q.qname.bytes.length) 0 = ok q.qtype := StandsAt.be16At hs hat'
    have hclass : StandsAt data (base + p + q.qname.bytes.length + 2) (toBe16 q.qclass ++ []) := by
      rw [List.append_nil]
      exact hat'.right
    have h₂ : be16At data (base + p + q.qname.bytes.length) 2 = ok q.qclass :=
      StandsAt.be16At hs hclass
    rw [dnsName_written hs hb hname (not_lt.mp hdeep), ok_bind]
    dsimp only
    rw [addUsize_eq hs (by omega) (by omega), ok_bind, if_neg (by omega), h₁, ok_bind, h₂, ok_bind]
    have hright := hat.right
    have hnext : base + p + q.qname.bytes.length + 4 = base + (p + q.bytes.length) := by omega
    rw [Nat.add_assoc] at hright
    rw [hnext, ih hright fun x hx => hnames x (List.mem_append_right _ hx)]
    have hothers : (∃ q' ∈ q :: l, 128 < q'.qname.pointers) ↔ ∃ q' ∈ l, 128 < q'.qname.pointers := by
      simp only [List.mem_cons, exists_eq_or_imp, hdeep, false_or]
    rw [if_congr hothers rfl rfl]
    split
    · rfl
    · rw [List.append_assoc, List.singleton_append, List.map_cons, List.flatMap_cons,
        List.length_append]
      change ok (out ++ questionShown q :: _, _) = _
      congr 2
      omega

end Written

section Flags

theorem toNat_flags (h : WireHeader) :
    h.flags.toNat = h.response.toNat * 2 ^ 15 + h.middle * 2 ^ 4 + h.rcode := by
  have hresponse := h.response.toNat_le
  have hmiddle := h.middle.isLt
  have hrcode := h.rcode.isLt
  rw [WireHeader.flags, UInt16.toNat_ofNat', Nat.mod_eq_of_lt]
  omega

theorem flags_response (h : WireHeader) : (h.flags &&& 0x8000 != 0) = h.response := by
  have hmiddle := h.middle.isLt
  have hrcode := h.rcode.isLt
  rw [and_0x8000_ne, toNat_flags]
  cases h.response with
  | false => rw [decide_eq_false_iff_not, Bool.toNat_false]; omega
  | true => rw [decide_eq_true_eq, Bool.toNat_true]; omega

theorem flags_rcode (h : WireHeader) : (h.flags &&& 0x000f).toUInt8 = UInt8.ofNat h.rcode := by
  have hrcode := h.rcode.isLt
  have hlow : h.flags.toNat % 16 = h.rcode := by
    rw [toNat_flags]
    omega
  rw [and_0x000f, hlow]

end Flags

section Message

variable {data : List UInt8} {base : ℕ} (hs : data.length < maxBytes)

theorem length_headBytes {N : Type} (m : WireMessage N) : m.headBytes.length = 12 := rfl

include hs

/-- What the decoder does behind the header of a message. -/
theorem tryDecodeDns_header (m : WireMessage NameForm) (hfits : m.Fits)
    (hat : StandsAt data base m.bytes) : tryDecodeDns data base = do
      let (questions, pos) ← parseQuestions data base m.questions.length (base + 12) []
      if questions.isEmpty then refuse
      else do
        let (answers, pos) ← parseRecords data base m.answers.length pos []
        let (authorities, pos) ← parseRecords data base m.authorities.length pos []
        let (additionals, pos) ← parseRecords data base m.additionals.length pos []
        return ⟨m.header.id, m.header.response, UInt8.ofNat m.header.rcode, questions, answers,
          authorities, additionals, (base, min pos data.length)⟩ := by
  have hmax : maxBytes = 2 ^ 63 := rfl
  have hle := hat.left.le
  rw [length_headBytes] at hle
  have hhead := hat.left
  have hcount {k n : ℕ} (hn : n ≤ k) (hk : k ≤ 4096) : ¬UInt16.ofNat k < UInt16.ofNat n := by
    rw [UInt16.lt_iff_toNat_lt, UInt16.toNat_ofNat', UInt16.toNat_ofNat']
    omega
  have hcountNat {n : ℕ} (hn : n ≤ 4096) : (UInt16.ofNat n).toNat = n := by
    rw [UInt16.toNat_ofNat', Nat.mod_eq_of_lt (by omega)]
  have h₁ : be16At data base 0 = ok m.header.id := StandsAt.be16At hs hhead
  have h₂ : be16At data base 2 = ok m.header.flags := StandsAt.be16At hs hhead.right
  have h₃ : be16At data base 4 = ok (UInt16.ofNat m.questions.length) :=
    StandsAt.be16At hs hhead.right.right
  have h₄ : be16At data base 6 = ok (UInt16.ofNat m.answers.length) :=
    StandsAt.be16At hs hhead.right.right.right
  have h₅ : be16At data base 8 = ok (UInt16.ofNat m.authorities.length) :=
    StandsAt.be16At hs hhead.right.right.right.right
  have hlast : StandsAt data (base + 10) (toBe16 (UInt16.ofNat m.additionals.length) ++ []) := by
    rw [List.append_nil]
    exact hhead.right.right.right.right.right
  have h₆ : be16At data base 10 = ok (UInt16.ofNat m.additionals.length) :=
    StandsAt.be16At hs hlast
  have hguard : ¬(100 < UInt16.ofNat m.questions.length ∨ 4096 < UInt16.ofNat m.answers.length ∨
      4096 < UInt16.ofNat m.authorities.length ∨ 4096 < UInt16.ofNat m.additionals.length) := by
    rintro (h | h | h | h)
    · exact hcount hfits.questions (by decide) h
    · exact hcount hfits.answers (Nat.le_refl _) h
    · exact hcount hfits.authorities (Nat.le_refl _) h
    · exact hcount hfits.additionals (Nat.le_refl _) h
  rw [tryDecodeDns, checkedSub, if_pos (by omega), ok_bind, if_neg (by omega), h₁, ok_bind, h₂,
    ok_bind, h₃, ok_bind, h₄, ok_bind, h₅, ok_bind, h₆, ok_bind, if_neg hguard,
    addUsize_eq hs (by omega) (by omega), ok_bind,
    hcountNat (hfits.questions.trans (by decide)), hcountNat hfits.answers,
    hcountNat hfits.authorities, hcountNat hfits.additionals, flags_response, flags_rcode]

/-- What the decoder shows of a message whose sections it reads in full. -/
def messageShown (m : WireMessage NameForm) (range : ByteRange) : DnsInfo where
  transactionId := m.header.id
  isResponse := m.header.response
  rcode := UInt8.ofNat m.header.rcode
  questions := m.questions.map questionShown
  answers := m.answers.map recordShown
  authorities := m.authorities.map recordShown
  additionals := m.additionals.map recordShown
  headerRange := range

/-- No name of a question or record takes too many pointers. -/
structure Shallow (m : WireMessage NameForm) : Prop where
  questions : ∀ q ∈ m.questions, q.qname.pointers ≤ 128
  records : ∀ r ∈ m.records, r.name.pointers ≤ 128

section Sections

variable (m : WireMessage NameForm) (hfits : m.Fits) (hat : StandsAt data base m.bytes)
  (hnames : ∀ x ∈ m.places, x.2.Written data base (base + x.1))
include hfits hat hnames

/-- The sections of a message are read one behind the other, each up to the first name that takes too
many pointers; the next one is at its place only if there is none. -/
theorem tryDecodeDns_sections (hquestions : ∀ q ∈ m.questions, q.qname.pointers ≤ 128) :
    ∃ i, tryDecodeDns data base = ok i ∧ i.questions = m.questions.map questionShown ∧
      i.answers = (readRecords m.answers).map recordShown ∧
      (readRecords m.answers = m.answers →
        i.authorities = (readRecords m.authorities).map recordShown ∧
        (readRecords m.authorities = m.authorities →
          i.additionals = (readRecords m.additionals).map recordShown ∧
          (readRecords m.additionals = m.additionals →
            i = messageShown m (base, base + m.bytes.length)))) := by
  have hle := hat.le
  have hb : base ≤ data.length := by omega
  have hq := hat.right.left
  have ha := hat.right.right.left
  have hu := hat.right.right.right.left
  have hd := hat.right.right.right.right
  rw [length_headBytes] at hq ha hu hd
  rw [Nat.add_assoc base] at ha hu hd
  rw [Nat.add_assoc base] at hu hd
  rw [Nat.add_assoc base] at hd
  have hask := parseQuestions_written hs hb m.questions hq
    (fun x hx => hnames x (List.mem_append_left _ hx)) []
  have hnone : ¬∃ q ∈ m.questions, 128 < q.qname.pointers := by
    rintro ⟨q, hq, hdeep⟩
    exact absurd (hquestions q hq) (not_le.mpr hdeep)
  rw [if_neg hnone, List.nil_append, Nat.add_assoc] at hask
  have hanswers := parseRecords_written hs hb m.answers
    (fun r hr => hfits.data r (List.mem_append_left _ hr)) ha
    (fun x hx => hnames x (List.mem_append_right _ (List.mem_append_left _ hx))) []
  have hauthorities := parseRecords_written hs hb m.authorities
    (fun r hr => hfits.data r (List.mem_append_right _ (List.mem_append_left _ hr))) hu
    (fun x hx => hnames x (List.mem_append_right _ (List.mem_append_right _
      (List.mem_append_left _ hx)))) []
  have hadditionals := parseRecords_written hs hb m.additionals
    (fun r hr => hfits.data r (List.mem_append_right _ (List.mem_append_right _ hr))) hd
    (fun x hx => hnames x (List.mem_append_right _ (List.mem_append_right _
      (List.mem_append_right _ hx)))) []
  rw [List.nil_append] at hanswers hauthorities hadditionals
  have hasked : (m.questions.map questionShown).isEmpty = false := by
    rw [List.isEmpty_eq_false_iff, ne_eq, List.map_eq_nil_iff]
    exact hfits.asks
  -- Where a section ends early, the next ones are read from some other place.
  have hreturns (count : ℕ) {pos : ℕ} (hpos : pos ≤ data.length) :
      Returns (parseRecords data base count pos []) fun r => r.2 ≤ data.length :=
    ((holds_parseRecords hs hb count hpos []).returns (accepts_parseRecords _ _ _)).imp
      fun r hr => ⟨hr.1, hr.2.2⟩
  have hinside := holds_parseRecords hs hb m.answers.length (Nat.le_of_add_right_le ha.le) []
  rw [hanswers] at hinside
  obtain ⟨au, hau, hauInside⟩ := hreturns m.authorities.length hinside.2
  obtain ⟨ad, had, hadInside⟩ := hreturns m.additionals.length hauInside
  rw [tryDecodeDns_header hs m hfits hat, hask, ok_bind]
  dsimp only
  rw [hasked, if_neg Bool.false_ne_true, hanswers, ok_bind]
  dsimp only
  rw [hau, ok_bind]
  rw [had, ok_bind]
  refine ⟨_, rfl, rfl, rfl, ?_⟩
  intro hkeepA
  rw [hkeepA, Nat.add_assoc] at hau
  cases hau.symm.trans hauthorities
  refine ⟨rfl, ?_⟩
  intro hkeepU
  dsimp only at had
  rw [hkeepU, Nat.add_assoc] at had
  cases had.symm.trans hadditionals
  refine ⟨rfl, ?_⟩
  intro hkeepD
  have hlength : m.bytes.length = 12 + (m.questions.flatMap WireQuestion.bytes).length +
      (m.answers.flatMap WireRecord.bytes).length + (m.authorities.flatMap WireRecord.bytes).length +
      (m.additionals.flatMap WireRecord.bytes).length := by
    simp only [WireMessage.bytes, List.length_append, length_headBytes]
    omega
  have hend : min (base + (12 + (m.questions.flatMap WireQuestion.bytes).length +
      (m.answers.flatMap WireRecord.bytes).length + (m.authorities.flatMap WireRecord.bytes).length) +
      (m.additionals.flatMap WireRecord.bytes).length) data.length = base + m.bytes.length := by
    omega
  rw [hkeepA, hkeepU, hkeepD]
  dsimp only
  rw [hend]
  rfl

theorem tryDecodeDns_written (hshallow : Shallow m) :
    tryDecodeDns data base = ok (messageShown m (base, base + m.bytes.length)) := by
  obtain ⟨i, hdecode, -, -, hnext⟩ :=
    tryDecodeDns_sections hs m hfits hat hnames hshallow.questions
  have hrecords := hshallow.records
  have hanswers : readRecords m.answers = m.answers :=
    readRecords_eq_iff.mpr fun r hr => hrecords r (List.mem_append_left _ hr)
  have hauthorities : readRecords m.authorities = m.authorities :=
    readRecords_eq_iff.mpr fun r hr =>
      hrecords r (List.mem_append_right _ (List.mem_append_left _ hr))
  have hadditionals : readRecords m.additionals = m.additionals :=
    readRecords_eq_iff.mpr fun r hr =>
      hrecords r (List.mem_append_right _ (List.mem_append_right _ hr))
  obtain ⟨-, hnext⟩ := hnext hanswers
  obtain ⟨-, hnext⟩ := hnext hauthorities
  rw [hdecode, hnext hadditionals]

/-- A message of which every record is read has no name that is too deep in front of its data. -/
theorem shallow_of_decode {i : DnsInfo} (hdecode : tryDecodeDns data base = ok i)
    (hanswers : i.answers.length = m.answers.length)
    (hauthorities : i.authorities.length = m.authorities.length)
    (hadditionals : i.additionals.length = m.additionals.length) : Shallow m := by
  have hquestions : ∀ q ∈ m.questions, q.qname.pointers ≤ 128 := by
    intro q hq
    by_contra hdeep
    have hat' := hat.right.left
    rw [length_headBytes] at hat'
    have hask := parseQuestions_written hs (Nat.le_of_add_right_le hat.le) m.questions hat'
      (fun x hx => hnames x (List.mem_append_left _ hx)) []
    rw [if_pos ⟨q, hq, not_le.mp hdeep⟩] at hask
    rw [tryDecodeDns_header hs m hfits hat, hask] at hdecode
    cases hdecode
  obtain ⟨i', hdecode', -, hreadA, hnext⟩ :=
    tryDecodeDns_sections hs m hfits hat hnames hquestions
  cases hdecode.symm.trans hdecode'
  rw [hreadA, List.length_map] at hanswers
  have hreadA := readRecords_eq_of_length hanswers
  obtain ⟨hreadU, hnext⟩ := hnext hreadA
  rw [hreadU, List.length_map] at hauthorities
  have hreadU := readRecords_eq_of_length hauthorities
  obtain ⟨hreadD, -⟩ := hnext hreadU
  rw [hreadD, List.length_map] at hadditionals
  have hreadD := readRecords_eq_of_length hadditionals
  constructor
  · exact hquestions
  · intro r hr
    rcases List.mem_append.mp hr with hr | hr
    · exact readRecords_eq_iff.mp hreadA r hr
    rcases List.mem_append.mp hr with hr | hr
    · exact readRecords_eq_iff.mp hreadU r hr
    · exact readRecords_eq_iff.mp hreadD r hr

end Sections

end Message

end Pktscope

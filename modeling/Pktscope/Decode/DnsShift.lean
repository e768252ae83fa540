import Pktscope.Decode.DnsNames

/-! # Messages behind a front

Pointers are counted from the start of the message, so a message is decoded behind any
bytes as it is decoded alone.
-/

namespace Pktscope

open Library Parse

section Shift

variable {front data : List UInt8} {base : ℕ} (hs : (front ++ data).length < maxBytes)

theorem txtLoop_shift {stop : ℕ} (hs : (front ++ data).length < maxBytes)
    (hstop : stop ≤ data.length) (rounds p : ℕ) (strings : List String) :
    txtLoop (front ++ data) (front.length + stop) rounds (front.length + p) strings =
      txtLoop data stop rounds p strings := by
  induction rounds generalizing p strings with
  | zero => rfl
  | succ rounds ih =>
    rw [txtLoop, txtLoop]
    refine ite_congr (propext (by omega)) (fun hlt => ?_) fun _ => rfl
    rw [index_shift, index_eq_peek (by omega), ok_bind, ok_bind]
    have hlen := (peek data p).toNat_lt
    obtain ⟨hmoved, hplain⟩ := addUsize_shift hs (show p ≤ data.length by omega)
      (show 1 ≤ 2 ^ 32 by decide)
    rw [hmoved, hplain, ok_bind, ok_bind]
    obtain ⟨hmoved, hplain⟩ := addUsize_shift hs (show p + 1 ≤ data.length by omega)
      (show (peek data p).toNat ≤ 2 ^ 32 by omega)
    rw [hmoved, hplain, ok_bind, ok_bind]
    refine ite_congr (propext (by omega)) (fun _ => rfl) fun _ => ?_
    rw [sliceAt_shift]
    exact bind_congr fun bytes => ih _ _

include hs

theorem shift_fits : data.length < maxBytes := by
  rw [List.length_append] at hs
  omega

variable (hb : base ≤ data.length)
include hb

theorem dnsName_shift (pos : ℕ) :
    dnsName (front ++ data) (front.length + base) (front.length + pos) =
      moved front.length (dnsName data base pos) := by
  have hs' := shift_fits hs
  have hb' : front.length + base ≤ (front ++ data).length := by
    rw [List.length_append]
    omega
  have hfault := (holds_dnsName hs' hb pos).not_fault
  have hfault' := (holds_dnsName hs hb' (front.length + pos)).not_fault
  cases hread : dnsName data base pos with
  | ok r =>
    obtain ⟨w, hw, hfits, rfl⟩ := (dnsName_ok_iff hs' hb pos r).mp hread
    rw [dnsName_written hs hb' ((NameForm.written_shift front).mpr hw) hfits, Nat.add_assoc]
    rfl
  | refuse =>
    cases hread' : dnsName (front ++ data) (front.length + base) (front.length + pos) with
    | ok r =>
      obtain ⟨w, hw, hfits, -⟩ := (dnsName_ok_iff hs hb' _ r).mp hread'
      have hok := dnsName_written hs' hb ((NameForm.written_shift front).mp hw) hfits
      rw [hread] at hok
      cases hok
    | refuse => rfl
    | fault f => exact absurd hread' (hfault' f)
  | fault f => exact absurd hread (hfault f)

theorem soaRdata_shift (pos : ℕ) :
    soaRdata (front ++ data) (front.length + pos) (front.length + base) = soaRdata data pos base := by
  rw [soaRdata, soaRdata, dnsName_shift hs hb]
  have hm := holds_dnsName (shift_fits hs) hb pos
  cases hreadm : dnsName data base pos with
  | refuse => rfl
  | fault f => rfl
  | ok m =>
    rw [moved, ok_bind, ok_bind, ok_bind]
    dsimp only
    rw [dnsName_shift hs hb]
    have hr := holds_dnsName (shift_fits hs) hb m.2
    cases hreadr : dnsName data base m.2 with
    | refuse => rfl
    | fault f => rfl
    | ok r =>
      rw [hreadr] at hr
      have hle : r.2 ≤ data.length := hr.2
      rw [moved, ok_bind, ok_bind, ok_bind]
      dsimp only
      obtain ⟨hmoved, hplain⟩ := addUsize_shift hs hle (show 20 ≤ 2 ^ 32 by decide)
      rw [hmoved, hplain, ok_bind, ok_bind, List.length_append]
      refine ite_congr (propext (by omega)) (fun _ => rfl) fun _ => ?_
      simp (disch := omega) only [be32At_shift hs hle]

variable {pos rdlen : ℕ} (hr : pos + rdlen ≤ data.length) (rtype : UInt16)
include hr

omit hb in
theorem unknownRdata_shift (hlen : rdlen < 2 ^ 16) :
    unknownRdata (front ++ data) (front.length + pos) rdlen rtype =
      unknownRdata data pos rdlen rtype := by
  obtain ⟨hmoved, hplain⟩ := addUsize_shift hs (show pos ≤ data.length by omega)
    (show rdlen ≤ 2 ^ 32 by omega)
  rw [unknownRdata, unknownRdata, hmoved, hplain, ok_bind, ok_bind, sliceAt_shift]

theorem nameRdata_shift (hlen : rdlen < 2 ^ 16) (start : ℕ) (mk : String → DnsRdata) :
    nameRdata (front ++ data) (front.length + pos) rdlen (front.length + base) rtype
      (front.length + start) mk = nameRdata data pos rdlen base rtype start mk := by
  rw [nameRdata, nameRdata, orUnknown, orUnknown, unknownRdata_shift hs hr rtype hlen,
    dnsName_shift hs hb]
  cases dnsName data base start <;> rfl

theorem parseRdata_shift (hlen : rdlen < 2 ^ 16) :
    parseRdata (front ++ data) (front.length + pos) rdlen (front.length + base) rtype =
      parseRdata data pos rdlen base rtype := by
  have hpos : pos ≤ data.length := by omega
  have hname (start : ℕ) (mk : String → DnsRdata) :=
    nameRdata_shift hs hb hr rtype hlen start mk
  have hplus (k : ℕ) (hk : k ≤ 2 ^ 32) := addUsize_shift hs hpos hk
  rw [parseRdata, parseRdata]
  refine ite_congr rfl (fun _ => ?_) fun _ => ite_congr rfl (fun h => ?_) fun _ =>
    ite_congr rfl (fun _ => hname pos _) fun _ => ite_congr rfl (fun _ => hname pos _) fun _ =>
    ite_congr rfl (fun _ => hname pos _) fun _ => ite_congr rfl (fun _ => ?_) fun _ =>
    ite_congr rfl (fun _ => ?_) fun _ => ite_congr rfl (fun _ => ?_) fun _ =>
    ite_congr rfl (fun _ => ?_) fun _ => unknownRdata_shift hs hr rtype hlen
  · rw [be32At_shift hs hpos (by decide)]
  · rw [(hplus 16 (by decide)).1, (hplus 16 (by decide)).2, ok_bind, ok_bind, sliceAt_shift]
  · rw [be16At_shift hs hpos (by decide), (hplus 2 (by decide)).1, (hplus 2 (by decide)).2]
    exact bind_congr fun preference => hname (pos + 2) _
  · rw [(hplus rdlen (by omega)).1, (hplus rdlen (by omega)).2, ok_bind, ok_bind,
      txtLoop_shift hs hr]
  · rw [be16At_shift hs hpos (by decide), be16At_shift hs hpos (by decide),
      be16At_shift hs hpos (by decide), (hplus 6 (by decide)).1, (hplus 6 (by decide)).2]
    exact bind_congr fun priority => bind_congr fun weight => bind_congr fun port => hname (pos + 6) _
  · rw [orUnknown, orUnknown, unknownRdata_shift hs hr rtype hlen, soaRdata_shift hs hb]

omit hr in
theorem parseRr_shift (start : ℕ) :
    parseRr (front ++ data) (front.length + start) (front.length + base) =
      moved front.length (parseRr data start base) := by
  have hs' := shift_fits hs
  rw [parseRr, parseRr, dnsName_shift hs hb]
  have hname := holds_dnsName hs' hb start
  cases hread : dnsName data base start with
  | refuse => rfl
  | fault f => rfl
  | ok r =>
    rw [hread] at hname
    have hle : r.2 ≤ data.length := hname.2
    rw [moved, moved, ok_bind, ok_bind, ok_bind]
    dsimp only
    obtain ⟨hmoved, hplain⟩ := addUsize_shift hs hle (show 10 ≤ 2 ^ 32 by decide)
    rw [hmoved, hplain, ok_bind, ok_bind, List.length_append]
    by_cases hhead : data.length < r.2 + 10
    · rw [if_pos hhead, if_pos (by omega)]
      rfl
    have hhead' : r.2 + 10 ≤ data.length := not_lt.mp hhead
    rw [if_neg hhead, if_neg (by omega), be16At_shift hs hle (by decide),
      be16At_shift hs hle (by decide), be32At_shift hs hle (by decide),
      be16At_shift hs hle (by decide)]
    simp (disch := omega) only [be16At_eq hs', be32At_eq hs', ok_bind]
    generalize be16 (peek data (r.2 + 8)) (peek data (r.2 + 8 + 1)) = rdlen
    have hlen := rdlen.toNat_lt
    obtain ⟨hmoved, hplain⟩ := addUsize_shift hs hhead' (show rdlen.toNat ≤ 2 ^ 32 by omega)
    rw [hmoved, hplain, ok_bind, ok_bind]
    by_cases hstop : data.length < r.2 + 10 + rdlen.toNat
    · rw [if_pos hstop, if_pos (by omega)]
      rfl
    rw [if_neg hstop, if_neg (by omega), parseRdata_shift hs hb (not_lt.mp hstop) _ hlen]
    cases parseRdata data (r.2 + 10) rdlen.toNat base _ <;> rfl

omit hr in
theorem parseRecords_shift (count p : ℕ) (out : List DnsRecord) :
    parseRecords (front ++ data) (front.length + base) count (front.length + p) out =
      moved front.length (parseRecords data base count p out) := by
  induction count generalizing p out with
  | zero => rfl
  | succ count ih =>
    rw [parseRecords, parseRecords, parseRr_shift hs hb]
    cases parseRr data p base with
    | ok r => exact ih _ _
    | refuse => rfl
    | fault f => rfl

omit hr in
theorem parseQuestions_shift (count : ℕ) (p : ℕ) (questions : List DnsQuestion) :
    parseQuestions (front ++ data) (front.length + base) count (front.length + p) questions =
      moved front.length (parseQuestions data base count p questions) := by
  induction count generalizing p questions with
  | zero => rfl
  | succ count ih =>
    rw [parseQuestions, parseQuestions, dnsName_shift hs hb]
    have hname := holds_dnsName (shift_fits hs) hb p
    cases hread : dnsName data base p with
    | refuse => rfl
    | fault f => rfl
    | ok r =>
      rw [hread] at hname
      have hle : r.2 ≤ data.length := hname.2
      rw [moved, ok_bind, ok_bind, ok_bind]
      dsimp only
      obtain ⟨hmoved, hplain⟩ := addUsize_shift hs hle (show 4 ≤ 2 ^ 32 by decide)
      rw [hmoved, hplain, ok_bind, ok_bind, List.length_append]
      by_cases hstop : data.length < r.2 + 4
      · rw [if_pos hstop, if_pos (by omega)]
        rfl
      rw [if_neg hstop, if_neg (by omega), be16At_shift hs hle (by decide),
        be16At_shift hs hle (by decide)]
      simp (disch := omega) only [be16At_eq (shift_fits hs), ok_bind]
      exact ih _ _

end Shift

/-- The questions and records of a message. -/
structure DnsSections where
  questions : List DnsQuestion
  answers : List DnsRecord
  authorities : List DnsRecord
  additionals : List DnsRecord
  deriving DecidableEq

/-- The sections from a place on, with their numbers of entries. -/
def readSections (data : List UInt8) (base pos qdcount ancount nscount arcount : ℕ) :
    Parse (DnsSections × ℕ) := do
  let (questions, pos) ← parseQuestions data base qdcount pos []
  if questions.isEmpty then refuse
  else do
    let (answers, pos) ← parseRecords data base ancount pos []
    let (authorities, pos) ← parseRecords data base nscount pos []
    let (additionals, pos) ← parseRecords data base arcount pos []
    return (⟨questions, answers, authorities, additionals⟩, pos)

/-- The number of two bytes at a place. -/
def wordAt (data : List UInt8) (i : ℕ) : UInt16 := be16 (peek data i) (peek data (i + 1))

section Sections

variable {data : List UInt8} {base : ℕ}

/-- A message is its header and the sections behind it. -/
theorem tryDecodeDns_eq (hs : data.length < maxBytes) (hhead : base + 12 ≤ data.length) :
    tryDecodeDns data base =
      if 100 < wordAt data (base + 4) ∨ 4096 < wordAt data (base + 6) ∨
        4096 < wordAt data (base + 8) ∨ 4096 < wordAt data (base + 10) then refuse
      else do
        let (sections, pos) ← readSections data base (base + 12) (wordAt data (base + 4)).toNat
          (wordAt data (base + 6)).toNat (wordAt data (base + 8)).toNat
          (wordAt data (base + 10)).toNat
        return ⟨wordAt data base, wordAt data (base + 2) &&& 0x8000 != 0,
          (wordAt data (base + 2) &&& 0x000f).toUInt8, sections.questions, sections.answers,
          sections.authorities, sections.additionals, (base, min pos data.length)⟩ := by
  have hmax : maxBytes = 2 ^ 63 := rfl
  rw [tryDecodeDns, checkedSub, if_pos (by omega), ok_bind, if_neg (by omega)]
  simp (disch := omega) only [be16At_eq hs, addUsize_eq hs, ok_bind]
  refine ite_congr rfl (fun _ => rfl) fun _ => ?_
  simp only [readSections, wordAt, Nat.add_zero]
  cases parseQuestions data base _ (base + 12) [] with
  | refuse => rfl
  | fault f => rfl
  | ok q =>
    simp only [ok_bind]
    split
    · rfl
    · simp only [bind_assoc, pure_bind]

theorem tryDecodeDns_short (hshort : data.length < base + 12) : tryDecodeDns data base = refuse := by
  rw [tryDecodeDns, checkedSub]
  by_cases hb : base ≤ data.length
  · rw [if_pos hb, ok_bind, if_pos (by omega)]
  · rw [if_neg hb]
    rfl

variable {front : List UInt8} (hs : (front ++ data).length < maxBytes)
include hs

theorem readSections_shift (hb : base ≤ data.length) (pos qdcount ancount nscount arcount : ℕ) :
    readSections (front ++ data) (front.length + base) (front.length + pos) qdcount ancount nscount
      arcount = moved front.length (readSections data base pos qdcount ancount nscount arcount) := by
  rw [readSections, readSections, parseQuestions_shift hs hb]
  cases parseQuestions data base qdcount pos [] with
  | refuse => rfl
  | fault f => rfl
  | ok q =>
    simp only [moved, ok_bind]
    split
    · rfl
    rw [parseRecords_shift hs hb]
    cases parseRecords data base ancount q.2 [] with
    | refuse => rfl
    | fault f => rfl
    | ok an =>
      simp only [moved, ok_bind]
      rw [parseRecords_shift hs hb]
      cases parseRecords data base nscount an.2 [] with
      | refuse => rfl
      | fault f => rfl
      | ok ns =>
        simp only [moved, ok_bind]
        rw [parseRecords_shift hs hb]
        cases parseRecords data base arcount ns.2 [] <;> rfl

omit hs in
theorem wordAt_shift (i : ℕ) : wordAt (front ++ data) (front.length + i) = wordAt data i := by
  have hpeek (i : ℕ) : peek (front ++ data) (front.length + i) = peek data i := by
    rw [peek, peek, List.getD_append_right _ _ _ _ (Nat.le_add_right _ _), Nat.add_sub_cancel_left]
  rw [wordAt, wordAt, Nat.add_assoc, hpeek, hpeek]

/-- A message is decoded behind a front as it is decoded alone, with its range moved. -/
theorem tryDecodeDns_shift : tryDecodeDns (front ++ data) front.length = do
    let i ← tryDecodeDns data 0
    return { i with headerRange := (front.length, front.length + i.headerRange.2) } := by
  have hlen : (front ++ data).length = front.length + data.length := List.length_append
  by_cases hshort : data.length < 12
  · rw [tryDecodeDns_short (by omega), tryDecodeDns_short (by omega)]
    rfl
  rw [tryDecodeDns_eq (shift_fits hs) (by omega), tryDecodeDns_eq hs (by omega)]
  have hword (i : ℕ) : wordAt (front ++ data) (front.length + i) = wordAt data i := wordAt_shift i
  have hword' : wordAt (front ++ data) front.length = wordAt data 0 := hword 0
  simp only [hword, hword', Nat.zero_add]
  split
  · rfl
  have hsections := readSections_shift hs (Nat.zero_le data.length) 12
  rw [Nat.add_zero] at hsections
  rw [hsections]
  cases readSections data 0 12 _ _ _ _ with
  | refuse => rfl
  | fault f => rfl
  | ok r =>
    have hend : min (front.length + r.2) (front ++ data).length =
        front.length + min r.2 data.length := by
      omega
    simp only [moved, ok_bind, hend]
    rfl

end Sections

end Pktscope

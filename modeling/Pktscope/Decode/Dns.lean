import Pktscope.Decode.Layers
import Pktscope.Library.Bytes
import Pktscope.Library.Utf8

/-! # DNS messages

A message is read from its offset on. Compression pointers are offsets from the
start of the message, and the names they lead to are read by nested calls.
-/

namespace Pktscope

open Library Parse

/-- The calls of `parse_dns_name` that one name may nest, the outer one included. -/
def maxNameCalls : ℕ := 130

section Names

variable (data : List UInt8) (base : ℕ)

/-- The loop over the labels of a name. A pointer ends it, so what follows a jump is never read and
the name ends behind the first pointer or zero byte. -/
def nameLoop (call : ℕ → Parse (String × ℕ)) : ℕ → ℕ → List String → Parse (String × ℕ)
  | 0, _, _ => fault .rounds
  | rounds + 1, pos, labels =>
    if data.length ≤ pos then refuse
    else do
      let lenByte ← index data pos
      if lenByte = 0 then do
        let endPos ← addUsize pos 1
        return (".".intercalate labels, endPos)
      else if lenByte &&& 0xc0 = 0xc0 then do
        let second ← addUsize pos 1
        if data.length ≤ second then refuse
        else do
          let low ← byteAt data pos 1
          let ptr := (lenByte &&& 0x3f).toNat * 256 + low.toNat
          let endPos ← addUsize pos 2
          let target ← addUsize base ptr
          let (namePart, _) ← call target
          if labels.isEmpty then return (namePart, endPos)
          else return (".".intercalate (labels ++ [namePart]), endPos)
      else do
        let start ← addUsize pos 1
        let stop ← addUsize start lenByte.toNat
        if data.length < stop then refuse
        else do
          let label ← sliceAt data start stop
          nameLoop call rounds stop (labels ++ [fromUtf8Lossy label])

/-- `parse_dns_name`, with the number of calls it may nest. -/
def parseDnsName : ℕ → ℕ → ℕ → Parse (String × ℕ)
  | 0, _, _ => fault .calls
  | calls + 1, pos, depth =>
    if 128 < depth then refuse
    else
      nameLoop data base
        (fun target => do
          let deeper ← addUsize depth 1
          parseDnsName calls target deeper)
        (data.length + 1) pos []

/-- A name that is not reached by a pointer. -/
def dnsName (pos : ℕ) : Parse (String × ℕ) := parseDnsName data base maxNameCalls pos 0

end Names

section Records

variable (data : List UInt8)

/-- The loop over the strings of a TXT record. -/
def txtLoop (stop : ℕ) : ℕ → ℕ → List String → Parse (List String)
  | 0, _, _ => fault .rounds
  | rounds + 1, p, strings =>
    if p < stop then do
      let len ← index data p
      let start ← addUsize p 1
      let next ← addUsize start len.toNat
      if stop < next then return strings
      else do
        let bytes ← sliceAt data start next
        txtLoop stop rounds next (strings ++ [fromUtf8Lossy bytes])
    else return strings

variable (pos rdlen base : ℕ) (rtype : UInt16)

def unknownRdata : Parse DnsRdata := do
  let stop ← addUsize pos rdlen
  let bytes ← sliceAt data pos stop
  return .unknown rtype bytes

/-- `unwrap_or_else(unknown)` -/
def orUnknown (parsed : Parse DnsRdata) : Parse DnsRdata := do
  match ← parsed.attempt with
  | some rdata => return rdata
  | none => unknownRdata data pos rdlen rtype

/-- Rdata that is a name. -/
def nameRdata (start : ℕ) (mk : String → DnsRdata) : Parse DnsRdata :=
  orUnknown data pos rdlen rtype do
    let (name, _) ← dnsName data base start
    return mk name

def soaRdata : Parse DnsRdata := do
  let (mname, p) ← dnsName data base pos
  let (rname, p) ← dnsName data base p
  let stop ← addUsize p 20
  if data.length < stop then refuse
  else do
    let serial ← be32At data p 0
    let refresh ← be32At data p 4
    let retry ← be32At data p 8
    let expire ← be32At data p 12
    let minimum ← be32At data p 16
    return .soa mname rname serial refresh retry expire minimum

def parseRdata : Parse DnsRdata :=
  if rtype = 1 ∧ rdlen = 4 then do
    let ip ← be32At data pos 0
    return .a ip
  else if rtype = 28 ∧ rdlen = 16 then do
    let stop ← addUsize pos 16
    let octets ← sliceAt data pos stop
    return .aaaa (BitVec.ofNat 128 (beNat octets))
  else if rtype = 5 then nameRdata data pos rdlen base rtype pos .cname
  else if rtype = 2 then nameRdata data pos rdlen base rtype pos .ns
  else if rtype = 12 then nameRdata data pos rdlen base rtype pos .ptr
  else if rtype = 15 ∧ 3 ≤ rdlen then do
    let preference ← be16At data pos 0
    let start ← addUsize pos 2
    nameRdata data pos rdlen base rtype start (.mx preference)
  else if rtype = 16 then do
    let stop ← addUsize pos rdlen
    let strings ← txtLoop data stop (rdlen + 1) pos []
    return .txt strings
  else if rtype = 33 ∧ 6 ≤ rdlen then do
    let priority ← be16At data pos 0
    let weight ← be16At data pos 2
    let port ← be16At data pos 4
    let start ← addUsize pos 6
    nameRdata data pos rdlen base rtype start (.srv priority weight port)
  else if rtype = 6 then orUnknown data pos rdlen rtype (soaRdata data pos base)
  else unknownRdata data pos rdlen rtype

end Records

section Messages

variable (data : List UInt8)

def parseRr (start base : ℕ) : Parse (DnsRecord × ℕ) := do
  let (name, pos) ← dnsName data base start
  let head ← addUsize pos 10
  if data.length < head then refuse
  else do
    let rtype ← be16At data pos 0
    let rclass ← be16At data pos 2
    let ttl ← be32At data pos 4
    let rdlen ← be16At data pos 8
    let stop ← addUsize head rdlen.toNat
    if data.length < stop then refuse
    else do
      let rdata ← parseRdata data head rdlen.toNat base rtype
      return (⟨name, rtype, rclass, ttl, rdata⟩, stop)

/-- Up to a number of records; the first that is refused ends the section. -/
def parseRecords (base : ℕ) : ℕ → ℕ → List DnsRecord → Parse (List DnsRecord × ℕ)
  | 0, pos, out => return (out, pos)
  | count + 1, pos, out => do
    match ← (parseRr data pos base).attempt with
    | some (rec, newPos) => parseRecords base count newPos (out ++ [rec])
    | none => return (out, pos)

/-- The loop over the questions. -/
def parseQuestions (base : ℕ) : ℕ → ℕ → List DnsQuestion → Parse (List DnsQuestion × ℕ)
  | 0, pos, questions => return (questions, pos)
  | count + 1, pos, questions => do
    let (qname, pos) ← dnsName data base pos
    let stop ← addUsize pos 4
    if data.length < stop then return (questions, pos)
    else do
      let qtype ← be16At data pos 0
      let qclass ← be16At data pos 2
      parseQuestions base count stop (questions ++ [⟨qname, qtype, qclass⟩])

def tryDecodeDns (offset : ℕ) : Parse DnsInfo := do
  let remaining ← checkedSub data.length offset
  if remaining < 12 then refuse
  else do
    let transactionId ← be16At data offset 0
    let flags ← be16At data offset 2
    let qdcount ← be16At data offset 4
    let ancount ← be16At data offset 6
    let nscount ← be16At data offset 8
    let arcount ← be16At data offset 10
    if 100 < qdcount ∨ 4096 < ancount ∨ 4096 < nscount ∨ 4096 < arcount then refuse
    else do
      let pos ← addUsize offset 12
      let (questions, pos) ← parseQuestions data offset qdcount.toNat pos []
      if questions.isEmpty then refuse
      else do
        let (answers, pos) ← parseRecords data offset ancount.toNat pos []
        let (authorities, pos) ← parseRecords data offset nscount.toNat pos []
        let (additionals, pos) ← parseRecords data offset arcount.toNat pos []
        return {
          transactionId
          isResponse := flags &&& 0x8000 != 0
          rcode := (flags &&& 0x000f).toUInt8
          questions, answers, authorities, additionals
          headerRange := (offset, min pos data.length) }

end Messages

section Safe

variable {data : List UInt8} {base : ℕ} (hs : data.length < maxBytes)
include hs

/-- The loop over the labels ends inside the data when the nested calls meet no fault: every round
that goes on has read a label. -/
theorem holds_nameLoop (hb : base ≤ data.length) {call : ℕ → Parse (String × ℕ)}
    (hcall : ∀ target, Holds (call target) fun _ => True) {rounds pos : ℕ} (labels : List String)
    (hpos : 0 < rounds) (hr : data.length < pos + rounds) :
    Holds (nameLoop data base call rounds pos labels) fun r => pos < r.2 ∧ r.2 ≤ data.length := by
  have hmax : maxBytes = 2 ^ 63 := rfl
  induction rounds generalizing pos labels with
  | zero => exact absurd hpos (Nat.lt_irrefl 0)
  | succ rounds ih =>
    unfold nameLoop
    refine holds_ite (fun _ => trivial) fun hlt => ?_
    rw [index_eq_peek (by omega)]
    have hlen := (peek data pos).toNat_lt
    refine holds_ite (fun _ => ?_) fun hzero => holds_ite (fun _ => ?_) fun _ => ?_
    · simp (disch := omega) only [addUsize_eq hs]
      change pos < pos + 1 ∧ pos + 1 ≤ data.length
      omega
    · simp (disch := omega) only [addUsize_eq hs]
      refine holds_ite (fun _ => trivial) fun hsecond => ?_
      have hlow := (peek data (pos + 1)).toNat_lt
      have hhigh := (peek data pos &&& 0x3f).toNat_lt
      simp (disch := omega) only [ok_bind, byteAt_eq hs, addUsize_eq hs]
      refine (hcall _).bind fun r _ => holds_ite (fun _ => ?_) fun _ => ?_
      · change pos < pos + 2 ∧ pos + 2 ≤ data.length
        omega
      · change pos < pos + 2 ∧ pos + 2 ≤ data.length
        omega
    · rw [addUsize_eq hs (by omega) (by omega)]
      change Holds (addUsize (pos + 1) _ >>= _) _
      rw [addUsize_eq hs (by omega) (by omega)]
      refine holds_ite (fun _ => trivial) fun hstop => ?_
      rw [holds_bind, holds_sliceAt (Nat.le_add_right _ _) (by omega)]
      exact (ih _ (by omega) (by omega)).mono fun r hlt => ⟨by omega, hlt.2⟩

theorem holds_parseDnsName (hb : base ≤ data.length) {calls depth : ℕ}
    (hcalls : depth + calls = maxNameCalls) (hdepth : depth < maxNameCalls) (pos : ℕ) :
    Holds (parseDnsName data base calls pos depth) fun r => pos < r.2 ∧ r.2 ≤ data.length := by
  induction calls generalizing depth pos with
  | zero => exact absurd hcalls hdepth.ne
  | succ calls ih =>
    unfold parseDnsName
    refine holds_ite (fun _ => trivial) fun hshallow => ?_
    have hcall : ∀ target, Holds (do
        let deeper ← addUsize depth 1
        parseDnsName data base calls target deeper) fun _ => True := by
      intro target
      rw [holds_bind, holds_addUsize (by omega)]
      have hmax : maxNameCalls = 130 := rfl
      exact (ih (by omega) (by omega) target).mono fun _ _ => trivial
    exact holds_nameLoop hs hb hcall [] (Nat.succ_pos _) (by omega)

theorem holds_dnsName (hb : base ≤ data.length) (pos : ℕ) :
    Holds (dnsName data base pos) fun r => pos < r.2 ∧ r.2 ≤ data.length :=
  holds_parseDnsName hs hb rfl (by decide) pos

theorem holds_txtLoop {stop : ℕ} (hstop : stop ≤ data.length) {rounds p : ℕ}
    (strings : List String) (hpos : 0 < rounds) (hr : stop < p + rounds) :
    Holds (txtLoop data stop rounds p strings) fun _ => True := by
  have hmax : maxBytes = 2 ^ 63 := rfl
  induction rounds generalizing p strings with
  | zero => exact absurd hpos (Nat.lt_irrefl 0)
  | succ rounds ih =>
    unfold txtLoop
    refine holds_ite (fun hlt => ?_) fun _ => trivial
    rw [index_eq_peek (by omega)]
    have hlen := (peek data p).toNat_lt
    change Holds (addUsize p 1 >>= _) _
    rw [addUsize_eq hs (by omega) (by omega)]
    change Holds (addUsize (p + 1) _ >>= _) _
    rw [addUsize_eq hs (by omega) (by omega)]
    refine holds_ite (fun _ => trivial) fun hnext => ?_
    rw [holds_bind, holds_sliceAt (Nat.le_add_right _ _) (by omega)]
    exact ih _ (by omega) (by omega)

section Rdata

variable {pos rdlen : ℕ} (hb : base ≤ data.length) (hr : pos + rdlen ≤ data.length) (rtype : UInt16)
include hr

theorem holds_unknownRdata : Holds (unknownRdata data pos rdlen rtype) fun _ => True := by
  have hmax : maxBytes = 2 ^ 63 := rfl
  unfold unknownRdata
  rw [addUsize_eq hs (by omega) (by omega)]
  change Holds (sliceAt data pos (pos + rdlen) >>= _) _
  rw [holds_bind, holds_sliceAt (Nat.le_add_right _ _) hr]
  trivial

theorem holds_orUnknown {parsed : Parse DnsRdata} (h : Holds parsed fun _ => True) :
    Holds (orUnknown data pos rdlen rtype parsed) fun _ => True := by
  refine h.attempt.bind fun o _ => ?_
  cases o with
  | some rdata => trivial
  | none => exact holds_unknownRdata hs hr rtype

include hb

omit hr in
theorem holds_soaRdata : Holds (soaRdata data pos base) fun _ => True := by
  have hmax : maxBytes = 2 ^ 63 := rfl
  unfold soaRdata
  refine (holds_dnsName hs hb pos).bind fun r₁ h₁ => (holds_dnsName hs hb r₁.2).bind fun r₂ h₂ => ?_
  dsimp only
  rw [holds_bind, holds_addUsize (by omega)]
  refine holds_ite (fun _ => trivial) fun hstop => ?_
  simp (disch := omega) only [be32At_eq hs]
  trivial

theorem holds_parseRdata : Holds (parseRdata data pos rdlen base rtype) fun _ => True := by
  have hmax : maxBytes = 2 ^ 63 := rfl
  have hname (start : ℕ) (mk : String → DnsRdata) :
      Holds (nameRdata data pos rdlen base rtype start mk) fun _ => True :=
    holds_orUnknown hs hr rtype ((holds_dnsName hs hb start).bind fun _ _ => trivial)
  unfold parseRdata
  refine holds_ite (fun h => ?_) fun _ => holds_ite (fun h => ?_) fun _ => holds_ite (fun _ => ?_)
    fun _ => holds_ite (fun _ => ?_) fun _ => holds_ite (fun _ => ?_) fun _ => holds_ite
    (fun h => ?_) fun _ => holds_ite (fun _ => ?_) fun _ => holds_ite (fun h => ?_) fun _ =>
    holds_ite (fun _ => ?_) fun _ => ?_
  · rw [be32At_eq hs (by omega)]
    trivial
  · rw [holds_bind, holds_addUsize (by omega), holds_bind,
      holds_sliceAt (Nat.le_add_right _ _) (by omega)]
    trivial
  · exact hname _ _
  · exact hname _ _
  · exact hname _ _
  · rw [be16At_eq hs (by omega)]
    change Holds (addUsize pos 2 >>= _) _
    rw [holds_bind, holds_addUsize (by omega)]
    exact hname _ _
  · rw [holds_bind, holds_addUsize (by omega)]
    exact (holds_txtLoop hs hr [] (Nat.succ_pos _) (by omega)).bind fun _ _ => trivial
  · simp (disch := omega) only [be16At_eq hs]
    change Holds (addUsize pos 6 >>= _) _
    rw [holds_bind, holds_addUsize (by omega)]
    exact hname _ _
  · exact holds_orUnknown hs hr rtype (holds_soaRdata hs hb)
  · exact holds_unknownRdata hs hr rtype

end Rdata

section Sections

variable (hb : base ≤ data.length)
include hb

theorem holds_parseRr (start : ℕ) :
    Holds (parseRr data start base) fun r => start < r.2 ∧ r.2 ≤ data.length := by
  have hmax : maxBytes = 2 ^ 63 := rfl
  unfold parseRr
  refine (holds_dnsName hs hb start).bind fun r hname => ?_
  dsimp only
  rw [holds_bind, holds_addUsize (by omega)]
  refine holds_ite (fun _ => trivial) fun hhead => ?_
  simp (disch := omega) only [be16At_eq hs, be32At_eq hs]
  change Holds (addUsize (r.2 + 10) _ >>= _) _
  have hlen := (be16 (peek data (r.2 + 8)) (peek data (r.2 + 8 + 1))).toNat_lt
  rw [holds_bind, holds_addUsize (by omega)]
  refine holds_ite (fun _ => trivial) fun hstop => ?_
  refine (holds_parseRdata hs hb (by omega) _).bind fun _ _ => ?_
  change start < r.2 + 10 + _ ∧ r.2 + 10 + _ ≤ data.length
  omega

theorem holds_parseRecords (count : ℕ) {pos : ℕ} (hpos : pos ≤ data.length) (out : List DnsRecord) :
    Holds (parseRecords data base count pos out) fun r => pos ≤ r.2 ∧ r.2 ≤ data.length := by
  induction count generalizing pos out with
  | zero => exact ⟨Nat.le_refl pos, hpos⟩
  | succ count ih =>
    unfold parseRecords
    refine (holds_parseRr hs hb pos).attempt.bind fun o ho => ?_
    cases o with
    | some r =>
      obtain ⟨hlt, hle⟩ := ho r rfl
      exact (ih hle _).mono fun _ h => ⟨hlt.le.trans h.1, h.2⟩
    | none => exact ⟨Nat.le_refl pos, hpos⟩

theorem holds_parseQuestions (count : ℕ) {pos : ℕ} (hpos : pos ≤ data.length)
    (questions : List DnsQuestion) :
    Holds (parseQuestions data base count pos questions) fun r => pos ≤ r.2 ∧ r.2 ≤ data.length := by
  have hmax : maxBytes = 2 ^ 63 := rfl
  induction count generalizing pos questions with
  | zero => exact ⟨Nat.le_refl pos, hpos⟩
  | succ count ih =>
    unfold parseQuestions
    refine (holds_dnsName hs hb pos).bind fun r hr => ?_
    dsimp only
    rw [holds_bind, holds_addUsize (by omega)]
    refine holds_ite (fun _ => ⟨hr.1.le, hr.2⟩) fun hstop => ?_
    simp (disch := omega) only [be16At_eq hs]
    exact (ih (by omega) _).mono fun _ h => ⟨by omega, h.2⟩

end Sections

/-- No DNS message, well formed or not, makes the decoder fail. -/
theorem holds_tryDecodeDns (offset : ℕ) :
    Holds (tryDecodeDns data offset) fun i => RangeFrom offset data.length i.headerRange := by
  have hmax : maxBytes = 2 ^ 63 := rfl
  unfold tryDecodeDns
  rw [holds_bind]
  refine holds_checkedSub fun ho => holds_ite (fun _ => trivial) fun hlen => ?_
  simp (disch := omega) only [be16At_eq hs]
  refine holds_ite (fun _ => trivial) fun _ => ?_
  rw [holds_bind, holds_addUsize (by omega)]
  refine (holds_parseQuestions hs ho _ (by omega) []).bind fun q hq =>
    holds_ite (fun _ => trivial) fun _ => ?_
  refine (holds_parseRecords hs ho _ hq.2 []).bind fun r₁ h₁ =>
    (holds_parseRecords hs ho _ h₁.2 []).bind fun r₂ h₂ =>
    (holds_parseRecords hs ho _ h₂.2 []).bind fun r₃ h₃ => ?_
  have hforward : offset ≤ min r₃.2 data.length := by
    rw [le_min_iff]
    omega
  exact ⟨rfl, hforward, min_le_right _ _⟩

end Safe

end Pktscope

import Mathlib.Data.List.Induction
import Pktscope.Decode.Layers
import Pktscope.Library.Pending
import Pktscope.Net.Addr
import Pktscope.Numeric.Machine

/-! # The DNS tracker

Responses are paired with queries by transaction id. A query replaces a pending
one with its id, whoever sent it and whatever it asks for; when too many are
pending, an arbitrary one is evicted first.
-/

namespace Pktscope

open Library

structure PendingQuery where
  packetNumber : ℕ
  timestamp : DateTime
  qname : String
  deriving DecidableEq

/-- A correlated DNS query/response pair. -/
structure DnsPairing (F : Type) where
  queryPacket : ℕ
  rttMs : F
  answerSummary : String
  deriving DecidableEq

/-- The queries without a response, of which there are never more than `cap`. -/
structure DnsTracker where
  pending : AList fun _ : UInt16 => PendingQuery
  cap : ℕ
  cap_pos : 0 < cap
  fits : pending.keys.length ≤ cap

/-- The name of the first question, the empty one without questions. -/
def DnsInfo.firstQname (dns : DnsInfo) : String := (dns.questions.head?.map (·.qname)).getD ""

def DnsRdata.summary? : DnsRdata → Option String
  | .a ip => some (IpAddr.v4 ip).display
  | .aaaa ip => some (IpAddr.v6 ip).display
  | .cname c => some ("CNAME " ++ c)
  | _ => none

def summarizeAnswers (dns : DnsInfo) : String :=
  ", ".intercalate (dns.answers.filterMap fun r => r.rdata.summary?)

/-- The time between two packets in milliseconds, zero when it is out of range or negative. -/
def rttMsBetween {F : Type} [F64 F] (sent received : DateTime) : F :=
  let us := DateTime.microsSince received sent
  if I64.InRange us then
    if 0 ≤ us then F64.max (F64.ofNat us.toNat / 1000.0) 0.0
    else F64.max ((0.0 - F64.ofNat (-us).toNat) / 1000.0) 0.0
  else 0.0

/-- A decoded message with its packet, and how the table lists its keys when it is observed. -/
structure DnsObservation where
  dns : DnsInfo
  packetNumber : ℕ
  timestamp : DateTime
  keys : KeyOrder UInt16 PendingQuery

namespace DnsObservation

def id (o : DnsObservation) : UInt16 := o.dns.transactionId

/-- What a query leaves behind. -/
def query? (o : DnsObservation) : Option PendingQuery :=
  if o.dns.isResponse then none else some ⟨o.packetNumber, o.timestamp, o.dns.firstQname⟩

end DnsObservation

namespace DnsTracker

def new : DnsTracker := ⟨∅, 4096, by decide, by simp⟩

/-- The pending queries once there is room for another one. -/
def room (t : DnsTracker) (keys : KeyOrder UInt16 PendingQuery) :
    AList fun _ : UInt16 => PendingQuery :=
  if t.pending.keys.length ≥ t.cap then
    match keys.first t.pending with
    | some k => t.pending.erase k
    | none => t.pending
  else t.pending

theorem length_room_lt (t : DnsTracker) (keys : KeyOrder UInt16 PendingQuery) :
    (t.room keys).keys.length < t.cap := by
  have hpos := t.cap_pos
  have hfits := t.fits
  unfold room
  split_ifs with hfull
  · cases hfirst : keys.first t.pending with
    | some k =>
      have hk : k ∈ t.pending.keys := AList.mem_keys.mp (keys.mem_of_first hfirst)
      rw [AList.keys_erase, List.length_erase_of_mem hk]
      omega
    | none =>
      obtain ⟨k, hk⟩ := List.exists_mem_of_length_pos (lt_of_lt_of_le hpos hfull)
      have hsome := keys.isSome_first (AList.mem_keys.mpr hk)
      rw [hfirst] at hsome
      cases hsome
  · exact not_le.mp hfull

/-- Record a query in place of a pending one with its id. -/
def record (t : DnsTracker) (keys : KeyOrder UInt16 PendingQuery) (txid : UInt16)
    (q : PendingQuery) : DnsTracker where
  pending := (t.room keys).insert txid q
  cap := t.cap
  cap_pos := t.cap_pos
  fits := by
    rw [AList.keys_insert, List.length_cons]
    exact lt_of_le_of_lt List.length_erase_le (t.length_room_lt keys)

/-- Drop the pending query of an id. -/
def settle (t : DnsTracker) (txid : UInt16) : DnsTracker where
  pending := t.pending.erase txid
  cap := t.cap
  cap_pos := t.cap_pos
  fits := by
    rw [AList.keys_erase]
    exact le_trans List.length_erase_le t.fits

section Observe

variable {F : Type} [F64 F]

/-- Record a query, or pair a response with the pending query of its id. -/
def observe (t : DnsTracker) (o : DnsObservation) : DnsTracker × Option (DnsPairing F) :=
  if !o.dns.isResponse then
    (t.record o.keys o.dns.transactionId ⟨o.packetNumber, o.timestamp, o.dns.firstQname⟩, none)
  else
    (t.settle o.dns.transactionId,
      (t.pending.lookup o.dns.transactionId).map fun q =>
        { queryPacket := q.packetNumber
          rttMs := rttMsBetween q.timestamp o.timestamp
          answerSummary := summarizeAnswers o.dns })

variable {t : DnsTracker} {o : DnsObservation} {log : List DnsObservation} {p : DnsPairing F}

theorem cap_observe : (t.observe (F := F) o).1.cap = t.cap := by
  unfold observe
  split_ifs <;> rfl

theorem traced_observe (h : Traced DnsObservation.id DnsObservation.query? log t.pending) :
    Traced DnsObservation.id DnsObservation.query? (log ++ [o]) (t.observe (F := F) o).1.pending := by
  unfold observe
  cases hresponse : o.dns.isResponse with
  | false =>
    have hopens : o.query? = some ⟨o.packetNumber, o.timestamp, o.dns.firstQname⟩ := by
      rw [DnsObservation.query?, hresponse]
      rfl
    have hroom : Traced DnsObservation.id DnsObservation.query? log (t.room o.keys) := by
      unfold room
      split
      · split
        · exact h.evict _
        · exact h
      · exact h
    exact hroom.insert hopens
  | true => exact h.erase o

theorem lookup_of_observe (h : (t.observe o).2 = some p) :
    o.dns.isResponse = true ∧ ∃ q, t.pending.lookup o.id = some q ∧ p.queryPacket = q.packetNumber := by
  unfold observe at h
  cases hresponse : o.dns.isResponse with
  | false =>
    rw [hresponse] at h
    cases h
  | true =>
    rw [hresponse] at h
    obtain ⟨q, hq, rfl⟩ := Option.map_eq_some_iff.mp h
    exact ⟨rfl, q, hq, rfl⟩

end Observe

section Names

variable {F : Type} {log : List DnsObservation} {i j j' : ℕ} {p p' : DnsPairing F}

/-- A pairing of a response names the query that is the last message before it with its id. -/
structure Names (log : List DnsObservation) (i j : ℕ) (p : DnsPairing F) : Prop where
  lt : i < j
  named : ∃ q r, log[j]? = some r ∧ r.dns.isResponse = true ∧
    IsLast DnsObservation.id (log.take j) r.id i q ∧ q.dns.isResponse = false ∧
    p.queryPacket = q.packetNumber

theorem Names.eq (h : Names log i j p) (h' : Names log i j' p') : j = j' := by
  obtain ⟨-, q, r, hr, -, hlast, -⟩ := h
  obtain ⟨-, q', r', hr', -, hlast', -⟩ := h'
  exact hlast.eq_of_take hr hr' hlast'

theorem Names.packetNumber (h : Names log i j p) :
    (log.map DnsObservation.packetNumber)[i]? = some p.queryPacket := by
  obtain ⟨hlt, q, r, -, -, hlast, -, hnumber⟩ := h
  have hq : log[i]? = some q := by rw [← List.getElem?_take_of_lt hlt, hlast.getElem?]
  rw [List.getElem?_map, hq, hnumber]
  rfl

end Names

section Run

variable (F : Type) [F64 F]

/-- The tracker after some messages. -/
def after (log : List DnsObservation) : DnsTracker :=
  log.foldl (fun t o => (t.observe (F := F) o).1) new

/-- What the tracker returns for a message of a log. -/
def pairing (log : List DnsObservation) (j : ℕ) : Option (DnsPairing F) :=
  log[j]?.bind fun o => ((after F (log.take j)).observe o).2

variable {log : List DnsObservation}

theorem after_concat (o : DnsObservation) :
    after F (log ++ [o]) = ((after F log).observe (F := F) o).1 := by
  rw [after, List.foldl_append]
  rfl

theorem cap_after (log : List DnsObservation) : (after F log).cap = 4096 := by
  induction log using List.reverseRecOn with
  | nil => rfl
  | append_singleton log o ih => rw [after_concat, cap_observe, ih]

theorem traced_after (log : List DnsObservation) :
    Traced DnsObservation.id DnsObservation.query? log (after F log).pending := by
  induction log using List.reverseRecOn with
  | nil => exact .nil
  | append_singleton log o ih =>
    rw [after_concat]
    exact traced_observe ih

variable {F}

variable {j : ℕ} {p : DnsPairing F}

theorem names_of_pairing (h : pairing F log j = some p) : ∃ i, Names log i j p := by
  obtain ⟨r, hr, hp⟩ := Option.bind_eq_some_iff.mp h
  obtain ⟨hresponse, pend, hlookup, hnumber⟩ := lookup_of_observe hp
  obtain ⟨i, q, hlast, hopens⟩ := traced_after F (log.take j) r.id pend hlookup
  have hi : i < j := lt_of_lt_of_le hlast.lt_length (List.length_take_le _ _)
  unfold DnsObservation.query? at hopens
  split_ifs at hopens with hquery
  cases hopens
  exact ⟨i, hi, q, r, hr, hresponse, hlast, Bool.eq_false_of_not_eq_true hquery, hnumber⟩

/-- A pairing names the last message observed before the response with its transaction id, which is
a query; no query is paired twice; and at most 4096 queries are pending at any time. -/
theorem pairings_sound (log : List DnsObservation) :
    (∃ source : ℕ → ℕ,
      (∀ j (p : DnsPairing F), pairing F log j = some p → Names log (source j) j p) ∧
      ∀ j j' (p p' : DnsPairing F), pairing F log j = some p → pairing F log j' = some p' →
        source j = source j' → j = j') ∧
    ((log.map DnsObservation.packetNumber).Nodup →
      ∀ j j' (p p' : DnsPairing F), pairing F log j = some p → pairing F log j' = some p' →
        p.queryPacket = p'.queryPacket → j = j') ∧
    ∀ n, (after F (log.take n)).pending.keys.length ≤ 4096 := by
  have hsource (j : ℕ) : ∃ i, ∀ p : DnsPairing F, pairing F log j = some p → Names log i j p := by
    cases hp : pairing F log j with
    | none => exact ⟨0, fun p h => nomatch h⟩
    | some p =>
      obtain ⟨i, hi⟩ := names_of_pairing hp
      refine ⟨i, fun p' h => ?_⟩
      cases h
      exact hi
  obtain ⟨source, hnames⟩ := Classical.axiomOfChoice hsource
  refine ⟨⟨source, hnames, ?_⟩, ?_, ?_⟩
  · intro j j' p p' hp hp' heq
    exact (hnames j p hp).eq (heq ▸ hnames j' p' hp')
  · intro hnodup j j' p p' hp hp' heq
    have hi := (hnames j p hp).packetNumber
    have hi' := (hnames j' p' hp').packetNumber
    have hlt := (List.getElem?_eq_some_iff.mp hi).1
    have hsame : source j = source j' := by
      rw [heq] at hi
      exact (List.getElem?_inj hlt hnodup).mp (hi.trans hi'.symm)
    exact (hnames j p hp).eq (hsame ▸ hnames j' p' hp')
  · intro n
    rw [← cap_after F (log.take n)]
    exact (after F (log.take n)).fits

end Run

section Samples

def sampleMessage (isResponse : Bool) (qname : String) (packetNumber : ℕ) : DnsObservation where
  dns := ⟨7, isResponse, 0, [⟨qname, 1, 1⟩], [], [], [], (0, 0)⟩
  packetNumber := packetNumber
  timestamp := 0
  keys := .latest UInt16 PendingQuery

/-- Two clients ask for two names under one id, and the first answer comes after both. -/
def crossedLog : List DnsObservation :=
  [sampleMessage false "a.com" 1, sampleMessage false "b.com" 2, sampleMessage true "a.com" 3]

/-- The answer to the first question is paired with the packet that asked the second. -/
theorem crossed_pairing :
    ¬ ∀ (j : ℕ) (p : DnsPairing ℚ), pairing ℚ crossedLog j = some p →
      ∃ i q r, i < j ∧ crossedLog[j]? = some r ∧ crossedLog[i]? = some q ∧
        q.dns.isResponse = false ∧ q.id = r.id ∧ q.dns.firstQname = r.dns.firstQname ∧
        p.queryPacket = q.packetNumber := by
  intro h
  have hpairing : (pairing ℚ crossedLog 2).map DnsPairing.queryPacket = some 2 := by decide
  obtain ⟨p, hp, hpacket⟩ := Option.map_eq_some_iff.mp hpairing
  obtain ⟨i, q, r, hi, hr, hq, -, -, hname, hnumber⟩ := h 2 p hp
  cases hr
  obtain _ | _ | i := i
  · cases hq
    rw [hpacket] at hnumber
    cases hnumber
  · cases hq
    revert hname
    decide
  · omega

end Samples

end DnsTracker

end Pktscope

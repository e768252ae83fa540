import Pktscope.Flow.Closing
import Pktscope.Library.Serial

/-! # Round-trip samples

Data in flight waits in a map of each side, ordered by the ends as plain numbers. An
ACK of the other side takes out what it acknowledges and a full map loses its least
entry. That is the order of the sequence numbers as long as they do not wrap in
between.
-/

namespace Pktscope

open Library

/-- A segment of one side, as the estimates see it. -/
structure TimedSegment where
  isLow : Bool
  tcp : TcpBits
  ts : DateTime
  seq_lt : tcp.seq < 2 ^ 32
  ack_lt : tcp.ack < 2 ^ 32

variable {F : Type}

/-- The data in flight of one side. -/
def FlowState.unacked (st : FlowState F) (isLow : Bool) : OrderedMap ℕ DateTime :=
  if isLow then st.unackedLow else st.unackedHigh

namespace TimedSegment

variable (s : TimedSegment)

/-- The end of the data of a segment, as the key of its entry. -/
def dataEnd : ℕ := (s.tcp.seq + s.tcp.payloadLen % 2 ^ 32) % 2 ^ 32

/-- The data in flight of the sending side with the data of the segment. -/
def record (m : OrderedMap ℕ DateTime) : OrderedMap ℕ DateTime :=
  if s.tcp.payloadLen > 0 then m.orInsert s.dataEnd s.ts else m

/-- Whether a segment acknowledges an entry of the other side, as plain numbers. -/
def acks (e : ℕ × DateTime) : Bool := s.tcp.ackFlag && decide (e.1 ≤ s.tcp.ack)

/-- Whether the clock has not gone back since an entry was made. -/
def after (e : ℕ × DateTime) : Bool := decide (DateTime.microsSince s.ts e.2 ≥ 0)

end TimedSegment

/-- The entries of which a segment takes a sample. -/
def FlowState.timed (st : FlowState F) (s : TimedSegment) : List (ℕ × DateTime) :=
  ((st.unacked (!s.isLow)).entries.filter s.acks).filter s.after

section Step

variable [F64 F]

/-- The state of a flow with the estimates updated. -/
def FlowState.time (st : FlowState F) (s : TimedSegment) : FlowState F :=
  recordRtt st s.isLow s.tcp s.ts

/-- The smoothed estimate after one sample. -/
def smooth (ts : DateTime) (srtt : Option F) (e : ℕ × DateTime) : Option F :=
  let sample : F := F64.ofNat (DateTime.microsSince ts e.2).toNat / 1000.0
  some (match srtt with
    | some prev => prev * 0.875 + sample * 0.125
    | none => sample)

variable {st : FlowState F}

theorem recordAcked_spec (isLow : Bool) (ts : DateTime) {e : ℕ × DateTime}
    (he : (st.unacked (!isLow)).get? e.1 = some e.2) :
    (recordAcked isLow ts st e.1).unacked isLow = st.unacked isLow ∧
      (recordAcked isLow ts st e.1).unacked (!isLow) = (st.unacked (!isLow)).remove e.1 ∧
      (recordAcked isLow ts st e.1).srttMs =
        if DateTime.microsSince ts e.2 ≥ 0 then smooth ts st.srttMs e else st.srttMs := by
  cases isLow with
  | true =>
    have hget : st.unackedHigh.get? e.1 = some e.2 := he
    unfold recordAcked
    simp only [if_true, hget]
    split
    · exact ⟨rfl, rfl, rfl⟩
    · exact ⟨rfl, rfl, rfl⟩
  | false =>
    have hget : st.unackedLow.get? e.1 = some e.2 := he
    unfold recordAcked
    simp only [Bool.false_eq_true, if_false, hget]
    split
    · exact ⟨rfl, rfl, rfl⟩
    · exact ⟨rfl, rfl, rfl⟩

theorem foldl_recordAcked (isLow : Bool) (ts : DateTime) (l : List (ℕ × DateTime)) :
    ∀ st : FlowState F, (∀ e ∈ l, (st.unacked (!isLow)).get? e.1 = some e.2) →
      l.Pairwise (fun a b => a.1 ≠ b.1) →
        ((l.map Prod.fst).foldl (recordAcked isLow ts) st).unacked isLow = st.unacked isLow ∧
          (((l.map Prod.fst).foldl (recordAcked isLow ts) st).unacked (!isLow)).entries =
            (st.unacked (!isLow)).entries.filter (fun e => decide (e.1 ∉ l.map Prod.fst)) ∧
          ((l.map Prod.fst).foldl (recordAcked isLow ts) st).srttMs =
            (l.filter fun e => decide (DateTime.microsSince ts e.2 ≥ 0)).foldl (smooth ts)
              st.srttMs := by
  induction l with
  | nil =>
    intro st _ _
    exact ⟨rfl, by simp, rfl⟩
  | cons e l ih =>
    intro st hget hne
    have hcons := List.pairwise_cons.mp hne
    obtain ⟨hown, hother, hsrtt⟩ := recordAcked_spec isLow ts (hget e List.mem_cons_self)
    have hrest : ∀ x ∈ l, ((recordAcked isLow ts st e.1).unacked (!isLow)).get? x.1 = some x.2 := by
      intro x hx
      rw [hother, OrderedMap.get?_remove, if_neg (Ne.symm (hcons.1 x hx))]
      exact hget x (List.mem_cons_of_mem _ hx)
    obtain ⟨h1, h2, h3⟩ := ih _ hrest hcons.2
    rw [List.map_cons, List.foldl_cons]
    refine ⟨h1.trans hown, ?_, ?_⟩
    · rw [h2, hother, OrderedMap.remove, List.filter_filter]
      apply List.filter_congr
      intro x _
      rw [Bool.eq_iff_iff]
      simp only [Bool.and_eq_true, decide_eq_true_eq, List.mem_cons, not_or]
      exact and_comm
    · rw [h3, hsrtt, List.filter_cons]
      by_cases hus : DateTime.microsSince ts e.2 ≥ 0
      · simp [hus]
      · simp [hus]

theorem trimUnacked_of_le {m : OrderedMap ℕ DateTime} (h : m.len ≤ maxUnacked) (fuel : ℕ) :
    trimUnacked fuel m = m := by
  cases fuel with
  | zero => rfl
  | succ fuel => rw [trimUnacked, if_neg (not_lt.mpr h)]

theorem trimUnacked_spec {m : OrderedMap ℕ DateTime} (h : m.len ≤ maxUnacked + 1) :
    (trimUnacked m.len m).len ≤ maxUnacked ∧ ∀ k, k ∈ (trimUnacked m.len m).keys ↔
      k ∈ m.keys ∧ (maxUnacked < m.len → k ∉ m.keys.head?) := by
  rcases Nat.lt_or_ge maxUnacked m.len with hlt | hge
  · obtain ⟨fuel, hfuel⟩ : ∃ fuel, m.len = fuel + 1 := ⟨m.len - 1, by omega⟩
    obtain ⟨least, hleast⟩ : ∃ k, m.keys.head? = some k := by
      cases hk : m.keys with
      | nil =>
        have hlen : m.keys.length = m.len := List.length_map _
        rw [hk, List.length_nil] at hlen
        omega
      | cons k ks => exact ⟨k, rfl⟩
    have hmem : least ∈ m.keys := List.mem_of_head? hleast
    have hshort := OrderedMap.len_remove_lt_of_mem hmem
    have heq : trimUnacked m.len m = m.remove least := by
      rw [hfuel, trimUnacked, if_pos hlt, hleast]
      exact trimUnacked_of_le (by omega) fuel
    rw [heq, hleast]
    refine ⟨by omega, fun k => ?_⟩
    rw [OrderedMap.mem_keys_remove]
    constructor
    · rintro ⟨hk, hne⟩
      refine ⟨hk, ?_⟩
      rintro - ⟨⟩
      exact hne rfl
    · rintro ⟨hk, hne⟩
      refine ⟨hk, ?_⟩
      rintro rfl
      exact hne hlt rfl
  · rw [trimUnacked_of_le hge]
    refine ⟨hge, fun k => ?_⟩
    constructor
    · intro hk
      exact ⟨hk, fun hlt => absurd hlt (not_lt.mpr hge)⟩
    · exact And.left

theorem recordHandshake_spec (st : FlowState F) (tcp : TcpBits) (ts : DateTime) (side : Bool) :
    (recordHandshake st tcp ts).unacked side = st.unacked side ∧
      (recordHandshake st tcp ts).srttMs = st.srttMs := by
  unfold recordHandshake
  split
  · exact ⟨rfl, rfl⟩
  · split
    · dsimp only
      split
      · split
        · exact ⟨rfl, rfl⟩
        · exact ⟨rfl, rfl⟩
      · exact ⟨rfl, rfl⟩
    · exact ⟨rfl, rfl⟩

omit [F64 F] in
theorem recordSent_spec (st : FlowState F) (s : TimedSegment)
    (h : (st.unacked s.isLow).len ≤ maxUnacked) :
    (recordSent st s.isLow s.tcp s.ts).unacked s.isLow =
        trimUnacked (s.record (st.unacked s.isLow)).len (s.record (st.unacked s.isLow)) ∧
      (recordSent st s.isLow s.tcp s.ts).unacked (!s.isLow) = st.unacked (!s.isLow) ∧
      (recordSent st s.isLow s.tcp s.ts).srttMs = st.srttMs := by
  unfold recordSent TimedSegment.record
  by_cases hlen : s.tcp.payloadLen > 0
  · simp only [if_pos hlen]
    cases s.isLow
    · exact ⟨rfl, rfl, rfl⟩
    · exact ⟨rfl, rfl, rfl⟩
  · rw [if_neg hlen, if_neg hlen]
    exact ⟨(trimUnacked_of_le h _).symm, rfl, rfl⟩

theorem rangeTo_eq (m : OrderedMap ℕ DateTime) (k : ℕ) :
    m.rangeTo k = (m.entries.filter fun e => decide (e.1 ≤ k)).map Prod.fst := by
  rw [OrderedMap.rangeTo, OrderedMap.keys, List.filter_map]
  rfl

/-- What one segment does to the data in flight and to the estimate. -/
theorem time_spec (st : FlowState F) (s : TimedSegment)
    (h : (st.unacked s.isLow).len ≤ maxUnacked) :
    (st.time s).unacked s.isLow =
        trimUnacked (s.record (st.unacked s.isLow)).len (s.record (st.unacked s.isLow)) ∧
      ((st.time s).unacked (!s.isLow)).entries =
        (st.unacked (!s.isLow)).entries.filter (fun e => !s.acks e) ∧
      (st.time s).srttMs = (st.timed s).foldl (smooth s.ts) st.srttMs := by
  obtain ⟨hown', hsrtt'⟩ := recordHandshake_spec st s.tcp s.ts s.isLow
  obtain ⟨hother', -⟩ := recordHandshake_spec st s.tcp s.ts (!s.isLow)
  have hfull : ((recordHandshake st s.tcp s.ts).unacked s.isLow).len ≤ maxUnacked := by
    rw [hown']
    exact h
  obtain ⟨hown, hother, hsrtt⟩ := recordSent_spec _ s hfull
  rw [hown'] at hown
  rw [hother'] at hother
  rw [hsrtt'] at hsrtt
  unfold FlowState.time recordRtt FlowState.timed TimedSegment.acks
  dsimp only
  generalize recordSent (recordHandshake st s.tcp s.ts) s.isLow s.tcp s.ts = sent at hown hother hsrtt
  cases hack : s.tcp.ackFlag with
  | false =>
    simp only [Bool.false_eq_true, if_false, Bool.false_and, Bool.not_false, List.filter_true,
      List.filter_false, List.filter_nil, List.foldl_nil]
    exact ⟨hown, congrArg OrderedMap.entries hother, hsrtt⟩
  | true =>
    have hmap : (if s.isLow = true then sent.unackedHigh else sent.unackedLow) =
        sent.unacked (!s.isLow) := by
      cases s.isLow <;> rfl
    simp only [if_true, Bool.true_and]
    rw [hmap, rangeTo_eq, hother]
    generalize hl : (st.unacked (!s.isLow)).entries.filter (fun e => decide (e.1 ≤ s.tcp.ack)) = l
    have hsub : l.Sublist (st.unacked (!s.isLow)).entries := by
      rw [← hl]
      exact List.filter_sublist
    have hget : ∀ e ∈ l, (sent.unacked (!s.isLow)).get? e.1 = some e.2 := by
      intro e he
      rw [hother]
      exact OrderedMap.get?_of_mem (hsub.subset he)
    have hne : l.Pairwise fun a b => a.1 ≠ b.1 :=
      ((st.unacked (!s.isLow)).sorted.sublist hsub).imp fun hlt => ne_of_lt hlt
    obtain ⟨h1, h2, h3⟩ := foldl_recordAcked s.isLow s.ts l sent hget hne
    refine ⟨h1.trans hown, ?_, ?_⟩
    · rw [h2, hother]
      apply List.filter_congr
      intro e he
      have hmem : e.1 ∈ l.map Prod.fst ↔ e.1 ≤ s.tcp.ack := by
        rw [← hl]
        simp only [List.mem_map, List.mem_filter, decide_eq_true_eq]
        constructor
        · rintro ⟨e', ⟨-, hle⟩, heq⟩
          rw [← heq]
          exact hle
        · intro hle
          exact ⟨e, ⟨he, hle⟩, rfl⟩
      rw [Bool.eq_iff_iff]
      simp only [decide_eq_true_eq, Bool.not_eq_true', decide_eq_false_iff_not, hmem]
    · rw [h3, hsrtt]
      rfl

end Step

/-- The order of sequence numbers that wrap, on the keys of the maps. -/
def serialBefore (a b : ℕ) : Bool := serialLt (UInt32.ofNat a) (UInt32.ofNat b)

theorem serialBefore_iff {a b : ℕ} (ha : a < 2 ^ 32) (hb : b < 2 ^ 32) :
    serialBefore a b = true ↔ a < b ∧ b ≤ a + 2 ^ 31 ∨ b + 2 ^ 31 ≤ a := by
  have hanum : (UInt32.ofNat a).toNat = a := UInt32.toNat_ofNat_of_lt' ha
  have hbnum : (UInt32.ofNat b).toNat = b := UInt32.toNat_ofNat_of_lt' hb
  rw [serialBefore, serialLt_iff, UInt32.toNat_sub, hanum, hbnum]
  omega

/-- No more entries than fit, with keys of 32 bits. -/
def FlowState.RttBounded (st : FlowState F) : Prop :=
  ∀ side, (st.unacked side).len ≤ maxUnacked ∧ ∀ k ∈ (st.unacked side).keys, k < 2 ^ 32

/-- What a segment makes of the plain numbers is right by the numbers that wrap: samples are of
entries at or before its ACK, no such entry stays, and what a full map loses is the earliest. -/
structure RttRight [F64 F] (st : FlowState F) (s : TimedSegment) : Prop where
  estimate : (st.time s).srttMs = (st.timed s).foldl (smooth s.ts) st.srttMs
  sampled : ∀ e ∈ st.timed s, s.tcp.ackFlag = true ∧ e ∈ (st.unacked (!s.isLow)).entries ∧
    serialBefore s.tcp.ack e.1 = false
  cleared : s.tcp.ackFlag = true →
    ∀ k ∈ ((st.time s).unacked (!s.isLow)).keys, serialBefore s.tcp.ack k = true
  evicted : ∀ k ∈ (s.record (st.unacked s.isLow)).keys, k ∉ ((st.time s).unacked s.isLow).keys →
    ∀ k' ∈ (s.record (st.unacked s.isLow)).keys, serialBefore k' k = false

/-- The numbers that a segment compares do not lie on two sides of the wrap. -/
structure Unwrapped (st : FlowState F) (s : TimedSegment) : Prop where
  below : s.tcp.ackFlag = true → ∀ e ∈ (st.unacked (!s.isLow)).entries, s.after e = true →
    e.1 ≤ s.tcp.ack → s.tcp.ack < e.1 + 2 ^ 31
  above : s.tcp.ackFlag = true → ∀ k ∈ (st.unacked (!s.isLow)).keys,
    s.tcp.ack < k → k ≤ s.tcp.ack + 2 ^ 31
  room : maxUnacked < (s.record (st.unacked s.isLow)).len →
    ∀ k ∈ (s.record (st.unacked s.isLow)).keys.head?,
      ∀ k' ∈ (s.record (st.unacked s.isLow)).keys, k' < k + 2 ^ 31

section Bounded

variable {st : FlowState F} (h : st.RttBounded) (s : TimedSegment)
include h

theorem len_record_le : (s.record (st.unacked s.isLow)).len ≤ maxUnacked + 1 := by
  have hlen := (h s.isLow).1
  unfold TimedSegment.record
  split
  · exact (OrderedMap.len_orInsert_le _ _ _).trans (Nat.succ_le_succ hlen)
  · exact hlen.trans (Nat.le_succ _)

theorem lt_of_mem_record {k : ℕ} (hk : k ∈ (s.record (st.unacked s.isLow)).keys) : k < 2 ^ 32 := by
  unfold TimedSegment.record at hk
  split at hk
  · rcases OrderedMap.mem_keys_orInsert.mp hk with rfl | hk
    · exact Nat.mod_lt _ (by decide)
    · exact (h s.isLow).2 k hk
  · exact (h s.isLow).2 k hk

variable [F64 F]

theorem mem_keys_time_own (k : ℕ) : k ∈ ((st.time s).unacked s.isLow).keys ↔
    k ∈ (s.record (st.unacked s.isLow)).keys ∧
      (maxUnacked < (s.record (st.unacked s.isLow)).len →
        k ∉ (s.record (st.unacked s.isLow)).keys.head?) := by
  rw [(time_spec st s (h _).1).1]
  exact (trimUnacked_spec (len_record_le h s)).2 k

theorem mem_keys_time_other (k : ℕ) : k ∈ ((st.time s).unacked (!s.isLow)).keys ↔
    k ∈ (st.unacked (!s.isLow)).keys ∧ (s.tcp.ackFlag = true → s.tcp.ack < k) := by
  rw [OrderedMap.keys, (time_spec st s (h _).1).2.1]
  simp only [OrderedMap.keys, List.mem_map, List.mem_filter, TimedSegment.acks, Bool.not_eq_true',
    Bool.and_eq_false_imp, decide_eq_false_iff_not, not_le]
  constructor
  · rintro ⟨e, ⟨he, hack⟩, rfl⟩
    exact ⟨⟨e, he, rfl⟩, hack⟩
  · rintro ⟨⟨e, he, rfl⟩, hack⟩
    exact ⟨e, ⟨he, hack⟩, rfl⟩

theorem rttBounded_time : (st.time s).RttBounded := by
  have hside : ∀ side, side = s.isLow ∨ side = !s.isLow := by
    intro side
    cases side <;> cases s.isLow <;> simp
  intro side
  rcases hside side with rfl | rfl
  · constructor
    · rw [(time_spec st s (h _).1).1]
      exact (trimUnacked_spec (len_record_le h s)).1
    · intro k hk
      exact lt_of_mem_record h s ((mem_keys_time_own h s k).mp hk).1
  · constructor
    · rw [OrderedMap.len, (time_spec st s (h _).1).2.1]
      exact (List.length_filter_le _ _).trans (h _).1
    · intro k hk
      exact (h _).2 k ((mem_keys_time_other h s k).mp hk).1

omit h [F64 F] in
theorem mem_timed {e : ℕ × DateTime} : e ∈ st.timed s ↔
    e ∈ (st.unacked (!s.isLow)).entries ∧ s.tcp.ackFlag = true ∧ e.1 ≤ s.tcp.ack ∧
      s.after e = true := by
  simp only [FlowState.timed, List.mem_filter, TimedSegment.acks, Bool.and_eq_true,
    decide_eq_true_eq, and_assoc]

/-- One segment is handled right exactly when what it compares has not wrapped. -/
theorem rttRight_iff_unwrapped : RttRight st s ↔ Unwrapped st s := by
  have hack := s.ack_lt
  have hkey : ∀ {e : ℕ × DateTime}, e ∈ (st.unacked (!s.isLow)).entries → e.1 < 2 ^ 32 :=
    fun he => (h _).2 _ (List.mem_map.mpr ⟨_, he, rfl⟩)
  constructor
  · intro hr
    constructor
    · intro hflag e he hafter hle
      have hbefore := (hr.sampled e ((mem_timed s).mpr ⟨he, hflag, hle, hafter⟩)).2.2
      rw [← Bool.not_eq_true, serialBefore_iff hack (hkey he)] at hbefore
      omega
    · intro hflag k hk hlt
      have hbefore := hr.cleared hflag k ((mem_keys_time_other h s k).mpr ⟨hk, fun _ => hlt⟩)
      rw [serialBefore_iff hack ((h _).2 k hk)] at hbefore
      omega
    · intro hfull k hk k' hk'
      have hmem : k ∈ (s.record (st.unacked s.isLow)).keys := List.mem_of_head? hk
      have hgone : k ∉ ((st.time s).unacked s.isLow).keys := by
        rw [mem_keys_time_own h s]
        rintro ⟨-, hne⟩
        exact hne hfull hk
      have hbefore := hr.evicted k hmem hgone k' hk'
      rw [← Bool.not_eq_true, serialBefore_iff (lt_of_mem_record h s hk')
        (lt_of_mem_record h s hmem)] at hbefore
      omega
  · intro hu
    constructor
    · exact (time_spec st s (h _).1).2.2
    · intro e he
      obtain ⟨hmem, hflag, hle, hafter⟩ := (mem_timed s).mp he
      have hbelow := hu.below hflag e hmem hafter hle
      refine ⟨hflag, hmem, ?_⟩
      rw [← Bool.not_eq_true, serialBefore_iff hack (hkey hmem)]
      omega
    · intro hflag k hk
      obtain ⟨hmem, hlt⟩ := (mem_keys_time_other h s k).mp hk
      have habove := hu.above hflag k hmem (hlt hflag)
      rw [serialBefore_iff hack ((h _).2 k hmem)]
      exact Or.inl ⟨hlt hflag, habove⟩
    · intro k hmem hgone k' hk'
      rw [mem_keys_time_own h s] at hgone
      simp only [hmem, true_and, Classical.not_imp, not_not] at hgone
      have hroom := hu.room hgone.1 k hgone.2 k' hk'
      have hle : k ≤ k' := OrderedMap.le_of_head? hgone.2 hk'
      rw [← Bool.not_eq_true, serialBefore_iff (lt_of_mem_record h s hk')
        (lt_of_mem_record h s hmem)]
      omega

omit h in
theorem observe_time (h : st.RttBounded) {info : PktFlowInfo} (htcp : info.tcp = some s.tcp)
    (hside : info.isLow = s.isLow) (wire : UInt32) (side : Bool) :
    (st.observe info wire s.ts).unacked side = (st.time s).unacked side ∧
      (st.observe info wire s.ts).srttMs = (st.time s).srttMs := by
  generalize hst : (st.account info.dir wire s.ts).raiseMaxSeq s.isLow s.tcp = counted
  have hsame : ∀ side, counted.unacked side = st.unacked side := by
    intro side
    rw [← hst]
    unfold FlowState.raiseMaxSeq FlowState.account
    dsimp only
    split_ifs <;> cases info.dir <;> rfl
  have hsrtt : counted.srttMs = st.srttMs := by
    rw [← hst]
    unfold FlowState.raiseMaxSeq FlowState.account
    dsimp only
    split_ifs <;> cases info.dir <;> rfl
  have hobserve : st.observe info wire s.ts = (counted.time s).noteFlags s.isLow s.tcp := by
    rw [← hst]
    simp only [FlowState.observe, htcp, hside]
    rfl
  obtain ⟨hown, hother, hest⟩ := time_spec st s (h _).1
  obtain ⟨hown', hother', hest'⟩ := time_spec counted s (by rw [hsame]; exact (h _).1)
  rw [hsame] at hown' hother'
  have htimed : counted.timed s = st.timed s := by
    rw [FlowState.timed, hsame, FlowState.timed]
  rw [hsrtt, htimed] at hest'
  rw [hobserve]
  constructor
  · change (counted.time s).unacked side = _
    have hside : side = s.isLow ∨ side = !s.isLow := by
      cases side <;> cases s.isLow <;> simp
    rcases hside with rfl | rfl
    · rw [hown, hown']
    · have hentries := hother'.trans hother.symm
      cases hm : (counted.time s).unacked (!s.isLow)
      cases hm' : (st.time s).unacked (!s.isLow)
      rw [hm, hm'] at hentries
      congr
  · change (counted.time s).srttMs = _
    rw [hest, hest']

end Bounded

section Runs

variable [F64 F]

/-- The steps of a run, each with the state before it. -/
def FlowState.trace (st : FlowState F) : List TimedSegment → List (FlowState F × TimedSegment)
  | [] => []
  | s :: segs => (st, s) :: (st.time s).trace segs

/-- Whether a step records a new entry of a side. -/
def records (side : Bool) (k : ℕ) (x : FlowState F × TimedSegment) : Bool :=
  x.2.isLow == side && decide (0 < x.2.tcp.payloadLen) && x.2.dataEnd == k &&
    !decide (k ∈ (x.1.unacked side).keys)

/-- The entries of a side of which a step takes samples. -/
def samplesOf (side : Bool) (x : FlowState F × TimedSegment) : List ℕ :=
  if x.2.isLow = side then [] else (x.1.timed x.2).map Prod.fst

variable {st : FlowState F}

theorem trace_bounded (segs : List TimedSegment) : ∀ {st : FlowState F}, st.RttBounded →
    ∀ x ∈ st.trace segs, x.1.RttBounded := by
  induction segs with
  | nil =>
    intro st _ x hx
    cases hx
  | cons s segs ih =>
    intro st h x hx
    rcases List.mem_cons.mp hx with rfl | hx
    · exact h
    · exact ih (rttBounded_time h s) x hx

omit [F64 F] in
theorem rttBounded_new (ts : DateTime) : (FlowState.new ts : FlowState F).RttBounded := by
  intro side
  cases side
  · exact ⟨Nat.zero_le _, nofun⟩
  · exact ⟨Nat.zero_le _, nofun⟩

omit [F64 F] in
theorem count_timed_le_one (st : FlowState F) (s : TimedSegment) (k : ℕ) :
    ((st.timed s).map Prod.fst).count k ≤ 1 := by
  have hsub : ((st.timed s).map Prod.fst).Sublist (st.unacked (!s.isLow)).keys :=
    (List.filter_sublist.trans List.filter_sublist).map _
  have hnodup : (st.unacked (!s.isLow)).keys.Nodup :=
    (OrderedMap.keys_sorted _).imp fun hlt => ne_of_lt hlt
  exact List.nodup_iff_count_le_one.mp (hnodup.sublist hsub) k

omit [F64 F] in
theorem mem_keys_of_timed {s : TimedSegment} {k : ℕ} (hk : k ∈ (st.timed s).map Prod.fst) :
    k ∈ (st.unacked (!s.isLow)).keys ∧ s.tcp.ackFlag = true ∧ k ≤ s.tcp.ack := by
  obtain ⟨e, he, rfl⟩ := List.mem_map.mp hk
  obtain ⟨hmem, hflag, hle, -⟩ := (mem_timed s).mp he
  exact ⟨List.mem_map.mpr ⟨e, hmem, rfl⟩, hflag, hle⟩

theorem count_step (h : st.RttBounded) (s : TimedSegment) (side : Bool) (k : ℕ) :
    (samplesOf side (st, s)).count k + (if k ∈ ((st.time s).unacked side).keys then 1 else 0) ≤
      (if records side k (st, s) then 1 else 0) + if k ∈ (st.unacked side).keys then 1 else 0 := by
  by_cases hside : s.isLow = side
  · -- its own side: nothing is sampled, and what is new has been recorded
    subst hside
    rw [samplesOf, if_pos rfl, List.count_nil, Nat.zero_add]
    by_cases hafter : k ∈ ((st.time s).unacked s.isLow).keys
    · have hrec := ((mem_keys_time_own h s k).mp hafter).1
      by_cases hold : k ∈ (st.unacked s.isLow).keys
      · rw [if_pos hafter, if_pos hold]
        exact Nat.le_add_left _ _
      · have hnew : records s.isLow k (st, s) = true := by
          unfold TimedSegment.record at hrec
          split at hrec
          · rename_i hlen
            rcases OrderedMap.mem_keys_orInsert.mp hrec with rfl | hmem
            · simp [records, hold, hlen]
            · exact absurd hmem hold
          · exact absurd hrec hold
        rw [if_pos hafter, hnew, if_pos rfl]
        exact Nat.le_add_right _ _
    · rw [if_neg hafter]
      exact Nat.zero_le _
  · have hother : side = !s.isLow := by
      cases side <;> cases hs : s.isLow <;> simp_all
    subst hother
    rw [samplesOf, if_neg (by simp)]
    have hcount := count_timed_le_one st s k
    by_cases htimed : k ∈ (st.timed s).map Prod.fst
    · obtain ⟨hmem, hflag, hle⟩ := mem_keys_of_timed htimed
      have hgone : k ∉ ((st.time s).unacked (!s.isLow)).keys := by
        rw [mem_keys_time_other h s]
        rintro ⟨-, hlt⟩
        exact absurd (hlt hflag) (not_lt.mpr hle)
      rw [if_neg hgone, if_pos hmem]
      exact hcount.trans (Nat.le_add_left _ _)
    · rw [List.count_eq_zero.mpr htimed, Nat.zero_add]
      by_cases hafter : k ∈ ((st.time s).unacked (!s.isLow)).keys
      · rw [if_pos hafter, if_pos ((mem_keys_time_other h s k).mp hafter).1]
        exact Nat.le_add_left _ _
      · rw [if_neg hafter]
        exact Nat.zero_le _

theorem count_samples_le (segs : List TimedSegment) (side : Bool) (k : ℕ) :
    ∀ {st : FlowState F}, st.RttBounded →
      ((st.trace segs).flatMap (samplesOf side)).count k ≤
        (st.trace segs).countP (records side k) + if k ∈ (st.unacked side).keys then 1 else 0 := by
  induction segs with
  | nil => intro st _; exact Nat.zero_le _
  | cons s segs ih =>
    intro st h
    have hstep := count_step h s side k
    have hrest := ih (rttBounded_time h s)
    rw [FlowState.trace, List.flatMap_cons, List.count_append, List.countP_cons]
    omega

/-- The estimates of a run are right exactly when no comparison crosses the wrap. -/
theorem rttRight_iff (ts : DateTime) (segs : List TimedSegment) :
    ((∀ x ∈ (FlowState.new ts : FlowState F).trace segs, RttRight x.1 x.2) ∧
        ∀ side k, (((FlowState.new ts : FlowState F).trace segs).flatMap (samplesOf side)).count k ≤
          ((FlowState.new ts : FlowState F).trace segs).countP (records side k)) ↔
      ∀ x ∈ (FlowState.new ts : FlowState F).trace segs, Unwrapped x.1 x.2 := by
  have hbounded := trace_bounded segs (rttBounded_new (F := F) ts)
  constructor
  · rintro ⟨hright, -⟩ x hx
    exact (rttRight_iff_unwrapped (hbounded x hx) x.2).mp (hright x hx)
  · intro hu
    constructor
    · intro x hx
      exact (rttRight_iff_unwrapped (hbounded x hx) x.2).mpr (hu x hx)
    · intro side k
      have hcount := count_samples_le segs side k (rttBounded_new (F := F) ts)
      have hnone : k ∉ ((FlowState.new ts : FlowState F).unacked side).keys := by
        cases side
        · exact List.not_mem_nil
        · exact List.not_mem_nil
      rwa [if_neg hnone] at hcount

/-- Two segments of one side across the wrap, and the ACK of both. -/
def crossing : List TimedSegment :=
  [⟨true, ⟨0xffffff00, 0, 100, false, true, false, false⟩, 0, by decide, by decide⟩,
    ⟨true, ⟨0xffffff64, 0, 200, false, true, false, false⟩, 1000, by decide, by decide⟩,
    ⟨false, ⟨0, 0x2c, 0, false, true, false, false⟩, 2000, by decide, by decide⟩]

theorem rttRight_crossing : ¬∀ (ts : DateTime) (segs : List TimedSegment),
    (∀ x ∈ (FlowState.new ts : FlowState ℚ).trace segs, RttRight x.1 x.2) ∧
      ∀ side k, (((FlowState.new ts : FlowState ℚ).trace segs).flatMap (samplesOf side)).count k ≤
        ((FlowState.new ts : FlowState ℚ).trace segs).countP (records side k) := by
  intro h
  have hbounded := trace_bounded crossing (rttBounded_new (F := ℚ) 0)
  obtain ⟨st, hst⟩ : ∃ st : FlowState ℚ, st =
      ((FlowState.new 0 : FlowState ℚ).time crossing[0]).time crossing[1] := ⟨_, rfl⟩
  have hmem : (st, crossing[2]) ∈ (FlowState.new 0 : FlowState ℚ).trace crossing := by
    rw [hst]
    exact List.mem_cons_of_mem _ (List.mem_cons_of_mem _ List.mem_cons_self)
  have hunwrapped := (rttRight_iff_unwrapped (hbounded _ hmem) crossing[2]).mp ((h 0 crossing).1 _ hmem)
  have hwrap := hunwrapped.above rfl 0xffffff64 (by rw [hst]; decide) (by decide)
  revert hwrap
  decide

end Runs

end Pktscope

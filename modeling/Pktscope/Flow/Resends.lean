import Mathlib.Data.List.Induction
import Pktscope.Flow.Closing
import Pktscope.Flow.Reassembly
import Pktscope.Library.Folds

/-! # Retransmissions

One side of a connection sends a stream in order and some of its segments again.
The tracker keeps the highest end as a plain number, so what it flags are the
repeated segments as long as no segment starts behind the wrap of the sequence
numbers.
-/

namespace Pktscope

open Library

/-- A segment of a stream at its place. -/
structure Send where
  pos : ℕ
  len : ℕ
  deriving DecidableEq

namespace Send

def stop (s : Send) : ℕ := s.pos + s.len

/-- The sequence number of a segment of a stream with an initial sequence number. -/
def seq (isn : UInt32) (s : Send) : UInt32 := isn + UInt32.ofNat s.pos

/-- The sequence number and the length in a packet. -/
def wire (isn : UInt32) (s : Send) : ℕ × ℕ := ((s.seq isn).toNat, s.len)

end Send

/-- How much of the stream has been sent. -/
def reach (sent : List Send) : ℕ := (sent.map Send.stop).foldr max 0

/-- Every segment carries the next bytes of the stream or repeats one sent before. -/
def Consecutive (sent : List Send) : Prop :=
  ∀ before s, before ++ [s] <+: sent → 0 < s.len ∧ (s.pos = reach before ∨ s ∈ before)

/-- The sequence number and the length of the data of one side in a packet. -/
def PktFlowInfo.data (info : PktFlowInfo) (isLow : Bool) : Option (ℕ × ℕ) :=
  if info.isLow = isLow then
    (info.tcp.filter fun tcp => decide (0 < tcp.payloadLen)).map fun tcp => (tcp.seq, tcp.payloadLen)
  else none

def dataOf (k : FlowKey) (isLow : Bool) (p : DecodedPacket) : Option (ℕ × ℕ) :=
  (extractPktFlowInfo p.layers).bind fun info => if info.key = k then info.data isLow else none

section Reach

variable {sent before : List Send} {s : Send}

theorem reach_concat (sent : List Send) (s : Send) : reach (sent ++ [s]) = max (reach sent) s.stop := by
  induction sent with
  | nil => simp [reach]
  | cons a sent ih =>
    simp only [reach, List.cons_append, List.map_cons, List.foldr_cons] at *
    rw [ih, max_assoc]

theorem stop_le_reach (h : s ∈ sent) : s.stop ≤ reach sent := by
  induction sent with
  | nil => cases h
  | cons a sent ih =>
    simp only [reach, List.map_cons, List.foldr_cons] at *
    rcases List.mem_cons.mp h with rfl | h
    · exact le_max_left _ _
    · exact (ih h).trans (le_max_right _ _)

theorem reach_mono (h : before <+: sent) : reach before ≤ reach sent := by
  obtain ⟨rest, rfl⟩ := h
  induction before with
  | nil => exact Nat.zero_le _
  | cons a before ih =>
    simp only [reach, List.cons_append, List.map_cons, List.foldr_cons] at *
    exact max_le_max (le_refl _) ih

namespace Consecutive

variable (h : Consecutive sent)
include h

theorem initial (hb : before <+: sent) : Consecutive before :=
  fun l s hl => h l s (hl.trans hb)

/-- A segment repeats an earlier one exactly when it ends where the stream has already been. -/
theorem mem_iff (hs : before ++ [s] <+: sent) : s ∈ before ↔ s.stop ≤ reach before := by
  constructor
  · exact stop_le_reach
  · intro hle
    obtain ⟨hlen, hpos | hmem⟩ := h before s hs
    · unfold Send.stop at hle
      omega
    · exact hmem

theorem pos_le (hs : before ++ [s] <+: sent) : s.pos ≤ reach before := by
  obtain ⟨-, hpos | hmem⟩ := h before s hs
  · exact hpos.le
  · have := stop_le_reach hmem
    unfold Send.stop at this
    omega

end Consecutive

end Reach

section Register

variable {F : Type}

/-- A register holds the highest of some numbers, if there are any. -/
def Highest (m : Option ℕ) (ends : List ℕ) : Prop :=
  ∀ n, m.any (fun prev => decide (n ≤ prev)) = true ↔ ∃ e ∈ ends, n ≤ e

theorem highest_none : Highest none [] := by
  intro n
  simp

theorem Highest.concat {m : Option ℕ} {ends : List ℕ} (h : Highest m ends) (e : ℕ) :
    Highest (some (max (m.getD 0) e)) (ends ++ [e]) := by
  intro n
  have hn := h n
  simp only [Option.any_some, decide_eq_true_eq, List.mem_append, List.mem_singleton, or_and_right,
    exists_or, exists_eq_left, ← hn, le_max_iff]
  cases m with
  | none =>
    simp only [Option.getD_none, Option.any_none, Bool.false_eq_true, false_or,
      or_iff_right_iff_imp]
    intro hzero
    exact hzero.trans (Nat.zero_le e)
  | some prev => simp

theorem maxSeq_raiseMaxSeq (st : FlowState F) (isLow side : Bool) (tcp : TcpBits) :
    (st.raiseMaxSeq isLow tcp).maxSeq side =
      if isLow = side ∧ 0 < tcp.payloadLen then
        some (max ((st.maxSeq side).getD 0) (tcp.seq + tcp.payloadLen))
      else st.maxSeq side := by
  unfold FlowState.raiseMaxSeq
  rw [isRetransmission_eq]
  by_cases hlen : 0 < tcp.payloadLen
  · by_cases hside : isLow = side
    · subst hside
      have hset : (if isLow then { st with maxSeqLow := some (tcp.seq + tcp.payloadLen) }
          else { st with maxSeqHigh := some (tcp.seq + tcp.payloadLen) }).maxSeq isLow =
            some (tcp.seq + tcp.payloadLen) := by
        cases isLow <;> rfl
      cases hm : st.maxSeq isLow with
      | none => simp [hlen, hset]
      | some prev =>
        by_cases hle : tcp.seq + tcp.payloadLen ≤ prev
        · simp [hlen, hle, hm]
        · simp [hlen, hle, hset, (not_le.mp hle).le]
    · have hother (m : Option ℕ) : (if isLow then { st with maxSeqLow := m }
          else { st with maxSeqHigh := m }).maxSeq side = st.maxSeq side := by
        cases isLow <;> cases side <;> first | rfl | exact absurd rfl hside
      simp only [hside, false_and, if_false]
      split
      · exact hother _
      · rfl
  · simp [hlen]

variable [F64 F]

theorem maxSeq_observe_data (st : FlowState F) (info : PktFlowInfo) (side : Bool) (wire : UInt32)
    (ts : DateTime) :
    (st.observe info wire ts).maxSeq side = match info.data side with
      | some (seq, len) => some (max ((st.maxSeq side).getD 0) (seq + len))
      | none => st.maxSeq side := by
  unfold FlowState.observe PktFlowInfo.data
  cases htcp : info.tcp with
  | none =>
    simp only [Option.filter_none, Option.map_none, ite_self]
    exact maxSeq_account st _ _ _ _
  | some tcp =>
    change (recordRtt _ info.isLow tcp ts).maxSeq side = _
    rw [maxSeq_recordRtt, maxSeq_raiseMaxSeq, maxSeq_account]
    by_cases hside : info.isLow = side
    · by_cases hlen : 0 < tcp.payloadLen
      · simp [Option.filter, hside, hlen]
      · simp [Option.filter, hlen]
    · simp [hside]

end Register

section Runs

variable {F : Type} [F64 F]

/-- What the tracker says of a packet: whether it is a retransmission. -/
def FlowTracker.flagged (t : FlowTracker F) (p : DecodedPacket) : Option Bool :=
  (t.update p).2.2.bind fun u => u.annotation.map FlowAnnotation.isRetransmission

/-- The packets of a run among which one side of a flow that stays open sends a stream. -/
structure Conversation (F : Type) [F64 F] where
  tracker : FlowTracker F
  packets : List DecodedPacket
  key : FlowKey
  isLow : Bool
  isn : UInt32
  sent : List Send
  fresh : (tracker.flows.peek key).bind (fun st => st.maxSeq isLow) = none
  carried : packets.filterMap (dataOf key isLow) = sent.map (Send.wire isn)
  stays : ∀ before p, before ++ [p] <+: packets → before.filterMap (dataOf key isLow) ≠ [] →
    ((tracker.feed before).flows.peek key).isSome
  consecutive : Consecutive sent
  bounded : reach sent < 2 ^ 31

theorem feed_concat (t : FlowTracker F) (pkts : List DecodedPacket) (p : DecodedPacket) :
    t.feed (pkts ++ [p]) = ((t.feed pkts).update p).1 := List.foldl_concat ..

theorem maxSeq_update (t : FlowTracker F) (k : FlowKey) (isLow : Bool) (p : DecodedPacket)
    (hopen : ((t.update p).1.flows.peek k).isSome) :
    ((t.update p).1.flows.peek k).bind (fun st => st.maxSeq isLow) = match dataOf k isLow p with
      | some (seq, len) =>
        some (max (((t.flows.peek k).bind fun st => st.maxSeq isLow).getD 0) (seq + len))
      | none => (t.flows.peek k).bind fun st => st.maxSeq isLow := by
  unfold dataOf
  cases hinfo : extractPktFlowInfo p.layers with
  | none =>
    rw [FlowTracker.update_of_none t hinfo]
    rfl
  | some info =>
    rw [FlowTracker.update_of_info t hinfo] at hopen ⊢
    rw [FlowTracker.peek_advance] at hopen ⊢
    by_cases hk : k = info.key
    · subst hk
      simp only [if_true] at hopen ⊢
      have hstays : t.closes info p.wireLen p.timestamp = false := by
        by_contra hc
        rw [Bool.not_eq_false] at hc
        rw [if_pos hc] at hopen
        cases hopen
      have hbase : ((t.flows.peek info.key).getD (.new p.timestamp)).maxSeq isLow =
          (t.flows.peek info.key).bind fun st => st.maxSeq isLow := by
        cases t.flows.peek info.key with
        | none => cases isLow <;> rfl
        | some st => rfl
      simp only [hstays, Bool.false_eq_true, if_false, Option.bind_some]
      rw [FlowTracker.stateAfter_eq, maxSeq_observe_data, hbase]
      rfl
    · have hne : ¬info.key = k := fun h => hk h.symm
      simp only [if_neg hk, Option.bind_some, if_neg hne] at hopen ⊢
      split at hopen
      · cases hopen
      · rename_i hv
        rw [if_neg hv]

/-- Before each packet the register of the sending side holds the highest end sent so far. -/
theorem Conversation.highest (c : Conversation F) {before : List DecodedPacket} :
    ∀ {p : DecodedPacket}, before ++ [p] <+: c.packets →
      Highest (((c.tracker.feed before).flows.peek c.key).bind fun st => st.maxSeq c.isLow)
        ((before.filterMap (dataOf c.key c.isLow)).map fun d => d.1 + d.2) := by
  induction before using List.reverseRecOn with
  | nil =>
    intro p _
    have hfresh : ((c.tracker.feed []).flows.peek c.key).bind (fun st => st.maxSeq c.isLow) = none :=
      c.fresh
    rw [hfresh]
    exact highest_none
  | append_singleton before q ih =>
    intro p hp
    have hq : before ++ [q] <+: c.packets := (List.prefix_append _ _).trans hp
    have hhigh := ih hq
    rw [feed_concat, List.filterMap_append, List.map_append]
    by_cases hopen : (((c.tracker.feed before).update q).1.flows.peek c.key).isSome
    · rw [maxSeq_update _ _ _ _ hopen]
      cases hd : dataOf c.key c.isLow q with
      | none =>
        rw [List.filterMap_cons_none hd, List.filterMap_nil, List.map_nil, List.append_nil]
        exact hhigh
      | some d =>
        rw [List.filterMap_cons_some hd, List.filterMap_nil]
        exact hhigh.concat (d.1 + d.2)
    · -- a flow that is not there has sent no data yet
      have hnone : (before ++ [q]).filterMap (dataOf c.key c.isLow) = [] := by
        by_contra hne
        have hsome := c.stays _ _ hp hne
        rw [feed_concat] at hsome
        exact hopen hsome
      rw [List.filterMap_append] at hnone
      rw [← List.map_append, hnone, Option.not_isSome_iff_eq_none.mp hopen]
      exact highest_none

theorem flagged_of_dataOf (t : FlowTracker F) {k : FlowKey} {isLow : Bool} {p : DecodedPacket}
    {d : ℕ × ℕ} (hd : dataOf k isLow p = some d) :
    t.flagged p = some (((t.flows.peek k).bind fun st => st.maxSeq isLow).any fun prev =>
      decide (d.1 + d.2 ≤ prev)) := by
  obtain ⟨info, hinfo, hdata⟩ := Option.bind_eq_some_iff.mp hd
  split at hdata
  · rename_i hk
    subst hk
    unfold PktFlowInfo.data at hdata
    split at hdata
    · rename_i hside
      subst hside
      obtain ⟨tcp, htcp, rfl⟩ := Option.map_eq_some_iff.mp hdata
      rw [Option.filter_eq_some_iff, decide_eq_true_iff] at htcp
      have hbase : ((t.flows.peek info.key).getD (.new p.timestamp)).maxSeq info.isLow =
          (t.flows.peek info.key).bind fun st => st.maxSeq info.isLow := by
        cases t.flows.peek info.key with
        | none => cases info.isLow <;> rfl
        | some st => rfl
      rw [FlowTracker.flagged, FlowTracker.update_of_info t hinfo, Option.bind_some,
        FlowTracker.flowUpdate, annotate_eq, htcp.1, hbase]
      simp [htcp.2]
    · cases hdata
  · cases hdata

end Runs

section Flags

variable {isn : UInt32} {sent before : List Send} {s : Send}

/-- The end of a segment as the tracker computes it. -/
def Send.plainEnd (isn : UInt32) (s : Send) : ℕ := (s.seq isn).toNat + s.len

theorem plainEnd_of_lt (h : isn.toNat + s.pos < 2 ^ 32) : s.plainEnd isn = isn.toNat + s.stop := by
  have hnum : (UInt32.ofNat s.pos).toNat = s.pos :=
    UInt32.toNat_ofNat_of_lt' (show s.pos < 2 ^ 32 by omega)
  rw [Send.plainEnd, Send.seq, UInt32.toNat_add, hnum, Nat.mod_eq_of_lt h, Send.stop, Nat.add_assoc]

theorem plainEnd_of_ge (h : 2 ^ 32 ≤ isn.toNat + s.pos) (hpos : s.pos < 2 ^ 31) :
    s.plainEnd isn + 2 ^ 32 = isn.toNat + s.stop := by
  have hisn : isn.toNat < 2 ^ 32 := isn.toNat_lt
  have hnum : (UInt32.ofNat s.pos).toNat = s.pos :=
    UInt32.toNat_ofNat_of_lt' (show s.pos < 2 ^ 32 by omega)
  rw [Send.plainEnd, Send.seq, UInt32.toNat_add, hnum, Send.stop]
  omega

/-- The flag of a segment is right: it marks the copies, which are the segments that end, in the
order of serial numbers, no later than the highest end, and the ones that a buffer to which all
bytes so far have been delivered calls duplicates. -/
structure RightFlag (isn : UInt32) (before : List Send) (s : Send) (flag : Bool) : Prop where
  copies : flag = true ↔ s ∈ before
  serial : flag = true ↔ before ≠ [] ∧
    seqLt (isn + UInt32.ofNat (reach before)) (s.seq isn + UInt32.ofNat s.len) = false
  delivered : before ≠ [] → ∀ (b : ReassemblyBuffer) (data : List UInt8), b.baseSeq.isSome →
    b.nextSeq = isn + UInt32.ofNat (reach before) → data.length = s.len →
      (flag = true ↔ (b.insertSegment (s.seq isn) data).2 = .duplicate)

theorem seqLt_ends_iff (hr : reach before < 2 ^ 31) (hs : s.stop < 2 ^ 31) :
    seqLt (isn + UInt32.ofNat (reach before)) (s.seq isn + UInt32.ofNat s.len) = true ↔
      reach before < s.stop := by
  unfold Send.stop at *
  have hreach : offset isn (isn + UInt32.ofNat (reach before)) = reach before :=
    offset_base_add isn (by omega)
  have hseq : offset isn (s.seq isn) = s.pos := offset_base_add isn (by omega)
  have hend : offset isn (s.seq isn + UInt32.ofNat s.len) = s.pos + s.len := by
    rw [offset_add (by omega), hseq]
  have hiff : serialLt (isn + UInt32.ofNat (reach before)) (s.seq isn + UInt32.ofNat s.len) = true ↔
      offset isn (isn + UInt32.ofNat (reach before)) <
        offset isn (s.seq isn + UInt32.ofNat s.len) := serialLt_iff_offset (by omega) (by omega)
  rw [seqLt, hiff, hreach, hend]

theorem place_next_ne_duplicate (b : ReassemblyBuffer) (data : List UInt8) :
    (b.place b.nextSeq data).2 ≠ .duplicate := by
  unfold ReassemblyBuffer.place
  split
  · nofun
  · split
    · nofun
    · rw [if_pos rfl]
      nofun

theorem insertSegment_duplicate_iff (h : Consecutive sent) (hb : reach sent < 2 ^ 31)
    (hs : before ++ [s] <+: sent) {b : ReassemblyBuffer} {data : List UInt8}
    (hbase : b.baseSeq.isSome) (hnext : b.nextSeq = isn + UInt32.ofNat (reach before))
    (hdata : data.length = s.len) :
    (b.insertSegment (s.seq isn) data).2 = .duplicate ↔ s ∈ before := by
  obtain ⟨hlen, hfresh⟩ := h before s hs
  have hreach := reach_mono hs
  rw [reach_concat] at hreach
  have hmax := le_max_left (reach before) s.stop
  have hmax' := le_max_right (reach before) s.stop
  have hne : data.isEmpty = false := by
    rw [List.isEmpty_eq_false_iff, ← List.length_pos_iff, hdata]
    exact hlen
  have hanchor : b.anchor (s.seq isn) = b := by
    rw [ReassemblyBuffer.anchor, if_neg (by simp [Option.isSome_iff_ne_none.mp hbase])]
  have hlt : seqLt (isn + UInt32.ofNat (reach before)) (s.seq isn + UInt32.ofNat s.len) = true ↔
      reach before < s.stop := seqLt_ends_iff (by omega) (by omega)
  unfold ReassemblyBuffer.insertSegment
  simp only [hne, hanchor, Bool.false_eq_true, if_false]
  rw [h.mem_iff hs, hnext, hdata]
  by_cases hle : s.stop ≤ reach before
  · have hnot : seqLt (isn + UInt32.ofNat (reach before)) (s.seq isn + UInt32.ofNat s.len) = false := by
      rw [← Bool.not_eq_true, hlt]
      omega
    simp [hnot, hle]
  · have hpos : s.pos = reach before := by
      rcases hfresh with hpos | hmem
      · exact hpos
      · exact absurd (stop_le_reach hmem) hle
    have hself : seqLt (s.seq isn) (isn + UInt32.ofNat (reach before)) = false := by
      rw [Send.seq, hpos, seqLt, ← Bool.not_eq_true, serialLt_iff, UInt32.sub_self]
      decide
    have hyes := hlt.mpr (by omega)
    have hplace := place_next_ne_duplicate b data
    rw [hnext] at hplace
    simp only [hyes, hself, Bool.not_true, Bool.false_eq_true, if_false, hle, iff_false]
    rw [Send.seq, hpos]
    exact hplace

theorem rightFlag_iff (h : Consecutive sent) (hb : reach sent < 2 ^ 31)
    (hs : before ++ [s] <+: sent) {flag : Bool} :
    RightFlag isn before s flag ↔ (flag = true ↔ s ∈ before) := by
  have hreach := reach_mono hs
  rw [reach_concat] at hreach
  have hmax := le_max_left (reach before) s.stop
  have hmax' := le_max_right (reach before) s.stop
  constructor
  · exact RightFlag.copies
  · intro hflag
    constructor
    · exact hflag
    · rw [hflag, ← Bool.not_eq_true, seqLt_ends_iff (by omega) (by omega), not_lt, ← h.mem_iff hs]
      constructor
      · intro hmem
        exact ⟨List.ne_nil_of_mem hmem, hmem⟩
      · exact And.right
    · intro _ b data hbase hnext hdata
      rw [hflag, insertSegment_duplicate_iff h hb hs hbase hnext hdata]

end Flags

namespace Conversation

variable {F : Type} [F64 F] (c : Conversation F)

/-- The flag of every segment is right. -/
def FlagsRight : Prop :=
  ∀ front p before s, front ++ [p] <+: c.packets → before ++ [s] <+: c.sent →
    front.filterMap (dataOf c.key c.isLow) = before.map (Send.wire c.isn) →
      dataOf c.key c.isLow p = some (s.wire c.isn) →
        ∃ flag, (c.tracker.feed front).flagged p = some flag ∧ RightFlag c.isn before s flag

variable {c} {front : List DecodedPacket} {p : DecodedPacket} {before : List Send} {s : Send}

theorem flagged_step (hp : front ++ [p] <+: c.packets)
    (hfront : front.filterMap (dataOf c.key c.isLow) = before.map (Send.wire c.isn))
    (hd : dataOf c.key c.isLow p = some (s.wire c.isn)) :
    (c.tracker.feed front).flagged p =
      some (before.any fun r => decide (s.plainEnd c.isn ≤ r.plainEnd c.isn)) := by
  have hhigh := c.highest hp (s.plainEnd c.isn)
  rw [hfront, List.map_map] at hhigh
  rw [flagged_of_dataOf _ hd, Option.some_inj, Bool.eq_iff_iff, List.any_eq_true]
  apply hhigh.trans
  simp only [List.mem_map, Function.comp_apply, decide_eq_true_eq]
  constructor
  · rintro ⟨e, ⟨r, hr, rfl⟩, hle⟩
    exact ⟨r, hr, hle⟩
  · rintro ⟨r, hr, hle⟩
    exact ⟨_, ⟨r, hr, rfl⟩, hle⟩

theorem exists_packet (hs : before ++ [s] <+: c.sent) :
    ∃ front p, front ++ [p] <+: c.packets ∧
      front.filterMap (dataOf c.key c.isLow) = before.map (Send.wire c.isn) ∧
        dataOf c.key c.isLow p = some (s.wire c.isn) := by
  apply exists_prefix_of_filterMap
  rw [c.carried, ← List.map_singleton, ← List.map_append]
  exact hs.map _

/-- In a run with right flags every segment starts before the wrap. -/
theorem lt_of_flagsRight (h : c.FlagsRight) (s : Send) (hmem : s ∈ c.sent) :
    c.isn.toNat + s.pos < 2 ^ 32 := by
  have hall : ∀ before : List Send, before <+: c.sent → ∀ r ∈ before,
      c.isn.toNat + r.pos < 2 ^ 32 := by
    intro before
    induction before using List.reverseRecOn with
    | nil => nofun
    | append_singleton before s ih =>
      intro hs r hr
      have hbefore := ih ((List.prefix_append _ _).trans hs)
      rcases List.mem_append.mp hr with hr | hr
      · exact hbefore r hr
      · rw [List.mem_singleton.mp hr]
        by_contra hwrap
        have hisn : c.isn.toNat < 2 ^ 32 := c.isn.toNat_lt
        have hbound := c.bounded
        have hreach := reach_mono hs
        rw [reach_concat] at hreach
        have hmax := le_max_left (reach before) s.stop
        have hmax' := le_max_right (reach before) s.stop
        have hpos : s.pos ≤ reach before := c.consecutive.pos_le hs
        have hend := plainEnd_of_ge (not_lt.mp hwrap) (by omega)
        obtain ⟨front, p, hp, hfront, hd⟩ := exists_packet hs
        obtain ⟨flag, hflag, hright⟩ := h front p before s hp hs hfront hd
        rw [flagged_step hp hfront hd, Option.some_inj] at hflag
        -- something has been sent before, and its plain end is higher
        cases hb : before with
        | nil =>
          rw [hb] at hpos
          have hzero : reach ([] : List Send) = 0 := rfl
          omega
        | cons r rest =>
          have hr : r ∈ before := by rw [hb]; exact List.mem_cons_self
          have hplain := plainEnd_of_lt (hbefore r hr)
          have hflagged : flag = true := by
            rw [← hflag, List.any_eq_true]
            refine ⟨r, hr, decide_eq_true ?_⟩
            unfold Send.stop at *
            omega
          exact hwrap (hbefore s (hright.copies.mp hflagged))
  exact hall c.sent (List.prefix_refl _) s hmem

theorem flagsRight_of_lt (h : ∀ s ∈ c.sent, c.isn.toNat + s.pos < 2 ^ 32) : c.FlagsRight := by
  intro front p before s hp hs hfront hd
  refine ⟨_, flagged_step hp hfront hd, ?_⟩
  have hs' : s.plainEnd c.isn = c.isn.toNat + s.stop :=
    plainEnd_of_lt (h s (hs.subset (by simp)))
  rw [rightFlag_iff c.consecutive c.bounded hs, List.any_eq_true]
  constructor
  · rintro ⟨r, hr, hle⟩
    rw [decide_eq_true_iff, hs', plainEnd_of_lt (h r (hs.subset (by simp [hr])))] at hle
    rw [c.consecutive.mem_iff hs]
    have hstop := stop_le_reach hr
    omega
  · intro hmem
    exact ⟨s, hmem, decide_eq_true le_rfl⟩

/-- The flags of a run are right exactly when no segment starts behind the wrap. -/
theorem flagsRight_iff (c : Conversation F) :
    c.FlagsRight ↔ ∀ s ∈ c.sent, c.isn.toNat + s.pos < 2 ^ 32 :=
  ⟨lt_of_flagsRight, flagsRight_of_lt⟩

theorem concat_prefix_pair {α : Type} {before : List α} {x a b : α} (h : before ++ [x] <+: [a, b]) :
    before = [] ∧ x = a ∨ before = [a] ∧ x = b := by
  cases before with
  | nil =>
    left
    rw [List.nil_append, List.cons_prefix_cons] at h
    exact ⟨rfl, h.1⟩
  | cons y before =>
    right
    rw [List.cons_append, List.cons_prefix_cons] at h
    have hnil : before = [] := by
      have hlen := h.2.length_le
      rw [List.length_append, List.length_singleton, List.length_singleton] at hlen
      exact List.eq_nil_of_length_eq_zero (by omega)
    subst hnil
    rw [List.nil_append, List.cons_prefix_cons] at h
    exact ⟨by rw [h.1], h.2.1⟩

/-- A segment of a client without flags but ACK. -/
def uploadSegment (seq : UInt32) (len : ℕ) : DecodedPacket where
  number := 0
  timestamp := 0
  wireLen := 1500
  data := []
  layers :=
    [.ipv4 ⟨4, 5, 0, 0, 0, 0, 0, 0, 64, 6, 0, 1, 2, (0, 20)⟩,
      .tcp ⟨40000, 443, seq, 0, 5, ⟨false, false, false, false, true, false, false, false⟩, 0, 0, 0,
        len, (20, 40)⟩]
  summary := ⟨"", "", "", 1500, "", .tcp⟩
  process := none
  retransmission := false

/-- Two segments in order, the second of which starts where the sequence numbers wrap. -/
def wrapping : Conversation ℚ where
  tracker := .new
  packets := [uploadSegment 0xffffff00 256, uploadSegment 0 100]
  key := .new (.v4 1) 40000 (.v4 2) 443 6
  isLow := true
  isn := 0xffffff00
  sent := [⟨0, 256⟩, ⟨256, 100⟩]
  fresh := rfl
  carried := by decide
  stays before p hp hne := by
    rcases concat_prefix_pair hp with ⟨rfl, -⟩ | ⟨rfl, -⟩
    · exact absurd rfl hne
    · rfl
  consecutive before s hs := by
    rcases concat_prefix_pair hs with ⟨rfl, rfl⟩ | ⟨rfl, rfl⟩
    · exact ⟨by decide, Or.inl rfl⟩
    · exact ⟨by decide, Or.inl rfl⟩
  bounded := by decide

theorem flags_wrapping : ¬∀ c : Conversation ℚ, c.FlagsRight := by
  intro h
  have hlt := lt_of_flagsRight (h wrapping) ⟨256, 100⟩ (by decide)
  revert hlt
  decide

end Conversation

end Pktscope

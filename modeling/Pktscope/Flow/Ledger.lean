import Mathlib.Algebra.Group.Prod
import Mathlib.Algebra.BigOperators.Group.List.Basic
import Mathlib.Data.Finset.Card
import Pktscope.Flow.Closing

/-! # The ledger of a flow key

Flows of one key open, close and open again. As long as no flow is evicted,
what was counted on the wire for a key is at every moment split between its live
flow and the snapshots that its earlier flows have left in the sink.
-/

namespace Pktscope

open Library

/-- The flows that are open, with the flags of each: the tracker without a bound. -/
structure OpenFlows where
  keys : Finset FlowKey
  ends : FlowKey → Ends

namespace OpenFlows

def none : OpenFlows := ⟨∅, fun _ => .none⟩

/-- The flags of the flow of a key. -/
def held (o : OpenFlows) (k : FlowKey) : Ends := if k ∈ o.keys then o.ends k else .none

/-- The flags of a packet's flow with the packet counted. -/
def noted (o : OpenFlows) (info : PktFlowInfo) : Ends :=
  (info.tcp.map ((o.held info.key).note info.isLow)).getD (o.held info.key)

/-- One packet of a flow. -/
def note (o : OpenFlows) (info : PktFlowInfo) : OpenFlows :=
  if info.tcp.isSome && (o.noted info).closing then ⟨o.keys.erase info.key, o.ends⟩
  else ⟨insert info.key o.keys, Function.update o.ends info.key (o.noted info)⟩

/-- The flows that some packets leave open. -/
def after (pkts : List DecodedPacket) : OpenFlows :=
  pkts.foldl (fun o p => ((extractPktFlowInfo p.layers).map o.note).getD o) none

theorem after_concat (pkts : List DecodedPacket) (p : DecodedPacket) :
    after (pkts ++ [p]) = ((extractPktFlowInfo p.layers).map (after pkts).note).getD (after pkts) :=
  List.foldl_concat ..

end OpenFlows

/-- No more than `maxFlows` keys are ever live at once, counting the one of the packet at hand. -/
def NeverCrowded (pkts : List DecodedPacket) : Prop :=
  ∀ pre p, pre ++ [p] <+: pkts → ∀ info ∈ extractPktFlowInfo p.layers,
    (insert info.key (OpenFlows.after pre).keys).card ≤ maxFlows

theorem neverCrowded_of_initial {pre pkts : List DecodedPacket} (h : NeverCrowded pkts)
    (hpre : pre <+: pkts) : NeverCrowded pre :=
  fun l q hq => h l q (hq.trans hpre)

theorem card_after_le (pkts : List DecodedPacket) : (OpenFlows.after pkts).keys.card ≤ pkts.length := by
  induction pkts using List.reverseRecOn with
  | nil => exact Nat.le_refl 0
  | append_singleton pkts p ih =>
    rw [OpenFlows.after_concat, List.length_append, List.length_singleton]
    cases extractPktFlowInfo p.layers with
    | none => exact ih.trans (Nat.le_succ _)
    | some info =>
      rw [Option.map_some, Option.getD_some, OpenFlows.note]
      split
      · exact ((Finset.card_le_card (Finset.erase_subset _ _)).trans ih).trans (Nat.le_succ _)
      · exact (Finset.card_insert_le _ _).trans (Nat.succ_le_succ ih)

theorem neverCrowded_of_length {pkts : List DecodedPacket} (h : pkts.length ≤ maxFlows) :
    NeverCrowded pkts := by
  intro pre p hpre info _
  have hlen : pre.length + 1 ≤ pkts.length := by simpa using hpre.length_le
  have hcard := card_after_le pre
  have hins := Finset.card_insert_le info.key (OpenFlows.after pre).keys
  omega

namespace FlowKey

def low (k : FlowKey) : Endpoint := ⟨k.addrLow, k.portLow⟩

def high (k : FlowKey) : Endpoint := ⟨k.addrHigh, k.portHigh⟩

end FlowKey

def PktFlowInfo.src (info : PktFlowInfo) : Endpoint := ⟨info.srcIp, info.srcPort⟩

/-- Bytes and packets. -/
abbrev Traffic := ℕ × ℕ

def trafficOf (wire : UInt32) : Traffic := (wire.toNat, 1)

/-- What an endpoint of a key has sent, by the counters of a flow. -/
def FlowCore.sentBy (c : FlowCore) (k : FlowKey) (e : Endpoint) : Traffic :=
  if e = k.low then (c.bytesLowToHigh, c.pktsLowToHigh) else (c.bytesHighToLow, c.pktsHighToLow)

def FlowCore.traffic (c : FlowCore) : Traffic :=
  (c.bytesLowToHigh + c.bytesHighToLow, c.pktsLowToHigh + c.pktsHighToLow)

namespace FlowStatsSnapshot

variable {F : Type} (s : FlowStatsSnapshot F)

/-- What an endpoint has sent, by its place as the local or the remote side of a snapshot. -/
def sentBy (e : Endpoint) : Traffic :=
  if s.localAddr = some e.addr ∧ s.localPort = some e.port then (s.bytesUp, s.pktsUp)
  else if s.remoteAddr = some e.addr ∧ s.remotePort = some e.port then (s.bytesDown, s.pktsDown)
  else 0

def traffic : Traffic := (s.bytesUp + s.bytesDown, s.pktsUp + s.pktsDown)

end FlowStatsSnapshot

/-- The sum over the packets of a key. -/
def wireSum (k : FlowKey) (g : PktFlowInfo → UInt32 → Traffic) (pkts : List DecodedPacket) : Traffic :=
  (pkts.map fun p => (extractPktFlowInfo p.layers).elim 0 fun info =>
    if info.key = k then g info p.wireLen else 0).sum

/-- What an endpoint sent on the wire in the flows of a key. -/
def sentOnWire (k : FlowKey) (e : Endpoint) (pkts : List DecodedPacket) : Traffic :=
  wireSum k (fun info wire => if info.src = e then trafficOf wire else 0) pkts

namespace FlowTracker

variable {F : Type}

/-- The sum over the live flow and the sent snapshots of a key. -/
def ledgerSum (k : FlowKey) (f : FlowCore → Traffic) (r : FlowStatsSnapshot F → Traffic)
    (t : FlowTracker F) : Traffic :=
  (t.flows.peek k).elim 0 (fun st => f st.core) +
    (((t.completedTx.getD []).filter fun s => decide (s.key = k)).map r).sum

/-- What the tracker and its sink say that an endpoint has sent in the flows of a key. -/
def credited (t : FlowTracker F) (k : FlowKey) (e : Endpoint) : Traffic :=
  t.ledgerSum k (fun c => c.sentBy k e) fun s => s.sentBy e

variable [F64 F]

/-- A tracker with a completion sink, before its first packet. -/
def withSink (addrs : Finset IpAddr) : FlowTracker F := new.withCompletionSink.setLocalAddrs addrs

section Bound

variable {t : FlowTracker F} {o : OpenFlows}

omit [F64 F] in
/-- The tracker holds exactly the open flows. -/
structure Holds (t : FlowTracker F) (o : OpenFlows) : Prop where
  cap : t.flows.cap = maxFlows
  ends : ∀ k, (t.flows.peek k).map FlowState.ends = if k ∈ o.keys then some (o.ends k) else none

omit [F64 F] in
theorem Holds.mem (h : Holds t o) (k : FlowKey) : k ∈ o.keys ↔ k ∈ t.flows.table := by
  rw [← LruCache.peek_isSome, ← Option.isSome_map (f := FlowState.ends), h.ends k]
  by_cases hk : k ∈ o.keys <;> simp [hk]

omit [F64 F] in
/-- A tracker that is not crowded evicts nothing. -/
theorem Holds.victim (h : Holds t o) {k : FlowKey} (hk : (insert k o.keys).card ≤ maxFlows) :
    t.flows.victim k = none := by
  rw [← Option.not_isSome_iff_eq_none, LruCache.victim_isSome]
  rintro ⟨hnew, hfull⟩
  have hkeys : o.keys = t.flows.table.keys.toFinset := by
    ext k'
    rw [h.mem, AList.mem_keys, List.mem_toFinset]
  have hcard : o.keys.card = t.flows.len := by
    rw [hkeys, List.toFinset_card_of_nodup t.flows.table.keys_nodup]
    rfl
  have hnot : k ∉ o.keys := fun hm => hnew ((h.mem k).mp hm)
  rw [Finset.card_insert_of_notMem hnot, hcard, hfull, h.cap] at hk
  omega

/-- The flags of a flow once a packet of it is counted. -/
theorem Holds.stateAfter (h : Holds t o) (info : PktFlowInfo) (wire : UInt32) (ts : DateTime) :
    (t.stateAfter info wire ts).ends = o.noted info := by
  have hends : ((t.flows.peek info.key).getD (.new ts)).ends = o.held info.key := by
    have he := h.ends info.key
    unfold OpenFlows.held
    by_cases hm : info.key ∈ o.keys
    · rw [if_pos hm] at he ⊢
      obtain ⟨st, hp, hst⟩ := Option.map_eq_some_iff.mp he
      rw [hp, Option.getD_some, hst]
    · rw [if_neg hm] at he ⊢
      rw [Option.map_eq_none_iff.mp he]
      rfl
  rw [stateAfter_eq, ends_observe, hends]
  rfl

theorem Holds.advance (h : Holds t o) {info : PktFlowInfo}
    (hk : (insert info.key o.keys).card ≤ maxFlows) (wire : UInt32) (ts : DateTime) :
    Holds (t.advance info wire ts) (o.note info) where
  cap := (cap_advance t info wire ts).trans h.cap
  ends k := by
    have hclose : t.closes info wire ts = (info.tcp.isSome && (o.noted info).closing) := by
      rw [← h.stateAfter info wire ts]
      rfl
    have he := h.ends k
    rw [peek_advance, h.victim hk, hclose, OpenFlows.note]
    by_cases hc : (info.tcp.isSome && (o.noted info).closing) = true
    · simp only [if_pos hc, Finset.mem_erase, reduceCtorEq, if_false]
      by_cases hkey : k = info.key
      · simp [hkey]
      · simpa [hkey] using he
    · simp only [if_neg hc, Finset.mem_insert, reduceCtorEq, if_false]
      by_cases hkey : k = info.key
      · simp [hkey, h.stateAfter info wire ts]
      · simpa [hkey] using he

end Bound

section Conservation

variable {t : FlowTracker F} {k : FlowKey} {f : FlowCore → Traffic}
  {g : PktFlowInfo → UInt32 → Traffic} {r : FlowStatsSnapshot F → Traffic}

omit [F64 F] in
/-- A quantity of the packets of a key that the counters of a flow add up and its snapshot keeps. -/
structure Counted (k : FlowKey) (f : FlowCore → Traffic)
    (g : PktFlowInfo → UInt32 → Traffic) (r : FlowStatsSnapshot F → Traffic) : Prop where
  start : ∀ ts, f (FlowState.new ts : FlowState F).core = 0
  step : ∀ (c : FlowCore) info wire ts, info.key = k →
    f (c.observe info wire ts) = f c + g info wire
  snap : ∀ (t : FlowTracker F) st, r (t.makeSnapshot k st) = f st.core

theorem ledgerSum_advance (hc : Counted k f g r) {sent : List (FlowStatsSnapshot F)}
    (hs : t.completedTx = some sent) {info : PktFlowInfo} (hv : t.flows.victim info.key = none)
    (wire : UInt32) (ts : DateTime) :
    (t.advance info wire ts).ledgerSum k f r =
      t.ledgerSum k f r + if info.key = k then g info wire else 0 := by
  have hkey (st : FlowState F) : (t.makeSnapshot info.key st).key = info.key := by
    unfold makeSnapshot
    split <;> rfl
  unfold ledgerSum
  rw [peek_advance, completedTx_advance, hs, hv]
  by_cases hk : info.key = k
  · subst hk
    have hstate : f (t.stateAfter info wire ts).core =
        (t.flows.peek info.key).elim 0 (fun st => f st.core) + g info wire := by
      rw [stateAfter_eq, core_observe, hc.step _ _ _ _ rfl]
      cases t.flows.peek info.key with
      | none => rw [Option.getD_none, hc.start, Option.elim_none]
      | some st => rfl
    rw [if_pos rfl, if_pos rfl]
    by_cases hclose : t.closes info wire ts = true
    · rw [if_pos hclose, if_pos hclose]
      simp only [Option.elim_none, Option.map_some, Option.getD_some, List.filter_append, List.map_append,
        List.sum_append, List.filter_cons, List.filter_nil, hkey, decide_true, if_true, List.map_cons,
        List.map_nil, List.sum_cons, List.sum_nil, add_zero, zero_add, hc.snap t, hstate]
      exact add_left_comm _ _ _ |>.trans (add_assoc _ _ _).symm
    · rw [if_neg hclose, if_neg hclose, Option.elim_some, hstate]
      exact add_right_comm _ _ _
  · have hne : k ≠ info.key := Ne.symm hk
    rw [if_neg hne, if_neg hk, add_zero]
    simp only [reduceCtorEq, if_false]
    by_cases hclose : t.closes info wire ts = true
    · simp only [if_pos hclose, Option.map_some, Option.getD_some, List.filter_append,
        List.filter_cons, List.filter_nil, hkey, hk, decide_false, Bool.false_eq_true, if_false,
        List.append_nil]
    · rw [if_neg hclose]

/-- What a run keeps of the tracker. -/
structure Fed (t : FlowTracker F) (o : OpenFlows) : Prop where
  holds : Holds t o
  sink : t.completedTx.isSome

theorem ledgerSum_feed (addrs : Finset IpAddr) (hc : Counted k f g r)
    {pkts : List DecodedPacket} (hn : NeverCrowded pkts) :
    Fed ((withSink addrs : FlowTracker F).feed pkts) (OpenFlows.after pkts) ∧
      ((withSink addrs).feed pkts).ledgerSum k f r = wireSum k g pkts := by
  induction pkts using List.reverseRecOn with
  | nil =>
    refine ⟨⟨⟨rfl, fun k => rfl⟩, rfl⟩, ?_⟩
    rfl
  | append_singleton pkts p ih =>
    obtain ⟨⟨hholds, hsink⟩, hsum⟩ := ih (neverCrowded_of_initial hn (List.prefix_append _ _))
    have hfeed : (withSink addrs : FlowTracker F).feed (pkts ++ [p]) =
        (((withSink addrs).feed pkts).update p).1 := List.foldl_concat ..
    have hwire : wireSum k g (pkts ++ [p]) = wireSum k g pkts +
        (extractPktFlowInfo p.layers).elim 0 fun info =>
          if info.key = k then g info p.wireLen else 0 := by
      rw [wireSum, List.map_append, List.sum_append]
      simp [wireSum]
    rw [hfeed, OpenFlows.after_concat, hwire]
    cases hx : extractPktFlowInfo p.layers with
    | none =>
      rw [update_of_none _ hx]
      exact ⟨⟨hholds, hsink⟩, by rw [hsum]; rfl⟩
    | some info =>
      have hroom := hn pkts p (List.prefix_refl _) info hx
      have hv := hholds.victim hroom
      obtain ⟨sent, hs⟩ := Option.isSome_iff_exists.mp hsink
      rw [update_of_info _ hx]
      refine ⟨⟨hholds.advance hroom _ _, ?_⟩, ?_⟩
      · rw [completedTx_advance, hs]
        split_ifs <;> rfl
      · rw [← hsum]
        exact ledgerSum_advance hc hs hv _ _

end Conservation

section Endpoints

variable {k : FlowKey} {e : Endpoint}

omit [F64 F] in
theorem src_eq (info : PktFlowInfo) :
    info.src = if info.isLow then info.key.low else info.key.high := by
  unfold PktFlowInfo.src PktFlowInfo.key FlowKey.new FlowKey.low FlowKey.high
  by_cases h : info.isLow = true
  · rw [if_pos h]
    rw [PktFlowInfo.isLow] at h
    rw [if_pos h]
  · rw [if_neg h]
    rw [PktFlowInfo.isLow] at h
    rw [if_neg h]

omit [F64 F] in
theorem high_ne_low {info : PktFlowInfo} (h : info.isLow = false) : info.key.high ≠ info.key.low := by
  rw [PktFlowInfo.isLow, ← Bool.not_eq_true] at h
  unfold PktFlowInfo.key FlowKey.new FlowKey.low FlowKey.high
  rw [if_neg h]
  intro he
  simp only [Endpoint.mk.injEq] at he
  rw [he.1, he.2] at h
  exact h ((Endpoint.le_total _ _).elim id id)

omit [F64 F] in
theorem sentBy_observe (he : e = k.low ∨ e = k.high) (c : FlowCore) {info : PktFlowInfo}
    (wire : UInt32) (ts : DateTime) (hk : info.key = k) :
    (c.observe info wire ts).sentBy k e =
      c.sentBy k e + if info.src = e then trafficOf wire else 0 := by
  subst hk
  rw [src_eq]
  unfold FlowCore.observe FlowCore.account FlowCore.sentBy PktFlowInfo.dir trafficOf
  cases hlow : info.isLow with
  | true =>
    rcases he with rfl | rfl
    · simp
    · by_cases hd : info.key.high = info.key.low <;> simp [hd, eq_comm]
  | false =>
    have hne := high_ne_low hlow
    rcases he with rfl | rfl
    · simp [hne]
    · simp [hne]

omit [F64 F] in
theorem localLow_ne {addrs : Finset IpAddr} (h : ¬localLow addrs k = true) : k.low ≠ k.high := by
  intro he
  rw [FlowKey.low, FlowKey.high, Endpoint.mk.injEq] at he
  rw [localLow, he.1] at h
  simp at h

omit [F64 F] in
theorem sentBy_makeSnapshot (he : e = k.low ∨ e = k.high) (t : FlowTracker F) (st : FlowState F) :
    (t.makeSnapshot k st).sentBy e = st.core.sentBy k e := by
  unfold makeSnapshot FlowCore.sentBy FlowStatsSnapshot.sentBy
  by_cases hl : localLow t.localAddrs k = true
  · simp only [if_pos hl, Option.some.injEq]
    rcases he with rfl | rfl
    · simp [FlowKey.low, FlowState.core]
    · by_cases hkk : k.high = k.low
      · rw [hkk]
        simp [FlowKey.low, FlowState.core]
      · have hno : ¬(k.addrLow = k.high.addr ∧ k.portLow = k.high.port) := fun hp =>
          hkk (by rw [FlowKey.low, hp.1, hp.2])
        rw [if_neg hno, if_pos ⟨rfl, rfl⟩, if_neg hkk]
        rfl
  · have hne : k.low ≠ k.high := localLow_ne hl
    simp only [if_neg hl, Option.some.injEq]
    rcases he with rfl | rfl
    · have hno : ¬(k.addrHigh = k.low.addr ∧ k.portHigh = k.low.port) := fun hp =>
        hne (by rw [FlowKey.high, hp.1, hp.2])
      rw [if_neg hno, if_pos ⟨rfl, rfl⟩, if_pos rfl]
      rfl
    · rw [if_pos ⟨rfl, rfl⟩, if_neg hne.symm]
      rfl

omit [F64 F] in
theorem traffic_makeSnapshot (t : FlowTracker F) (st : FlowState F) :
    (t.makeSnapshot k st).traffic = st.core.traffic := by
  unfold makeSnapshot FlowStatsSnapshot.traffic FlowCore.traffic
  split
  · rfl
  · exact Prod.ext (add_comm _ _) (add_comm _ _)

omit [F64 F] in
theorem traffic_observe (c : FlowCore) (info : PktFlowInfo) (wire : UInt32) (ts : DateTime) :
    (c.observe info wire ts).traffic = c.traffic + trafficOf wire := by
  unfold FlowCore.observe FlowCore.account FlowCore.traffic PktFlowInfo.dir trafficOf
  cases info.isLow <;> simp <;> omega

end Endpoints

/-- What each endpoint of a key sent is at every moment what the live flow and the snapshots sent so
far say of it, and together they say it of each packet once. -/
theorem ledger_is_wire (addrs : Finset IpAddr) (pkts : List DecodedPacket) (h : NeverCrowded pkts)
    (pre : List DecodedPacket) (hpre : pre <+: pkts) (k : FlowKey) :
    (∀ e, e = k.low ∨ e = k.high →
      ((withSink addrs : FlowTracker F).feed pre).credited k e = sentOnWire k e pre) ∧
    ((withSink addrs : FlowTracker F).feed pre).ledgerSum k FlowCore.traffic
      FlowStatsSnapshot.traffic = wireSum k (fun _ wire => trafficOf wire) pre := by
  have hp : NeverCrowded pre := neverCrowded_of_initial h hpre
  refine ⟨fun e he => (ledgerSum_feed addrs ⟨?_, ?_, ?_⟩ hp).2,
    (ledgerSum_feed addrs ⟨?_, ?_, ?_⟩ hp).2⟩
  · intro ts
    unfold FlowCore.sentBy
    split <;> rfl
  · exact fun c info wire ts hk => sentBy_observe he c wire ts hk
  · exact fun t st => sentBy_makeSnapshot he t st
  · exact fun _ => rfl
  · exact fun c info wire ts _ => traffic_observe c info wire ts
  · exact fun t st => traffic_makeSnapshot t st

section Sample

/-- A packet of one connection, from its client or to it. -/
def talkPacket (wire : UInt32) (up rst : Bool) : DecodedPacket where
  number := 0
  timestamp := 0
  wireLen := wire
  data := []
  layers :=
    let (src, sport, dst, dport) : UInt32 × UInt16 × UInt32 × UInt16 :=
      if up then (9, 40000, 2, 443) else (2, 443, 9, 40000)
    [.ipv4 ⟨4, 5, 0, 0, 0, 0, 0, 0, 64, 6, 0, src, dst, (0, 20)⟩,
      .tcp ⟨sport, dport, 0, 0, 5, ⟨false, false, rst, true, true, false, false, false⟩, 0, 0, 0, 0, (20, 40)⟩]
  summary := ⟨"", "", "", wire, "", .tcp⟩
  process := none
  retransmission := false

/-- A connection that is reset and opened again, seen from its client. -/
def talk : List DecodedPacket :=
  [talkPacket 60 true false, talkPacket 90 false false, talkPacket 40 true true,
    talkPacket 70 false false]

theorem ledger_is_wire_talk :
    ((withSink {.v4 9} : FlowTracker ℚ).feed talk).credited (.new (.v4 9) 40000 (.v4 2) 443 6)
      ⟨.v4 2, 443⟩ = (160, 2) := by
  rw [(ledger_is_wire {.v4 9} talk (neverCrowded_of_length (by decide)) talk
    (List.prefix_refl _) _).1 _ (Or.inl (by decide))]
  decide

end Sample

end FlowTracker

end Pktscope

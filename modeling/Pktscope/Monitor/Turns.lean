import Pktscope.Alert.Verdict
import Pktscope.Flow.Closing
import Pktscope.Monitor.Correlate

/-! # Turns of the receive loop

Everything that one packet does to the worker, as a record that the state before
the packet determines: which flow it belongs to, what the evaluation gave,
whether it ended its flow and which other flow the tracker dropped for it.
-/

namespace Pktscope

open Library Library.Prog AlertEngine

variable {F : Type}

/-- What one packet of a flow meets in the worker. -/
structure Turn (F : Type) where
  info : PktFlowInfo
  visit : Worker.Visit
  wire : UInt32
  time : DateTime
  nextId : ℕ
  outcome : Option (EvalOutcome F)
  closed : Bool
  evicted : Option FlowKey
  insertFails : Bool

/-- The bookkeeping and the live entry of a flow. -/
abbrev FlowEntry := FlowMeta × ConnectionDto

namespace Turn

variable (t : Turn F)

def key : FlowKey := t.info.key

/-- The entry of the flow after the packet. -/
def note (found : Option FlowEntry) : FlowEntry :=
  let fm := t.visit.openMeta t.nextId (found.map Prod.fst)
  (Worker.noteOutcome fm t.outcome, t.visit.updateDto (t.visit.openDto fm (found.map Prod.snd)))

/-- The state of the flow after the packet. -/
def observe [F64 F] (found : Option (FlowState F)) : FlowState F :=
  (found.getD (.new t.time)).observe t.info t.wire t.time

/-- The last snapshot of the flow, if the packet ends it. -/
def snap [F64 F] (addrs : Finset IpAddr) (found : Option (FlowState F)) : FlowStatsSnapshot F :=
  (FlowTracker.new.setLocalAddrs addrs).makeSnapshot t.key (t.observe found)

theorem key_snap [F64 F] (addrs : Finset IpAddr) (found : Option (FlowState F)) :
    (t.snap addrs found).key = t.key := by
  unfold snap FlowTracker.makeSnapshot
  split <;> rfl

/-- Whether the packet ends the worker's flow of a key. -/
def endsFlow (k : FlowKey) : Bool := decide (t.key = k) && t.closed

/-- Whether the packet ends the tracker's flow of a key. -/
def dropsFlow (k : FlowKey) : Bool := t.endsFlow k || decide (t.evicted = some k)

end Turn

namespace Worker

section Entry

variable (w : Worker F)

def entry (k : FlowKey) : Option FlowEntry :=
  (w.metas.lookup k).bind fun fm => (w.live.lookup k).map fun dto => (fm, dto)

/-- The history row of a flow with its entry and its last snapshot. -/
def rowOf (e : FlowEntry) (snap : FlowStatsSnapshot F) : ConnectionRow where
  id := 0
  processId := e.1.processId
  destId := e.1.destId
  proto := snap.protocol
  localPort := snap.localPort.getD 0
  remotePort := snap.remotePort.getD 0
  bytesUp := snap.bytesUp
  bytesDown := snap.bytesDown
  name := some e.2.destName
  tsStartMs := snap.firstSeen.timestampMillis
  tsEndMs := snap.lastSeen.timestampMillis

theorem closedRow_eq {w : Worker F} {e : FlowEntry} {snap : FlowStatsSnapshot F}
    (h : w.metas.lookup snap.key = some e.1) (h' : w.live.lookup snap.key = some e.2) :
    w.closedRow snap = rowOf e snap := by
  rw [closedRow, h, h']
  rfl

/-- The tables of the worker between two turns. -/
structure Tidy (ctx : WorkerCtx F) (w : Worker F) : Prop where
  drained : w.tracker.completedTx = some []
  paired : ∀ k, (w.metas.lookup k).isSome = (w.live.lookup k).isSome
  addrs : w.tracker.localAddrs = ctx.localAddrs
  cap : w.tracker.flows.cap = maxFlows

end Entry

section Step

variable [F64 F] (ctx : WorkerCtx F) (w : Worker F)

omit [F64 F] in
theorem tidy_start (store : Store F) : Tidy ctx (start ctx store) where
  drained := rfl
  paired _ := rfl
  addrs := rfl
  cap := rfl

/-- A packet of a flow as `handleUpdate` sees it. -/
def visitFor (info : PktFlowInfo) (pkt : DecodedPacket) (env : Env) : Visit :=
  visitOf ctx env (w.resolver.observePacket pkt).1 (w.tracker.flowUpdate info pkt)
    pkt.timestamp.timestampMillis

/-- The event of a packet. -/
def eventFor (info : PktFlowInfo) (pkt : DecodedPacket) (env : Env) : FlowEvent :=
  let v := visitFor ctx w info pkt env
  v.event (v.openMeta w.nextId (w.metas.lookup info.key)).outbound

/-- The turn of a packet, if it belongs to a flow. -/
def turnOf : Recv → Option (Turn F)
  | .timeout _ => none
  | .packet pkt env => (extractPktFlowInfo pkt.layers).map fun info => {
      info
      visit := visitFor ctx w info pkt env
      wire := pkt.wireLen
      time := pkt.timestamp
      nextId := w.nextId
      outcome :=
        ((evaluateFull ctx.cfg (eventFor ctx w info pkt env)).attempt env.evalFault w.store).1
      closed := w.tracker.closes info pkt.wireLen pkt.timestamp
      evicted := w.tracker.flows.victim info.key
      insertFails := env.insertFails }

variable {ctx w} {pkt : DecodedPacket} {env : Env} {info : PktFlowInfo} {t : Turn F}

omit [F64 F] in
theorem Tidy.entry_fst (hw : Tidy ctx w) (k : FlowKey) :
    (w.entry k).map Prod.fst = w.metas.lookup k := by
  have hp := hw.paired k
  unfold entry
  cases hm : w.metas.lookup k <;> cases hl : w.live.lookup k <;> simp [hm, hl] at hp ⊢

omit [F64 F] in
theorem Tidy.entry_snd (hw : Tidy ctx w) (k : FlowKey) :
    (w.entry k).map Prod.snd = w.live.lookup k := by
  have hp := hw.paired k
  unfold entry
  cases hm : w.metas.lookup k <;> cases hl : w.live.lookup k <;> simp [hm, hl] at hp ⊢

theorem receive_of_some (hw : Tidy ctx w) (h : extractPktFlowInfo pkt.layers = some info)
    (ht : turnOf ctx w (.packet pkt env) = some t) :
    let w' := receive ctx pkt env w
    w'.metas = w.metas.insert t.key (t.note (w.entry t.key)).1 ∧
      w'.live = w.live.insert t.key (t.note (w.entry t.key)).2 ∧
      w'.tracker = w.tracker.advance t.info t.wire t.time ∧
      w'.store = ((evaluateFull ctx.cfg (eventFor ctx w info pkt env)).attempt env.evalFault
        w.store).2 := by
  rw [turnOf, h, Option.map_some, Option.some.injEq] at ht
  subst ht
  have htime : (if w.tracker.annotate info pkt.wireLen pkt.timestamp = some true then
      FlowTracker.markRetransmission pkt else pkt).timestamp = pkt.timestamp := by
    split <;> rfl
  simp only [receive, FlowTracker.update_of_info w.tracker h, Turn.note, hw.entry_fst, hw.entry_snd,
    htime]
  exact ⟨rfl, rfl, rfl, rfl⟩

/-- The history row of a flow that a packet ends. -/
def rowAt (ctx : WorkerCtx F) (w : Worker F) (t : Turn F) : ConnectionRow :=
  rowOf (t.note (w.entry t.key)) (t.snap ctx.localAddrs (w.tracker.flows.peek t.key))

/-- What a turn does to the tables of the worker. -/
structure Stepped (ctx : WorkerCtx F) (w : Worker F) (t : Turn F) (w' : Worker F) : Prop where
  tidy : Tidy ctx w'
  entry : ∀ k, w'.entry k =
    if t.endsFlow k then none
    else if t.key = k then some (t.note (w.entry k))
    else w.entry k
  flows : ∀ k, w'.tracker.flows.peek k =
    if t.dropsFlow k then none
    else if t.key = k then some (t.observe (w.tracker.flows.peek k))
    else w.tracker.flows.peek k
  connections : w'.store.connections = w.store.connections ++
    if t.closed && !t.insertFails then
      [{ rowAt ctx w t with id := Sql.nextRowid ConnectionRow.id w.store.connections }]
    else []

theorem connections_evaluateFull (cfg : AlertConfig F) (ev : FlowEvent) :
    Keeps Store.connections (evaluateFull cfg ev) := by
  cases hp : ev.proc with
  | none =>
    rw [evaluateFull_of_none cfg ev hp]
    exact keeps_bind (prepare_keeps cfg ev (fun _ _ => rfl) (fun _ _ => rfl) fun _ _ => rfl)
      fun _ => trivial
  | some p =>
    rw [evaluateFull_of_proc cfg ev hp]
    refine keeps_bind (setup_keeps cfg ev p (fun _ _ => rfl) (fun _ _ => rfl) (fun _ _ => rfl)
      fun _ _ => rfl) fun r => keeps_bind ?_ fun _ => trivial
    refine signals_keeps (fun k => ?_) fun _ _ => rfl
    cases k with
    | egress => trivial
    | identity => exact ⟨fun _ _ => rfl, fun _ _ => rfl⟩
    | dest => exact ⟨fun _ _ => rfl, fun _ _ => rfl⟩
    | _ => exact fun _ _ => rfl

theorem step_of_none (hw : Tidy ctx w) {i : Recv} (h : turnOf ctx w i = none) :
    let w' := step ctx w i
    w'.metas = w.metas ∧ w'.live = w.live ∧ w'.tracker = w.tracker ∧ w'.store = w.store := by
  cases i with
  | timeout nowMs => exact ⟨rfl, rfl, rfl, rfl⟩
  | packet pkt env =>
    have hx : extractPktFlowInfo pkt.layers = none := Option.map_eq_none_iff.mp h
    have hd := hw.drained
    simp only [step, receive, FlowTracker.update_of_none w.tracker hx, drain, hd, List.foldl_nil]
    refine ⟨trivial, trivial, ?_, trivial⟩
    rw [← hd]

theorem peek_turn (ht : turnOf ctx w (.packet pkt env) = some t) (k : FlowKey) :
    (w.tracker.advance t.info t.wire t.time).flows.peek k =
      if t.dropsFlow k then none
      else if t.key = k then some (t.observe (w.tracker.flows.peek k))
      else w.tracker.flows.peek k := by
  obtain ⟨info, -, rfl⟩ := Option.map_eq_some_iff.mp ht
  rw [FlowTracker.peek_advance]
  by_cases hk : k = info.key
  · subst hk
    have hv : w.tracker.flows.victim info.key ≠ some info.key := fun h =>
      LruCache.victim_ne h rfl
    simp only [Turn.dropsFlow, Turn.endsFlow, Turn.key, decide_true, Bool.true_and, hv, decide_false,
      Bool.or_false, if_true]
    rfl
  · simp only [Turn.dropsFlow, Turn.endsFlow, Turn.key, Ne.symm hk, hk, decide_false,
      Bool.false_and, Bool.false_or, if_false, decide_eq_true_eq]

theorem completed_turn (hw : Tidy ctx w) (ht : turnOf ctx w (.packet pkt env) = some t) :
    (w.tracker.advance t.info t.wire t.time).completedTx =
      some (if t.closed then [t.snap ctx.localAddrs (w.tracker.flows.peek t.key)] else []) := by
  obtain ⟨info, -, rfl⟩ := Option.map_eq_some_iff.mp ht
  rw [FlowTracker.completedTx_advance, hw.drained]
  dsimp only
  split
  · rw [Turn.snap, ← hw.addrs]
    rfl
  · rfl

omit [F64 F] in
theorem drain_nil (h : w.tracker.completedTx = some []) (insertFails : Bool) :
    w.drain insertFails = w := by
  simp only [drain, h, List.foldl_nil]
  rw [← h]

omit [F64 F] in
theorem entry_of_lookups {k : FlowKey} {e : Option FlowEntry}
    (hm : w.metas.lookup k = e.map Prod.fst) (hl : w.live.lookup k = e.map Prod.snd) :
    w.entry k = e := by
  rw [entry, hm, hl]
  cases e <;> rfl

omit [F64 F] in
theorem lookup_touched {V : Type} (m : AList fun _ : FlowKey => V) (t : Turn F) (v : V) (k : FlowKey) :
    (if t.closed then (m.insert t.key v).erase t.key else m.insert t.key v).lookup k =
      if t.endsFlow k then none else if t.key = k then some v else m.lookup k := by
  by_cases hk : t.key = k
  · subst hk
    by_cases hc : t.closed = true <;> simp [Turn.endsFlow, hc, AList.lookup_erase]
  · have hne : k ≠ t.key := Ne.symm hk
    by_cases hc : t.closed = true <;>
      simp [Turn.endsFlow, hc, hk, AList.lookup_erase_ne hne, AList.lookup_insert_ne hne]

/-- The state of the worker after a turn, table by table. -/
theorem step_tables (hw : Tidy ctx w) (hx : extractPktFlowInfo pkt.layers = some info)
    (ht : turnOf ctx w (.packet pkt env) = some t) :
    let w' := step ctx w (.packet pkt env)
    let e := t.note (w.entry t.key)
    let evaluated := (evaluateFull ctx.cfg (eventFor ctx w info pkt env)).attempt env.evalFault w.store
    w'.metas = (if t.closed then (w.metas.insert t.key e.1).erase t.key
        else w.metas.insert t.key e.1) ∧
      w'.live = (if t.closed then (w.live.insert t.key e.2).erase t.key
        else w.live.insert t.key e.2) ∧
      w'.tracker = { w.tracker.advance t.info t.wire t.time with completedTx := some [] } ∧
      w'.store = (if t.closed && !t.insertFails then
        ((Store.insertConnection (rowAt ctx w t)).run evaluated.2).2 else evaluated.2) := by
  obtain ⟨hm, hl, htr, hst⟩ := receive_of_some hw hx ht
  have hcomp := completed_turn hw ht
  have hfails : t.insertFails = env.insertFails := by
    obtain ⟨info, -, rfl⟩ := Option.map_eq_some_iff.mp ht
    rfl
  rw [← htr] at hcomp ⊢
  rw [hfails, step]
  generalize receive ctx pkt env w = u at *
  by_cases hc : t.closed = true
  · rw [if_pos hc] at hcomp
    have hkey := t.key_snap ctx.localAddrs (w.tracker.flows.peek t.key)
    have hrow : ({ u with tracker := { u.tracker with completedTx := some [] } } : Worker F).closedRow
        (t.snap ctx.localAddrs (w.tracker.flows.peek t.key)) = rowAt ctx w t := by
      refine closedRow_eq ?_ ?_
      · rw [hkey, hm, AList.lookup_insert]
      · rw [hkey, hl, AList.lookup_insert]
    simp only [drain, hcomp, List.foldl_cons, List.foldl_nil, persistClosed, hkey, hrow, hc, if_true,
      Bool.true_and]
    refine ⟨by rw [hm], by rw [hl], trivial, ?_⟩
    rw [hst]
    cases env.insertFails <;> rfl
  · rw [if_neg hc] at hcomp
    rw [Bool.not_eq_true] at hc
    rw [drain_nil hcomp, hc]
    refine ⟨hm, hl, ?_, hst⟩
    rw [← hcomp]

theorem connections_attempt (cfg : AlertConfig F) (ev : FlowEvent) (fault : Option ℕ)
    (s : Store F) : ((evaluateFull cfg ev).attempt fault s).2.connections = s.connections :=
  (connections_evaluateFull cfg ev).attempt fault s

/-- What a turn does to the tables of the worker. -/
theorem step_of_some (hw : Tidy ctx w) {i : Recv} (ht : turnOf ctx w i = some t) :
    Stepped ctx w t (step ctx w i) := by
  cases i with
  | timeout nowMs => cases ht
  | packet pkt env =>
    obtain ⟨info, hx, -⟩ := Option.map_eq_some_iff.mp ht
    obtain ⟨hm, hl, htr, hst⟩ := step_tables hw hx ht
    generalize step ctx w (.packet pkt env) = w' at *
    have hnote (k : FlowKey) :
        w'.metas.lookup k = (if t.endsFlow k then none else if t.key = k then
            some (t.note (w.entry k)) else w.entry k).map Prod.fst ∧
          w'.live.lookup k = (if t.endsFlow k then none else if t.key = k then
            some (t.note (w.entry k)) else w.entry k).map Prod.snd := by
      rw [hm, hl, lookup_touched, lookup_touched]
      split_ifs with he hk
      · exact ⟨rfl, rfl⟩
      · subst hk
        exact ⟨rfl, rfl⟩
      · exact ⟨(hw.entry_fst k).symm, (hw.entry_snd k).symm⟩
    refine ⟨⟨?_, fun k => ?_, ?_, ?_⟩, fun k => entry_of_lookups (hnote k).1 (hnote k).2, fun k => ?_,
      ?_⟩
    · rw [htr]
    · rw [(hnote k).1, (hnote k).2, Option.isSome_map, Option.isSome_map]
    · rw [htr]
      exact (FlowTracker.localAddrs_advance _ _ _ _).trans hw.addrs
    · rw [htr]
      exact (FlowTracker.cap_advance _ _ _ _).trans hw.cap
    · rw [htr]
      exact peek_turn ht k
    · have hconn := connections_attempt ctx.cfg (eventFor ctx w info pkt env) env.evalFault w.store
      rw [hst]
      split
      · simp only [Store.insertConnection, run_exec, hconn]
      · rw [hconn, List.append_nil]

end Step

end Worker

end Pktscope

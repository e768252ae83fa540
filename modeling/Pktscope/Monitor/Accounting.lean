import Pktscope.Monitor.Lifetime

/-! # The bytes of the history

Every byte that a flow counts leaves the tracker in one of two ways: with the
snapshot of a flow that its FINs or a reset have ended, which becomes a row, or
with a flow dropped from a full table, which leaves nothing. The rest, that of
every datagram among it, is still in the tracker when the run ends.
-/

namespace Pktscope

open Library

variable {F : Type} [F64 F]

section Tracker

omit [F64 F] in
def FlowState.bytes (st : FlowState F) : ℕ := st.core.bytes

theorem bytes_observe (found : Option (FlowState F)) (info : PktFlowInfo) (wire : UInt32)
    (ts : DateTime) :
    ((found.getD (.new ts)).observe info wire ts).bytes =
      found.elim 0 FlowState.bytes + wire.toNat := by
  rw [FlowState.bytes, core_observe, FlowCore.bytes_observe]
  cases found <;> rfl

theorem FlowTracker.total_advance (t : FlowTracker F) (info : PktFlowInfo) (wire : UInt32)
    (ts : DateTime) :
    (t.advance info wire ts).flows.total FlowState.bytes +
        (if t.closes info wire ts then (t.stateAfter info wire ts).bytes else 0) +
        ((t.flows.victim info.key).bind t.flows.peek).elim 0 FlowState.bytes =
      t.flows.total FlowState.bytes + wire.toNat := by
  have hcount : (t.count info wire ts).flows.total FlowState.bytes +
      (t.flows.peek info.key).elim 0 FlowState.bytes +
      ((t.flows.victim info.key).bind t.flows.peek).elim 0 FlowState.bytes =
      t.flows.total FlowState.bytes + (t.stateAfter info wire ts).bytes :=
    t.flows.total_getOrInsertMut FlowState.bytes info.key (.new ts) _
  have hstate : (t.stateAfter info wire ts).bytes =
      (t.flows.peek info.key).elim 0 FlowState.bytes + wire.toNat := bytes_observe _ _ _ _
  unfold advance
  split
  · have hpeek : (t.count info wire ts).flows.peek info.key = some (t.stateAfter info wire ts) :=
      LruCache.peek_getOrInsertMut_self _ _ (.new ts) _
    have hpop := (t.count info wire ts).flows.total_pop FlowState.bytes info.key
    rw [hpeek, Option.elim_some] at hpop
    have hclose : ((t.count info wire ts).close info.key).flows =
        (t.count info wire ts).flows.pop info.key := rfl
    rw [hclose]
    omega
  · omega

end Tracker

namespace Worker

section Step

/-- The length of a packet that the tracker counts. -/
def counted : Recv → ℕ
  | .timeout _ => 0
  | .packet pkt _ => if (extractPktFlowInfo pkt.layers).isSome then pkt.wireLen.toNat else 0

/-- The flow that the tracker drops for a new one. -/
def dropped (ctx : WorkerCtx F) (w : Worker F) (i : Recv) : Option (FlowState F) :=
  (turnOf ctx w i).bind fun t => t.evicted.bind w.tracker.flows.peek

def rowBytes (row : ConnectionRow) : ℕ := row.bytesUp + row.bytesDown

/-- The bytes of the flows that are still open. -/
def openBytes (w : Worker F) : ℕ := (w.tracker.snapshot.map fun s => s.bytesUp + s.bytesDown).sum

variable {ctx : WorkerCtx F} {w : Worker F} {i : Recv} {t : Turn F}

omit [F64 F] in
theorem snapshot_bytes (tracker : FlowTracker F) (key : FlowKey) (st : FlowState F) :
    (tracker.makeSnapshot key st).bytesUp + (tracker.makeSnapshot key st).bytesDown = st.bytes := by
  unfold FlowTracker.makeSnapshot
  split
  · rfl
  · exact Nat.add_comm _ _

omit [F64 F] in
theorem openBytes_eq : w.openBytes = w.tracker.flows.total FlowState.bytes := by
  rw [openBytes, FlowTracker.snapshot, List.map_map, LruCache.total]
  congr 1
  exact List.map_congr_left fun e _ => snapshot_bytes w.tracker e.1 e.2

theorem rowBytes_rowAt : rowBytes (rowAt ctx w t) = (t.observe (w.tracker.flows.peek t.key)).bytes :=
  snapshot_bytes _ _ _

theorem counted_of_none (hn : turnOf ctx w i = none) : counted i = 0 := by
  cases i with
  | timeout nowMs => rfl
  | packet pkt env =>
    have hx : extractPktFlowInfo pkt.layers = none := Option.map_eq_none_iff.mp hn
    rw [counted, hx]
    rfl

theorem insertFails_turnOf (ht : turnOf ctx w i = some t)
    (h : ∀ pkt env, i = .packet pkt env → env.insertFails = false) : t.insertFails = false := by
  cases i with
  | timeout nowMs => cases ht
  | packet pkt env =>
    obtain ⟨info, -, rfl⟩ := Option.map_eq_some_iff.mp ht
    exact h pkt env rfl

theorem closing_turnOf (ht : turnOf ctx w i = some t) (hc : t.closed = true) :
    t.info.tcp.isSome ∧ (t.observe (w.tracker.flows.peek t.key)).closing = true := by
  cases i with
  | timeout nowMs => cases ht
  | packet pkt env =>
    obtain ⟨info, -, rfl⟩ := Option.map_eq_some_iff.mp ht
    exact Bool.and_eq_true_iff.mp hc

theorem openBytes_step (hw : Tidy ctx w) (ht : turnOf ctx w i = some t) :
    (step ctx w i).openBytes + (if t.closed then rowBytes (rowAt ctx w t) else 0) +
        ((dropped ctx w i).elim 0 FlowState.bytes) = w.openBytes + counted i := by
  cases i with
  | timeout nowMs => cases ht
  | packet pkt env =>
    obtain ⟨info, hx, rfl⟩ := Option.map_eq_some_iff.mp ht
    obtain ⟨-, -, htr, -⟩ := step_tables hw hx ht
    have htotal := w.tracker.total_advance info pkt.wireLen pkt.timestamp
    rw [openBytes_eq, openBytes_eq, htr, rowBytes_rowAt, dropped, ht, counted, hx]
    exact htotal

end Step

section Lives

/-- The lives of the flows that were ended while the tracker held them, in order. -/
def endedLives (turns : List (Turn F)) : List (List (Turn F)) :=
  finished Turn.key (fun k t => t.dropsFlow k) turns

/-- A row tells of a whole life of a flow, from its first packet to the one that ended it. -/
structure Records (life : List (Turn F)) (row : ConnectionRow) : Prop where
  ended : ∃ t ∈ life.getLast?, t.info.tcp.isSome ∧ ∃ st ∈ stateOf life, st.closing = true
  proto : ∃ t ∈ life.getLast?, row.proto = t.key.protocol
  ports : ∃ t ∈ life.getLast?,
    row.localPort = t.key.portLow ∧ row.remotePort = t.key.portHigh ∨
      row.localPort = t.key.portHigh ∧ row.remotePort = t.key.portLow
  bytes : rowBytes row = (life.map fun t => t.wire.toNat).sum
  start : ∃ t ∈ life.head?, row.tsStartMs = t.time.timestampMillis
  finish : ∃ t ∈ life.getLast?, row.tsEndMs = t.time.timestampMillis

theorem stateOf_concat (life : List (Turn F)) (t : Turn F) :
    stateOf (life ++ [t]) = some (t.observe (stateOf life)) := sessionFold_concat _ _ _

theorem bytes_stateOf (life : List (Turn F)) :
    (stateOf life).elim 0 FlowState.bytes = (life.map fun t => t.wire.toNat).sum :=
  sessionFold_sum (fun found t => bytes_observe found t.info t.wire t.time) life

theorem firstSeen_observe (t : Turn F) (found : Option (FlowState F)) :
    (t.observe found).firstSeen = (found.map FlowState.firstSeen).getD t.time := by
  have hcore := core_observe (found.getD (.new t.time)) t.info t.wire t.time
  refine (congrArg FlowCore.firstSeen hcore).trans ?_
  rw [FlowCore.firstSeen_observe]
  cases found <;> rfl

theorem lastSeen_observe (t : Turn F) (found : Option (FlowState F)) :
    (t.observe found).lastSeen = t.time := by
  have hcore := core_observe (found.getD (.new t.time)) t.info t.wire t.time
  exact (congrArg FlowCore.lastSeen hcore).trans (FlowCore.lastSeen_observe _ _ _ _)

theorem firstSeen_stateOf (life : List (Turn F)) :
    (stateOf life).map FlowState.firstSeen = life.head?.map Turn.time :=
  sessionFold_head (fun found t => firstSeen_observe t found) life

/-- The row of a closing packet records the life that it ends. -/
theorem records_rowOf (life : List (Turn F)) (t : Turn F) (e : FlowEntry) (addrs : Finset IpAddr)
    (id : ℕ) (htcp : t.info.tcp.isSome) (hclosing : (t.observe (stateOf life)).closing = true) :
    Records (life ++ [t]) { rowOf e (t.snap addrs (stateOf life)) with id := id } := by
  have hlast : t ∈ (life ++ [t]).getLast? := List.getLast?_concat
  have hstate := stateOf_concat life t
  have hbytes := bytes_stateOf (life ++ [t])
  have hfirst := firstSeen_stateOf (life ++ [t])
  rw [hstate] at hbytes hfirst
  obtain ⟨u, hu, htime⟩ := Option.map_eq_some_iff.mp hfirst.symm
  have hseen : (t.snap addrs (stateOf life)).firstSeen = (t.observe (stateOf life)).firstSeen ∧
      (t.snap addrs (stateOf life)).lastSeen = (t.observe (stateOf life)).lastSeen := by
    unfold Turn.snap FlowTracker.makeSnapshot
    split <;> exact ⟨rfl, rfl⟩
  refine ⟨⟨t, hlast, htcp, _, hstate, hclosing⟩, ⟨t, hlast, ?_⟩, ⟨t, hlast, ?_⟩, ?_, ⟨u, hu, ?_⟩,
    ⟨t, hlast, ?_⟩⟩
  · unfold rowOf Turn.snap FlowTracker.makeSnapshot
    split <;> rfl
  · unfold rowOf Turn.snap FlowTracker.makeSnapshot
    split
    · exact Or.inl ⟨rfl, rfl⟩
    · exact Or.inr ⟨rfl, rfl⟩
  · exact (snapshot_bytes _ _ _).trans hbytes
  · rw [htime, ← hseen.1]
    rfl
  · rw [← lastSeen_observe t (stateOf life), ← hseen.2]
    rfl

end Lives

section Run

variable (ctx : WorkerCtx F) (store : Store F)

/-- The flows that a run drops from the full tracker. -/
def droppedFlows (inputs : List Recv) : List (FlowState F) :=
  logOf (step ctx) (dropped ctx) (start ctx store) inputs

/-- The history holds one row for each life of a flow that was ended, and none else, and the bytes
of the run are those of its rows, of the flows still open and of those dropped from the full
tracker. -/
theorem history_accounts (inputs : List Recv)
    (h : ∀ pkt env, .packet pkt env ∈ inputs → env.insertFails = false) :
    let w := runWorker ctx store inputs
    ∃ rows, w.store.connections = store.connections ++ rows ∧
      List.Forall₂ Records (endedLives (history ctx (start ctx store) inputs)) rows ∧
      (rows.map rowBytes).sum + w.openBytes +
        ((droppedFlows ctx store inputs).map FlowState.bytes).sum = (inputs.map counted).sum := by
  rw [runWorker_eq]
  induction inputs using List.reverseRecOn with
  | nil =>
    refine ⟨[], (List.append_nil _).symm, .nil, ?_⟩
    rfl
  | append_singleton inputs i ih =>
    obtain ⟨rows, hrows, hlives, hbytes⟩ := ih fun pkt env hm => h pkt env (List.mem_append_left _ hm)
    have hw : Tidy ctx (steps ctx (start ctx store) inputs) :=
      tidy_steps (tidy_start ctx store) inputs
    have hpeek := peek_steps ctx store inputs
    have hdropped : droppedFlows ctx store (inputs ++ [i]) = droppedFlows ctx store inputs ++
        (dropped ctx (steps ctx (start ctx store) inputs) i).toList := logOf_concat _ _ _ _ _
    have hhistory : history ctx (start ctx store) (inputs ++ [i]) =
        history ctx (start ctx store) inputs ++
          (turnOf ctx (steps ctx (start ctx store) inputs) i).toList := logOf_concat _ _ _ _ _
    have hsteps : steps ctx (start ctx store) (inputs ++ [i]) =
        step ctx (steps ctx (start ctx store) inputs) i := List.foldl_append
    rw [hdropped, hhistory, hsteps, List.map_append, List.sum_append]
    generalize steps ctx (start ctx store) inputs = w at *
    cases ht : turnOf ctx w i with
    | none =>
      obtain ⟨-, -, htr, hst⟩ := step_of_none hw ht
      refine ⟨rows, hst ▸ hrows, by simpa using hlives, ?_⟩
      rw [dropped, ht, openBytes, htr]
      simpa [counted_of_none ht, openBytes] using hbytes
    | some t =>
      have hfails : t.insertFails = false :=
        insertFails_turnOf ht fun pkt env he => h pkt env (by simp [he])
      have hopen := openBytes_step hw ht
      have hconn := (step_of_some hw ht).connections
      have hself : t.dropsFlow t.key = t.closed := (formed_turnOf ht).dropsFlow_self
      rw [hfails, Bool.not_false, Bool.and_true, hrows, List.append_assoc] at hconn
      refine ⟨_, hconn, ?_, ?_⟩
      · rw [Option.toList_some, endedLives, finished_concat, hself, ← endedLives]
        by_cases hc : t.closed = true
        · rw [if_pos hc, if_pos hc]
          have hclosing := closing_turnOf ht hc
          rw [hpeek] at hclosing
          have hrecords := records_rowOf _ t (t.note (w.entry t.key)) ctx.localAddrs
            (Sql.nextRowid ConnectionRow.id (store.connections ++ rows)) hclosing.1 hclosing.2
          rw [← hpeek] at hrecords
          exact List.rel_append hlives (.cons hrecords .nil)
        · rw [if_neg hc, if_neg hc, List.append_nil, List.append_nil]
          exact hlives
      · have hrow : ((if t.closed then [{ rowAt ctx w t with
            id := Sql.nextRowid ConnectionRow.id (store.connections ++ rows) }] else []).map
              rowBytes).sum =
            if t.closed then rowBytes (rowAt ctx w t) else 0 := by
          split <;> rfl
        have hdrop : (((dropped ctx w i).toList).map FlowState.bytes).sum =
            (dropped ctx w i).elim 0 FlowState.bytes := by
          cases dropped ctx w i <;> rfl
        rw [List.map_append, List.sum_append, List.map_append, List.sum_append, hdrop, hrow]
        simp only [List.map_cons, List.map_nil, List.sum_cons, List.sum_nil]
        omega

end Run

section Samples

/-- A connection is opened and reset, and the flow of a datagram between stays open. -/
def resetInputs : List Recv :=
  [.packet (tcpPacket 0 60 0x0a000002 40000 0x0a000009 443 { sampleFlags with syn := true })
      (sampleEnv none),
    .packet (udpPacket 1000000 70 0x0a000002 40001 0x0a000009 53) (sampleEnv none),
    .packet (tcpPacket 2000000 40 0x0a000009 443 0x0a000002 40000 { sampleFlags with rst := true })
      (sampleEnv none)]

theorem history_accounts_reset :
    let w := runWorker (sampleCtx ∅) (Store.openNew : Store ℚ) resetInputs
    (w.store.connections.map rowBytes = [100] ∧ w.openBytes = 70) ∧
      ∃ rows, w.store.connections = (Store.openNew : Store ℚ).connections ++ rows ∧
        List.Forall₂ Records
          (endedLives (history (sampleCtx ∅) (start (sampleCtx ∅) Store.openNew) resetInputs)) rows ∧
        (rows.map rowBytes).sum + w.openBytes +
          ((droppedFlows (sampleCtx ∅) (Store.openNew : Store ℚ) resetInputs).map
            FlowState.bytes).sum = (resetInputs.map counted).sum := by
  intro w
  have hsaved : ∀ pkt env, .packet pkt env ∈ resetInputs → env.insertFails = false := by
    intro pkt env h
    simp only [resetInputs, List.mem_cons, List.not_mem_nil, or_false, Recv.packet.injEq] at h
    rcases h with ⟨-, rfl⟩ | ⟨-, rfl⟩ | ⟨-, rfl⟩ <;> rfl
  refine ⟨?_, history_accounts (sampleCtx ∅) Store.openNew resetInputs hsaved⟩
  decide

/-- One datagram, and the run is over. -/
def datagramInputs : List Recv :=
  [.packet (udpPacket 0 60 0x0a000002 40000 0x0a000009 53) (sampleEnv none)]

/-- The tracker has counted the datagram, but the history is empty. -/
theorem datagram_not_recorded :
    let w := runWorker (sampleCtx ∅) (Store.openNew : Store ℚ) datagramInputs
    w.tracker.len = 1 ∧ (datagramInputs.map counted).sum = 60 ∧ w.store.connections = [] ∧
      (w.store.connections.map rowBytes).sum ≠ (datagramInputs.map counted).sum := by
  decide

end Samples

end Worker

end Pktscope

import Pktscope.Monitor.Lifetime

/-! # The end of a TCP connection

The second FIN drops a flow together with its flags. A segment behind it meets a
key without a flow and opens one, which no FIN of this connection ends, or ends
it at once by a second snapshot.
-/

namespace Pktscope

open Library Worker

variable {F : Type} [F64 F] {key : FlowKey}

namespace FlowTracker

variable (t : FlowTracker F)

/-- The snapshots of a key that the sink has received. -/
def completed (key : FlowKey) : List (FlowStatsSnapshot F) :=
  (t.completedTx.getD []).filter fun snap => decide (snap.key = key)

/-- What the tracker knows about the end of a key's flows. -/
def track (key : FlowKey) : Track := ⟨(t.flows.peek key).map FlowState.ends, (t.completed key).length⟩

theorem ends_stateAfter (g : Segment key) (wire : UInt32) (ts : DateTime) :
    (t.stateAfter g.info wire ts).ends =
      (((t.flows.peek key).map FlowState.ends).getD .none).note g.isLow g.tcp := by
  rw [stateAfter_eq, ends_observe, g.bits, g.ofKey]
  cases t.flows.peek key <;> rfl

theorem closes_segment (g : Segment key) (wire : UInt32) (ts : DateTime) :
    t.closes g.info wire ts =
      ((((t.flows.peek key).map FlowState.ends).getD .none).note g.isLow g.tcp).closing := by
  rw [closes, closing_eq, ends_stateAfter, g.bits]
  rfl

omit [F64 F] in
theorem key_makeSnapshot (key : FlowKey) (st : FlowState F) : (t.makeSnapshot key st).key = key := by
  unfold makeSnapshot
  split <;> rfl

theorem track_update (g : Segment key) (hs : t.completedTx.isSome) :
    (t.update g.pkt).1.track key = (t.track key).step g.isLow g.tcp ∧
      (t.update g.pkt).1.completedTx.isSome := by
  obtain ⟨sent, hsent⟩ := Option.isSome_iff_exists.mp hs
  have hpeek := t.peek_advance g.info g.pkt.wireLen g.pkt.timestamp key
  have hsink := t.completedTx_advance g.info g.pkt.wireLen g.pkt.timestamp
  rw [if_pos g.ofKey.symm, closes_segment] at hpeek
  rw [closes_segment, hsent] at hsink
  rw [update_of_info t g.extract]
  dsimp only
  unfold track completed Track.step
  dsimp only
  rw [hpeek, hsink, hsent]
  split
  · simp [g.ofKey, key_makeSnapshot]
  · simp [ends_stateAfter]

omit [F64 F] in
theorem track_eq_none_iff {n : ℕ} :
    t.track key = ⟨none, n⟩ ↔ t.flows.contains key = false ∧ (t.completed key).length = n := by
  rw [track, Track.mk.injEq, Option.map_eq_none_iff, LruCache.peek_eq_none, ← LruCache.contains_iff,
    Bool.not_eq_true]

theorem track_feed (gs : List (Segment key)) (hs : t.completedTx.isSome) :
    (t.feed (gs.map Segment.pkt)).track key = (t.track key).steps gs := by
  induction gs generalizing t with
  | nil => rfl
  | cons g gs ih =>
    obtain ⟨htrack, hsink⟩ := track_update t g hs
    rw [List.map_cons, feed, List.foldl_cons, ← feed, ih _ hsink, htrack]
    rfl

end FlowTracker

namespace Worker

variable {ctx : WorkerCtx F} {w : Worker F}

/-- What the worker knows about the end of a key's flows, all of which reach the history. -/
def track (w : Worker F) (key : FlowKey) : Track :=
  ⟨(w.tracker.flows.peek key).map FlowState.ends, w.store.connections.length⟩

theorem track_step (hw : Tidy ctx w) (g : Segment key) {env : Env} (he : env.insertFails = false) :
    let w' := step ctx w (.packet g.pkt env)
    w'.track key = (w.track key).step g.isLow g.tcp ∧
      (w'.entry key).isSome = (w'.tracker.flows.peek key).isSome := by
  obtain ⟨t, ht, hinfo, hclosed, hfails⟩ : ∃ t, turnOf ctx w (.packet g.pkt env) = some t ∧
      t.info = g.info ∧
      t.closed = ((w.track key).held.getD .none |>.note g.isLow g.tcp).closing ∧
      t.insertFails = false := by
    refine ⟨_, congrArg (Option.map _) g.extract, rfl, ?_, he⟩
    exact w.tracker.closes_segment g g.pkt.wireLen g.pkt.timestamp
  have hs := step_of_some hw ht
  have hkey : t.key = key := by rw [Turn.key, hinfo, g.ofKey]
  have hends : t.endsFlow key = t.closed := by simp [Turn.endsFlow, hkey]
  have hdrops : t.dropsFlow key = t.closed := hkey ▸ (formed_turnOf ht).dropsFlow_self
  have hobs : (t.observe (w.tracker.flows.peek key)).ends =
      ((w.track key).held.getD .none).note g.isLow g.tcp := by
    rw [Turn.observe, ends_observe, hinfo, g.bits, track]
    cases w.tracker.flows.peek key <;> rfl
  have hpeek := hs.flows key
  have hentry := hs.entry key
  have hconn := hs.connections
  rw [hdrops, if_pos hkey] at hpeek
  rw [hends, if_pos hkey] at hentry
  rw [hfails, Bool.not_false, Bool.and_true] at hconn
  dsimp only
  rw [hpeek, hentry, track, hpeek, hconn, Track.step, ← hclosed]
  cases t.closed
  · exact ⟨by simp [hobs, track], rfl⟩
  · exact ⟨by simp [track], rfl⟩

theorem track_steps (visits : List (Segment key × Env))
    (he : ∀ v ∈ visits, v.2.insertFails = false) (hw : Tidy ctx w)
    (hheld : (w.entry key).isSome = (w.tracker.flows.peek key).isSome) :
    let w' := steps ctx w (visits.map fun v => .packet v.1.pkt v.2)
    w'.track key = (w.track key).steps (visits.map Prod.fst) ∧
      (w'.entry key).isSome = (w'.tracker.flows.peek key).isSome := by
  induction visits generalizing w with
  | nil => exact ⟨rfl, hheld⟩
  | cons v visits ih =>
    obtain ⟨htrack, hheld'⟩ := track_step hw v.1 (he v List.mem_cons_self)
    obtain ⟨ihtrack, ihheld⟩ := ih (fun v' h => he v' (List.mem_cons_of_mem _ h))
      (tidy_step hw _) hheld'
    rw [htrack] at ihtrack
    exact ⟨ihtrack, ihheld⟩

theorem track_runWorker (store : Store F) (visits : List (Segment key × Env))
    (he : ∀ v ∈ visits, v.2.insertFails = false) {n : ℕ} :
    let w := runWorker ctx store (visits.map fun v => .packet v.1.pkt v.2)
    (w.store.connections.length = n ∧ w.live.lookup key = none ↔
      Track.steps ⟨none, store.connections.length⟩ (visits.map Prod.fst) = ⟨none, n⟩) := by
  intro w
  have hw : w = steps ctx (start ctx store) (visits.map fun v => .packet v.1.pkt v.2) :=
    runWorker_eq ctx store _
  obtain ⟨htrack, hheld⟩ := track_steps visits he (tidy_start ctx store) rfl
  have htidy := tidy_steps (tidy_start ctx store) (visits.map fun v => .packet v.1.pkt v.2)
  rw [← hw] at htrack hheld htidy
  have hstart : (start ctx store).track key = ⟨none, store.connections.length⟩ := rfl
  rw [← hstart, ← htrack, track, Track.mk.injEq, and_comm, ← htidy.entry_snd,
    Option.map_eq_none_iff, Option.map_eq_none_iff, ← Option.not_isSome_iff_eq_none, hheld,
    Option.not_isSome_iff_eq_none]

end Worker

/-- A connection leaves one snapshot and no flow in the tracker, and one row and no live entry in
the worker, exactly when no segment comes behind its second FIN. -/
theorem connection_ends_once_iff (c : Connection key) :
    (∀ t : FlowTracker F, t.completedTx.isSome → t.flows.contains key = false →
      let t' := t.feed (c.segments.map Segment.pkt)
      ((t'.completed key).length = (t.completed key).length + 1 ∧ t'.flows.contains key = false ↔
        c.trail = [])) ∧
    ∀ (ctx : WorkerCtx F) (store : Store F) (visits : List (Segment key × Env)),
      visits.map Prod.fst = c.segments → (∀ v ∈ visits, v.2.insertFails = false) →
      let w := Worker.runWorker ctx store (visits.map fun v => .packet v.1.pkt v.2)
      (w.store.connections.length = store.connections.length + 1 ∧ w.live.lookup key = none ↔
        c.trail = []) := by
  constructor
  · intro t hs hk t'
    have hstart : t.track key = ⟨none, (t.completed key).length⟩ := t.track_eq_none_iff.mpr ⟨hk, rfl⟩
    rw [← Track.steps_connection c, ← hstart, ← t.track_feed c.segments hs, and_comm]
    exact (FlowTracker.track_eq_none_iff _).symm
  · intro ctx store visits hv he
    rw [← Track.steps_connection c store.connections.length, ← hv]
    exact Worker.track_runWorker store visits he

section Handshake

def sampleKey : FlowKey := .new (.v4 0x0a000002) 40000 (.v4 0x0a000009) 443 6

/-- A segment of the sample connection without data. -/
def clientSegment (flags : TcpFlags) : Segment sampleKey where
  pkt := tcpPacket 0 60 0x0a000002 40000 0x0a000009 443 flags
  info := ⟨.v4 0x0a000002, .v4 0x0a000009, 40000, 443, 6,
    some ⟨0, 0, 0, flags.syn, flags.ack, flags.fin, flags.rst⟩⟩
  tcp := ⟨0, 0, 0, flags.syn, flags.ack, flags.fin, flags.rst⟩
  extract := rfl
  bits := rfl
  ofKey := rfl

def serverSegment (flags : TcpFlags) : Segment sampleKey where
  pkt := tcpPacket 0 60 0x0a000009 443 0x0a000002 40000 flags
  info := ⟨.v4 0x0a000009, .v4 0x0a000002, 443, 40000, 6,
    some ⟨0, 0, 0, flags.syn, flags.ack, flags.fin, flags.rst⟩⟩
  tcp := ⟨0, 0, 0, flags.syn, flags.ack, flags.fin, flags.rst⟩
  extract := rfl
  bits := rfl
  ofKey := FlowKey.new_comm _ _ _ _ _

/-- A handshake, the FINs of both sides and what comes behind them. -/
def sampleConnection (trail : List (Segment sampleKey)) (h : ∀ g ∈ trail, g.IsPureAck) :
    Connection sampleKey where
  body := [clientSegment { sampleFlags with syn := true, ack := false },
    serverSegment { sampleFlags with syn := true }, clientSegment sampleFlags]
  firstFin := clientSegment { sampleFlags with fin := true }
  half := [serverSegment sampleFlags]
  secondFin := serverSegment { sampleFlags with fin := true }
  trail := trail
  body_open := by decide
  first_fin := by decide
  half_open := by decide
  second_fin := by decide
  sides := by decide
  trail_quiet g hg := Or.inl (h g hg)

/-- The acknowledgement of the second FIN. -/
def lastAck : Segment sampleKey := clientSegment sampleFlags

theorem lastAck_pure : ∀ g ∈ [lastAck], g.IsPureAck := by
  intro g hg
  rw [List.mem_singleton.mp hg]
  exact ⟨rfl, rfl, rfl, rfl, rfl⟩

/-- The tracker of the worker before its first packet. -/
def sampleTracker : FlowTracker ℚ := FlowTracker.new.withCompletionSink

theorem connection_ends_once_iff_handshake :
    let c := sampleConnection [lastAck] lastAck_pure
    let visits := c.segments.map fun g => (g, sampleEnv none)
    let t' := sampleTracker.feed (c.segments.map Segment.pkt)
    let w := runWorker (sampleCtx ∅) Store.openNew (visits.map fun v => .packet v.1.pkt v.2)
    ((t'.completed sampleKey).length = (sampleTracker.completed sampleKey).length + 1 ∧
        t'.flows.contains sampleKey = false ↔ c.trail = []) ∧
      (w.store.connections.length = (Store.openNew : Store ℚ).connections.length + 1 ∧
        w.live.lookup sampleKey = none ↔ c.trail = []) :=
  ⟨(connection_ends_once_iff _).1 sampleTracker rfl rfl,
    (connection_ends_once_iff _).2 (sampleCtx ∅) Store.openNew _ rfl (by decide)⟩

/-- The acknowledgement of the second FIN opens a flow that stays. -/
theorem last_ack_opens_flow :
    let c := sampleConnection [lastAck] lastAck_pure
    (sampleTracker.feed (c.segments.map Segment.pkt)).flows.contains sampleKey = true ∧
      let w := runWorker (sampleCtx ∅) Store.openNew
        (c.segments.map fun g => .packet g.pkt (sampleEnv none))
      (w.live.lookup sampleKey).isSome = true := by
  decide

end Handshake

end Pktscope

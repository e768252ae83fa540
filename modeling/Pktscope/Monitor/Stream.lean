import Pktscope.Ipc.Server
import Pktscope.Monitor.Lifetime

/-! # The event stream

A turn of the worker publishes its alerts, the new state of its flow and, if the
packet ended the flow, its end. Over a run these events are a log of the live
table, in which no flow id names two flows.
-/

namespace Pktscope.Worker

open Library AlertEngine

variable {F : Type} [F64 F] (ctx : WorkerCtx F)

omit [F64 F] in
/-- What the worker shares with the server. -/
def shared (w : Worker F) : Shared F := ⟨w.live, w.bus⟩

omit [F64 F] in
/-- The accesses of a turn of a flow, in the order in which the worker makes them. -/
def turnActs (w : Worker F) (t : Turn F) : List (Act F) :=
  let e := t.note (w.entry t.key)
  (firedAlerts t.outcome).map (fun a => .send (.alert a)) ++ [.put t.key e.2, .send (.flow e.2)] ++
    if t.closed then [.drop t.key, .send (.closed e.1.id)] else []

/-- The accesses of a turn. -/
def acts (w : Worker F) (i : Recv) : List (Act F) :=
  match i with
  | .timeout nowMs => [.send (.heartbeat nowMs)]
  | .packet _ _ => (turnOf ctx w i).elim [] w.turnActs

/-- The accesses of a run. -/
def actsOf (w : Worker F) : List Recv → List (Act F)
  | [] => []
  | i :: inputs => acts ctx w i ++ actsOf (step ctx w i) inputs

section Step

variable {ctx} {w : Worker F} {pkt : DecodedPacket} {env : Env} {info : PktFlowInfo} {t : Turn F}

theorem log_receive (hw : Tidy ctx w) (hx : extractPktFlowInfo pkt.layers = some info)
    (ht : turnOf ctx w (.packet pkt env) = some t) :
    let w' := receive ctx pkt env w
    w'.bus = w.bus ++ (firedAlerts t.outcome).map .alert ++ [.flow (t.note (w.entry t.key)).2] ∧
      w'.nextId = if (w.entry t.key).isSome then w.nextId else w.nextId + 1 := by
  rw [turnOf, hx, Option.map_some, Option.some.injEq] at ht
  subst ht
  have htime : (if w.tracker.annotate info pkt.wireLen pkt.timestamp = some true then
      FlowTracker.markRetransmission pkt else pkt).timestamp = pkt.timestamp := by
    split <;> rfl
  rw [← Option.isSome_map (f := Prod.fst), hw.entry_fst]
  simp only [receive, FlowTracker.update_of_info w.tracker hx, Turn.note, hw.entry_fst, hw.entry_snd,
    htime]
  exact ⟨rfl, rfl⟩

theorem log_drain (hw : Tidy ctx w) (hx : extractPktFlowInfo pkt.layers = some info)
    (ht : turnOf ctx w (.packet pkt env) = some t) :
    let w' := receive ctx pkt env w
    (w'.drain env.insertFails).bus = w'.bus ++
        (if t.closed then [.closed (t.note (w.entry t.key)).1.id] else []) ∧
      (w'.drain env.insertFails).nextId = w'.nextId := by
  obtain ⟨hm, -, htr, -⟩ := receive_of_some hw hx ht
  have hcomp := completed_turn hw ht
  rw [← htr] at hcomp
  generalize receive ctx pkt env w = u at *
  by_cases hc : t.closed = true
  · rw [if_pos hc] at hcomp
    have hkey := t.key_snap ctx.localAddrs (w.tracker.flows.peek t.key)
    have hmeta : u.metas.lookup (t.snap ctx.localAddrs (w.tracker.flows.peek t.key)).key =
        some (t.note (w.entry t.key)).1 := by
      rw [hkey, hm, AList.lookup_insert]
    simp only [drain, hcomp, List.foldl_cons, List.foldl_nil, persistClosed, hmeta,
      Option.map_some, Option.toList_some, hc, if_true]
    exact ⟨trivial, trivial⟩
  · rw [if_neg hc] at hcomp
    simp only [drain_nil hcomp, if_neg hc, List.append_nil]
    exact ⟨trivial, trivial⟩

/-- What a turn of a flow broadcasts. -/
def turnEvents (w : Worker F) (t : Turn F) : List (Event F) :=
  (firedAlerts t.outcome).map .alert ++ [.flow (t.note (w.entry t.key)).2] ++
    if t.closed then [.closed (t.note (w.entry t.key)).1.id] else []

theorem log_step (hw : Tidy ctx w) {i : Recv} (ht : turnOf ctx w i = some t) :
    (step ctx w i).bus = w.bus ++ turnEvents w t ∧
      (step ctx w i).nextId = if (w.entry t.key).isSome then w.nextId else w.nextId + 1 := by
  cases i with
  | timeout nowMs => cases ht
  | packet pkt env =>
    obtain ⟨info, hx, -⟩ := Option.map_eq_some_iff.mp ht
    obtain ⟨hbus, hnext⟩ := log_receive hw hx ht
    obtain ⟨hbus', hnext'⟩ := log_drain hw hx ht
    rw [step, hbus', hbus, hnext', hnext, turnEvents]
    simp only [List.append_assoc]
    exact ⟨trivial, trivial⟩

omit [F64 F] in
theorem acts_alerts (s : Shared F) (alerts : List (Alert F)) :
    s.acts (alerts.map fun a => .send (.alert a)) =
      { s with bus := s.bus ++ alerts.map .alert } := by
  induction alerts generalizing s with
  | nil => simp [Shared.acts]
  | cons a alerts ih =>
    rw [List.map_cons, Shared.acts_cons, ih]
    simp [Shared.act]

/-- The accesses of a turn are what it does to the live table and the bus. -/
theorem shared_step (hw : Tidy ctx w) (i : Recv) :
    shared (step ctx w i) = (shared w).acts (acts ctx w i) := by
  cases ht : turnOf ctx w i with
  | none =>
    cases i with
    | timeout nowMs => rfl
    | packet pkt env =>
      have hx : extractPktFlowInfo pkt.layers = none := Option.map_eq_none_iff.mp ht
      have hd := hw.drained
      simp only [acts, ht, step, receive, FlowTracker.update_of_none w.tracker hx, drain, hd,
        List.foldl_nil]
      rfl
  | some t =>
    cases i with
    | timeout nowMs => cases ht
    | packet pkt env =>
      obtain ⟨info, hx, -⟩ := Option.map_eq_some_iff.mp ht
      obtain ⟨-, hl, -, -⟩ := step_tables hw hx ht
      rw [shared, hl, (log_step hw ht).1, acts, ht, Option.elim_some, turnActs, turnEvents]
      simp only [Shared.acts_append, acts_alerts]
      split_ifs
      · simp only [← List.append_assoc]
        rfl
      · simp only [← List.append_assoc, List.append_nil]
        rfl

theorem nextId_step_of_none (hw : Tidy ctx w) {i : Recv} (ht : turnOf ctx w i = none) :
    (step ctx w i).nextId = w.nextId := by
  cases i with
  | timeout nowMs => rfl
  | packet pkt env =>
    have hx : extractPktFlowInfo pkt.layers = none := Option.map_eq_none_iff.mp ht
    have hd := hw.drained
    simp only [step, receive, FlowTracker.update_of_none w.tracker hx, drain, hd, List.foldl_nil]

end Step

section Ids

variable {ctx} {w : Worker F} {t : Turn F}

omit [F64 F] in
/-- Every flow has one id in the bookkeeping and in the live table, and the next id is new. -/
structure Numbered (w : Worker F) : Prop where
  ids : ∀ k e, w.entry k = some e → e.1.id = e.2.id
  below : ∀ ev ∈ w.bus, ∀ id, ev.flowId? = some id → id < w.nextId

omit [F64 F] in
theorem noteOutcome_id (fm : FlowMeta) (outcome : Option (EvalOutcome F)) :
    (noteOutcome fm outcome).id = fm.id := by
  cases outcome <;> rfl

omit [F64 F] in
theorem note_none_ids (t : Turn F) : (t.note none).1.id = t.nextId ∧ (t.note none).2.id = t.nextId :=
  ⟨noteOutcome_id .., rfl⟩

omit [F64 F] in
theorem note_some_ids (t : Turn F) (e : FlowEntry) :
    (t.note (some e)).1.id = e.1.id ∧ (t.note (some e)).2.id = e.2.id :=
  ⟨noteOutcome_id .., rfl⟩

omit [F64 F] in
theorem grows_note (t : Turn F) (e : FlowEntry) : Grows e.2 (t.note (some e)).2 :=
  ⟨Nat.le_add_right _ _, Nat.le_add_right _ _⟩

omit [F64 F] in
theorem Numbered.note_ids (hn : Numbered w) (t : Turn F) :
    (t.note (w.entry t.key)).1.id = (t.note (w.entry t.key)).2.id := by
  cases he : w.entry t.key with
  | none => rw [(note_none_ids t).1, (note_none_ids t).2]
  | some e => rw [(note_some_ids t e).1, (note_some_ids t e).2, hn.ids t.key e he]

omit [F64 F] in
theorem publishes_alerts {s : Shared F} {alerts : List (Alert F)} {acts : List (Act F)}
    (h : Publishes { s with bus := s.bus ++ alerts.map .alert } acts) :
    Publishes s (alerts.map (fun a => .send (.alert a)) ++ acts) := by
  induction alerts generalizing s with
  | nil => simpa using h
  | cons a alerts ih =>
    refine .note rfl (ih ?_)
    simpa [Shared.act] using h

theorem nextId_turn {i : Recv} (ht : turnOf ctx w i = some t) : t.nextId = w.nextId := by
  cases i with
  | timeout nowMs => cases ht
  | packet pkt env =>
    obtain ⟨info, -, rfl⟩ := Option.map_eq_some_iff.mp ht
    rfl

theorem continues_turn (hw : Tidy ctx w) (hn : Numbered w) {i : Recv} (ht : turnOf ctx w i = some t)
    (alerts : List (Alert F)) :
    Continues ⟨w.live, w.bus ++ alerts.map .alert⟩ t.key (t.note (w.entry t.key)).2 := by
  have hl := hw.entry_snd t.key
  unfold Continues
  cases he : w.entry t.key with
  | none =>
    rw [he, Option.map_none] at hl
    simp only [← hl]
    intro ev hev hne
    rw [(note_none_ids t).2, nextId_turn ht] at hne
    rcases List.mem_append.mp hev with h | h
    · exact lt_irrefl _ (hn.below ev h _ hne)
    · obtain ⟨a, -, rfl⟩ := List.mem_map.mp h
      cases hne
  | some e =>
    rw [he, Option.map_some] at hl
    simp only [← hl]
    exact ⟨(note_some_ids t e).2.symm, grows_note t e⟩

theorem publishes_acts (hw : Tidy ctx w) (hn : Numbered w) (i : Recv) :
    Publishes (shared w) (acts ctx w i) := by
  cases i with
  | timeout nowMs => exact .note rfl (.nil _)
  | packet pkt env =>
    cases ht : turnOf ctx w (.packet pkt env) with
    | none =>
      rw [acts, ht]
      exact .nil _
    | some t =>
      rw [acts, ht, Option.elim_some, turnActs, List.append_assoc]
      refine publishes_alerts (.put (continues_turn hw hn ht _) ?_)
      split_ifs
      · rw [hn.note_ids t]
        exact .drop (AList.lookup_insert _) (.nil _)
      · exact .nil _

theorem below_turnEvents (ha : Announced (shared w)) (hw : Tidy ctx w) (hn : Numbered w) {i : Recv}
    (ht : turnOf ctx w i = some t) {ev : Event F} (hev : ev ∈ turnEvents w t) {id : ℕ}
    (hid : ev.flowId? = some id) : id < (step ctx w i).nextId := by
  have hlt : (t.note (w.entry t.key)).2.id < (step ctx w i).nextId := by
    rw [(log_step hw ht).2]
    cases he : w.entry t.key with
    | none =>
      rw [(note_none_ids t).2, nextId_turn ht]
      exact Nat.lt_succ_self _
    | some e =>
      have hlive : w.live.lookup t.key = some e.2 := by
        rw [← hw.entry_snd, he]
        rfl
      obtain ⟨ev', hev', hid'⟩ := ha.mem_bus hlive
      rw [(note_some_ids t e).2]
      exact hn.below ev' hev' _ hid'
  rw [turnEvents] at hev
  rcases List.mem_append.mp hev with hev | hev
  · rcases List.mem_append.mp hev with hev | hev
    · obtain ⟨a, -, rfl⟩ := List.mem_map.mp hev
      cases hid
    · rw [List.mem_singleton.mp hev] at hid
      cases hid
      exact hlt
  · split_ifs at hev
    · rw [List.mem_singleton.mp hev] at hid
      cases hid
      rwa [hn.note_ids t]
    · cases hev

theorem numbered_step (ha : Announced (shared w)) (hw : Tidy ctx w) (hn : Numbered w) (i : Recv) :
    Numbered (step ctx w i) := by
  cases ht : turnOf ctx w i with
  | none =>
    obtain ⟨hm, hl, -, -⟩ := step_of_none hw ht
    refine ⟨fun k e he => hn.ids k e ?_, fun ev hev id hid => ?_⟩
    · rw [← he, entry, entry, hm, hl]
    · rw [nextId_step_of_none hw ht]
      cases i with
      | timeout nowMs =>
        rcases List.mem_append.mp hev with h | h
        · exact hn.below ev h id hid
        · rw [List.mem_singleton.mp h] at hid
          cases hid
      | packet pkt env =>
        have hs : (step ctx w (.packet pkt env)).bus = w.bus := by
          have h := congrArg Shared.bus (shared_step hw (.packet pkt env))
          rwa [acts, ht] at h
        exact hn.below ev (hs ▸ hev) id hid
  | some t =>
    have hst := step_of_some hw ht
    obtain ⟨hbus, hnext⟩ := log_step hw ht
    constructor
    · intro k e he
      rw [hst.entry] at he
      split_ifs at he with h₁ h₂
      · subst h₂
        cases he
        exact hn.note_ids t
      · exact hn.ids k e he
    · intro ev hev id hid
      rw [hbus] at hev
      rcases List.mem_append.mp hev with h | h
      · refine lt_of_lt_of_le (hn.below ev h id hid) ?_
        rw [hnext]
        split_ifs
        · exact le_refl _
        · exact Nat.le_succ _
      · exact below_turnEvents ha hw hn ht h hid

end Ids

section Run

variable {ctx} {w : Worker F}

/-- The worker between two turns, with a log that is faithful to its live table. -/
structure Logged (ctx : WorkerCtx F) (w : Worker F) : Prop where
  tidy : Tidy ctx w
  numbered : Numbered w
  announced : Announced (shared w)

omit [F64 F] in
theorem logged_start (ctx : WorkerCtx F) (store : Store F) : Logged ctx (start ctx store) where
  tidy := tidy_start ctx store
  numbered := ⟨fun _ _ h => (nomatch h), fun _ h => nomatch h⟩
  announced := announced_start

theorem logged_step (hw : Logged ctx w) (i : Recv) : Logged ctx (step ctx w i) where
  tidy := tidy_step hw.tidy i
  numbered := numbered_step hw.announced hw.tidy hw.numbered i
  announced := by
    rw [shared_step hw.tidy]
    exact (publishes_acts hw.tidy hw.numbered i).announced hw.announced

theorem shared_steps (hw : Logged ctx w) (inputs : List Recv) :
    shared (steps ctx w inputs) = (shared w).acts (actsOf ctx w inputs) := by
  induction inputs generalizing w with
  | nil => rfl
  | cons i inputs ih =>
    rw [actsOf, Shared.acts_append, ← shared_step hw.tidy]
    exact ih (logged_step hw i)

theorem actsOf_concat (w : Worker F) (inputs : List Recv) (i : Recv) :
    actsOf ctx w (inputs ++ [i]) = actsOf ctx w inputs ++ acts ctx (steps ctx w inputs) i := by
  induction inputs generalizing w with
  | nil => simp [actsOf, steps]
  | cons j inputs ih =>
    rw [List.cons_append, actsOf, actsOf, ih, List.append_assoc]
    rfl

theorem publishes_actsOf (hw : Logged ctx w) (inputs : List Recv) :
    Publishes (shared w) (actsOf ctx w inputs) := by
  induction inputs generalizing w with
  | nil => exact .nil _
  | cons i inputs ih =>
    refine (publishes_acts hw.tidy hw.numbered i).append ?_
    rw [← shared_step hw.tidy]
    exact ih (logged_step hw i)

/-- What a run shares with the server after some of its accesses. -/
def moment (ctx : WorkerCtx F) (store : Store F) (inputs : List Recv) (m : ℕ) : Shared F :=
  (shared (start ctx store)).acts ((actsOf ctx (start ctx store) inputs).take m)

/-- The worker owes no event at a moment of a run. -/
def SettledAt (ctx : WorkerCtx F) (store : Store F) (inputs : List Recv) (m : ℕ) : Prop :=
  Settled ((actsOf ctx (start ctx store) inputs).take m)

variable (ctx) (store : Store F) (inputs : List Recv)

/-- The broadcast events of a run are a faithful log of its live table: a flow goes on under its own
id or starts under one that no event had, no event of a flow follows its end and its byte counts
never decrease, and an inspector that applies the log, or its part from no later than an earlier
moment on to a snapshot of that moment, shows exactly the live connections, each at its own id. -/
theorem stream_is_faithful_log :
    (∀ m k dto, (actsOf ctx (start ctx store) inputs)[m]? = some (.put k dto) →
      Continues (moment ctx store inputs m) k dto) ∧
    (runWorker ctx store inputs).bus.Pairwise Follows ∧
    (∀ m, DistinctIds (moment ctx store inputs m).live) ∧
    ∀ n, SettledAt ctx store inputs n →
      Shows ((moment ctx store inputs n).bus.foldl InspectorApp.apply .new).table
        (moment ctx store inputs n).live ∧
      ∀ m ≤ n, ∀ t ≤ (moment ctx store inputs m).bus.length, ∀ (app : InspectorApp F) conns,
        conns.Perm (moment ctx store inputs m).live.snapshot →
        Shows (((moment ctx store inputs n).bus.drop t).foldl InspectorApp.apply
          (app.setSnapshot conns)).table (moment ctx store inputs n).live := by
  have hstart := logged_start ctx store
  have hpub := publishes_actsOf hstart inputs
  refine ⟨fun m k dto hm => hpub.continues hm, ?_, fun m => ?_, fun n hn => ⟨?_, ?_⟩⟩
  · have hend := (hpub.announced hstart.announced).ordered
    rw [← shared_steps hstart, ← runWorker_eq] at hend
    exact hend
  · obtain ⟨owed, ho⟩ := hpub.moment hstart.announced m
    exact ho.distinct
  · exact hpub.shows_new hstart.announced hn
  · intro m hmn t ht app conns hconns
    exact hpub.shows_snapshot hstart.announced hmn hn ht app hconns

/-- A packet of a connection. -/
def sampleOpen : Recv :=
  .packet (tcpPacket 0 60 0x0a000002 40000 0x0a000009 443 sampleFlags) (sampleEnv none)

/-- The answer that resets it. -/
def sampleReset : Recv :=
  .packet (tcpPacket 2000000 60 0x0a000009 443 0x0a000002 40000 { sampleFlags with rst := true })
    (sampleEnv none)

/-- A flow is opened, another one follows, and the first one is reset. -/
def streamSample : List Recv :=
  [sampleOpen, .packet (udpPacket 1000000 90 0x0a000002 5353 0x0a000009 53) (sampleEnv none),
    sampleReset]

def sampleMoment (m : ℕ) : Shared ℚ :=
  moment (sampleCtx {.v4 0x0a000002}) Store.openNew streamSample m

/-- A snapshot taken while the event of the reset flow's last change is still owed, and the log from
its second event on. -/
theorem stream_sample :
    Shows (((sampleMoment 8).bus.drop 1).foldl InspectorApp.apply
        (InspectorApp.new.setSnapshot (sampleMoment 5).live.snapshot)).table (sampleMoment 8).live ∧
      (sampleMoment 5).live.keys.length = 2 ∧ (sampleMoment 8).live.keys.length = 1 ∧
      (sampleMoment 8).bus.length = 4 := by
  have hsettled : SettledAt (sampleCtx {.v4 0x0a000002}) Store.openNew streamSample 8 := by
    unfold SettledAt Settled
    decide
  have hlog := stream_is_faithful_log (sampleCtx {.v4 0x0a000002}) Store.openNew streamSample
  refine ⟨(hlog.2.2.2 8 hsettled).2 5 (by decide) 1 ?_ .new _ (List.Perm.refl _), ?_, ?_, ?_⟩
  · change 1 ≤ (sampleMoment 5).bus.length
    decide
  · decide
  · decide
  · decide

end Run

end Pktscope.Worker

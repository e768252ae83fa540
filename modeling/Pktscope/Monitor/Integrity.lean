import Pktscope.Alert.Verdict
import Pktscope.Monitor.Correlate
import Pktscope.Store.Integrity

/-! # The integrity of the daemon's database

Every store that daemon runs and retention sweeps can leave behind, whatever
fails on the way, meets the constraints of its schema: the foreign keys that the
database enforces never refuse a statement of the worker.
-/

namespace Pktscope

open Library Library.Prog Library.Sql Library.Stage Store

variable {F : Type}

namespace AlertEngine

section Stages

variable {s : Store F} {cfg : AlertConfig F} {ev : FlowEvent} {sub : Subject}

/-- An intact store with the rows of the subject of an event. -/
abbrev Seated (sub : Subject) : Store F → Prop := Seats sub.pidRow sub.destId

/-- What every alert of a subject refers to. -/
structure Names (sub : Subject) (a : Alert F) : Prop where
  process : a.processId = some sub.pidRow
  dest : a.destId = some sub.destId

theorem names_alertOf (kind : AlertKind) (severity : Severity) (key title : String)
    (detail : List (String × Json F)) : Names sub (alertOf ev sub kind severity key title detail) :=
  ⟨rfl, rfl⟩

theorem emit_if_seated {a : Alert F} (ha : Names sub a) (h : Seated sub s) (c : Bool) :
    (if c = true then emit cfg [] a else pure [] : StoreM F (List (Alert F))).Holds (Seated sub)
      (fun _ => Seated sub) s := by
  cases c with
  | false => exact ⟨h, h⟩
  | true =>
    refine (holds_bind _ _ _).mpr ?_
    refine (insertAlert_seats h ha.process ha.dest _).mono (fun _ => id) fun id t ht => ?_
    cases id <;> exact ⟨ht, ht⟩

theorem identityChange_seated (h : Seated sub s) :
    (identityChange cfg ev sub []).Holds (Seated sub) (fun _ => Seated sub) s := by
  unfold identityChange
  cases ev.identity with
  | none => exact ⟨h, h⟩
  | some ident =>
    refine (holds_bind _ _ _).mpr ⟨h, h, (holds_bind _ _ _).mpr ?_⟩
    refine (recordIdentity_seats h ident ev.ts).mono (fun _ => id) fun _ t ht => ?_
    beta_reduce
    cases findIdentity s sub.pidRow with
    | none => exact ⟨ht, ht⟩
    | some base => exact emit_if_seated (names_alertOf _ _ _ _ _) ht _

theorem newProcessDest_seated (h : Seated sub s) :
    (newProcessDest cfg ev sub []).Holds (Seated sub) (fun _ => Seated sub) s := by
  have hlabel : Seated sub { s with
      labels := insertOrIgnore LabelRow.key ⟨sub.pidRow, ev.stableLabel, ev.ts⟩ s.labels } :=
    ⟨h.intact.addLabel h.process, h.process, h.dest⟩
  refine (holds_bind _ _ _).mpr ⟨h, hlabel, (holds_bind _ _ _).mpr ?_⟩
  refine (touchPair_seats hlabel ev.ts).mono (fun _ => id) fun _ t ht => ?_
  exact emit_if_seated (names_alertOf _ _ _ _ _) ht _

theorem newCountry_seated (h : Seated sub s) :
    (newCountry cfg ev sub []).Holds (Seated sub) (fun _ => Seated sub) s := by
  unfold newCountry
  cases ev.geo.country with
  | none => exact ⟨h, h⟩
  | some cc =>
    have ht : Seated sub { s with
        countries := insertOrIgnore CountryRow.key ⟨sub.pidRow, cc, ev.ts⟩ s.countries } :=
      ⟨h.intact.addCountry h.process, h.process, h.dest⟩
    refine (holds_bind _ _ _).mpr ⟨h, ht, ?_⟩
    exact emit_if_seated (names_alertOf _ _ _ _ _) ht _

theorem newAsn_seated (h : Seated sub s) :
    (newAsn cfg ev sub []).Holds (Seated sub) (fun _ => Seated sub) s := by
  unfold newAsn
  cases ev.geo.asn with
  | none => exact ⟨h, h⟩
  | some asn =>
    have ht : Seated sub { s with
        asns := insertOrIgnore AsnRow.key ⟨sub.pidRow, asn, ev.geo.asOrg, ev.ts⟩ s.asns } :=
      ⟨h.intact.addAsn h.process, h.process, h.dest⟩
    refine (holds_bind _ _ _).mpr ⟨h, ht, ?_⟩
    exact emit_if_seated (names_alertOf _ _ _ _ _) ht _

theorem volumeSpike_seated [F64 F] (h : Seated sub s) :
    (volumeSpike cfg ev sub []).Holds (Seated sub) (fun _ => Seated sub) s := by
  let r := Baseline.accumulate cfg (s.volumes.lookup sub.pidRow) ev.bytesUp ev.ts
  have ht : Seated sub { s with volumes := s.volumes.insert sub.pidRow r.1 } :=
    ⟨h.intact.setVolume h.process _, h.process, h.dest⟩
  refine (holds_bind _ _ _).mpr (Holds.mono (Q := fun _ => Seated sub) ⟨h, h, ht, ht⟩
    (fun _ => id) fun sample u hu => ?_)
  cases sample with
  | none => exact ⟨hu, hu⟩
  | some sample => exact emit_if_seated (names_alertOf _ _ _ _ _) hu _

theorem signals_seated [F64 F] (wasNew : Bool) (h : Seated sub s) :
    (signals cfg ev sub wasNew).Holds (Seated sub) (fun _ => Seated sub) s := by
  rw [signals_eq]
  refine holds_runAll (fun p hp t ht => ?_) h
  obtain ⟨k, -, rfl⟩ := List.mem_map.mp hp
  cases k with
  | egress => exact emit_if_seated (names_alertOf _ _ _ _ _) ht _
  | identity => exact identityChange_seated ht
  | dest => exact newProcessDest_seated ht
  | country => exact newCountry_seated ht
  | network => exact newAsn_seated ht
  | volume => exact volumeSpike_seated ht

end Stages

section Evaluation

variable {s : Store F} {cfg : AlertConfig F} {ev : FlowEvent}

theorem ensureStarted_intact (nowMs : ℤ) :
    Keeps (Intact (F := F)) (Baseline.ensureStarted cfg nowMs) :=
  Baseline.ensureStarted_keeps cfg nowMs fun s x =>
    propext ⟨fun h => h.withMeta s.metaRows, fun h => h.withMeta x⟩

theorem recordObserved_holds {destId : ℕ} (h : Intact s ∧ destId ∈ s.destIds) :
    (recordObserved ev).Holds Intact (fun _ t => Intact t ∧ destId ∈ t.destIds) s := by
  unfold recordObserved
  cases ev.name with
  | none => exact ⟨h.1, h⟩
  | some name =>
    have ht := h.1.addName ⟨ev.destIp.display, name, "obs", ev.ts⟩
    exact ⟨h.1, ht, ht, h.2⟩

theorem prepare_intact (h : Intact s) :
    (prepare cfg ev).Holds Intact (fun r t => Intact t ∧ r.2 ∈ t.destIds) s := by
  refine (holds_bind _ _ _).mpr ?_
  refine ((ensureStarted_intact ev.ts).holds s).mono (fun t ht => ht ▸ h) fun _ t ht => ?_
  refine (holds_bind _ _ _).mpr ?_
  refine (upsertDestination_intact (ht ▸ h) _ _ _ _).mono (fun _ => id) fun destId u hu => ?_
  refine (holds_bind _ _ _).mpr ?_
  exact (recordObserved_holds hu).mono (fun _ => id) fun _ v hv => ⟨hv.1, hv⟩

theorem prepare_extends : (prepare cfg ev).Within Extends :=
  within_bind (extends_of_keeps (Baseline.ensureStarted_keeps cfg ev.ts fun _ _ => rfl)) fun _ =>
    within_bind (upsertDestination_extends _ _ _ _) fun _ =>
      within_bind (extends_of_keeps (recordObserved_keeps fun _ _ => rfl)) fun _ => trivial

/-- No evaluation takes a process or a destination away. -/
theorem evaluateFull_extends [F64 F] (cfg : AlertConfig F) (ev : FlowEvent) :
    (evaluateFull cfg ev).Within Extends := by
  cases hp : ev.proc with
  | none =>
    rw [evaluateFull_of_none cfg ev hp]
    exact within_bind prepare_extends fun _ => trivial
  | some p =>
    rw [evaluateFull_of_proc cfg ev hp]
    refine within_bind (within_bind prepare_extends fun _ =>
      within_bind (upsertProcess_extends _ _ _) fun _ => trivial) fun r => ?_
    refine within_bind (extends_of_keeps (signals_keeps (fun k => ?_) fun _ _ => rfl)) fun _ => trivial
    cases k with
    | identity =>
      refine ⟨fun s id => ?_, fun _ _ => rfl⟩
      exact congrArg₂ Prod.mk (processIds_update s _ fun _ => rfl) rfl
    | dest => exact ⟨fun _ _ => rfl, fun _ _ => rfl⟩
    | _ => first | exact trivial | exact fun _ _ => rfl

/-- The rows that a successful evaluation hands out. -/
structure Housed (o : EvalOutcome F) (s : Store F) : Prop where
  process : ∀ i ∈ o.processId, i ∈ s.processIds
  dest : o.destId ∈ s.destIds

/-- Evaluations keep the store intact, wherever they fail, and hand out rows that are there. -/
theorem evaluateFull_intact [F64 F] (cfg : AlertConfig F) (ev : FlowEvent) (h : Intact s) :
    (evaluateFull cfg ev).Holds Intact (fun o t => Intact t ∧ Housed o t) s := by
  cases hp : ev.proc with
  | none =>
    rw [evaluateFull_of_none cfg ev hp, holds_bind]
    refine (prepare_intact h).mono (fun _ => id) fun r t ht => ?_
    exact ⟨ht.1, ht.1, fun i hi => (nomatch hi), ht.2⟩
  | some p =>
    rw [evaluateFull_of_proc cfg ev hp, holds_bind, setup, holds_bind]
    refine (prepare_intact h).mono (fun _ => id) fun r t ht => ?_
    have hext := (upsertProcess_extends (F := F) p.exe p.name ev.ts).holds t
    rw [holds_bind]
    refine ((upsertProcess_intact ht.1 p.exe p.name ev.ts).and hext).mono (fun _ hu => hu.1)
      fun up u hu => ?_
    have hs : Seated { active := decide (r.1 = .active), proc := p, pidRow := up.id, destId := r.2 }
        u := ⟨hu.1.1, hu.1.2, hu.2.dests ht.2⟩
    refine ⟨hs.intact, (holds_bind _ _ _).mpr ?_⟩
    refine (signals_seated up.wasNew hs).mono (fun _ hv => hv.intact) fun _ v hv => ?_
    exact ⟨hv.intact, hv.intact, fun i hi => Option.some.inj hi ▸ hv.process, hv.dest⟩

end Evaluation

end AlertEngine

namespace Worker

open AlertEngine

/-- The rows that the bookkeeping of a flow names are there. -/
structure Known (s : Store F) (fm : FlowMeta) : Prop where
  process : ∀ i ∈ fm.processId, i ∈ s.processIds
  dest : ∀ i ∈ fm.destId, i ∈ s.destIds

/-- An intact store under bookkeeping that names rows of it. -/
structure Grounded (w : Worker F) : Prop where
  intact : Intact w.store
  metas : ∀ k, ∀ fm ∈ w.metas.lookup k, Known w.store fm

section Step

variable {w : Worker F} {s t : Store F} {fm : FlowMeta}

theorem Known.extend (h : Known s fm) (hg : Extends s t) : Known t fm :=
  ⟨fun i hi => hg.processes (h.process i hi), fun i hi => hg.dests (h.dest i hi)⟩

theorem known_openMeta (v : Visit) (nextId : ℕ) {found : Option FlowMeta}
    (h : ∀ fm ∈ found, Known s fm) : Known s (v.openMeta nextId found) := by
  cases found with
  | none => exact ⟨fun i hi => (nomatch hi), fun i hi => (nomatch hi)⟩
  | some fm => exact h fm rfl

theorem known_noteOutcome (h : Known s fm) {outcome : Option (EvalOutcome F)}
    (ho : ∀ o ∈ outcome, Housed o s) : Known s (noteOutcome fm outcome) := by
  cases outcome with
  | none => exact h
  | some o =>
    have hh := ho o rfl
    exact ⟨hh.process, fun i hi => Option.some.inj hi ▸ hh.dest⟩

variable [F64 F] (ctx : WorkerCtx F)

/-- A failed evaluation leaves partial writes, but none that breaks a constraint. -/
theorem Grounded.handleUpdate (h : Grounded w) (env : Env) (upd : FlowUpdate) (tsMs : ℤ) :
    Grounded (handleUpdate ctx env w upd tsMs) := by
  let v := visitOf ctx env w.resolver upd tsMs
  let fm := v.openMeta w.nextId (w.metas.lookup v.key)
  let p := evaluateFull ctx.cfg (v.event fm.outbound)
  have hp := evaluateFull_intact ctx.cfg (v.event fm.outbound) h.intact
  have hext : Extends w.store (p.attempt env.evalFault w.store).2 :=
    ((evaluateFull_extends ctx.cfg (v.event fm.outbound)).holds w.store).attempt env.evalFault
  have hhoused : ∀ o ∈ (p.attempt env.evalFault w.store).1,
      Housed o (p.attempt env.evalFault w.store).2 := by
    rintro o ho
    obtain ⟨rfl, hs⟩ := attempt_eq_run ho
    exact hs ▸ hp.run.2.2
  refine ⟨hp.attempt env.evalFault, ?_⟩
  rintro k fm' hk
  change fm' ∈ (w.metas.insert v.key _).lookup k at hk
  rcases eq_or_ne k v.key with rfl | hne
  · rw [AList.lookup_insert, Option.mem_some_iff] at hk
    subst hk
    exact known_noteOutcome ((known_openMeta v _ (h.metas v.key)).extend hext) hhoused
  · rw [AList.lookup_insert_ne hne] at hk
    exact (h.metas k fm' hk).extend hext

omit [F64 F] in
theorem Grounded.persistClosed (h : Grounded w) (insertFails : Bool) (snap : FlowStatsSnapshot F) :
    Grounded (persistClosed insertFails w snap) := by
  have hprocess : ∀ i ∈ (w.closedRow snap).processId, i ∈ w.store.processIds := by
    rintro i hi
    obtain ⟨fm, hfm, hi⟩ := Option.bind_eq_some_iff.mp hi
    exact (h.metas snap.key fm hfm).process i hi
  have hdest : ∀ i ∈ (w.closedRow snap).destId, i ∈ w.store.destIds := by
    rintro i hi
    obtain ⟨fm, hfm, hi⟩ := Option.bind_eq_some_iff.mp hi
    exact (h.metas snap.key fm hfm).dest i hi
  have hins := insertConnection_intact h.intact hprocess hdest
  have hext : (insertConnection (w.closedRow snap) : StoreM F ℕ).Within Extends :=
    extends_of_keeps (keeps_exec fun _ => rfl)
  refine ⟨hins.attempt _, ?_⟩
  rintro k fm hk
  rcases eq_or_ne k snap.key with rfl | hne
  · rw [Worker.persistClosed, AList.lookup_erase] at hk
    cases hk
  · rw [Worker.persistClosed, AList.lookup_erase_ne hne] at hk
    exact (h.metas k fm hk).extend ((hext.holds w.store).attempt _)

omit [F64 F] in
theorem Grounded.drain (h : Grounded w) (insertFails : Bool) : Grounded (drain insertFails w) := by
  unfold Worker.drain
  split
  · rename_i snaps _
    exact List.foldlRecOn snaps _ (motive := Grounded) ⟨h.intact, h.metas⟩
      fun w hw snap _ => hw.persistClosed insertFails snap
  · exact h

theorem Grounded.receive (h : Grounded w) (pkt : DecodedPacket) (env : Env) :
    Grounded (receive ctx pkt env w) := by
  unfold Worker.receive
  dsimp only
  obtain ⟨tracker, pkt', upd⟩ := w.tracker.update pkt
  have hw : Grounded { w with resolver := (w.resolver.observePacket pkt).1, tracker } :=
    ⟨h.intact, h.metas⟩
  cases upd with
  | none => exact hw
  | some upd => exact hw.handleUpdate ctx env upd _

theorem Grounded.step (h : Grounded w) (input : Recv) : Grounded (step ctx w input) := by
  cases input with
  | timeout nowMs => exact ⟨h.intact, h.metas⟩
  | packet pkt env =>
    exact (h.receive ctx pkt env).drain env.insertFails

theorem Grounded.steps (h : Grounded w) (inputs : List Recv) : Grounded (steps ctx w inputs) :=
  List.foldlRecOn inputs _ (motive := Grounded) h fun _ hw input _ => hw.step ctx input

omit [F64 F] in
theorem grounded_start (h : Intact s) : Grounded (start ctx s) :=
  ⟨h, fun _ _ hk => nomatch hk⟩

end Step

section Sessions

variable [F64 F]

/-- What happens to the database file: a run of the daemon, or a retention sweep. -/
inductive Session (F : Type) where
  | daemon (ctx : WorkerCtx F) (inputs : List Recv)
  | sweep (beforeMs : ℤ) (fault : Option ℕ)

def Session.apply (s : Store F) : Session F → Store F
  | daemon ctx inputs => (runWorker ctx s inputs).store
  | sweep beforeMs fault => ((deleteOlderThan beforeMs).attempt fault s).2

/-- The database after some sessions on a new file. -/
def storeAfterSessions (sessions : List (Session F)) : Store F :=
  sessions.foldl Session.apply openNew

theorem Session.apply_intact {s : Store F} (h : Intact s) (session : Session F) :
    Intact (session.apply s) := by
  cases session with
  | daemon ctx inputs => exact (((grounded_start ctx h).steps ctx inputs).drain false).intact
  | sweep beforeMs fault => exact (deleteOlderThan_intact h beforeMs).attempt fault

theorem intact_storeAfterSessions (sessions : List (Session F)) :
    Intact (storeAfterSessions sessions) :=
  List.foldlRecOn sessions _ (motive := Intact) intact_openNew
    fun _ hs session _ => session.apply_intact hs

/-- At every turn of a daemon, after any earlier sessions and through any failures, the store
meets its constraints, and so does the bookkeeping that the next history row is made from. -/
theorem steps_grounded (sessions : List (Session F)) (ctx : WorkerCtx F) (inputs : List Recv) :
    Grounded (steps ctx (start ctx (storeAfterSessions sessions)) inputs) :=
  (grounded_start ctx (intact_storeAfterSessions sessions)).steps ctx inputs

end Sessions

end Worker

end Pktscope

import Pktscope.Alert.FirstContact

/-! # What a store never forgets

No statement of an evaluation takes back a record: what a process has once been
seen with stays known, also where evaluations fail on their way.
-/

namespace Pktscope.AlertEngine

open Library Library.Prog Library.Sql Library.Stage Store

variable {F : Type}

/-- The second store has all records of the first one. -/
structure Retains (s t : Store F) : Prop where
  ids : ∀ exe i, idOf s exe = some i → idOf t exe = some i
  entries : ∀ e : Entry, e.present s = true → e.present t = true

instance : Std.Refl (Retains (F := F)) := ⟨fun _ => ⟨fun _ _ => id, fun _ => id⟩⟩

instance : IsTrans (Store F) Retains :=
  ⟨fun _ _ _ h h' => ⟨fun exe i hi => h'.ids exe i (h.ids exe i hi),
    fun e he => h'.entries e (h.entries e he)⟩⟩

section Steps

variable {s t : Store F}

theorem Retains.knows (h : Retains s t) {x : Novelty} (hx : knows s x = true) :
    AlertEngine.knows t x = true := by
  obtain ⟨i, hi, he⟩ := knows_iff.mp hx
  exact knows_iff.mpr ⟨i, h.ids _ _ hi, h.entries _ he⟩

theorem SameRecords.retains (h : SameRecords s t) : Retains s t :=
  ⟨fun exe _ hi => (h.idOf exe).trans hi, fun e he => (h.present e).trans he⟩

theorem Gains.retains {e₀ : Entry} (h : Gains e₀ s t) : Retains s t where
  ids _ _ hi := by rw [idOf_eq, h.procs, ← idOf_eq, hi]
  entries e he := (h.present e).mpr (Or.inl he)

/-- The tables that a record is read from. -/
def recordTables (s : Store F) : List (ℕ × String) × List LabelRow × List CountryRow × List AsnRow :=
  (procKeys s, s.labels, s.countries, s.asns)

theorem sameRecords_iff : SameRecords s t ↔ recordTables t = recordTables s := by
  constructor
  · intro h
    rw [recordTables, h.procs, h.labels, h.countries, h.asns]
    rfl
  · intro h
    simp only [recordTables, Prod.mk.injEq] at h
    exact ⟨h.1, h.2.1, h.2.2.1, h.2.2.2⟩

theorem retains_of_keeps {α : Type} {q : StoreM F α} (h : Keeps recordTables q) : q.Within Retains :=
  h.mono fun _ _ ht => (sameRecords_iff.mpr ht).retains

end Steps

section Evaluation

variable {cfg : AlertConfig F} {ev : FlowEvent} {sub : Subject}

theorem emit_if_keeps_records {a : Alert F} (c : Bool) :
    Keeps recordTables (if c = true then emit cfg [] a else pure [] : StoreM F (List (Alert F))) := by
  cases c with
  | false => trivial
  | true => exact emit_keeps (fun _ => rfl) _ _

/-- A new process takes the place of none that is there. -/
theorem retains_addProcess (s : Store F) (r : ProcessRow) :
    Retains s { s with processes := s.processes ++ [r] } := by
  have hfind (exe : String) : findProcess { s with processes := s.processes ++ [r] } exe =
      (findProcess s exe).or (if r.exePath = exe then some r else none) :=
    select_append s.processes r exe
  constructor
  · intro exe i hi
    obtain ⟨q, hq, rfl⟩ := Option.map_eq_some_iff.mp hi
    rw [idOf, hfind, hq]
    rfl
  · intro e he
    cases e with
    | process exe =>
      obtain ⟨q, hq⟩ := Option.isSome_iff_exists.mp he
      rw [Entry.present, hfind, hq]
      rfl
    | _ => exact he

theorem upsertProcess_retains (exe name : String) (ts : ℤ) :
    (upsertProcess exe name ts : StoreM F _).Within Retains := by
  refine within_bind (within_query _) fun found => ?_
  cases found with
  | some id =>
    refine within_bind (within_exec fun s => ?_) fun _ => trivial
    exact SameRecords.retains ⟨procKeys_update s id fun _ => rfl, rfl, rfl, rfl⟩
  | none => exact within_bind (within_exec fun s => retains_addProcess s _) fun _ => trivial

/-- No stage takes back a record. -/
theorem stageProg_retains [F64 F] (wasNew : Bool) (k : Signal) :
    (stageProg cfg ev sub wasNew k).Within Retains := by
  cases k with
  | egress => exact retains_of_keeps (newProcessEgress_keeps (fun _ => rfl) _)
  | identity =>
    refine retains_of_keeps (identityChange_keeps (fun s _ => ?_) (fun _ _ => rfl) fun _ _ _ => rfl)
    exact sameRecords_iff.mp ⟨procKeys_update s _ fun _ => rfl, rfl, rfl, rfl⟩
  | dest =>
    refine within_bind (within_exec fun s => (gains_label s _ _ _).retains) fun _ => ?_
    refine within_bind (retains_of_keeps (touchPair_keeps (fun _ _ => rfl) _ _ _)) fun _ => ?_
    exact retains_of_keeps (emit_if_keeps_records _)
  | country =>
    rw [stageProg, newCountry]
    cases ev.geo.country with
    | none => trivial
    | some cc =>
      refine within_bind (within_exec fun s => (gains_country s _ _ _).retains) fun _ => ?_
      exact retains_of_keeps (emit_if_keeps_records _)
  | network =>
    rw [stageProg, newAsn]
    cases ev.geo.asn with
    | none => trivial
    | some asn =>
      refine within_bind (within_exec fun s => (gains_network s _ _ _ _).retains) fun _ => ?_
      exact retains_of_keeps (emit_if_keeps_records _)
  | volume => exact retains_of_keeps (volumeSpike_keeps (fun _ _ => rfl) fun _ _ => rfl)

theorem evaluateFull_retains [F64 F] (cfg : AlertConfig F) (ev : FlowEvent) :
    (evaluateFull cfg ev).Within Retains := by
  have hprepare : (prepare cfg ev).Within Retains :=
    retains_of_keeps (prepare_keeps cfg ev (fun _ _ => rfl) (fun _ _ => rfl) fun _ _ => rfl)
  cases hp : ev.proc with
  | none =>
    rw [evaluateFull_of_none cfg ev hp]
    exact within_bind hprepare fun _ => trivial
  | some p =>
    rw [evaluateFull_of_proc cfg ev hp]
    refine within_bind (within_bind hprepare fun _ =>
      within_bind (upsertProcess_retains _ _ _) fun _ => trivial) fun r => ?_
    refine within_bind ?_ fun _ => trivial
    rw [signals_eq]
    refine within_runAll fun q hq => ?_
    obtain ⟨k, -, rfl⟩ := List.mem_map.mp hq
    exact stageProg_retains r.2 k

theorem retains_attempt [F64 F] (cfg : AlertConfig F) (ev : FlowEvent) (fault : Option ℕ)
    (s : Store F) : Retains s ((evaluateFull cfg ev).attempt fault s).2 :=
  ((evaluateFull_retains cfg ev).holds s).attempt fault

end Evaluation

section Reached

/-- The stores that evaluations, history rows and sweeps can leave behind, wherever they fail. -/
inductive Reached [F64 F] : Store F → Prop where
  | openNew : Reached Store.openNew
  | evaluated {s : Store F} (cfg : AlertConfig F) (ev : FlowEvent) (fault : Option ℕ) (h : Reached s) :
    Reached ((evaluateFull cfg ev).attempt fault s).2
  | inserted {s : Store F} (row : ConnectionRow) (fault : Option ℕ) (h : Reached s) :
    Reached ((insertConnection row).attempt fault s).2
  | swept {s : Store F} (beforeMs : ℤ) (fault : Option ℕ) (h : Reached s) :
    Reached ((deleteOlderThan beforeMs).attempt fault s).2

theorem insertConnection_coherent (row : ConnectionRow) :
    Keeps Coherent (insertConnection row : StoreM F ℕ) :=
  keeps_exec fun _ => SameRecords.coherent_eq ⟨rfl, rfl, rfl, rfl⟩ rfl

theorem deleteOlderThan_coherent {s : Store F} (hs : Coherent s) (beforeMs : ℤ) :
    (deleteOlderThan beforeMs).Holds Coherent (fun _ => Coherent) s := by
  have hrows : SameRecords s { s with
      connections := s.connections.filter fun c => !decide (c.tsStartMs < beforeMs) } :=
    ⟨rfl, rfl, rfl, rfl⟩
  have hswept : SameRecords s { s with
      connections := s.connections.filter fun c => !decide (c.tsStartMs < beforeMs)
      alerts := s.alerts.filter fun a => !decide (a.tsMs < beforeMs) } := ⟨rfl, rfl, rfl, rfl⟩
  have hconn := hrows.coherent (fun _ hb => Or.inl hb) hs
  have halerts := hswept.coherent (fun _ hb => Or.inl (List.mem_filter.mp hb).1) hs
  exact ⟨hs, hconn, halerts, halerts⟩

theorem Reached.coherent [F64 F] {s : Store F} (h : Reached s) : Coherent s := by
  induction h with
  | openNew => exact coherent_openNew
  | evaluated cfg ev fault _ ih => exact (evaluateFull_coherent ih).attempt fault
  | @inserted s row fault _ ih =>
    have hkeep : Coherent _ = Coherent s := (insertConnection_coherent row).attempt fault s
    exact hkeep.mpr ih
  | swept beforeMs fault _ ih => exact (deleteOlderThan_coherent ih beforeMs).attempt fault

end Reached

end Pktscope.AlertEngine

import Pktscope.Alert.Verdict

/-! # Novelty

What the store has recorded of a process, and what an event brings that is new.
An alert about a novelty is stored after its record, so in every store that
evaluations can reach, with failing ones among them, the cooldown never holds
back an alert about something that is not yet recorded.
-/

namespace Pktscope.AlertEngine

open Library Library.Prog Library.Sql Library.Stage Store

variable {F : Type}

/-- What the store records of a process, by row id. -/
inductive Entry where
  | process (exe : String)
  | label (pidRow : ℕ) (text : String)
  | country (pidRow : ℕ) (code : String)
  | network (pidRow asn : ℕ)
  deriving DecidableEq

namespace Entry

/-- The cooldown key of the alert about an entry. -/
def key : Entry → String
  | process exe => egressKey exe
  | label pidRow text => destKey pidRow text
  | country pidRow code => countryKey pidRow code
  | network pidRow asn => asnKey pidRow asn

def signal : Entry → Signal
  | process _ => .egress
  | label _ _ => .dest
  | country _ _ => .country
  | network _ _ => .network

def present (s : Store F) : Entry → Bool
  | process exe => (findProcess s exe).isSome
  | label pidRow text => s.hasLabel pidRow text
  | country pidRow code => s.hasCountry pidRow code
  | network pidRow asn => s.hasAsn pidRow asn

/-- The row of the process that an entry belongs to. -/
def owner : Entry → Option ℕ
  | process _ => none
  | label pidRow _ | country pidRow _ | network pidRow _ => some pidRow

@[simp] theorem signalOf_key (e : Entry) : signalOf e.key = some e.signal := by
  cases e <;> simp [key, signal]

theorem key_inj {e e' : Entry} (h : e.key = e'.key) : e = e' := by
  have hs : e.signal = e'.signal := by
    have hk := congrArg signalOf h
    rwa [signalOf_key, signalOf_key, Option.some.injEq] at hk
  cases e <;> cases e' <;> try cases hs
  · rw [egressKey_inj h]
  · obtain ⟨rfl, rfl⟩ := destKey_inj h
    rfl
  · obtain ⟨rfl, rfl⟩ := countryKey_inj h
    rfl
  · obtain ⟨rfl, rfl⟩ := asnKey_inj h
    rfl

end Entry

/-- An alert with this key may be stored: what it is about is recorded. -/
def Recorded (s : Store F) (key : String) : Prop := ∀ e : Entry, key = e.key → e.present s = true

theorem recorded_key {s : Store F} {e : Entry} (h : e.present s = true) : Recorded s e.key :=
  fun _ he => Entry.key_inj he ▸ h

theorem recorded_of_signalOf {s : Store F} {key : String} {k : Signal}
    (hk : signalOf key = some k) (h : ∀ e : Entry, e.signal ≠ k) : Recorded s key := by
  rintro e rfl
  rw [Entry.signalOf_key, Option.some.injEq] at hk
  exact absurd hk (h e)

/-- The invariant of the stores that evaluations reach. -/
structure Coherent (s : Store F) : Prop where
  /-- Every stored alert is about something recorded. -/
  backed : ∀ a ∈ s.alerts, Recorded s a.dedupKey
  /-- Every entry belongs to a process. -/
  rooted : ∀ e : Entry, e.present s = true → ∀ i ∈ e.owner, ∃ r ∈ s.processes, r.id = i
  /-- Row ids tell processes apart. -/
  keyed : ∀ r ∈ s.processes, ∀ r' ∈ s.processes, r.id = r'.id → r.exePath = r'.exePath

theorem coherent_openNew : Coherent (Store.openNew : Store F) where
  backed _ ha := nomatch ha
  rooted e he := by cases e <;> cases he
  keyed _ hr := nomatch hr

theorem lastAlertTs_eq_none {s : Store F} {key : String} (h : ∀ a ∈ s.alerts, a.dedupKey ≠ key) :
    s.lastAlertTs key = none := by
  have hf : (s.alerts.filter fun a => decide (a.dedupKey = key)) = [] := by
    rw [List.filter_eq_nil_iff]
    exact fun a ha => by simpa using h a ha
  rw [lastAlertTs, hf]
  rfl

/-- Nothing that is not recorded is in its cooldown. -/
theorem Coherent.fire_eq {s : Store F} (h : Coherent s) (cfg : AlertConfig F) {e : Entry}
    (he : e.present s = false) {a : Alert F} (ha : a.dedupKey = e.key) : fire cfg s a = [a] := by
  have hn : s.lastAlertTs a.dedupKey = none := by
    refine lastAlertTs_eq_none fun b hb hk => ?_
    rw [h.backed b hb e (hk.trans ha)] at he
    cases he
  rw [fire, hn]
  rfl

/-- The row ids and executables of the process table. -/
def procKeys (s : Store F) : List (ℕ × String) := s.processes.map fun r => (r.id, r.exePath)

theorem procKeys_update (s : Store F) (i : ℕ) {g : ProcessRow → ProcessRow}
    (hg : ∀ r, ((g r).id, (g r).exePath) = (r.id, r.exePath)) :
    procKeys { s with processes := update ProcessRow.id i g s.processes } = procKeys s :=
  map_update hg s.processes i

/-- Two stores with the same records. -/
structure SameRecords (s t : Store F) : Prop where
  procs : procKeys t = procKeys s
  labels : t.labels = s.labels
  countries : t.countries = s.countries
  asns : t.asns = s.asns

theorem findProcess_isSome {s : Store F} {exe : String} :
    (findProcess s exe).isSome ↔ exe ∈ (procKeys s).map Prod.snd := by
  rw [findProcess, select_isSome_map, procKeys, List.map_map]
  rfl

theorem exists_row_iff {s : Store F} {i : ℕ} :
    (∃ r ∈ s.processes, r.id = i) ↔ i ∈ (procKeys s).map Prod.fst := by
  rw [procKeys, List.map_map, List.mem_map]
  rfl

theorem keyed_iff {s : Store F} :
    (∀ r ∈ s.processes, ∀ r' ∈ s.processes, r.id = r'.id → r.exePath = r'.exePath) ↔
      ∀ p ∈ procKeys s, ∀ q ∈ procKeys s, p.1 = q.1 → p.2 = q.2 := by
  simp only [procKeys, List.forall_mem_map]

section SameRecords

variable {s t : Store F}

theorem SameRecords.present (h : SameRecords s t) (e : Entry) : e.present t = e.present s := by
  cases e with
  | process exe => exact Bool.eq_iff_iff.mpr (by
      rw [Entry.present, Entry.present, findProcess_isSome, findProcess_isSome, h.procs])
  | label pidRow text => rw [Entry.present, Entry.present, hasLabel, hasLabel, h.labels]
  | country pidRow code => rw [Entry.present, Entry.present, hasCountry, hasCountry, h.countries]
  | network pidRow asn => rw [Entry.present, Entry.present, hasAsn, hasAsn, h.asns]

theorem SameRecords.recorded (h : SameRecords s t) (key : String) :
    Recorded t key ↔ Recorded s key := by
  simp only [Recorded, h.present]

theorem SameRecords.symm (h : SameRecords s t) : SameRecords t s :=
  ⟨h.procs.symm, h.labels.symm, h.countries.symm, h.asns.symm⟩

/-- Only the records and the keys of the alerts matter. -/
theorem SameRecords.coherent (h : SameRecords s t)
    (ha : ∀ b ∈ t.alerts, b ∈ s.alerts ∨ Recorded s b.dedupKey) (hs : Coherent s) :
    Coherent t where
  backed b hb := (h.recorded _).mpr ((ha b hb).elim (hs.backed b) id)
  rooted e he i hi := by
    rw [exists_row_iff, h.procs, ← exists_row_iff]
    exact hs.rooted e (h.present e ▸ he) i hi
  keyed := by
    rw [keyed_iff, h.procs, ← keyed_iff]
    exact hs.keyed

end SameRecords

/-- The detectors run on a coherent store that has the row of their process. -/
structure Ready (sub : Subject) (s : Store F) : Prop where
  coherent : Coherent s
  known : (findProcess s sub.proc.exe).isSome
  rowed : ∃ r ∈ s.processes, r.id = sub.pidRow

section Ready

variable {sub : Subject} {s t : Store F} {cfg : AlertConfig F} {ev : FlowEvent}
  {out : List (Alert F)}

theorem Ready.of_procs (hs : Ready sub s) (h : procKeys t = procKeys s) (hc : Coherent t) :
    Ready sub t where
  coherent := hc
  known := by
    rw [findProcess_isSome, h, ← findProcess_isSome]
    exact hs.known
  rowed := by
    rw [exists_row_iff, h, ← exists_row_iff]
    exact hs.rowed

theorem SameRecords.ready (h : SameRecords s t)
    (ha : ∀ b ∈ t.alerts, b ∈ s.alerts ∨ Recorded s b.dedupKey) (hs : Ready sub s) :
    Ready sub t :=
  hs.of_procs h.procs (h.coherent ha hs.coherent)

theorem SameRecords.ready_eq (h : SameRecords s t) (ha : t.alerts = s.alerts) :
    Ready sub t = Ready sub s :=
  propext ⟨h.symm.ready fun _ hb => Or.inl (ha ▸ hb), h.ready fun _ hb => Or.inl (ha ▸ hb)⟩

theorem SameRecords.coherent_eq (h : SameRecords s t) (ha : t.alerts = s.alerts) :
    Coherent t = Coherent s :=
  propext ⟨h.symm.coherent fun _ hb => Or.inl (ha ▸ hb), h.coherent fun _ hb => Or.inl (ha ▸ hb)⟩

theorem ready_alert {a : Alert F} (hr : Recorded s a.dedupKey) (hs : Ready sub s) :
    Ready sub { s with alerts := s.alerts ++ [s.alertRow a] } := by
  have h : SameRecords s { s with alerts := s.alerts ++ [s.alertRow a] } := ⟨rfl, rfl, rfl, rfl⟩
  refine h.ready (fun b hb => ?_) hs
  rcases List.mem_append.mp hb with hb | hb
  · exact Or.inl hb
  · rw [List.mem_singleton.mp hb]
    exact Or.inr hr

theorem emit_ready {a : Alert F} (hr : Recorded s a.dedupKey) (hs : Ready sub s) :
    (emit cfg out a).Holds (Ready sub) (fun _ => Ready sub) s := by
  unfold emit insertAlert
  rw [holds_bind, holds_bind, holds_query]
  refine ⟨hs, hs, ?_⟩
  split
  · exact ⟨hs, hs, hs⟩
  · have ha := ready_alert hr hs
    exact ⟨hs, ha, ha, ha⟩

theorem emit_if_ready {a : Alert F} (hr : Recorded s a.dedupKey) (hs : Ready sub s) (c : Bool) :
    (if c = true then emit cfg out a else pure out : StoreM F (List (Alert F))).Holds (Ready sub)
      (fun _ => Ready sub) s := by
  cases c with
  | false => exact ⟨hs, hs⟩
  | true => exact emit_ready hr hs

theorem ignores_ready {a : Alert F} {k : Signal} (hk : signalOf a.dedupKey = some k)
    (h : ∀ e : Entry, e.signal ≠ k) : Ignores (Ready sub) a := by
  intro s
  have hr : SameRecords { s with alerts := s.alerts ++ [s.alertRow a] } s := ⟨rfl, rfl, rfl, rfl⟩
  refine propext ⟨fun ht => ?_, ready_alert (recorded_of_signalOf hk h)⟩
  exact hr.ready (fun b hb => Or.inl (List.mem_append_left _ hb)) ht

theorem identityChange_ready : Keeps (Ready sub) (identityChange cfg ev sub out) := by
  refine identityChange_keeps (fun s id => ?_) (fun s x => ?_) fun base i => ?_
  · exact SameRecords.ready_eq ⟨procKeys_update s _ fun _ => rfl, rfl, rfl, rfl⟩ rfl
  · exact SameRecords.ready_eq ⟨rfl, rfl, rfl, rfl⟩ rfl
  · exact ignores_ready (signalOf_identityAlert ev sub base i)
      fun e he => by cases e <;> cases he

theorem volumeSpike_ready [F64 F] : Keeps (Ready sub) (volumeSpike cfg ev sub out) := by
  refine volumeSpike_keeps (fun s x => SameRecords.ready_eq ⟨rfl, rfl, rfl, rfl⟩ rfl)
    fun sample => ?_
  exact ignores_ready (signalOf_volumeAlert ev sub sample)
    fun e he => by cases e <;> cases he

/-- The store gains one entry. -/
structure Gains (e₀ : Entry) (s t : Store F) : Prop where
  procs : procKeys t = procKeys s
  alerts : t.alerts = s.alerts
  present : ∀ e : Entry, e.present t = true ↔ e.present s = true ∨ e = e₀

theorem gains_label (s : Store F) (pidRow : ℕ) (text : String) (ts : ℤ) :
    Gains (.label pidRow text) s { s with
      labels := insertOrIgnore LabelRow.key ⟨pidRow, text, ts⟩ s.labels } where
  procs := rfl
  alerts := rfl
  present e := by
    cases e with
    | label i l =>
      simp only [Entry.present, hasLabel, select_insertOrIgnore, LabelRow.key, Entry.label.injEq,
        Prod.mk.injEq]
      rw [eq_comm (a := pidRow), eq_comm (a := text)]
    | _ => simp only [Entry.present, reduceCtorEq, or_false]; rfl

theorem gains_country (s : Store F) (pidRow : ℕ) (code : String) (ts : ℤ) :
    Gains (.country pidRow code) s { s with
      countries := insertOrIgnore CountryRow.key ⟨pidRow, code, ts⟩ s.countries } where
  procs := rfl
  alerts := rfl
  present e := by
    cases e with
    | country i c =>
      simp only [Entry.present, hasCountry, select_insertOrIgnore, CountryRow.key,
        Entry.country.injEq, Prod.mk.injEq]
      rw [eq_comm (a := pidRow), eq_comm (a := code)]
    | _ => simp only [Entry.present, reduceCtorEq, or_false]; rfl

theorem gains_network (s : Store F) (pidRow asn : ℕ) (asOrg : Option String) (ts : ℤ) :
    Gains (.network pidRow asn) s { s with
      asns := insertOrIgnore AsnRow.key ⟨pidRow, asn, asOrg, ts⟩ s.asns } where
  procs := rfl
  alerts := rfl
  present e := by
    cases e with
    | network i n =>
      simp only [Entry.present, hasAsn, select_insertOrIgnore, AsnRow.key, Entry.network.injEq,
        Prod.mk.injEq]
      rw [eq_comm (a := pidRow), eq_comm (a := asn)]
    | _ => simp only [Entry.present, reduceCtorEq, or_false]; rfl

theorem Gains.ready {e₀ : Entry} (h : Gains e₀ s t) (ho : ∀ i ∈ e₀.owner, i = sub.pidRow)
    (hs : Ready sub s) : Ready sub t :=
  hs.of_procs h.procs {
    backed := fun b hb e he => (h.present e).mpr
      (Or.inl (hs.coherent.backed b (h.alerts ▸ hb) e he))
    rooted := fun e he i hi => by
      rw [exists_row_iff, h.procs, ← exists_row_iff]
      rcases (h.present e).mp he with he | rfl
      · exact hs.coherent.rooted e he i hi
      · rw [ho i hi]
        exact hs.rowed
    keyed := by
      rw [keyed_iff, h.procs, ← keyed_iff]
      exact hs.coherent.keyed }

theorem Gains.self {e₀ : Entry} (h : Gains e₀ s t) : e₀.present t = true :=
  (h.present e₀).mpr (Or.inr rfl)

theorem newProcessEgress_ready (wasNew : Bool) (hs : Ready sub s) :
    (newProcessEgress cfg ev sub wasNew out).Holds (Ready sub) (fun _ => Ready sub) s :=
  emit_if_ready (a := egressAlert ev sub) (recorded_key (e := .process sub.proc.exe) hs.known) hs _

theorem newProcessDest_ready (hs : Ready sub s) :
    (newProcessDest cfg ev sub out).Holds (Ready sub) (fun _ => Ready sub) s := by
  have hg := gains_label s sub.pidRow ev.stableLabel ev.ts
  have ht : Ready sub _ := hg.ready (fun i hi => (Option.some.inj hi).symm) hs
  have hr : Recorded _ (destAlert ev sub : Alert F).dedupKey := recorded_key hg.self
  unfold newProcessDest noteLabel
  rw [holds_bind, holds_exec]
  refine ⟨hs, ht, ?_⟩
  rw [holds_bind]
  have hk : Keeps (fun s : Store F => Ready sub s ∧ Recorded s (destAlert ev sub : Alert F).dedupKey)
      (touchPair sub.pidRow sub.destId ev.ts) := by
    refine touchPair_keeps (fun s x => ?_) _ _ _
    have h : SameRecords s { s with pairs := x } := ⟨rfl, rfl, rfl, rfl⟩
    exact congrArg₂ And (h.ready_eq rfl) (propext (h.recorded _))
  refine (hk.holds _).mono (fun u hu => (hu ▸ (⟨ht, hr⟩ : _ ∧ _)).1) fun _ u hu => ?_
  obtain ⟨hu, hur⟩ := hu ▸ (⟨ht, hr⟩ : _ ∧ _)
  exact emit_if_ready hur hu _

theorem newCountry_ready (hs : Ready sub s) :
    (newCountry cfg ev sub out).Holds (Ready sub) (fun _ => Ready sub) s := by
  unfold newCountry noteCountry
  cases ev.geo.country with
  | none => exact ⟨hs, hs⟩
  | some cc =>
    have hg := gains_country s sub.pidRow cc ev.ts
    have ht : Ready sub _ := hg.ready (fun i hi => (Option.some.inj hi).symm) hs
    exact ⟨hs, emit_if_ready (a := countryAlert ev sub cc) (recorded_key hg.self) ht _⟩

theorem newAsn_ready (hs : Ready sub s) :
    (newAsn cfg ev sub out).Holds (Ready sub) (fun _ => Ready sub) s := by
  unfold newAsn noteAsn
  cases ev.geo.asn with
  | none => exact ⟨hs, hs⟩
  | some asn =>
    have hg := gains_network s sub.pidRow asn ev.geo.asOrg ev.ts
    have ht : Ready sub _ := hg.ready (fun i hi => (Option.some.inj hi).symm) hs
    exact ⟨hs, emit_if_ready (a := asnAlert ev sub asn) (recorded_key hg.self) ht _⟩

/-- The detectors keep the store coherent at every statement. -/
theorem signals_ready [F64 F] (wasNew : Bool) (hs : Ready sub s) :
    (signals cfg ev sub wasNew).Holds (Ready sub) (fun _ => Ready sub) s := by
  rw [signals_eq]
  refine holds_runAll (fun p hp t ht => ?_) hs
  obtain ⟨k, -, rfl⟩ := List.mem_map.mp hp
  cases k with
  | egress => exact newProcessEgress_ready wasNew ht
  | identity =>
    exact (identityChange_ready.holds t).mono (fun u hu => hu ▸ ht) fun _ u hu => hu ▸ ht
  | dest => exact newProcessDest_ready ht
  | country => exact newCountry_ready ht
  | network => exact newAsn_ready ht
  | volume => exact (volumeSpike_ready.holds t).mono (fun u hu => hu ▸ ht) fun _ u hu => hu ▸ ht

end Ready

section Setup

variable {s : Store F} {cfg : AlertConfig F} {ev : FlowEvent}

theorem prepare_coherent : Keeps Coherent (prepare cfg ev) := by
  refine prepare_keeps cfg ev (fun s x => ?_) (fun s x => ?_) fun s x => ?_ <;>
    exact SameRecords.coherent_eq ⟨rfl, rfl, rfl, rfl⟩ rfl

/-- The store with a new process. -/
theorem Coherent.addProcess (h : Coherent s) {r : ProcessRow}
    (hr : r.id = nextRowid ProcessRow.id s.processes) :
    Coherent { s with processes := s.processes ++ [r] } where
  backed b hb e he := by
    have hp := h.backed b hb e he
    cases e with
    | process exe =>
      rw [Entry.present, findProcess_isSome] at hp ⊢
      rw [procKeys, List.map_append, List.map_append]
      exact List.mem_append_left _ hp
    | _ => exact hp
  rooted e he i hi := by
    have grow (e : Entry) (he : e.present s = true) (hi : i ∈ e.owner) :
        ∃ q ∈ s.processes ++ [r], q.id = i := by
      obtain ⟨q, hq, hid⟩ := h.rooted e he i hi
      exact ⟨q, List.mem_append_left _ hq, hid⟩
    cases e with
    | process exe => exact nomatch hi
    | label j text => exact grow (.label j text) he hi
    | country j code => exact grow (.country j code) he hi
    | network j asn => exact grow (.network j asn) he hi
  keyed q hq q' hq' hid := by
    rcases List.mem_append.mp hq with hq | hq <;> rcases List.mem_append.mp hq' with hq' | hq'
    · exact h.keyed q hq q' hq' hid
    · rw [List.mem_singleton.mp hq', hr] at hid
      exact absurd hid (lt_nextRowid ProcessRow.id hq).ne
    · rw [List.mem_singleton.mp hq, hr] at hid
      exact absurd hid.symm (lt_nextRowid ProcessRow.id hq').ne
    · rw [List.mem_singleton.mp hq, List.mem_singleton.mp hq']

theorem upsertProcess_ready (hs : Coherent s) (exe name : String) (ts : ℤ) :
    (upsertProcess exe name ts).Holds Coherent
      (fun up t => ∀ sub : Subject, sub.proc.exe = exe → sub.pidRow = up.id → Ready sub t) s := by
  unfold upsertProcess
  rw [holds_bind, holds_query]
  refine ⟨hs, hs, ?_⟩
  cases h : select ProcessRow.exePath exe s.processes with
  | some r =>
    have hr : SameRecords s { s with
        processes := update ProcessRow.id r.id (fun r => { r with lastSeenMs := ts, name })
          s.processes } := ⟨procKeys_update s _ fun _ => rfl, rfl, rfl, rfl⟩
    have hc := hr.coherent (fun b hb => Or.inl hb) hs
    refine ⟨hs, hc, fun sub he hi => ⟨hc, ?_, ?_⟩⟩
    · rw [findProcess_isSome, hr.procs, ← findProcess_isSome, he, findProcess, h]
      rfl
    · rw [exists_row_iff, hr.procs, ← exists_row_iff, hi]
      exact ⟨r, mem_of_select h, rfl⟩
  | none =>
    have hc := hs.addProcess (r := ⟨_, exe, name, ts, ts, none⟩) rfl
    refine ⟨hs, hc, fun sub he hi => ⟨hc, ?_, ?_⟩⟩
    · rw [findProcess, select_isSome, he]
      exact ⟨_, List.mem_append_right _ (List.mem_singleton_self _), rfl⟩
    · rw [hi]
      exact ⟨_, List.mem_append_right _ (List.mem_singleton_self _), rfl⟩

theorem setup_ready (hs : Coherent s) (p : SocketProc) :
    (setup cfg ev p).Holds Coherent (fun r t => Ready r.1 t ∧ r.1.proc = p) s := by
  unfold setup
  rw [holds_bind]
  refine (prepare_coherent.holds s).mono (fun u hu => hu ▸ hs) fun r u hu => ?_
  rw [holds_bind]
  refine (upsertProcess_ready (hu ▸ hs) _ _ _).mono (fun _ => id) fun up v hv => ?_
  have hr := hv { active := decide (r.1 = .active), proc := p, pidRow := up.id, destId := r.2 }
    rfl rfl
  exact ⟨hr.coherent, hr, rfl⟩

/-- Evaluations keep the store coherent, wherever they fail. -/
theorem evaluateFull_coherent [F64 F] (hs : Coherent s) :
    (evaluateFull cfg ev).Holds Coherent (fun _ => Coherent) s := by
  cases h : ev.proc with
  | none =>
    rw [evaluateFull_of_none cfg ev h, holds_bind]
    refine (prepare_coherent.holds s).mono (fun u hu => hu ▸ hs) fun _ u hu => ?_
    have hc : Coherent u := hu ▸ hs
    exact ⟨hc, hc⟩
  | some p =>
    rw [evaluateFull_of_proc cfg ev h, holds_bind]
    refine (setup_ready hs p).mono (fun _ => id) fun r u hu => ?_
    rw [holds_bind]
    refine (signals_ready r.2 hu.1).mono (fun _ ht => ht.coherent) fun _ v hv => ?_
    exact ⟨hv.coherent, hv.coherent⟩

end Setup

end Pktscope.AlertEngine

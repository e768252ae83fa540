import Pktscope.Alert.Footprint
import Pktscope.Alert.Keys
import Pktscope.Library.Pipeline

/-! # What an evaluation reports

The alerts of an evaluation as a function of the store before it. Each signal
looks at its own tables and its own cooldown, which no earlier part of the same
evaluation touches.
-/

namespace Pktscope.AlertEngine

open Library Library.Prog Library.Sql Library.Stage Store

variable {F β : Type}

/-- The alert before the store numbers it. -/
def withoutId (a : Alert F) : Alert F := { a with id := none }

/-- What is left of an alert after its cooldown. -/
def fire (cfg : AlertConfig F) (s : Store F) (a : Alert F) : List (Alert F) :=
  if inCooldown (s.lastAlertTs a.dedupKey) a.ts (cooldownMs cfg) then [] else [a]

namespace Verdict

section Signals

variable (cfg : AlertConfig F) (ev : FlowEvent) (sub : Subject) (s : Store F)

def egress (wasNew : Bool) : List (Alert F) :=
  if sub.active && wasNew && ev.outbound then fire cfg s (egressAlert ev sub) else []

/-- The identity alert that a baseline calls for. -/
def identityFrom (found : Option BinaryIdentity) : List (Alert F) :=
  match ev.identity, found with
  | some ident, some base =>
    if sub.active && ev.outbound && base.changedSince ident cfg.flagSignedUpdates then
      fire cfg s (identityAlert ev sub base ident)
    else []
  | _, _ => []

def identity : List (Alert F) := identityFrom cfg ev sub s (findIdentity s sub.pidRow)

def dest : List (Alert F) :=
  if sub.active && !s.hasLabel sub.pidRow ev.stableLabel && ev.outbound then
    fire cfg s (destAlert ev sub)
  else []

def country : List (Alert F) :=
  match ev.geo.country with
  | some cc =>
    if !s.hasCountry sub.pidRow cc && sub.active && ev.outbound then
      fire cfg s (countryAlert ev sub cc)
    else []
  | none => []

def network : List (Alert F) :=
  match ev.geo.asn with
  | some asn =>
    if !s.hasAsn sub.pidRow asn && sub.active && ev.outbound then fire cfg s (asnAlert ev sub asn)
    else []
  | none => []

end Signals

section Volume

variable [F64 F] (cfg : AlertConfig F) (ev : FlowEvent) (sub : Subject) (s : Store F)

/-- The volume alert that a statistic calls for. -/
def volumeFrom (stat : Option (VolumeStat F)) : List (Alert F) :=
  match (Baseline.accumulate cfg stat ev.bytesUp ev.ts).2 with
  | some sample =>
    if sub.active && isSpike cfg sample then fire cfg s (volumeAlert ev sub sample) else []
  | none => []

def volume : List (Alert F) := volumeFrom cfg ev sub s (s.volumes.lookup sub.pidRow)

/-- The alerts of one signal. -/
def of (wasNew : Bool) (s : Store F) : Signal → List (Alert F)
  | .egress => egress cfg ev sub s wasNew
  | .identity => identity cfg ev sub s
  | .dest => dest cfg ev sub s
  | .country => country cfg ev sub s
  | .network => network cfg ev sub s
  | .volume => volume cfg ev sub s

/-- The alert that a signal calls for, and the condition on which it is fired. -/
inductive Calls (wasNew : Bool) (s : Store F) : Signal → Bool → Alert F → Prop
  | egress : Calls wasNew s .egress (sub.active && wasNew && ev.outbound) (egressAlert ev sub)

  | identity {ident base : BinaryIdentity} :
      ev.identity = some ident → findIdentity s sub.pidRow = some base →
      Calls wasNew s .identity
        (sub.active && ev.outbound && base.changedSince ident cfg.flagSignedUpdates)
        (identityAlert ev sub base ident)

  | dest :
      Calls wasNew s .dest (sub.active && !s.hasLabel sub.pidRow ev.stableLabel && ev.outbound)
        (destAlert ev sub)

  | country {cc : String} :
      ev.geo.country = some cc →
      Calls wasNew s .country (!s.hasCountry sub.pidRow cc && sub.active && ev.outbound)
        (countryAlert ev sub cc)

  | network {asn : ℕ} :
      ev.geo.asn = some asn →
      Calls wasNew s .network (!s.hasAsn sub.pidRow asn && sub.active && ev.outbound)
        (asnAlert ev sub asn)

  | volume {sample : Baseline.VolumeSample F} :
      (Baseline.accumulate cfg (s.volumes.lookup sub.pidRow) ev.bytesUp ev.ts).2 = some sample →
      Calls wasNew s .volume (sub.active && isSpike cfg sample) (volumeAlert ev sub sample)

theorem of_cases (wasNew : Bool) (k : Signal) :
    of cfg ev sub wasNew s k = [] ∨
      ∃ c a, Calls cfg ev sub wasNew s k c a ∧
        of cfg ev sub wasNew s k = if c = true then fire cfg s a else [] := by
  cases k with
  | egress => exact Or.inr ⟨_, _, .egress, rfl⟩
  | identity =>
    rw [of, identity, identityFrom.eq_def]
    split
    · rename_i hident hbase
      exact Or.inr ⟨_, _, .identity hident hbase, rfl⟩
    · exact Or.inl rfl
  | dest => exact Or.inr ⟨_, _, .dest, rfl⟩
  | country =>
    rw [of, country]
    split
    · rename_i hcountry
      exact Or.inr ⟨_, _, .country hcountry, rfl⟩
    · exact Or.inl rfl
  | network =>
    rw [of, network]
    split
    · rename_i hasn
      exact Or.inr ⟨_, _, .network hasn, rfl⟩
    · exact Or.inl rfl
  | volume =>
    rw [of, volume, volumeFrom.eq_def]
    split
    · rename_i hsample
      exact Or.inr ⟨_, _, .volume hsample, rfl⟩
    · exact Or.inl rfl

variable {cfg ev sub s}

omit [F64 F] in
theorem of_mem_fire_if {a b : Alert F} {c : Bool} (h : b ∈ if c = true then fire cfg s a else []) :
    c = true ∧ b = a := by
  split_ifs at h with hc
  · unfold fire at h
    split at h
    · cases h
    · exact ⟨hc, List.mem_singleton.mp h⟩
  · cases h

theorem calls_of_mem {wasNew : Bool} {k : Signal} {a : Alert F} (h : a ∈ of cfg ev sub wasNew s k) :
    ∃ c, Calls cfg ev sub wasNew s k c a ∧ c = true := by
  rcases of_cases cfg ev sub s wasNew k with hnil | ⟨c, b, hcalls, hof⟩
  · rw [hnil] at h
    cases h
  · rw [hof] at h
    obtain ⟨hc, rfl⟩ := of_mem_fire_if h
    exact ⟨c, hcalls, hc⟩

end Volume

end Verdict

section Subject

variable (cfg : AlertConfig F) (ev : FlowEvent) (s : Store F)

/-- Whether the event is evaluated in the active state. -/
def activeAt : Bool := decide (((Baseline.ensureStarted cfg ev.ts).run s).1 = .active)

def findProcess (exe : String) : Option ProcessRow := select ProcessRow.exePath exe s.processes

/-- The row id of an executable, found or given next. -/
def pidRowOf (exe : String) : ℕ :=
  ((findProcess s exe).map ProcessRow.id).getD (nextRowid ProcessRow.id s.processes)

def destIdOf : ℕ :=
  ((select DestRow.ip ev.destIp.display s.destinations).map DestRow.id).getD
    (nextRowid DestRow.id s.destinations)

def subjectOf (p : SocketProc) : Subject where
  active := activeAt cfg ev s
  proc := p
  pidRow := pidRowOf s p.exe
  destId := destIdOf ev s

end Subject

/-- The signals in the order of the engine. -/
def Signal.all : List Signal := [.egress, .identity, .dest, .country, .network, .volume]

/-- The alerts of an evaluation. -/
def verdict [F64 F] (cfg : AlertConfig F) (ev : FlowEvent) (s : Store F) : List (Alert F) :=
  match ev.proc with
  | some p =>
    Signal.all.flatMap (Verdict.of cfg ev (subjectOf cfg ev s p) (findProcess s p.exe).isNone s)
  | none => []

section Emit

variable (cfg : AlertConfig F) (ev : FlowEvent) (sub : Subject)

theorem emit_appends (alert : Alert F) : Appends fun out => emit cfg out alert := by
  refine appends_bind fun id => ?_
  cases id with
  | none => exact appends_pure
  | some id => intro out; simp

theorem newProcessEgress_appends (wasNew : Bool) :
    Appends (newProcessEgress cfg ev sub wasNew) :=
  appends_ite (emit_appends cfg _) appends_pure

theorem identityChange_appends : Appends (identityChange cfg ev sub) := by
  unfold identityChange
  cases ev.identity with
  | none => exact appends_pure
  | some ident =>
    refine appends_bind fun base => appends_bind fun _ => ?_
    cases base with
    | none => exact appends_pure
    | some base => exact appends_ite (emit_appends cfg _) appends_pure

theorem newProcessDest_appends : Appends (newProcessDest cfg ev sub) :=
  appends_bind fun _ => appends_bind fun _ => appends_ite (emit_appends cfg _) appends_pure

theorem newCountry_appends : Appends (newCountry cfg ev sub) := by
  unfold newCountry
  cases ev.geo.country with
  | none => exact appends_pure
  | some cc => exact appends_bind fun _ => appends_ite (emit_appends cfg _) appends_pure

theorem newAsn_appends : Appends (newAsn cfg ev sub) := by
  unfold newAsn
  cases ev.geo.asn with
  | none => exact appends_pure
  | some asn => exact appends_bind fun _ => appends_ite (emit_appends cfg _) appends_pure

theorem volumeSpike_appends [F64 F] : Appends (volumeSpike cfg ev sub) := by
  refine appends_bind fun sample => ?_
  cases sample with
  | none => exact appends_pure
  | some sample => exact appends_ite (emit_appends cfg _) appends_pure

end Emit

section Stages

variable {cfg : AlertConfig F} {ev : FlowEvent} {sub : Subject} (s : Store F)

theorem run_emit (cfg : AlertConfig F) {a : Alert F} (ha : a.id = none) :
    ((emit cfg [] a).run s).1.map withoutId = fire cfg s a := by
  have hw : ∀ id, withoutId { a with id := id } = a := fun _ => by rw [withoutId, ← ha]
  unfold emit insertAlert fire
  simp only [run_bind, run_query]
  by_cases h : inCooldown (s.lastAlertTs a.dedupKey) a.ts (cooldownMs cfg) = true
  · simp [h]
  · simp [h, hw]

theorem fire_congr {s t : Store F} (h : t.alerts = s.alerts) (a : Alert F) :
    fire cfg t a = fire cfg s a := by
  unfold fire lastAlertTs
  rw [h]

theorem run_emit_if {s t : Store F} (h : t.alerts = s.alerts) {a : Alert F} (ha : a.id = none)
    (c : Bool) :
    ((if c = true then emit cfg [] a else pure [] : StoreM F (List (Alert F))).run t).1.map
      withoutId = if c = true then fire cfg s a else [] := by
  cases c with
  | false => rfl
  | true => exact (run_emit t cfg ha).trans (fire_congr h a)

theorem run_newProcessEgress (wasNew : Bool) :
    ((newProcessEgress cfg ev sub wasNew []).run s).1.map withoutId =
      Verdict.egress cfg ev sub s wasNew := run_emit_if rfl rfl _

theorem recordIdentity_alerts (pid : ℕ) (ident : BinaryIdentity) (ts : ℤ) :
    ((recordIdentity pid ident ts).run s).2.alerts = s.alerts :=
  (recordIdentity_keeps (f := Store.alerts) (fun _ _ => rfl) (fun _ _ => rfl) ident ts).run s

theorem touchPair_alerts (pid destId : ℕ) (ts : ℤ) :
    ((touchPair pid destId ts).run s).2.alerts = s.alerts :=
  (touchPair_keeps (f := Store.alerts) (fun _ _ => rfl) pid destId ts).run s

theorem run_identityChange :
    ((identityChange cfg ev sub []).run s).1.map withoutId = Verdict.identity cfg ev sub s := by
  unfold identityChange Verdict.identity Verdict.identityFrom
  cases ev.identity with
  | none => rfl
  | some ident =>
    simp only [run_bind, currentIdentity, run_query]
    cases findIdentity s sub.pidRow with
    | none => rfl
    | some base => exact run_emit_if (recordIdentity_alerts s _ _ _) rfl _

theorem run_newProcessDest :
    ((newProcessDest cfg ev sub []).run s).1.map withoutId = Verdict.dest cfg ev sub s := by
  unfold newProcessDest
  rw [run_bind, run_bind]
  exact run_emit_if (touchPair_alerts _ _ _ _) rfl _

theorem run_newCountry :
    ((newCountry cfg ev sub []).run s).1.map withoutId = Verdict.country cfg ev sub s := by
  unfold newCountry Verdict.country
  cases ev.geo.country with
  | none => rfl
  | some cc => exact run_emit_if rfl rfl _

theorem run_newAsn :
    ((newAsn cfg ev sub []).run s).1.map withoutId = Verdict.network cfg ev sub s := by
  unfold newAsn Verdict.network
  cases ev.geo.asn with
  | none => rfl
  | some asn => exact run_emit_if rfl rfl _

theorem run_volumeSpike [F64 F] :
    ((volumeSpike cfg ev sub []).run s).1.map withoutId = Verdict.volume cfg ev sub s := by
  unfold volumeSpike Verdict.volume Verdict.volumeFrom Baseline.updateVolume getVolumeStat
    upsertVolumeStat
  simp only [run_bind, run_query, run_write, run_pure]
  cases (Baseline.accumulate cfg (s.volumes.lookup sub.pidRow) ev.bytesUp ev.ts).2 with
  | none => rfl
  | some sample => exact run_emit_if rfl rfl _

end Stages

section Ignores

variable {cfg : AlertConfig F} {ev : FlowEvent} {sub : Subject} {alert : Alert F}

theorem ignores_fire {a : Alert F} (h : alert.dedupKey ≠ a.dedupKey) :
    Ignores (fun s => fire cfg s a) alert := fun s =>
  congrArg (fun recent => if inCooldown recent a.ts (cooldownMs cfg) then [] else [a])
    (ignores_lastAlertTs h s)

theorem ignores_fire_if {a : Alert F} {k : Signal} (hk : signalOf a.dedupKey = some k)
    (h : signalOf alert.dedupKey ≠ some k) (c : Bool) :
    Ignores (fun s => if c = true then fire cfg s a else []) alert := fun s =>
  congrArg (ite _ · []) (ignores_fire (ne_of_signalOf (by rwa [hk])) s)

theorem ignores_identityFrom (h : signalOf alert.dedupKey ≠ some .identity)
    (found : Option BinaryIdentity) :
    Ignores (fun s => Verdict.identityFrom cfg ev sub s found) alert := by
  intro s
  unfold Verdict.identityFrom
  split
  · rename_i ident base _
    exact ignores_fire_if (signalOf_identityAlert ev sub base ident) h _ s
  · rfl

theorem ignores_volumeFrom [F64 F] (cfg : AlertConfig F) (ev : FlowEvent) (sub : Subject)
    (h : signalOf alert.dedupKey ≠ some .volume) (stat : Option (VolumeStat F)) :
    Ignores (fun s => Verdict.volumeFrom cfg ev sub s stat) alert := by
  intro s
  unfold Verdict.volumeFrom
  split
  · rename_i sample _
    exact ignores_fire_if (signalOf_volumeAlert ev sub sample) h _ s
  · rfl

theorem ignores_verdict [F64 F] {wasNew : Bool} {k : Signal}
    (h : signalOf alert.dedupKey ≠ some k) :
    Ignores (fun s => Verdict.of cfg ev sub wasNew s k) alert := by
  intro s
  cases k with
  | egress => exact ignores_fire_if (signalOf_egressAlert ev sub) h _ s
  | identity => exact ignores_identityFrom h (findIdentity s sub.pidRow) s
  | dest => exact ignores_fire_if (signalOf_destAlert ev sub) h _ s
  | country =>
    change Verdict.country cfg ev sub _ = Verdict.country cfg ev sub s
    unfold Verdict.country
    split
    · rename_i cc _
      exact ignores_fire_if (signalOf_countryAlert ev sub cc) h _ s
    · rfl
  | network =>
    change Verdict.network cfg ev sub _ = Verdict.network cfg ev sub s
    unfold Verdict.network
    split
    · rename_i asn _
      exact ignores_fire_if (signalOf_asnAlert ev sub asn) h _ s
    · rfl
  | volume => exact ignores_volumeFrom cfg ev sub h (s.volumes.lookup sub.pidRow) s

end Ignores

section Pipeline

variable [F64 F] (cfg : AlertConfig F) (ev : FlowEvent) (sub : Subject) (wasNew : Bool)

/-- The part of the engine that reports one signal. -/
def stageProg : Signal → StoreM F (List (Alert F))
  | .egress => newProcessEgress cfg ev sub wasNew []
  | .identity => identityChange cfg ev sub []
  | .dest => newProcessDest cfg ev sub []
  | .country => newCountry cfg ev sub []
  | .network => newAsn cfg ev sub []
  | .volume => volumeSpike cfg ev sub []

def stage (k : Signal) : Stage (Store F) (Alert F) (Alert F) where
  prog := stageProg cfg ev sub wasNew k
  view s := Verdict.of cfg ev sub wasNew s k

/-- The detectors are a pipeline. -/
theorem signals_eq :
    signals cfg ev sub wasNew = Stage.runAll (Signal.all.map (stage cfg ev sub wasNew)) := by
  have h : List.Forall₂ (fun p q => Appends p ∧ p [] = q.prog)
      [newProcessEgress cfg ev sub wasNew, identityChange cfg ev sub, newProcessDest cfg ev sub,
        newCountry cfg ev sub, newAsn cfg ev sub, volumeSpike cfg ev sub]
      (Signal.all.map (stage cfg ev sub wasNew)) := by
    refine .cons ⟨newProcessEgress_appends cfg ev sub wasNew, rfl⟩ ?_
    refine .cons ⟨identityChange_appends cfg ev sub, rfl⟩ ?_
    refine .cons ⟨newProcessDest_appends cfg ev sub, rfl⟩ ?_
    refine .cons ⟨newCountry_appends cfg ev sub, rfl⟩ ?_
    refine .cons ⟨newAsn_appends cfg ev sub, rfl⟩ ?_
    exact .cons ⟨volumeSpike_appends cfg ev sub, rfl⟩ .nil
  simpa [chain, signals] using chain_eq h []

theorem stage_sound (k : Signal) : (stage cfg ev sub wasNew k).Sound withoutId := by
  intro s
  cases k with
  | egress => exact run_newProcessEgress s wasNew
  | identity => exact run_identityChange s
  | dest => exact run_newProcessDest s
  | country => exact run_newCountry s
  | network => exact run_newAsn s
  | volume => exact run_volumeSpike s

/-- `f` sees none of the tables that a signal's stage writes. -/
def Blind (f : Store F → β) (pidRow : ℕ) : Signal → Prop
  | .egress => True
  | .identity =>
    (∀ (s : Store F) id, f { s with
      processes := update ProcessRow.id pidRow (fun r => { r with curIdentityId := id })
        s.processes } = f s) ∧ ∀ s x, f { s with identities := x } = f s
  | .dest => (∀ s x, f { s with labels := x } = f s) ∧ ∀ s x, f { s with pairs := x } = f s
  | .country => ∀ s x, f { s with countries := x } = f s
  | .network => ∀ s x, f { s with asns := x } = f s
  | .volume => ∀ s x, f { s with volumes := x } = f s

variable {cfg ev sub wasNew}

/-- A stage keeps what sees neither its tables nor its alerts. -/
theorem stageProg_keeps {f : Store F → β} {k : Signal} (hb : Blind f sub.pidRow k)
    (ha : ∀ alert : Alert F, signalOf alert.dedupKey = some k → Ignores f alert) :
    Keeps f (stageProg cfg ev sub wasNew k) := by
  cases k with
  | egress => exact newProcessEgress_keeps (ha _ (signalOf_egressAlert ev sub)) _
  | identity =>
    exact identityChange_keeps hb.1 hb.2 fun base i => ha _ (signalOf_identityAlert ev sub base i)
  | dest => exact newProcessDest_keeps hb.1 hb.2 (ha _ (signalOf_destAlert ev sub))
  | country => exact newCountry_keeps hb fun cc => ha _ (signalOf_countryAlert ev sub cc)
  | network => exact newAsn_keeps hb fun asn => ha _ (signalOf_asnAlert ev sub asn)
  | volume => exact volumeSpike_keeps hb fun sample => ha _ (signalOf_volumeAlert ev sub sample)

/-- The detectors keep what sees nothing of what they write. -/
theorem signals_keeps {f : Store F → β} (hb : ∀ k, Blind f sub.pidRow k)
    (ha : ∀ alert, Ignores f alert) : Keeps f (signals cfg ev sub wasNew) := by
  rw [signals_eq]
  refine keeps_runAll fun q hq => ?_
  obtain ⟨k, -, rfl⟩ := List.mem_map.mp hq
  exact stageProg_keeps (hb k) fun alert _ => ha alert

theorem stage_keeps {j k : Signal} (h : j ≠ k) :
    Keeps (stage cfg ev sub wasNew j).view (stage cfg ev sub wasNew k).prog := by
  refine stageProg_keeps ?_ fun alert ha => ignores_verdict fun hj =>
    h (Option.some.inj (hj.symm.trans ha))
  cases k <;> cases j <;> first
    | exact absurd rfl h
    | exact trivial
    | exact fun _ _ => rfl
    | exact ⟨fun _ _ => rfl, fun _ _ => rfl⟩

theorem pairwise_keeps :
    (Signal.all.map (stage cfg ev sub wasNew)).Pairwise fun p q => Keeps q.view p.prog := by
  rw [List.pairwise_map]
  refine List.Pairwise.imp (R := fun j k => j ≠ k) (fun hjk => stage_keeps hjk.symm) ?_
  decide

theorem run_signals (s : Store F) :
    ((signals cfg ev sub wasNew).run s).1.map withoutId =
      Signal.all.flatMap (Verdict.of cfg ev sub wasNew s) := by
  have hs : ∀ p ∈ Signal.all.map (stage cfg ev sub wasNew), p.Sound withoutId := by
    intro p hp
    obtain ⟨k, -, rfl⟩ := List.mem_map.mp hp
    exact stage_sound cfg ev sub wasNew k
  rw [signals_eq, run_runAll hs pairwise_keeps, List.flatMap_map]
  rfl

end Pipeline

section Setup

variable (cfg : AlertConfig F) (ev : FlowEvent) (p : SocketProc)

/-- The part of an evaluation that every event goes through. -/
def prepare : StoreM F (BaselineState × ℕ) := do
  let state ← Baseline.ensureStarted cfg ev.ts
  let destId ← upsertDestination ev.destIp ev.name ev.geo ev.ts
  recordObserved ev
  return (state, destId)

/-- The part of an attributed evaluation before the detectors. -/
def setup : StoreM F (Subject × Bool) := do
  let (state, destId) ← prepare cfg ev
  let procUp ← upsertProcess p.exe p.name ev.ts
  return ({ active := decide (state = .active), proc := p, pidRow := procUp.id, destId },
    procUp.wasNew)

theorem evaluateFull_of_none [F64 F] (h : ev.proc = none) :
    evaluateFull cfg ev = do
      let (_, destId) ← prepare cfg ev
      return { alerts := [], processId := none, destId } := by
  unfold evaluateFull prepare
  rw [h]
  simp only [bind_assoc, pure_bind]

theorem evaluateFull_of_proc [F64 F] {p : SocketProc} (h : ev.proc = some p) :
    evaluateFull cfg ev = do
      let (sub, wasNew) ← setup cfg ev p
      let alerts ← signals cfg ev sub wasNew
      return { alerts, processId := some sub.pidRow, destId := sub.destId } := by
  unfold evaluateFull setup prepare
  rw [h]
  simp only [bind_assoc, pure_bind]

/-- The preparation writes no table that a signal reads. -/
theorem prepare_keeps {f : Store F → β} (hm : ∀ s x, f { s with metaRows := x } = f s)
    (hd : ∀ s x, f { s with destinations := x } = f s)
    (hn : ∀ s x, f { s with names := x } = f s) : Keeps f (prepare cfg ev) :=
  keeps_bind (Baseline.ensureStarted_keeps _ _ hm) fun _ =>
    keeps_bind (upsertDestination_keeps hd _ _ _ _) fun _ =>
      keeps_bind (recordObserved_keeps hn) fun _ => trivial

theorem setup_keeps {f : Store F → β} (hm : ∀ s x, f { s with metaRows := x } = f s)
    (hd : ∀ s x, f { s with destinations := x } = f s)
    (hn : ∀ s x, f { s with names := x } = f s) (hp : ∀ s x, f { s with processes := x } = f s) :
    Keeps f (setup cfg ev p) :=
  keeps_bind (prepare_keeps cfg ev hm hd hn) fun _ =>
    keeps_bind (upsertProcess_keeps hp _ _ _) fun _ => trivial

variable (s : Store F)

theorem run_upsertProcess (exe name : String) (ts : ℤ) :
    ((upsertProcess exe name ts).run s).1 = ⟨pidRowOf s exe, (findProcess s exe).isNone⟩ := by
  unfold upsertProcess pidRowOf findProcess
  simp only [run_bind, run_query]
  cases select ProcessRow.exePath exe s.processes <;> rfl

theorem run_upsertDestination :
    ((upsertDestination ev.destIp ev.name ev.geo ev.ts).run s).1 = destIdOf ev s := by
  unfold upsertDestination destIdOf
  simp only [run_bind, run_query]
  cases select DestRow.ip ev.destIp.display s.destinations <;> rfl

theorem run_prepare :
    ((prepare cfg ev).run s).1 =
      (((Baseline.ensureStarted cfg ev.ts).run s).1, destIdOf ev s) := by
  have hk : Keeps Store.destinations (Baseline.ensureStarted cfg ev.ts : StoreM F _) :=
    Baseline.ensureStarted_keeps cfg ev.ts fun _ _ => rfl
  simp only [prepare, run_bind, run_pure, run_upsertDestination]
  rw [destIdOf, hk.run]
  rfl

theorem processes_prepare : ((prepare cfg ev).run s).2.processes = s.processes :=
  (prepare_keeps (f := Store.processes) cfg ev (fun _ _ => rfl) (fun _ _ => rfl)
    fun _ _ => rfl).run s

theorem run_setup :
    ((setup cfg ev p).run s).1 = (subjectOf cfg ev s p, (findProcess s p.exe).isNone) := by
  have hp := processes_prepare cfg ev s
  simp only [setup, run_bind, run_pure, run_prepare, run_upsertProcess]
  unfold subjectOf activeAt pidRowOf findProcess
  rw [hp]

theorem findIdentity_upsertProcess (exe name : String) (ts : ℤ) (q : ℕ) :
    findIdentity ((upsertProcess exe name ts).run s).2 q = findIdentity s q := by
  unfold upsertProcess
  simp only [run_bind, run_query]
  cases h : select ProcessRow.exePath exe s.processes with
  | some r =>
    have hid : ∀ r : ProcessRow, ({ r with lastSeenMs := ts, name } : ProcessRow).id = r.id :=
      fun _ => rfl
    simp only [Option.map_some, run_bind, run_write, run_pure, findIdentity]
    rw [select_update hid]
    cases select ProcessRow.id q s.processes with
    | none => rfl
    | some r' => by_cases hr : r'.id = r.id <;> simp [hr]
  | none =>
    simp only [Option.map_none, run_bind, run_exec, run_pure, findIdentity]
    rw [select_append]
    cases select ProcessRow.id q s.processes with
    | none => by_cases hq : nextRowid ProcessRow.id s.processes = q <;> simp [hq]
    | some r' => rfl

theorem findIdentity_setup (q : ℕ) :
    findIdentity ((setup cfg ev p).run s).2 q = findIdentity s q := by
  have hi : Keeps (fun s => findIdentity s q) (prepare cfg ev : StoreM F _) :=
    prepare_keeps cfg ev (fun _ _ => rfl) (fun _ _ => rfl) fun _ _ => rfl
  simp only [setup, run_bind, run_pure]
  rw [findIdentity_upsertProcess]
  exact hi.run s

/-- The setup leaves what the signals look at alone. -/
theorem verdict_setup [F64 F] (sub : Subject) (wasNew : Bool) (k : Signal) :
    Verdict.of cfg ev sub wasNew ((setup cfg ev p).run s).2 k = Verdict.of cfg ev sub wasNew s k := by
  by_cases hk : k = .identity
  · subst hk
    have hf (found : Option BinaryIdentity) : Keeps
        (fun s => Verdict.identityFrom cfg ev sub s found) (setup cfg ev p) :=
      setup_keeps cfg ev p (fun _ _ => rfl) (fun _ _ => rfl) (fun _ _ => rfl) fun _ _ => rfl
    change Verdict.identityFrom cfg ev sub _ (findIdentity _ sub.pidRow) = _
    rw [findIdentity_setup]
    exact (hf _).run s
  · have hf : Keeps (fun s => Verdict.of cfg ev sub wasNew s k) (setup cfg ev p) := by
      refine setup_keeps cfg ev p ?_ ?_ ?_ ?_
      · intro s x; cases k <;> rfl
      · intro s x; cases k <;> rfl
      · intro s x; cases k <;> rfl
      · intro s x; cases k <;> first | rfl | exact absurd rfl hk
    exact hf.run s

end Setup

/-- The alerts of an evaluation are a function of the store before it. -/
theorem run_evaluateFull [F64 F] (cfg : AlertConfig F) (ev : FlowEvent) (s : Store F) :
    ((evaluateFull cfg ev).run s).1.alerts.map withoutId = verdict cfg ev s := by
  unfold verdict
  cases h : ev.proc with
  | none =>
    rw [evaluateFull_of_none cfg ev h]
    simp only [run_bind, run_pure, List.map_nil]
  | some p =>
    rw [evaluateFull_of_proc cfg ev h]
    simp only [run_bind, run_pure, run_setup, run_signals]
    exact List.flatMap_congr fun k _ => verdict_setup cfg ev p s _ _ k

end Pktscope.AlertEngine

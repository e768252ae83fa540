import Pktscope.Alert.Novelty

/-! # First contacts

Runs of evaluations, some of them cut short by a failing statement, and what
they have recorded when an event arrives. A first contact is announced exactly
when it is not recorded yet, and every event records what it carries, whatever
its direction.
-/

namespace Pktscope.AlertEngine

open Library Library.Prog Library.Sql Library.Stage Store

variable {F : Type}

/-- What an event can bring that is new about its process. -/
inductive Novelty where
  | process (exe : String)
  | label (exe text : String)
  | country (exe code : String)
  | network (exe : String) (asn : ℕ)
  deriving DecidableEq

namespace Novelty

def exe : Novelty → String
  | process exe | label exe _ | country exe _ | network exe _ => exe

/-- The kind of the alert about a novelty. -/
def kind : Novelty → AlertKind
  | process _ => .newProcessEgress
  | label _ _ => .newProcessDest
  | country _ _ => .newGeo
  | network _ _ => .newGeo

/-- The entry that records a novelty, given the row of its process. -/
def entry (pidRow : ℕ) : Novelty → Entry
  | process exe => .process exe
  | label _ text => .label pidRow text
  | country _ code => .country pidRow code
  | network _ asn => .network pidRow asn

end Novelty

/-- What an event carries, if it is attributed. -/
def novelties (ev : FlowEvent) : List Novelty :=
  match ev.proc with
  | some p =>
    [.process p.exe, .label p.exe ev.stableLabel] ++ ev.geo.country.toList.map (.country p.exe) ++
      ev.geo.asn.toList.map (.network p.exe)
  | none => []

/-- Whether the store has recorded a novelty. -/
def knows (s : Store F) (x : Novelty) : Bool :=
  match findProcess s x.exe with
  | some r => (x.entry r.id).present s
  | none => false

/-- An alert of the novelty's kind and subject is among the fired ones. -/
def Announced (s : Store F) (alerts : List (Alert F)) (x : Novelty) : Prop :=
  ∃ a ∈ alerts, a.kind = x.kind ∧ a.dedupKey = (x.entry (pidRowOf s x.exe)).key

/-- A call of `evaluateFull`, with the statement at which it fails. -/
structure EvalCall (F : Type) where
  cfg : AlertConfig F
  ev : FlowEvent
  fault : Option ℕ

namespace EvalCall

variable [F64 F] (c : EvalCall F) (s : Store F)

def attempt : Option (EvalOutcome F) × Store F := (evaluateFull c.cfg c.ev).attempt c.fault s

end EvalCall

/-- The store after some calls. -/
def runEvals [F64 F] (s : Store F) (calls : List (EvalCall F)) : Store F :=
  calls.foldl (fun s c => (c.attempt s).2) s

theorem runEvals_coherent [F64 F] {s : Store F} (hs : Coherent s) (calls : List (EvalCall F)) :
    Coherent (runEvals s calls) := by
  induction calls generalizing s with
  | nil => exact hs
  | cons c calls ih => exact ih ((evaluateFull_coherent hs).attempt c.fault)

section Rows

variable {s : Store F} {exe : String}

/-- The row id of an executable, if it has a row. -/
def idOf (s : Store F) (exe : String) : Option ℕ := (findProcess s exe).map ProcessRow.id

theorem idOf_eq (s : Store F) (exe : String) :
    idOf s exe = ((procKeys s).find? fun p => decide (p.2 = exe)).map Prod.fst := by
  rw [idOf, findProcess, select, procKeys, List.find?_map, Option.map_map]
  rfl

theorem pidRowOf_of_some {i : ℕ} (h : idOf s exe = some i) : pidRowOf s exe = i := by
  rw [pidRowOf, ← idOf, h]
  rfl

theorem pidRowOf_of_none (h : idOf s exe = none) :
    pidRowOf s exe = nextRowid ProcessRow.id s.processes := by
  rw [pidRowOf, ← idOf, h]
  rfl

theorem exists_row_of_idOf {i : ℕ} (h : idOf s exe = some i) :
    ∃ r ∈ s.processes, r.id = i ∧ r.exePath = exe := by
  obtain ⟨r, hr, rfl⟩ := Option.map_eq_some_iff.mp h
  exact ⟨r, mem_of_select hr, rfl, key_of_select hr⟩

theorem idOf_isSome : (idOf s exe).isSome = (findProcess s exe).isSome := Option.isSome_map

theorem Coherent.pidRowOf_ne (hs : Coherent s) {exe' : String} {i : ℕ} (h : idOf s exe' = some i)
    (hne : exe' ≠ exe) : i ≠ pidRowOf s exe := by
  obtain ⟨r, hr, rfl, hexe⟩ := exists_row_of_idOf h
  cases hx : idOf s exe with
  | none =>
    rw [pidRowOf_of_none hx]
    exact (lt_nextRowid ProcessRow.id hr).ne
  | some j =>
    obtain ⟨q, hq, rfl, hqe⟩ := exists_row_of_idOf hx
    rw [pidRowOf_of_some hx]
    intro hid
    exact hne (hexe.symm.trans ((hs.keyed r hr q hq hid).trans hqe))

theorem knows_iff {x : Novelty} :
    knows s x = true ↔ ∃ i, idOf s x.exe = some i ∧ (x.entry i).present s = true := by
  unfold knows idOf
  cases findProcess s x.exe <;> simp

/-- A novelty is known if its entry under the row of its process is there. -/
theorem Coherent.knows_eq (hs : Coherent s) (x : Novelty) :
    knows s x = (x.entry (pidRowOf s x.exe)).present s := by
  cases h : idOf s x.exe with
  | some i =>
    rw [Bool.eq_iff_iff, knows_iff, h, pidRowOf_of_some h]
    simp
  | none =>
    have hk : ¬ knows s x = true := by
      rw [knows_iff, h]
      rintro ⟨i, hi, -⟩
      cases hi
    rw [Bool.not_eq_true] at hk
    rw [hk, eq_comm, pidRowOf_of_none h, ← Bool.not_eq_true]
    intro he
    -- No entry belongs to a row that has not been given yet.
    have unrooted : ∀ e : Entry, e.present s = true →
        nextRowid ProcessRow.id s.processes ∉ e.owner := by
      intro e he hi
      obtain ⟨r, hr, hid⟩ := hs.rooted e he _ hi
      exact absurd hid (lt_nextRowid ProcessRow.id hr).ne
    cases x with
    | process exe =>
      rw [Novelty.entry, Entry.present, ← idOf_isSome] at he
      rw [Novelty.exe] at h
      rw [h] at he
      cases he
    | label exe text => exact unrooted _ he rfl
    | country exe code => exact unrooted _ he rfl
    | network exe asn => exact unrooted _ he rfl

end Rows

section Announce

variable [F64 F] {s : Store F} {cfg : AlertConfig F} {ev : FlowEvent} {p : SocketProc} {x : Novelty}

theorem mem_novelties (hp : ev.proc = some p) :
    x ∈ novelties ev ↔ x = .process p.exe ∨ x = .label p.exe ev.stableLabel ∨
      (∃ cc, ev.geo.country = some cc ∧ x = .country p.exe cc) ∨
      ∃ asn, ev.geo.asn = some asn ∧ x = .network p.exe asn := by
  simp only [novelties, hp, List.mem_append, List.mem_cons, List.mem_map, Option.mem_toList,
    List.not_mem_nil, or_false, or_assoc, eq_comm (b := x)]

theorem exe_of_mem_novelties (hp : ev.proc = some p) (hx : x ∈ novelties ev) : x.exe = p.exe := by
  rcases (mem_novelties hp).mp hx with rfl | rfl | ⟨cc, -, rfl⟩ | ⟨asn, -, rfl⟩ <;> rfl

theorem verdict_novelty (hs : Coherent s) (hp : ev.proc = some p) (hx : x ∈ novelties ev)
    (hact : activeAt cfg ev s = true) (hout : ev.outbound = true) :
    ∃ a : Alert F, a.kind = x.kind ∧ a.dedupKey = (x.entry (pidRowOf s x.exe)).key ∧
      Verdict.of cfg ev (subjectOf cfg ev s p) (findProcess s p.exe).isNone s
        (x.entry (pidRowOf s x.exe)).signal = if knows s x = true then [] else fire cfg s a := by
  rw [hs.knows_eq, exe_of_mem_novelties hp hx]
  rcases (mem_novelties hp).mp hx with rfl | rfl | ⟨cc, hcc, rfl⟩ | ⟨asn, hasn, rfl⟩
  · refine ⟨egressAlert ev (subjectOf cfg ev s p), rfl, rfl, ?_⟩
    simp only [Novelty.entry, Entry.signal, Entry.present, Verdict.of, Verdict.egress, subjectOf,
      hact, hout]
    cases findProcess s p.exe <;> rfl
  · refine ⟨destAlert ev (subjectOf cfg ev s p), rfl, rfl, ?_⟩
    simp only [Novelty.entry, Entry.signal, Entry.present, Verdict.of, Verdict.dest, subjectOf,
      hact, hout]
    cases s.hasLabel (pidRowOf s p.exe) ev.stableLabel <;> rfl
  · refine ⟨countryAlert ev (subjectOf cfg ev s p) cc, rfl, rfl, ?_⟩
    simp only [Novelty.entry, Entry.signal, Entry.present, Verdict.of, Verdict.country, subjectOf,
      hact, hout, hcc]
    cases s.hasCountry (pidRowOf s p.exe) cc <;> rfl
  · refine ⟨asnAlert ev (subjectOf cfg ev s p) asn, rfl, rfl, ?_⟩
    simp only [Novelty.entry, Entry.signal, Entry.present, Verdict.of, Verdict.network, subjectOf,
      hact, hout, hasn]
    cases s.hasAsn (pidRowOf s p.exe) asn <;> rfl

theorem signalOf_of_mem_verdict {sub : Subject} {wasNew : Bool} {k : Signal} {a : Alert F}
    (h : a ∈ Verdict.of cfg ev sub wasNew s k) : signalOf a.dedupKey = some k := by
  obtain ⟨c, hcalls, -⟩ := Verdict.calls_of_mem h
  cases hcalls with
  | egress => exact signalOf_egressAlert ev sub
  | identity => exact signalOf_identityAlert ev sub _ _
  | dest => exact signalOf_destAlert ev sub
  | country => exact signalOf_countryAlert ev sub _
  | network => exact signalOf_asnAlert ev sub _
  | volume => exact signalOf_volumeAlert ev sub _

theorem exists_alert_iff {P : AlertKind → String → Prop} :
    (∃ a ∈ ((evaluateFull cfg ev).run s).1.alerts, P a.kind a.dedupKey) ↔
      ∃ a ∈ verdict cfg ev s, P a.kind a.dedupKey := by
  rw [← run_evaluateFull]
  constructor
  · rintro ⟨a, ha, hk⟩
    exact ⟨_, List.mem_map_of_mem ha, hk⟩
  · rintro ⟨b, hb, hk⟩
    obtain ⟨a, ha, rfl⟩ := List.mem_map.mp hb
    exact ⟨a, ha, hk⟩

theorem announced_iff_verdict (s₀ : Store F) (x : Novelty) :
    Announced s₀ ((evaluateFull cfg ev).run s).1.alerts x ↔ Announced s₀ (verdict cfg ev s) x :=
  exists_alert_iff (P := fun kind key => kind = x.kind ∧ key = (x.entry (pidRowOf s₀ x.exe)).key)

theorem Signal.mem_all (k : Signal) : k ∈ Signal.all := by
  cases k <;> decide

theorem announced_iff_not_knows (hs : Coherent s) (hp : ev.proc = some p)
    (hx : x ∈ novelties ev) (hact : activeAt cfg ev s = true) (hout : ev.outbound = true) :
    Announced s ((evaluateFull cfg ev).run s).1.alerts x ↔ knows s x = false := by
  obtain ⟨a, hkind, hkey, hv⟩ := verdict_novelty hs hp hx hact hout
  rw [announced_iff_verdict, Announced, verdict, hp]
  constructor
  · rintro ⟨b, hb, -, hbk⟩
    obtain ⟨k, -, hbk'⟩ := List.mem_flatMap.mp hb
    have hsig := signalOf_of_mem_verdict hbk'
    rw [hbk, Entry.signalOf_key, Option.some.injEq] at hsig
    rw [← hsig, hv] at hbk'
    rw [← Bool.not_eq_true]
    intro hk
    rw [if_pos hk] at hbk'
    cases hbk'
  · intro hk
    have he := hs.knows_eq x
    rw [hk] at he
    rw [hk, if_neg Bool.false_ne_true, hs.fire_eq cfg he.symm hkey] at hv
    exact ⟨a, List.mem_flatMap.mpr ⟨_, Signal.mem_all _, hv ▸ List.mem_singleton_self a⟩, hkind,
      hkey⟩

end Announce

section Gained

variable {s : Store F} {cfg : AlertConfig F} {ev : FlowEvent} {sub : Subject}

/-- What a stage records. -/
def gained (ev : FlowEvent) (pidRow : ℕ) : Signal → List Entry
  | .dest => [.label pidRow ev.stableLabel]
  | .country => ev.geo.country.toList.map (.country pidRow)
  | .network => ev.geo.asn.toList.map (.network pidRow)
  | _ => []

theorem present_of_keeps {α : Type} {q : StoreM F α}
    (h : Keeps (fun s : Store F => fun e : Entry => e.present s) q) (s : Store F) (e : Entry) :
    e.present (q.run s).2 = e.present s := congrFun (h.run s) e

theorem emit_if_present {a : Alert F} (c : Bool) :
    Keeps (fun s : Store F => fun e : Entry => e.present s)
      (if c = true then emit cfg [] a else pure [] : StoreM F (List (Alert F))) := by
  cases c with
  | false => trivial
  | true => exact emit_keeps (fun _ => rfl) _ _

theorem blind_procKeys (pidRow : ℕ) (k : Signal) :
    Blind (procKeys : Store F → List (ℕ × String)) pidRow k := by
  cases k with
  | egress => trivial
  | identity => exact ⟨fun s _ => procKeys_update s _ fun _ => rfl, fun _ _ => rfl⟩
  | dest => exact ⟨fun _ _ => rfl, fun _ _ => rfl⟩
  | _ => exact fun _ _ => rfl

theorem procKeys_signals [F64 F] (wasNew : Bool) :
    Keeps procKeys (signals cfg ev sub wasNew) :=
  signals_keeps (blind_procKeys _) fun _ _ => rfl

theorem present_stage [F64 F] (wasNew : Bool) (k : Signal) (s : Store F) (e : Entry) :
    e.present ((stageProg cfg ev sub wasNew k).run s).2 = true ↔
      e.present s = true ∨ e ∈ gained ev sub.pidRow k := by
  have same {q : StoreM F (List (Alert F))}
      (h : Keeps (fun s : Store F => fun e : Entry => e.present s) q) :
      e.present (q.run s).2 = true ↔ e.present s = true ∨ e ∈ ([] : List Entry) := by
    rw [present_of_keeps h]
    simp
  cases k with
  | egress => exact same (newProcessEgress_keeps (fun _ => rfl) _)
  | identity =>
    refine same (identityChange_keeps (fun s _ => ?_) (fun _ _ => rfl) fun _ _ _ => rfl)
    exact funext (SameRecords.present ⟨procKeys_update s _ fun _ => rfl, rfl, rfl, rfl⟩)
  | dest =>
    have hg := (gains_label s sub.pidRow ev.stableLabel ev.ts).present e
    rw [stageProg, newProcessDest, run_bind, run_bind, present_of_keeps (emit_if_present _),
      present_of_keeps (touchPair_keeps (fun _ _ => rfl) _ _ _)]
    rw [gained, List.mem_singleton]
    exact hg
  | country =>
    rw [stageProg, newCountry]
    cases hc : ev.geo.country with
    | none => simp [gained, hc]
    | some cc =>
      have hg := (gains_country s sub.pidRow cc ev.ts).present e
      rw [run_bind, present_of_keeps (emit_if_present _)]
      simp only [gained, hc, Option.toList_some, List.map_cons, List.map_nil, List.mem_singleton]
      exact hg
  | network =>
    rw [stageProg, newAsn]
    cases ha : ev.geo.asn with
    | none => simp [gained, ha]
    | some asn =>
      have hg := (gains_network s sub.pidRow asn ev.geo.asOrg ev.ts).present e
      rw [run_bind, present_of_keeps (emit_if_present _)]
      simp only [gained, ha, Option.toList_some, List.map_cons, List.map_nil, List.mem_singleton]
      exact hg
  | volume => exact same (volumeSpike_keeps (fun _ _ => rfl) fun _ _ => rfl)

theorem present_signals [F64 F] (wasNew : Bool) (s : Store F) (e : Entry) :
    e.present ((signals cfg ev sub wasNew).run s).2 = true ↔
      e.present s = true ∨ e ∈ Signal.all.flatMap (gained ev sub.pidRow) := by
  rw [signals_eq]
  generalize Signal.all = ks
  induction ks generalizing s with
  | nil => simp [runAll]
  | cons k ks ih =>
    simp only [List.map_cons, runAll, run_bind, run_pure, ih, List.flatMap_cons, List.mem_append]
    rw [← or_assoc]
    exact or_congr_left (present_stage wasNew k s e)

end Gained

section Recording

variable {s : Store F} {cfg : AlertConfig F} {ev : FlowEvent} {p : SocketProc}

/-- After a process is looked up it has its row, and nothing else has changed. -/
theorem records_upsertProcess (s : Store F) (exe name : String) (ts : ℤ) :
    let t := ((upsertProcess exe name ts).run s).2
    (∀ exe', idOf t exe' = if exe' = exe then some (pidRowOf s exe) else idOf s exe') ∧
      ∀ e : Entry, e.present t = true ↔ e.present s = true ∨ e = .process exe := by
  unfold upsertProcess
  simp only [run_bind, run_query]
  cases h : select ProcessRow.exePath exe s.processes with
  | some r =>
    simp only [Option.map_some, run_bind, run_write, run_pure]
    have hs := procKeys_update s r.id (g := fun r => { r with lastSeenMs := ts, name })
      fun _ => rfl
    have hi : idOf s exe = some r.id := by rw [idOf, findProcess, h]; rfl
    constructor
    · intro exe'
      rw [idOf_eq, hs, ← idOf_eq, pidRowOf_of_some hi]
      split_ifs with he
      · rw [he, hi]
      · rfl
    · intro e
      rw [SameRecords.present ⟨hs, rfl, rfl, rfl⟩ e]
      refine ⟨Or.inl, fun he => he.elim id ?_⟩
      rintro rfl
      rw [Entry.present, ← idOf_isSome, hi]
      rfl
  | none =>
    simp only [Option.map_none, run_bind, run_exec, run_pure]
    have hi : idOf s exe = none := by rw [idOf, findProcess, h]; rfl
    have hid (exe' : String) : idOf { s with
        processes := s.processes ++ [⟨nextRowid ProcessRow.id s.processes, exe, name, ts, ts, none⟩] }
        exe' = (idOf s exe').or
          (if exe = exe' then some (nextRowid ProcessRow.id s.processes) else none) := by
      rw [idOf, idOf, findProcess, findProcess, select_append]
      cases select ProcessRow.exePath exe' s.processes with
      | some r => rfl
      | none => by_cases hx : exe = exe' <;> simp [hx]
    constructor
    · intro exe'
      rw [hid, pidRowOf_of_none hi]
      by_cases he : exe' = exe
      · rw [if_pos he, he, hi, if_pos rfl]
        rfl
      · rw [if_neg he, if_neg (Ne.symm he), Option.or_none]
    · intro e
      cases e with
      | process exe' =>
        rw [Entry.present, ← idOf_isSome, hid, Entry.present, ← idOf_isSome, Entry.process.injEq]
        by_cases he : exe = exe'
        · simp [he]
        · simp [he, Ne.symm he]
      | _ => simp only [reduceCtorEq, or_false]; rfl

theorem sameRecords_prepare (cfg : AlertConfig F) (ev : FlowEvent) (s : Store F) : SameRecords s ((prepare cfg ev).run s).2 where
  procs := (prepare_keeps (f := procKeys) cfg ev (fun _ _ => rfl) (fun _ _ => rfl)
    fun _ _ => rfl).run s
  labels := (prepare_keeps (f := Store.labels) cfg ev (fun _ _ => rfl) (fun _ _ => rfl)
    fun _ _ => rfl).run s
  countries := (prepare_keeps (f := Store.countries) cfg ev (fun _ _ => rfl) (fun _ _ => rfl)
    fun _ _ => rfl).run s
  asns := (prepare_keeps (f := Store.asns) cfg ev (fun _ _ => rfl) (fun _ _ => rfl)
    fun _ _ => rfl).run s

theorem SameRecords.idOf {s t : Store F} (h : SameRecords s t) (exe : String) :
    idOf t exe = AlertEngine.idOf s exe := by
  rw [idOf_eq, h.procs, ← idOf_eq]

theorem records_setup (cfg : AlertConfig F) (ev : FlowEvent) (p : SocketProc) (s : Store F) :
    let t := ((setup cfg ev p).run s).2
    (∀ exe, idOf t exe = if exe = p.exe then some (pidRowOf s p.exe) else idOf s exe) ∧
      ∀ e : Entry, e.present t = true ↔ e.present s = true ∨ e = .process p.exe := by
  have hq := sameRecords_prepare cfg ev s
  have hpid : pidRowOf ((prepare cfg ev).run s).2 p.exe = pidRowOf s p.exe :=
    (prepare_keeps (f := fun s => pidRowOf s p.exe) cfg ev (fun _ _ => rfl) (fun _ _ => rfl)
      fun _ _ => rfl).run s
  obtain ⟨hid, hpr⟩ := records_upsertProcess ((prepare cfg ev).run s).2 p.exe p.name ev.ts
  simp only [setup, run_bind, run_pure]
  constructor
  · intro exe
    rw [hid, hpid, hq.idOf]
  · intro e
    rw [hpr, hq.present]

theorem records_evaluateFull [F64 F] (cfg : AlertConfig F) (hp : ev.proc = some p) (s : Store F) :
    let t := ((evaluateFull cfg ev).run s).2
    (∀ exe, idOf t exe = if exe = p.exe then some (pidRowOf s p.exe) else idOf s exe) ∧
      ∀ e : Entry, e.present t = true ↔ e.present s = true ∨ e = .process p.exe ∨
        e ∈ Signal.all.flatMap (gained ev (pidRowOf s p.exe)) := by
  obtain ⟨hid, hpr⟩ := records_setup cfg ev p s
  rw [evaluateFull_of_proc cfg ev hp]
  simp only [run_bind, run_pure, run_setup cfg ev p s]
  constructor
  · intro exe
    rw [idOf_eq, (procKeys_signals _).run, ← idOf_eq, hid]
  · intro e
    rw [present_signals, hpr, or_assoc]
    rfl

theorem entry_mem_gained {x : Novelty} {i : ℕ} (hp : ev.proc = some p) (hx : x.exe = p.exe) :
    x.entry i = .process p.exe ∨ x.entry i ∈ Signal.all.flatMap (gained ev i) ↔
      x ∈ novelties ev := by
  rw [mem_novelties hp]
  cases x <;> simp_all [Novelty.entry, Novelty.exe, Signal.all, gained]

theorem owner_of_mem_gained {e : Entry} {i : ℕ} (h : e ∈ Signal.all.flatMap (gained ev i)) :
    e.owner = some i := by
  simp only [Signal.all, gained, List.flatMap_cons, List.flatMap_nil, List.mem_append,
    List.mem_singleton, List.mem_map, List.not_mem_nil, false_or, or_false] at h
  rcases h with rfl | ⟨cc, -, rfl⟩ | ⟨asn, -, rfl⟩ <;> rfl

theorem owner_entry {x : Novelty} {i j : ℕ} (h : (x.entry i).owner = some j) : i = j := by
  cases x with
  | process exe => cases h
  | _ => exact Option.some.inj h

/-- An evaluation makes known what its event carries, whatever the event's direction. -/
theorem knows_evaluateFull [F64 F] (hs : Coherent s) (x : Novelty) :
    knows ((evaluateFull cfg ev).run s).2 x = true ↔ knows s x = true ∨ x ∈ novelties ev := by
  cases hp : ev.proc with
  | none =>
    have hq := sameRecords_prepare cfg ev s
    have hrun : ((evaluateFull cfg ev).run s).2 = ((prepare cfg ev).run s).2 := by
      rw [evaluateFull_of_none cfg ev hp]
      simp only [run_bind, run_pure]
    have hn : novelties ev = [] := by rw [novelties, hp]
    simp only [hrun, knows_iff, hq.idOf, hq.present, hn, List.not_mem_nil, or_false]
  | some p =>
    obtain ⟨hid, hpr⟩ := records_evaluateFull cfg hp s
    by_cases hx : x.exe = p.exe
    · have hk : knows ((evaluateFull cfg ev).run s).2 x = true ↔
          (x.entry (pidRowOf s p.exe)).present ((evaluateFull cfg ev).run s).2 = true := by
        rw [knows_iff, hid, if_pos hx]
        simp
      rw [hk, hpr, hs.knows_eq, hx, ← entry_mem_gained (i := pidRowOf s p.exe) hp hx]
    · have hnot : x ∉ novelties ev := fun h => hx (exe_of_mem_novelties hp h)
      simp only [knows_iff, hid, if_neg hx, hnot, or_false]
      refine exists_congr fun i => and_congr_right fun hi => ?_
      rw [hpr, or_iff_left]
      have hne := hs.pidRowOf_ne hi hx
      rintro (he | he)
      · cases x with
        | process exe => exact hx (Entry.process.inj he)
        | _ => cases he
      · exact hne (owner_entry (owner_of_mem_gained he))

end Recording

section Runs

variable [F64 F] {calls : List (EvalCall F)}

/-- No earlier outbound event carried the novelty. -/
def FirstOutbound (calls : List (EvalCall F)) (x : Novelty) : Prop :=
  ∀ c ∈ calls, c.ev.outbound = true → x ∉ novelties c.ev

theorem knows_runEvals {s : Store F} (hs : Coherent s) (hf : ∀ c ∈ calls, c.fault = none)
    (x : Novelty) :
    knows (runEvals s calls) x = true ↔ knows s x = true ∨ ∃ c ∈ calls, x ∈ novelties c.ev := by
  induction calls generalizing s with
  | nil => simp [runEvals]
  | cons c calls ih =>
    have hrun : (c.attempt s).2 = ((evaluateFull c.cfg c.ev).run s).2 := by
      rw [EvalCall.attempt, hf c List.mem_cons_self]
      rfl
    have hc : Coherent (c.attempt s).2 := (evaluateFull_coherent hs).attempt c.fault
    rw [runEvals, List.foldl_cons, ← runEvals,
      ih hc fun c' hc' => hf c' (List.mem_cons_of_mem _ hc'), hrun, knows_evaluateFull hs, or_assoc]
    simp

/-- A first contact of an outbound event in the active state is announced exactly when no
earlier event of another direction has used it up. -/
theorem announced_iff_unknown {cfg : AlertConfig F} {ev : FlowEvent} {p : SocketProc}
    (hp : ev.proc = some p) (hact : activeAt cfg ev (runEvals openNew calls) = true)
    (hout : ev.outbound = true) :
    (∀ x ∈ novelties ev,
      ((FirstOutbound calls x →
          Announced (runEvals openNew calls)
            ((evaluateFull cfg ev).run (runEvals openNew calls)).1.alerts x) ↔
        (FirstOutbound calls x → knows (runEvals openNew calls) x = false))) ∧
      ((∀ c ∈ calls, c.fault = none) →
        ∀ x, knows (runEvals openNew calls) x = true ↔ ∃ c ∈ calls, x ∈ novelties c.ev) := by
  have hs : Coherent (runEvals openNew calls) := runEvals_coherent coherent_openNew calls
  refine ⟨fun x hx => imp_congr_right fun _ => announced_iff_not_knows hs hp hx hact hout,
    fun hf x => ?_⟩
  rw [knows_runEvals coherent_openNew hf, or_iff_right]
  simp [knows, findProcess, openNew]

end Runs

section Listener

/-- A server that accepts a connection and, once the learning window is over, calls out. -/
def serverEvent (ts : ℤ) (outbound : Bool) : FlowEvent where
  ts := ts
  key := .new (.ofOctets 10 0 0 2) 8080 (.ofOctets 10 0 0 9) 40000 6
  proc := some ⟨7, "srv", some "/usr/bin/srv"⟩
  identity := none
  destIp := .ofOctets 10 0 0 9
  destPort := 40000
  localPort := 8080
  protocol := 6
  name := none
  geo := .default
  bytesUp := 0
  bytesDown := 0
  flowFirstSeen := true
  outbound := outbound

/-- The learning window passes, and the server accepts a connection. -/
def serverCalls : List (EvalCall ℚ) :=
  [⟨.demo, { serverEvent 0 false with proc := none }, none⟩, ⟨.demo, serverEvent 5000 false, none⟩]

theorem announced_iff_unknown_server :
    (∀ x ∈ novelties (serverEvent 5001 true),
      ((FirstOutbound serverCalls x →
          Announced (runEvals openNew serverCalls)
            ((evaluateFull .demo (serverEvent 5001 true)).run
              (runEvals openNew serverCalls)).1.alerts x) ↔
        (FirstOutbound serverCalls x → knows (runEvals openNew serverCalls) x = false))) ∧
      ((∀ c ∈ serverCalls, c.fault = none) →
        ∀ x, knows (runEvals openNew serverCalls) x = true ↔
          ∃ c ∈ serverCalls, x ∈ novelties c.ev) :=
  announced_iff_unknown rfl (by decide) rfl

/-- The first call out of the server is not announced. -/
theorem server_not_announced :
    activeAt .demo (serverEvent 5001 true) (runEvals openNew serverCalls) = true ∧
      Novelty.process "/usr/bin/srv" ∈ novelties (serverEvent 5001 true) ∧
      FirstOutbound serverCalls (.process "/usr/bin/srv") ∧
      ¬ Announced (runEvals openNew serverCalls)
        ((evaluateFull .demo (serverEvent 5001 true)).run (runEvals openNew serverCalls)).1.alerts
        (.process "/usr/bin/srv") := by
  have hact : activeAt .demo (serverEvent 5001 true) (runEvals openNew serverCalls) = true := by
    decide
  have hx : Novelty.process "/usr/bin/srv" ∈ novelties (serverEvent 5001 true) := by decide
  have hs : Coherent (runEvals openNew serverCalls) := runEvals_coherent coherent_openNew _
  refine ⟨hact, hx, ?_, ?_⟩
  · intro c hc hout
    rcases List.mem_cons.mp hc with rfl | hc
    · cases hout
    · rw [List.mem_singleton.mp hc] at hout
      cases hout
  · rw [announced_iff_not_knows hs rfl hx hact rfl, Bool.not_eq_false,
      knows_runEvals coherent_openNew (by simp [serverCalls])]
    exact Or.inr ⟨⟨.demo, serverEvent 5000 false, none⟩, by simp [serverCalls], by decide⟩

end Listener

end Pktscope.AlertEngine

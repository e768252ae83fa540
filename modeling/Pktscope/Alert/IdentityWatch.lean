import Pktscope.Alert.FirstContact
import Pktscope.Library.Folds

/-! # Replaced binaries

The identity that the store compares a new observation with is the one that the
process's last observation left, readable or not and of either direction. A
replaced binary is reported exactly when that one is readable and differs.
-/

namespace Pktscope.AlertEngine

open Library Library.Prog Library.Sql Library.Stage Store

variable {F : Type}

/-- The identities of the platforms without code signing. -/
def IsSha256 (i : BinaryIdentity) : Prop :=
  i.kind = .sha256 ∧
    (i.status = .valid ∧ i.value ≠ "" ∨ i.status = .unreadable ∧ i.value = "")

/-- An identity alert for this executable and value is among the fired ones. -/
def ReportsChange (alerts : List (Alert F)) (exe value : String) : Prop :=
  ∃ a ∈ alerts, a.kind = .identityChange ∧ a.dedupKey = identityKey exe value

/-- The identity that the next observation of an executable is compared with. -/
def baselineOf (s : Store F) (exe : String) : Option BinaryIdentity :=
  findIdentity s (pidRowOf s exe)

section Report

variable [F64 F] {s : Store F} {cfg : AlertConfig F} {ev : FlowEvent} {p : SocketProc}
  {ident : BinaryIdentity}

theorem changedSince_sha256 {base ident : BinaryIdentity} (hk : ident.kind = .sha256)
    (hv : ident.status = .valid) (flag : Bool) :
    base.changedSince ident flag = true ↔
      base.status ≠ .unreadable ∧ base.value ≠ ident.value := by
  unfold BinaryIdentity.changedSince
  rw [hk, hv]
  cases base.kind <;> simp

theorem reportsChange_iff_verdict (exe value : String) :
    ReportsChange ((evaluateFull cfg ev).run s).1.alerts exe value ↔
      ReportsChange (verdict cfg ev s) exe value :=
  exists_alert_iff (P := fun kind key => kind = .identityChange ∧ key = identityKey exe value)

/-- An observation out of its cooldown is reported if the baseline is readable and differs. -/
theorem reportsChange_iff (hp : ev.proc = some p) (hi : ev.identity = some ident)
    (hk : ident.kind = .sha256) (hv : ident.status = .valid) (hact : activeAt cfg ev s = true)
    (hout : ev.outbound = true)
    (hcool : inCooldown (s.lastAlertTs (identityKey p.exe ident.value)) ev.ts (cooldownMs cfg) =
      false) :
    ReportsChange ((evaluateFull cfg ev).run s).1.alerts p.exe ident.value ↔
      ∃ base, baselineOf s p.exe = some base ∧ base.status ≠ .unreadable ∧
        base.value ≠ ident.value := by
  rw [reportsChange_iff_verdict, ReportsChange, verdict, hp]
  constructor
  · rintro ⟨a, ha, -, hkey⟩
    obtain ⟨k, -, hak⟩ := List.mem_flatMap.mp ha
    have hsig := signalOf_of_mem_verdict hak
    rw [hkey, signalOf_identityKey, Option.some.injEq] at hsig
    subst hsig
    obtain ⟨c, hcalls, hc⟩ := Verdict.calls_of_mem hak
    cases hcalls with
    | @identity observed base hobserved hb =>
      obtain rfl := Option.some.inj (hi.symm.trans hobserved)
      simp only [subjectOf, hact, hout, Bool.true_and] at hc
      exact ⟨base, hb, (changedSince_sha256 hk hv _).mp hc⟩
  · rintro ⟨base, hb, hread, hne⟩
    have hc := (changedSince_sha256 hk hv cfg.flagSignedUpdates).mpr ⟨hread, hne⟩
    refine ⟨identityAlert ev (subjectOf cfg ev s p) base ident,
      List.mem_flatMap.mpr ⟨.identity, by decide, ?_⟩, rfl, rfl⟩
    have hfire : fire cfg s (identityAlert ev (subjectOf cfg ev s p) base ident) =
        [identityAlert ev (subjectOf cfg ev s p) base ident] := by
      rw [fire, if_neg]
      exact fun h => by
        rw [← Bool.not_eq_false] at h
        exact h hcool
    rw [Verdict.of, Verdict.identity]
    unfold Verdict.identityFrom
    have hb' : findIdentity s (subjectOf cfg ev s p).pidRow = some base := hb
    simp only [hi, hb']
    rw [if_pos, hfire]
    · exact List.mem_singleton_self _
    · simp only [subjectOf, hact, hout, hc, Bool.true_and]

end Report

section Tables

variable {s t : Store F}

/-- The store after an identity is recorded. -/
def recorded (s : Store F) (pid : ℕ) (ident : BinaryIdentity) (ts : ℤ) : Store F :=
  let identities := insertOrIgnore IdentityRow.key (identityRow s pid ident ts) s.identities
  { s with
    identities
    processes := update ProcessRow.id pid (fun r => { r with
      curIdentityId := (select IdentityRow.key (pid, ident.kind.toDb, ident.value) identities).map
        IdentityRow.id }) s.processes }

theorem run_recordIdentity (s : Store F) (pid : ℕ) (ident : BinaryIdentity) (ts : ℤ) :
    ((recordIdentity pid ident ts).run s).2 = recorded s pid ident ts := rfl

/-- What findIdentity reads. -/
def identityTables (s : Store F) : List ProcessRow × List IdentityRow := (s.processes, s.identities)

theorem findIdentity_congr (h : identityTables t = identityTables s) (q : ℕ) :
    findIdentity t q = findIdentity s q := by
  obtain ⟨hp, hi⟩ := Prod.mk.inj h
  rw [findIdentity, findIdentity, hp, hi]

theorem recorded_congr (h : identityTables t = identityTables s) (pid : ℕ)
    (ident : BinaryIdentity) (ts : ℤ) :
    identityTables (recorded t pid ident ts) = identityTables (recorded s pid ident ts) := by
  obtain ⟨hp, hi⟩ := Prod.mk.inj h
  simp only [identityTables, recorded, identityRow, hp, hi]

/-- Row ids tell the identities apart. -/
def DistinctIds (s : Store F) : Prop :=
  ∀ i ∈ s.identities, ∀ i' ∈ s.identities, i.id = i'.id → i = i'

theorem DistinctIds.select_id (hs : DistinctIds s) {i : IdentityRow} (hi : i ∈ s.identities) :
    select IdentityRow.id i.id s.identities = some i := by
  cases h : select IdentityRow.id i.id s.identities with
  | none => exact absurd rfl (select_eq_none.mp h i hi)
  | some i' => rw [hs i' (mem_of_select h) i hi (key_of_select h)]

theorem DistinctIds.recorded (hs : DistinctIds s) (pid : ℕ) (ident : BinaryIdentity) (ts : ℤ) :
    DistinctIds (recorded s pid ident ts) := by
  intro i hi i' hi' hid
  rcases mem_insertOrIgnore hi with hi | rfl <;> rcases mem_insertOrIgnore hi' with hi' | rfl
  · exact hs i hi i' hi' hid
  · exact absurd hid (lt_nextRowid IdentityRow.id hi).ne
  · exact absurd hid.symm (lt_nextRowid IdentityRow.id hi').ne
  · rfl

/-- Current identities are rows of the identity table, which row ids tell apart. -/
structure Linked (s : Store F) : Prop where
  cur : ∀ r ∈ s.processes, ∀ j ∈ r.curIdentityId, ∃ i ∈ s.identities, i.id = j
  unique : ∀ i ∈ s.identities, ∀ i' ∈ s.identities, i.id = i'.id → i = i'

theorem Linked.distinct (hs : Linked s) : DistinctIds s := hs.unique

theorem Linked.congr (h : identityTables t = identityTables s) (hs : Linked s) : Linked t := by
  obtain ⟨hp, hi⟩ := Prod.mk.inj h
  exact ⟨hp ▸ hi ▸ hs.cur, hi ▸ hs.unique⟩

theorem Linked.addIdentity (hs : Linked s) (pid : ℕ) (ident : BinaryIdentity) (ts : ℤ) :
    Linked { s with identities := (recorded s pid ident ts).identities } where
  cur r hr j hj := by
    obtain ⟨i, hi, hij⟩ := hs.cur r hr j hj
    exact ⟨i, subset_insertOrIgnore hi, hij⟩
  unique := hs.distinct.recorded pid ident ts

theorem Linked.recorded (hs : Linked s) (pid : ℕ) (ident : BinaryIdentity) (ts : ℤ) :
    Linked (recorded s pid ident ts) where
  cur r hr j hj := by
    obtain ⟨r', hr', rfl⟩ := mem_update hr
    split_ifs at hj with hid
    · obtain ⟨i, hi, rfl⟩ := Option.map_eq_some_iff.mp hj
      exact ⟨i, mem_of_select hi, rfl⟩
    · exact (hs.addIdentity pid ident ts).cur r' hr' j hj
  unique := (hs.addIdentity pid ident ts).unique

theorem select_processes_recorded (s : Store F) (pid q : ℕ) (ident : BinaryIdentity) (ts : ℤ) :
    select ProcessRow.id q (recorded s pid ident ts).processes =
      (select ProcessRow.id q s.processes).map fun r =>
        if r.id = pid then
          { r with
            curIdentityId := (select IdentityRow.key (pid, ident.kind.toDb, ident.value)
              (recorded s pid ident ts).identities).map IdentityRow.id }
        else r :=
  select_update (f := fun r => { r with
    curIdentityId := (select IdentityRow.key (pid, ident.kind.toDb, ident.value)
      (recorded s pid ident ts).identities).map IdentityRow.id }) (fun _ => rfl) s.processes pid

/-- The row that an identity has once it is recorded: the one with its value, or a new one. -/
def keptRow (s : Store F) (pid : ℕ) (ident : BinaryIdentity) (ts : ℤ) : IdentityRow :=
  (select IdentityRow.key (pid, ident.kind.toDb, ident.value) s.identities).getD
    (identityRow s pid ident ts)

theorem select_identities_recorded (s : Store F) (pid : ℕ) (ident : BinaryIdentity) (ts : ℤ) :
    select IdentityRow.key (pid, ident.kind.toDb, ident.value)
      (recorded s pid ident ts).identities = some (keptRow s pid ident ts) :=
  select_insertOrIgnore_self IdentityRow.key (identityRow s pid ident ts) s.identities

theorem keptRow_key (s : Store F) (pid : ℕ) (ident : BinaryIdentity) (ts : ℤ) :
    (keptRow s pid ident ts).key = (pid, ident.kind.toDb, ident.value) :=
  key_of_select (select_identities_recorded s pid ident ts)

theorem keptRow_mem (s : Store F) (pid : ℕ) (ident : BinaryIdentity) (ts : ℤ) :
    keptRow s pid ident ts ∈ s.identities ∨ keptRow s pid ident ts = identityRow s pid ident ts :=
  mem_insertOrIgnore (mem_of_select (select_identities_recorded s pid ident ts))

theorem findIdentity_recorded_of_ne (hs : Linked s) {pid q : ℕ} (hq : q ≠ pid)
    (ident : BinaryIdentity) (ts : ℤ) :
    findIdentity (recorded s pid ident ts) q = findIdentity s q := by
  rw [findIdentity, findIdentity, select_processes_recorded]
  cases h : select ProcessRow.id q s.processes with
  | none => rfl
  | some r =>
    have hr : r.id ≠ pid := key_of_select h ▸ hq
    simp only [Option.map_some, if_neg hr, Option.bind_eq_bind, Option.bind_some]
    cases hj : r.curIdentityId with
    | none => rfl
    | some j =>
      obtain ⟨i, hi, rfl⟩ := hs.cur r (mem_of_select h) j hj
      have hi' := (hs.recorded pid ident ts).distinct.select_id (subset_insertOrIgnore hi)
      simp only [Option.bind_some, hs.distinct.select_id hi, hi']

/-- The identity of the process is the row with its kind and value. -/
theorem findIdentity_recorded_self (hs : DistinctIds s) {pid : ℕ} {r : ProcessRow}
    (hr : select ProcessRow.id pid s.processes = some r) (ident : BinaryIdentity) (ts : ℤ) :
    findIdentity (recorded s pid ident ts) pid =
      some ((keptRow s pid ident ts).toIdentity r.exePath) := by
  have hi := select_identities_recorded s pid ident ts
  have hid : r.id = pid := key_of_select hr
  have hsel := (hs.recorded pid ident ts).select_id (mem_of_select hi)
  rw [findIdentity, select_processes_recorded, hr]
  simp only [Option.map_some, if_pos hid, hi, Option.bind_eq_bind, Option.bind_some, hsel]
  rfl

end Tables

section Evaluate

variable [F64 F] {s : Store F} {cfg : AlertConfig F} {ev : FlowEvent} {p : SocketProc}

omit [F64 F] in
theorem emit_if_tables {a : Alert F} (c : Bool) :
    Keeps identityTables
      (if c = true then emit cfg [] a else pure [] : StoreM F (List (Alert F))) := by
  cases c with
  | false => trivial
  | true => exact emit_keeps (fun _ => rfl) _ _

theorem tables_stageProg {sub : Subject} {wasNew : Bool} {k : Signal} (hk : k ≠ .identity) :
    Keeps identityTables (stageProg cfg ev sub wasNew k) := by
  refine stageProg_keeps ?_ fun _ _ _ => rfl
  cases k with
  | egress => trivial
  | identity => exact absurd rfl hk
  | dest => exact ⟨fun _ _ => rfl, fun _ _ => rfl⟩
  | _ => exact fun _ _ => rfl

theorem tables_signals (sub : Subject) (wasNew : Bool) (s : Store F) :
    identityTables ((signals cfg ev sub wasNew).run s).2 =
      match ev.identity with
      | some ident => identityTables (recorded s sub.pidRow ident ev.ts)
      | none => identityTables s := by
  have hpost : ∀ q ∈ [Signal.dest, .country, .network, .volume].map (stage cfg ev sub wasNew),
      Keeps identityTables q.prog := by
    intro q hq
    obtain ⟨k, hk, rfl⟩ := List.mem_map.mp hq
    exact tables_stageProg fun he => by simp [he] at hk
  have hpre : identityTables ((newProcessEgress cfg ev sub wasNew []).run s).2 =
      identityTables s := (newProcessEgress_keeps (fun _ => rfl) _).run s
  have hsplit : Signal.all.map (stage cfg ev sub wasNew) = [stage cfg ev sub wasNew .egress] ++
      stage cfg ev sub wasNew .identity ::
        [Signal.dest, .country, .network, .volume].map (stage cfg ev sub wasNew) := rfl
  rw [signals_eq, hsplit, view_run hpost]
  simp only [runAll, run_bind, run_pure, stage, stageProg]
  rw [identityChange]
  cases ev.identity with
  | none => exact hpre
  | some ident =>
    simp only [run_bind, currentIdentity, run_query, run_recordIdentity]
    rw [← recorded_congr hpre]
    split
    · rfl
    · exact (emit_if_tables _).run _

theorem tables_evaluateFull (cfg : AlertConfig F) (hp : ev.proc = some p) (s : Store F) :
    identityTables ((evaluateFull cfg ev).run s).2 =
      match ev.identity with
      | some ident =>
        identityTables (recorded ((setup cfg ev p).run s).2 (pidRowOf s p.exe) ident ev.ts)
      | none => identityTables ((setup cfg ev p).run s).2 := by
  rw [evaluateFull_of_proc cfg ev hp]
  simp only [run_bind, run_pure, run_setup, tables_signals]
  rfl

omit [F64 F] in
theorem prepare_tables (cfg : AlertConfig F) (ev : FlowEvent) :
    Keeps identityTables (prepare cfg ev) :=
  prepare_keeps cfg ev (fun _ _ => rfl) (fun _ _ => rfl) fun _ _ => rfl

omit [F64 F] in
theorem upsertProcess_linked (hs : Linked s) (exe name : String) (ts : ℤ) :
    (upsertProcess exe name ts).Holds Linked (fun _ => Linked) s := by
  unfold upsertProcess
  rw [holds_bind, holds_query]
  refine ⟨hs, hs, ?_⟩
  cases select ProcessRow.exePath exe s.processes with
  | some r =>
    have ht : Linked { s with
        processes := update ProcessRow.id r.id (fun r => { r with lastSeenMs := ts, name })
          s.processes } := by
      refine ⟨fun q hq j hj => ?_, hs.unique⟩
      obtain ⟨q', hq', rfl⟩ := mem_update hq
      refine hs.cur q' hq' j ?_
      split_ifs at hj <;> exact hj
    exact ⟨hs, ht, ht⟩
  | none =>
    have ht : Linked { s with
        processes := s.processes ++
          [⟨nextRowid ProcessRow.id s.processes, exe, name, ts, ts, none⟩] } := by
      refine ⟨fun q hq j hj => ?_, hs.unique⟩
      rcases List.mem_append.mp hq with hq | hq
      · exact hs.cur q hq j hj
      · rw [List.mem_singleton.mp hq] at hj
        cases hj
    exact ⟨hs, ht, ht⟩

omit [F64 F] in
theorem setup_linked (hs : Linked s) :
    (setup cfg ev p).Holds Linked (fun _ => Linked) s := by
  unfold setup
  rw [holds_bind]
  refine ((prepare_tables cfg ev).holds s).mono (fun u hu => hs.congr hu) fun r u hu => ?_
  rw [holds_bind]
  exact (upsertProcess_linked (hs.congr hu) _ _ _).mono (fun _ => id) fun _ v hv => ⟨hv, hv⟩

omit [F64 F] in
theorem recordIdentity_linked (hs : Linked s) (pid : ℕ) (ident : BinaryIdentity) (ts : ℤ) :
    (recordIdentity pid ident ts).Holds Linked (fun _ t => t = recorded s pid ident ts) s := by
  have ha := hs.addIdentity pid ident ts
  have ht := hs.recorded pid ident ts
  exact ⟨hs, ha, ha, ht, rfl⟩

omit [F64 F] in
theorem identityChange_linked {sub : Subject} (hs : Linked s) :
    (identityChange cfg ev sub []).Holds Linked (fun _ => Linked) s := by
  unfold identityChange
  cases ev.identity with
  | none => exact ⟨hs, hs⟩
  | some ident =>
    have ht := hs.recorded sub.pidRow ident ev.ts
    simp only [holds_bind, currentIdentity, holds_query]
    refine ⟨hs, hs, (recordIdentity_linked hs _ _ _).mono (fun _ => id) ?_⟩
    rintro _ u rfl
    cases findIdentity s sub.pidRow with
    | none => exact ⟨ht, ht⟩
    | some base =>
      exact ((emit_if_tables _).holds _).mono (fun u hu => ht.congr hu) fun _ u hu => ht.congr hu

theorem stage_linked {sub : Subject} {wasNew : Bool} (hs : Linked s) (k : Signal) :
    (stage cfg ev sub wasNew k).prog.Holds Linked (fun _ => Linked) s := by
  by_cases hk : k = .identity
  · subst hk
    exact identityChange_linked hs
  · exact ((tables_stageProg hk).holds s).mono (fun w hw => hs.congr hw) fun _ w hw => hs.congr hw

theorem evaluateFull_linked (hs : Linked s) :
    (evaluateFull cfg ev).Holds Linked (fun _ => Linked) s := by
  cases hp : ev.proc with
  | none =>
    rw [evaluateFull_of_none cfg ev hp, holds_bind]
    refine ((prepare_tables cfg ev).holds s).mono (fun u hu => hs.congr hu) fun _ u hu => ?_
    exact ⟨hs.congr hu, hs.congr hu⟩
  | some p =>
    rw [evaluateFull_of_proc cfg ev hp, holds_bind]
    refine (setup_linked hs).mono (fun _ => id) fun r u hu => ?_
    rw [holds_bind]
    refine Holds.mono (Q := fun _ => Linked) ?_ (fun _ => id) fun _ v hv => ⟨hv, hv⟩
    rw [signals_eq]
    refine holds_runAll (fun q hq v hv => ?_) hu
    obtain ⟨k, -, rfl⟩ := List.mem_map.mp hq
    exact stage_linked hv k

/-- Without code signing a row says the same as the identity it was made from. -/
def Formed (s : Store F) : Prop :=
  ∀ i ∈ s.identities, i.value ≠ "" ∧ i.status = IdentityStatus.valid.toDb ∨
    i.value = "" ∧ i.status = IdentityStatus.unreadable.toDb

/-- What a later observation is compared with. -/
def observed (s : Store F) (exe : String) : Option (String × IdentityStatus) :=
  (baselineOf s exe).map fun i => (i.value, i.status)

/-- What an event shows of an executable. -/
def identityOf (exe : String) (ev : FlowEvent) : Option BinaryIdentity :=
  match ev.proc with
  | some p => if p.exe = exe then ev.identity else none
  | none => none

omit [F64 F] in
theorem baselineOf_eq (s : Store F) (exe : String) :
    baselineOf s exe = (idOf s exe).bind (findIdentity s) := by
  rw [baselineOf]
  cases h : idOf s exe with
  | some i => rw [pidRowOf_of_some h]; rfl
  | none =>
    have hn : select ProcessRow.id (nextRowid ProcessRow.id s.processes) s.processes = none :=
      select_eq_none.mpr fun r hr => (lt_nextRowid ProcessRow.id hr).ne
    rw [pidRowOf_of_none h, findIdentity, hn]
    rfl

omit [F64 F] in
theorem tables_setup (s : Store F) :
    ((setup cfg ev p).run s).2.identities = s.identities :=
  (setup_keeps (f := Store.identities) cfg ev p (fun _ _ => rfl) (fun _ _ => rfl) (fun _ _ => rfl)
    fun _ _ => rfl).run s

/-- The invariant of a run without failures whose identities are content hashes. -/
structure Identified (s : Store F) : Prop where
  coherent : Coherent s
  linked : Linked s
  formed : Formed s

omit [F64 F] in
theorem identified_openNew : Identified (Store.openNew : Store F) where
  coherent := coherent_openNew
  linked := ⟨(fun _ hr => nomatch hr), (fun _ hi => nomatch hi)⟩
  formed _ hi := nomatch hi

omit [F64 F] in
theorem formed_identityRow (s : Store F) (pid : ℕ) {ident : BinaryIdentity} (h : IsSha256 ident)
    (ts : ℤ) :
    (identityRow s pid ident ts).value ≠ "" ∧
        (identityRow s pid ident ts).status = IdentityStatus.valid.toDb ∨
      (identityRow s pid ident ts).value = "" ∧
        (identityRow s pid ident ts).status = IdentityStatus.unreadable.toDb := by
  rcases h.2 with ⟨hs, hv⟩ | ⟨hs, hv⟩
  · exact Or.inl ⟨hv, by rw [identityRow, hs]⟩
  · exact Or.inr ⟨hv, by rw [identityRow, hs]⟩

theorem status_of_formed {i : IdentityRow} {ident : BinaryIdentity} (h : IsSha256 ident)
    (hi : i.value ≠ "" ∧ i.status = IdentityStatus.valid.toDb ∨
      i.value = "" ∧ i.status = IdentityStatus.unreadable.toDb) (hv : i.value = ident.value) :
    IdentityStatus.ofDb i.status = ident.status := by
  rcases h.2 with ⟨hs, hne⟩ | ⟨hs, he⟩ <;> rcases hi with ⟨hne', hst⟩ | ⟨he', hst⟩
  · rw [hst, hs, IdentityStatus.ofDb_toDb]
  · exact absurd (hv.symm.trans he') hne
  · exact absurd (hv.trans he) hne'
  · rw [hst, hs, IdentityStatus.ofDb_toDb]

theorem run_evaluateFull_of_none (cfg : AlertConfig F) (hp : ev.proc = none) (s : Store F) :
    ((evaluateFull cfg ev).run s).2 = ((prepare cfg ev).run s).2 := by
  rw [evaluateFull_of_none cfg ev hp]
  simp only [run_bind, run_pure]

theorem identified_evaluateFull (hs : Identified s)
    (hsha : ∀ i ∈ ev.identity, IsSha256 i) : Identified ((evaluateFull cfg ev).run s).2 where
  coherent := (evaluateFull_coherent hs.coherent).run.1
  linked := (evaluateFull_linked hs.linked).run.1
  formed := by
    cases hp : ev.proc with
    | none =>
      have ht := (prepare_tables cfg ev).run s
      rw [Formed, run_evaluateFull_of_none cfg hp, (Prod.mk.inj ht).2]
      exact hs.formed
    | some p =>
      have ht := tables_evaluateFull cfg hp s
      cases hi : ev.identity with
      | none =>
        rw [hi] at ht
        rw [Formed, (Prod.mk.inj ht).2, tables_setup]
        exact hs.formed
      | some ident =>
        rw [hi] at ht
        intro i him
        rw [(Prod.mk.inj ht).2] at him
        rcases mem_insertOrIgnore him with him | rfl
        · rw [tables_setup] at him
          exact hs.formed i him
        · exact formed_identityRow _ _ (hsha ident hi) _

omit [F64 F] in
theorem findIdentity_recorded_setup (hs : Identified s) (p : SocketProc) {ident : BinaryIdentity}
    (hsha : IsSha256 ident) :
    ∃ found, findIdentity (recorded ((setup cfg ev p).run s).2 (pidRowOf s p.exe) ident ev.ts)
        (pidRowOf s p.exe) = some found ∧ found.value = ident.value ∧ found.status = ident.status := by
  have hlink : Linked ((setup cfg ev p).run s).2 := (setup_linked hs.linked).run.1
  have hset : (setup cfg ev p).Holds _ _ s := setup_ready hs.coherent p
  obtain ⟨hready, -⟩ := hset.run.2
  obtain ⟨r, hr, hrid⟩ := hready.rowed
  rw [run_setup] at hrid
  have hsel : (select ProcessRow.id (pidRowOf s p.exe)
      ((setup cfg ev p).run s).2.processes).isSome := select_isSome.mpr ⟨r, hr, hrid⟩
  obtain ⟨r', hr'⟩ := Option.isSome_iff_exists.mp hsel
  have hfind := findIdentity_recorded_self hlink.distinct hr' ident ev.ts
  generalize hkept : keptRow ((setup cfg ev p).run s).2 (pidRowOf s p.exe) ident ev.ts = i
    at hfind
  have hval : i.value = ident.value := by
    have hkey := keptRow_key ((setup cfg ev p).run s).2 (pidRowOf s p.exe) ident ev.ts
    rw [hkept] at hkey
    exact (Prod.mk.inj (Prod.mk.inj hkey).2).2
  have hform : i.value ≠ "" ∧ i.status = IdentityStatus.valid.toDb ∨
      i.value = "" ∧ i.status = IdentityStatus.unreadable.toDb := by
    have hm := keptRow_mem ((setup cfg ev p).run s).2 (pidRowOf s p.exe) ident ev.ts
    rw [hkept] at hm
    rcases hm with hm | rfl
    · rw [tables_setup] at hm
      exact hs.formed i hm
    · exact formed_identityRow _ _ hsha _
  exact ⟨_, hfind, hval, status_of_formed hsha hform hval⟩

omit [F64 F] in
theorem bind_findIdentity_recorded_setup (hs : Identified s) (p : SocketProc)
    (ident : BinaryIdentity) {exe : String} (he : exe ≠ p.exe) :
    (idOf s exe).bind
        (findIdentity (recorded ((setup cfg ev p).run s).2 (pidRowOf s p.exe) ident ev.ts)) =
      (idOf s exe).bind (findIdentity s) := by
  have hlink : Linked ((setup cfg ev p).run s).2 := (setup_linked hs.linked).run.1
  cases hx : idOf s exe with
  | none => rfl
  | some q =>
    exact (findIdentity_recorded_of_ne hlink (hs.coherent.pidRowOf_ne hx he) _ _).trans
      (findIdentity_setup cfg ev p s q)

/-- An event overwrites what is observed of its own executable. -/
theorem observed_evaluateFull (hs : Identified s) (hsha : ∀ i ∈ ev.identity, IsSha256 i)
    (exe : String) :
    observed ((evaluateFull cfg ev).run s).2 exe =
      ((identityOf exe ev).map fun i => (i.value, i.status)).or (observed s exe) := by
  cases hp : ev.proc with
  | none =>
    have ht := (prepare_tables cfg ev).run s
    rw [run_evaluateFull_of_none cfg hp, observed, observed, baselineOf_eq, baselineOf_eq, (sameRecords_prepare cfg ev s).idOf,
      identityOf, hp]
    simp only [findIdentity_congr ht, Option.map_none, Option.none_or]
  | some p =>
    have ht := tables_evaluateFull cfg hp s
    have hid := (records_evaluateFull cfg hp s).1 exe
    have hsame : ∀ q, findIdentity ((setup cfg ev p).run s).2 q = findIdentity s q :=
      findIdentity_setup cfg ev p s
    rw [observed, observed, baselineOf_eq, baselineOf_eq, hid, identityOf, hp]
    cases hi : ev.identity with
    | none =>
      rw [hi] at ht
      simp only [findIdentity_congr ht, hsame, ite_self, Option.map_none, Option.none_or]
      by_cases he : exe = p.exe
      · subst he
        rw [if_pos rfl]
        exact congrArg _ (baselineOf_eq s p.exe)
      · rw [if_neg he]
    | some ident =>
      rw [hi] at ht
      simp only [findIdentity_congr ht]
      by_cases he : exe = p.exe
      · subst he
        obtain ⟨found, hfound, hvalue, hstatus⟩ :=
          @findIdentity_recorded_setup _ s cfg ev hs p ident (hsha ident hi)
        rw [if_pos rfl, if_pos rfl, Option.bind_some, hfound]
        exact congrArg some (Prod.ext hvalue hstatus)
      · rw [if_neg he, if_neg (Ne.symm he), bind_findIdentity_recorded_setup hs p ident he]
        rfl

end Evaluate

section Runs

variable [F64 F] {calls : List (EvalCall F)}

/-- The last readable value that the outbound events have shown of an executable. -/
def lastReadable (exe : String) (calls : List (EvalCall F)) : Option String :=
  (calls.filterMap fun c =>
    if c.ev.outbound then
      ((identityOf exe c.ev).filter (·.status = .valid)).map BinaryIdentity.value
    else none).getLast?

/-- The last observation of an executable, readable or not and of either direction. -/
def lastObserved (exe : String) (calls : List (EvalCall F)) : Option (String × IdentityStatus) :=
  ((calls.filterMap fun c => identityOf exe c.ev).map fun i => (i.value, i.status)).getLast?

theorem observed_runEvals (hf : ∀ c ∈ calls, c.fault = none)
    (hsha : ∀ c ∈ calls, ∀ i ∈ c.ev.identity, IsSha256 i) (exe : String) :
    observed (runEvals (openNew : Store F) calls) exe = lastObserved exe calls := by
  have hrun (s : Store F) (c : EvalCall F) (hc : c.fault = none) :
      (c.attempt s).2 = ((evaluateFull c.cfg c.ev).run s).2 := by
    rw [EvalCall.attempt, hc]
    rfl
  have hreg := foldl_register (f := fun s (c : EvalCall F) => (c.attempt s).2)
    (g := fun s => observed s exe)
    (w := fun c => (identityOf exe c.ev).map fun i => (i.value, i.status)) (I := Identified)
    (P := fun c => c.fault = none ∧ ∀ i ∈ c.ev.identity, IsSha256 i)
    (fun s c hs hc => hrun s c hc.1 ▸ identified_evaluateFull hs hc.2)
    (fun s c hs hc => by simp only [hrun s c hc.1, observed_evaluateFull hs hc.2])
    (fun c hc => ⟨hf c hc, hsha c hc⟩) identified_openNew
  have hnone : observed (openNew : Store F) exe = none := rfl
  rw [hnone, Option.or_none] at hreg
  rw [runEvals, hreg, lastObserved, List.map_filterMap]

/-- A replaced binary is reported exactly when no observation in between, unreadable or of
the other direction, has taken the place of the old identity. -/
theorem reportsChange_iff_baseline {cfg : AlertConfig F} {ev : FlowEvent} {p : SocketProc}
    {ident : BinaryIdentity} (hp : ev.proc = some p) (hi : ev.identity = some ident)
    (hk : ident.kind = .sha256) (hv : ident.status = .valid)
    (hact : activeAt cfg ev (runEvals openNew calls) = true) (hout : ev.outbound = true)
    (hcool : inCooldown ((runEvals openNew calls).lastAlertTs (identityKey p.exe ident.value))
      ev.ts (cooldownMs cfg) = false) :
    (((∃ v ∈ lastReadable p.exe calls, v ≠ ident.value) →
        ReportsChange ((evaluateFull cfg ev).run (runEvals openNew calls)).1.alerts p.exe
          ident.value) ↔
      ((∃ v ∈ lastReadable p.exe calls, v ≠ ident.value) →
        ∃ o ∈ observed (runEvals openNew calls) p.exe,
          o.2 ≠ .unreadable ∧ o.1 ≠ ident.value)) ∧
      ((∀ c ∈ calls, c.fault = none) →
        (∀ c ∈ calls, ∀ i ∈ c.ev.identity, IsSha256 i) →
        observed (runEvals openNew calls) p.exe = lastObserved p.exe calls) := by
  refine ⟨imp_congr_right fun _ => ?_, fun hf hsha => observed_runEvals hf hsha _⟩
  rw [reportsChange_iff hp hi hk hv hact hout hcool, observed]
  cases baselineOf (runEvals openNew calls) p.exe <;> simp

end Runs

section Updater

/-- An updated server: its first connection out, one in, and one out again. -/
def updaterEvent (ts : ℤ) (outbound : Bool) (value : String) : FlowEvent :=
  { serverEvent ts outbound with
    identity := some ⟨utf8Bytes "/usr/bin/srv", .sha256, value, none, none, none, .valid⟩ }

/-- The binary is replaced between the connection out and the one in. -/
def updaterCalls : List (EvalCall ℚ) :=
  [⟨.demo, { serverEvent 0 false with proc := none }, none⟩,
    ⟨.demo, updaterEvent 5000 true "aa", none⟩, ⟨.demo, updaterEvent 5001 false "bb", none⟩]

theorem reportsChange_iff_baseline_updater :
    (((∃ v ∈ lastReadable "/usr/bin/srv" updaterCalls, v ≠ "bb") →
        ReportsChange ((evaluateFull .demo (updaterEvent 5002 true "bb")).run
          (runEvals openNew updaterCalls)).1.alerts "/usr/bin/srv" "bb") ↔
      ((∃ v ∈ lastReadable "/usr/bin/srv" updaterCalls, v ≠ "bb") →
        ∃ o ∈ observed (runEvals openNew updaterCalls) "/usr/bin/srv",
          o.2 ≠ .unreadable ∧ o.1 ≠ "bb")) ∧
      ((∀ c ∈ updaterCalls, c.fault = none) →
        (∀ c ∈ updaterCalls, ∀ i ∈ c.ev.identity, IsSha256 i) →
        observed (runEvals openNew updaterCalls) "/usr/bin/srv" =
          lastObserved "/usr/bin/srv" updaterCalls) :=
  @reportsChange_iff_baseline ℚ _ updaterCalls .demo (updaterEvent 5002 true "bb")
    ⟨7, "srv", some "/usr/bin/srv"⟩ _ rfl rfl rfl rfl (by decide) rfl (by decide)

/-- The new binary calls out unreported: the connection in has made it the baseline. -/
theorem updater_not_reported :
    activeAt .demo (updaterEvent 5002 true "bb") (runEvals openNew updaterCalls) = true ∧
      inCooldown ((runEvals openNew updaterCalls).lastAlertTs (identityKey "/usr/bin/srv" "bb"))
        5002 (cooldownMs (.demo : AlertConfig ℚ)) = false ∧
      lastReadable "/usr/bin/srv" updaterCalls = some "aa" ∧
      ¬ ReportsChange ((evaluateFull .demo (updaterEvent 5002 true "bb")).run
        (runEvals openNew updaterCalls)).1.alerts "/usr/bin/srv" "bb" := by
  have hact : activeAt .demo (updaterEvent 5002 true "bb") (runEvals openNew updaterCalls) =
      true := by decide
  have hcool : inCooldown
      ((runEvals openNew updaterCalls).lastAlertTs (identityKey "/usr/bin/srv" "bb")) 5002
      (cooldownMs (.demo : AlertConfig ℚ)) = false := by decide
  refine ⟨hact, hcool, by decide, ?_⟩
  have hobs : observed (runEvals openNew updaterCalls) "/usr/bin/srv" = some ("bb", .valid) := by
    rw [observed_runEvals (by simp [updaterCalls]) (by
      simp [updaterCalls, updaterEvent, serverEvent, IsSha256])]
    decide
  have hiff := @reportsChange_iff ℚ _ _ .demo (updaterEvent 5002 true "bb")
    ⟨7, "srv", some "/usr/bin/srv"⟩ _ rfl rfl rfl rfl hact rfl hcool
  intro hrep
  obtain ⟨base, hbase, -, hne⟩ := hiff.mp hrep
  rw [observed] at hobs
  have hb : baselineOf (runEvals openNew updaterCalls) "/usr/bin/srv" = some base := hbase
  rw [hb] at hobs
  exact hne (Prod.mk.inj (Option.some.inj hobs)).1

end Updater

end Pktscope.AlertEngine

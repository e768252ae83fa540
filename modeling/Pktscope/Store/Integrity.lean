import Pktscope.Library.Constraints
import Pktscope.Store.Queries

/-! # The integrity of the store

The constraints of the schema: every table keeps its row ids and its unique
columns apart, and every reference names a row that is there. The database would
refuse a statement that breaks one; the operations never issue such a statement
where their arguments are rows of the store.
-/

namespace Pktscope.Store

open Library Library.Prog Library.Sql

variable {F : Type}

def processIds (s : Store F) : List ℕ := s.processes.map ProcessRow.id

def destIds (s : Store F) : List ℕ := s.destinations.map DestRow.id

/-- The unique columns of the schema, and its row ids. -/
structure Keyed (s : Store F) : Prop where
  processes : Numbered ProcessRow.id s.processes
  exePaths : Distinct ProcessRow.exePath s.processes
  identities : Numbered IdentityRow.id s.identities
  identityKeys : Distinct IdentityRow.key s.identities
  destinations : Numbered DestRow.id s.destinations
  ips : Distinct DestRow.ip s.destinations
  names : Distinct (fun r : NameRow => (r.ip, r.name, r.source)) s.names
  pairs : Numbered PairRow.id s.pairs
  pairKeys : Distinct (fun r : PairRow => (r.processId, r.destId)) s.pairs
  countries : Distinct CountryRow.key s.countries
  asns : Distinct AsnRow.key s.asns
  labels : Distinct LabelRow.key s.labels
  connections : Numbered ConnectionRow.id s.connections
  alerts : Numbered AlertRow.id s.alerts

/-- The references of the schema, and the one from a process to its current identity. -/
structure Referring (s : Store F) : Prop where
  current : ∀ p ∈ s.processes, ∀ i ∈ p.curIdentityId,
    ∃ r ∈ s.identities, r.id = i ∧ r.processId = p.id
  identities : Refers (fun r : IdentityRow => some r.processId) s.identities s.processIds
  pairProcesses : Refers (fun r : PairRow => some r.processId) s.pairs s.processIds
  pairDests : Refers (fun r : PairRow => some r.destId) s.pairs s.destIds
  countries : Refers (fun r : CountryRow => some r.processId) s.countries s.processIds
  asns : Refers (fun r : AsnRow => some r.processId) s.asns s.processIds
  labels : Refers (fun r : LabelRow => some r.processId) s.labels s.processIds
  volumes : ∀ i ∈ s.volumes.keys, i ∈ s.processIds
  connectionProcesses : Refers ConnectionRow.processId s.connections s.processIds
  connectionDests : Refers ConnectionRow.destId s.connections s.destIds
  alertProcesses : Refers AlertRow.processId s.alerts s.processIds
  alertDests : Refers AlertRow.destId s.alerts s.destIds

/-- A store that meets every constraint of its schema. -/
structure Intact (s : Store F) : Prop where
  keyed : Keyed s
  referring : Referring s

theorem intact_openNew : Intact (openNew : Store F) where
  keyed := by constructor <;> exact List.Pairwise.nil
  referring := by
    constructor
    case volumes => exact fun i hi => nomatch hi
    all_goals exact fun r hr => nomatch hr

/-- The second store has all processes and destinations of the first one. -/
structure Extends (s t : Store F) : Prop where
  processes : s.processIds ⊆ t.processIds
  dests : s.destIds ⊆ t.destIds

instance : Std.Refl (Extends (F := F)) := ⟨fun _ => ⟨List.Subset.refl _, List.Subset.refl _⟩⟩

instance : IsTrans (Store F) Extends :=
  ⟨fun _ _ _ h h' => ⟨fun _ hi => h'.processes (h.processes hi), fun _ hi => h'.dests (h.dests hi)⟩⟩

/-- An intact store with a row for a process and one for a destination. -/
structure Seats (pidRow destId : ℕ) (s : Store F) : Prop where
  intact : Intact s
  process : pidRow ∈ s.processIds
  dest : destId ∈ s.destIds

section Statements

variable {s : Store F} {pidRow destId : ℕ}

theorem processIds_update (s : Store F) (k : ℕ) {f : ProcessRow → ProcessRow}
    (hf : ∀ r, (f r).id = r.id) :
    ({ s with processes := update ProcessRow.id k f s.processes } : Store F).processIds =
      s.processIds := map_update hf s.processes k

theorem destIds_update (s : Store F) (k : ℕ) {f : DestRow → DestRow} (hf : ∀ r, (f r).id = r.id) :
    ({ s with destinations := update DestRow.id k f s.destinations } : Store F).destIds =
      s.destIds := map_update hf s.destinations k

/-- Meta rows and the names seen are under no reference. -/
theorem Intact.withMeta (h : Intact s) (x : AList fun _ : String => String) :
    Intact { s with metaRows := x } :=
  ⟨{ h.keyed with }, { h.referring with }⟩

theorem Intact.addName (h : Intact s) (r : NameRow) :
    Intact { s with
      names := insertOrIgnore (fun r => (r.ip, r.name, r.source)) r s.names } :=
  ⟨{ h.keyed with names := h.keyed.names.insertOrIgnore }, { h.referring with }⟩

/-- A process changes in place; its current identity, if any, is its own. -/
theorem Intact.updateProcess (h : Intact s) (k : ℕ) {f : ProcessRow → ProcessRow}
    (hid : ∀ r, (f r).id = r.id) (hexe : ∀ r, (f r).exePath = r.exePath)
    (hcur : ∀ r ∈ s.processes, r.id = k → ∀ i ∈ (f r).curIdentityId,
      ∃ q ∈ s.identities, q.id = i ∧ q.processId = r.id) :
    Intact { s with processes := update ProcessRow.id k f s.processes } where
  keyed := { h.keyed with
    processes := h.keyed.processes.update hid k
    exePaths := h.keyed.exePaths.update hexe k }
  referring := by
    have hids := processIds_update s k hid
    have hr := h.referring
    refine { hr with
      current := ?_
      identities := hids.symm ▸ hr.identities
      pairProcesses := hids.symm ▸ hr.pairProcesses
      countries := hids.symm ▸ hr.countries
      asns := hids.symm ▸ hr.asns
      labels := hids.symm ▸ hr.labels
      volumes := hids.symm ▸ hr.volumes
      connectionProcesses := hids.symm ▸ hr.connectionProcesses
      alertProcesses := hids.symm ▸ hr.alertProcesses }
    rintro p hp i hi
    obtain ⟨q, hq, rfl⟩ := mem_update hp
    by_cases hk : q.id = k
    · rw [if_pos hk] at hi ⊢
      simpa [hid] using hcur q hq hk i hi
    · rw [if_neg hk] at hi ⊢
      exact hr.current q hq i hi

theorem Intact.addProcess (h : Intact s) {r : ProcessRow}
    (hid : r.id = nextRowid ProcessRow.id s.processes)
    (hexe : select ProcessRow.exePath r.exePath s.processes = none) (hcur : r.curIdentityId = none) :
    Intact { s with processes := s.processes ++ [r] } where
  keyed := { h.keyed with
    processes := h.keyed.processes.concat hid
    exePaths := h.keyed.exePaths.concat hexe }
  referring := by
    have hids : s.processIds ⊆ ({ s with processes := s.processes ++ [r] } : Store F).processIds :=
      List.map_subset _ (List.subset_append_left _ _)
    have hr := h.referring
    refine { hr with
      current := ?_
      identities := hr.identities.mono hids
      pairProcesses := hr.pairProcesses.mono hids
      countries := hr.countries.mono hids
      asns := hr.asns.mono hids
      labels := hr.labels.mono hids
      volumes := fun i hi => hids (hr.volumes i hi)
      connectionProcesses := hr.connectionProcesses.mono hids
      alertProcesses := hr.alertProcesses.mono hids }
    rintro p hp i hi
    rcases List.mem_append.mp hp with hp | hp
    · exact hr.current p hp i hi
    · rw [List.mem_singleton.mp hp, hcur] at hi
      cases hi

theorem Intact.updateDest (h : Intact s) (k : ℕ) {f : DestRow → DestRow}
    (hid : ∀ r, (f r).id = r.id) (hip : ∀ r, (f r).ip = r.ip) :
    Intact { s with destinations := update DestRow.id k f s.destinations } where
  keyed := { h.keyed with
    destinations := h.keyed.destinations.update hid k
    ips := h.keyed.ips.update hip k }
  referring := by
    have hids := destIds_update s k hid
    have hr := h.referring
    exact { hr with
      pairDests := hids.symm ▸ hr.pairDests
      connectionDests := hids.symm ▸ hr.connectionDests
      alertDests := hids.symm ▸ hr.alertDests }

theorem Intact.addDest (h : Intact s) {r : DestRow}
    (hid : r.id = nextRowid DestRow.id s.destinations)
    (hip : select DestRow.ip r.ip s.destinations = none) :
    Intact { s with destinations := s.destinations ++ [r] } where
  keyed := { h.keyed with
    destinations := h.keyed.destinations.concat hid
    ips := h.keyed.ips.concat hip }
  referring := by
    have hids : s.destIds ⊆ ({ s with destinations := s.destinations ++ [r] } : Store F).destIds :=
      List.map_subset _ (List.subset_append_left _ _)
    have hr := h.referring
    exact { hr with
      pairDests := hr.pairDests.mono hids
      connectionDests := hr.connectionDests.mono hids
      alertDests := hr.alertDests.mono hids }

theorem Intact.addIdentity (h : Intact s) {r : IdentityRow}
    (hid : r.id = nextRowid IdentityRow.id s.identities) (hp : r.processId ∈ s.processIds) :
    Intact { s with identities := insertOrIgnore IdentityRow.key r s.identities } where
  keyed := { h.keyed with
    identities := h.keyed.identities.insertOrIgnore hid
    identityKeys := h.keyed.identityKeys.insertOrIgnore }
  referring := { h.referring with
    current := by
      rintro p hm i hi
      obtain ⟨q, hq, hqi⟩ := h.referring.current p hm i hi
      exact ⟨q, subset_insertOrIgnore hq, hqi⟩
    identities := h.referring.identities.insertOrIgnore (by simpa using hp) }

theorem Intact.updatePair (h : Intact s) (k : ℕ) {f : PairRow → PairRow}
    (hid : ∀ r, (f r).id = r.id) (hp : ∀ r, (f r).processId = r.processId)
    (hd : ∀ r, (f r).destId = r.destId) :
    Intact { s with pairs := update PairRow.id k f s.pairs } where
  keyed := { h.keyed with
    pairs := h.keyed.pairs.update hid k
    pairKeys := h.keyed.pairKeys.update (fun r => by rw [hp, hd]) k }
  referring := { h.referring with
    pairProcesses := h.referring.pairProcesses.update (fun r => by rw [hp]) k
    pairDests := h.referring.pairDests.update (fun r => by rw [hd]) k }

theorem Intact.addPair (h : Intact s) {r : PairRow} (hid : r.id = nextRowid PairRow.id s.pairs)
    (hkey : select (fun r : PairRow => (r.processId, r.destId)) (r.processId, r.destId) s.pairs = none)
    (hp : r.processId ∈ s.processIds) (hd : r.destId ∈ s.destIds) :
    Intact { s with pairs := s.pairs ++ [r] } where
  keyed := { h.keyed with
    pairs := h.keyed.pairs.concat hid
    pairKeys := h.keyed.pairKeys.concat hkey }
  referring := { h.referring with
    pairProcesses := h.referring.pairProcesses.concat (by simpa using hp)
    pairDests := h.referring.pairDests.concat (by simpa using hd) }

theorem Intact.addCountry (h : Intact s) {r : CountryRow} (hp : r.processId ∈ s.processIds) :
    Intact { s with countries := insertOrIgnore CountryRow.key r s.countries } :=
  ⟨{ h.keyed with countries := h.keyed.countries.insertOrIgnore },
    { h.referring with countries := h.referring.countries.insertOrIgnore (by simpa using hp) }⟩

theorem Intact.addAsn (h : Intact s) {r : AsnRow} (hp : r.processId ∈ s.processIds) :
    Intact { s with asns := insertOrIgnore AsnRow.key r s.asns } :=
  ⟨{ h.keyed with asns := h.keyed.asns.insertOrIgnore },
    { h.referring with asns := h.referring.asns.insertOrIgnore (by simpa using hp) }⟩

theorem Intact.addLabel (h : Intact s) {r : LabelRow} (hp : r.processId ∈ s.processIds) :
    Intact { s with labels := insertOrIgnore LabelRow.key r s.labels } :=
  ⟨{ h.keyed with labels := h.keyed.labels.insertOrIgnore },
    { h.referring with labels := h.referring.labels.insertOrIgnore (by simpa using hp) }⟩

theorem Intact.setVolume (h : Intact s) {i : ℕ} (hi : i ∈ s.processIds) (v : VolumeStat F) :
    Intact { s with volumes := s.volumes.insert i v } where
  keyed := { h.keyed with }
  referring := { h.referring with
    volumes := by
      rintro j hj
      rw [AList.keys_insert, List.mem_cons] at hj
      rcases hj with rfl | hj
      · exact hi
      · exact h.referring.volumes j (List.mem_of_mem_erase hj) }

theorem Intact.addConnection (h : Intact s) {r : ConnectionRow}
    (hid : r.id = nextRowid ConnectionRow.id s.connections)
    (hp : ∀ i ∈ r.processId, i ∈ s.processIds) (hd : ∀ i ∈ r.destId, i ∈ s.destIds) :
    Intact { s with connections := s.connections ++ [r] } :=
  ⟨{ h.keyed with connections := h.keyed.connections.concat hid },
    { h.referring with
      connectionProcesses := h.referring.connectionProcesses.concat hp
      connectionDests := h.referring.connectionDests.concat hd }⟩

theorem Intact.addAlert (h : Intact s) {r : AlertRow F}
    (hid : r.id = nextRowid AlertRow.id s.alerts)
    (hp : ∀ i ∈ r.processId, i ∈ s.processIds) (hd : ∀ i ∈ r.destId, i ∈ s.destIds) :
    Intact { s with alerts := s.alerts ++ [r] } :=
  ⟨{ h.keyed with alerts := h.keyed.alerts.concat hid },
    { h.referring with
      alertProcesses := h.referring.alertProcesses.concat hp
      alertDests := h.referring.alertDests.concat hd }⟩

theorem Intact.filterConnections (h : Intact s) (q : ConnectionRow → Bool) :
    Intact { s with connections := s.connections.filter q } :=
  ⟨{ h.keyed with connections := h.keyed.connections.filter q },
    { h.referring with
      connectionProcesses := h.referring.connectionProcesses.filter q
      connectionDests := h.referring.connectionDests.filter q }⟩

theorem Intact.filterAlerts (h : Intact s) (q : AlertRow F → Bool) :
    Intact { s with alerts := s.alerts.filter q } :=
  ⟨{ h.keyed with alerts := h.keyed.alerts.filter q },
    { h.referring with
      alertProcesses := h.referring.alertProcesses.filter q
      alertDests := h.referring.alertDests.filter q }⟩

end Statements

section Operations

variable {s : Store F} {pidRow destId : ℕ}

theorem upsertProcess_intact (h : Intact s) (exe name : String) (ts : ℤ) :
    (upsertProcess exe name ts).Holds Intact
      (fun up t => Intact t ∧ up.id ∈ t.processIds) s := by
  unfold upsertProcess
  rw [holds_bind, holds_query]
  refine ⟨h, h, ?_⟩
  cases hsel : select ProcessRow.exePath exe s.processes with
  | some r =>
    have hr := mem_of_select hsel
    have ht := h.updateProcess r.id (f := fun r => { r with lastSeenMs := ts, name })
      (fun _ => rfl) (fun _ => rfl) fun q hq _ i hi => h.referring.current q hq i hi
    refine ⟨h, ht, ht, ?_⟩
    rw [processIds_update]
    · exact List.mem_map_of_mem hr
    · exact fun _ => rfl
  | none =>
    have ht := h.addProcess (r := ⟨_, exe, name, ts, ts, none⟩) rfl hsel rfl
    exact ⟨h, ht, ht, List.mem_map_of_mem (List.mem_append_right _ (List.mem_singleton_self _))⟩

theorem upsertDestination_intact (h : Intact s) (ip : IpAddr) (name : Option String)
    (geo : GeoInfo) (ts : ℤ) :
    (upsertDestination ip name geo ts).Holds Intact
      (fun destId t => Intact t ∧ destId ∈ t.destIds) s := by
  unfold upsertDestination
  rw [holds_bind, holds_query]
  refine ⟨h, h, ?_⟩
  cases hsel : select DestRow.ip ip.display s.destinations with
  | some r =>
    have hr := mem_of_select hsel
    have ht := h.updateDest r.id (f := fun r => { r with
        lastSeenMs := ts
        bestName := name.or r.bestName
        asn := geo.asn.or r.asn
        asOrg := geo.asOrg.or r.asOrg
        country := geo.country.or r.country }) (fun _ => rfl) fun _ => rfl
    refine ⟨h, ht, ht, ?_⟩
    rw [destIds_update]
    · exact List.mem_map_of_mem hr
    · exact fun _ => rfl
  | none =>
    have ht := h.addDest (r := ⟨_, ip.display, name, geo.asn, geo.asOrg, geo.country, ts, ts⟩) rfl
      hsel
    exact ⟨h, ht, ht, List.mem_map_of_mem (List.mem_append_right _ (List.mem_singleton_self _))⟩

theorem Seats.setCurrent (h : Seats pidRow destId s) {id : Option ℕ}
    (hid : ∀ i ∈ id, ∃ r ∈ s.identities, r.id = i ∧ r.processId = pidRow) :
    Seats pidRow destId { s with
      processes := update ProcessRow.id pidRow (fun r => { r with curIdentityId := id })
        s.processes } where
  intact := h.intact.updateProcess pidRow (fun _ => rfl) (fun _ => rfl)
    fun _ _ hq i hi => hq ▸ hid i hi
  process := by
    rw [processIds_update]
    · exact h.process
    · exact fun _ => rfl
  dest := h.dest

/-- The identity that becomes current is one of the process itself. -/
theorem own_identity (ident : BinaryIdentity) (t : List IdentityRow) :
    ∀ i ∈ (select IdentityRow.key (pidRow, ident.kind.toDb, ident.value) t).map IdentityRow.id,
      ∃ r ∈ t, r.id = i ∧ r.processId = pidRow := by
  rintro i hi
  obtain ⟨r, hr, rfl⟩ := Option.map_eq_some_iff.mp hi
  exact ⟨r, mem_of_select hr, rfl, congrArg Prod.fst (key_of_select hr)⟩

theorem recordIdentity_seats (h : Seats pidRow destId s) (ident : BinaryIdentity) (ts : ℤ) :
    (recordIdentity pidRow ident ts).Holds (Seats pidRow destId) (fun _ => Seats pidRow destId)
      s := by
  have hrow : Seats pidRow destId { s with
      identities := insertOrIgnore IdentityRow.key (identityRow s pidRow ident ts) s.identities } :=
    ⟨h.intact.addIdentity rfl h.process, h.process, h.dest⟩
  unfold recordIdentity
  rw [holds_bind, holds_exec]
  have ht := hrow.setCurrent (own_identity ident _)
  exact ⟨h, hrow, hrow, hrow, ht, ht⟩

theorem touchPair_seats (h : Seats pidRow destId s) (ts : ℤ) :
    (touchPair pidRow destId ts).Holds (Seats pidRow destId) (fun _ => Seats pidRow destId) s := by
  unfold touchPair
  rw [holds_bind, holds_query]
  refine ⟨h, h, ?_⟩
  cases hsel : select (fun r : PairRow => (r.processId, r.destId)) (pidRow, destId) s.pairs with
  | some r =>
    have ht : Seats pidRow destId _ := ⟨h.intact.updatePair r.id
      (f := fun r => { r with lastSeenMs := ts, connCount := r.connCount + 1 }) (fun _ => rfl)
      (fun _ => rfl) fun _ => rfl, h.process, h.dest⟩
    exact ⟨h, ht, ht⟩
  | none =>
    have ht : Seats pidRow destId _ := ⟨h.intact.addPair (r := ⟨_, pidRow, destId, ts, ts, 1⟩) rfl
      hsel h.process h.dest, h.process, h.dest⟩
    exact ⟨h, ht, ht⟩

theorem insertAlert_seats (h : Seats pidRow destId s) {alert : Alert F}
    (hp : alert.processId = some pidRow) (hd : alert.destId = some destId) (cooldown : ℤ) :
    (insertAlert alert cooldown).Holds (Seats pidRow destId) (fun _ => Seats pidRow destId) s := by
  unfold insertAlert
  rw [holds_bind, holds_query]
  refine ⟨h, h, ?_⟩
  split
  · exact ⟨h, h⟩
  · have ht : Seats pidRow destId { s with alerts := s.alerts ++ [s.alertRow alert] } := by
      refine ⟨h.intact.addAlert rfl ?_ ?_, h.process, h.dest⟩
      · rintro i hi
        rw [alertRow, hp] at hi
        exact Option.some.inj hi ▸ h.process
      · rintro i hi
        rw [alertRow, hd] at hi
        exact Option.some.inj hi ▸ h.dest
    exact ⟨h, ht, ht⟩

theorem insertConnection_intact (h : Intact s) {row : ConnectionRow}
    (hp : ∀ i ∈ row.processId, i ∈ s.processIds) (hd : ∀ i ∈ row.destId, i ∈ s.destIds) :
    (insertConnection row).Holds Intact (fun _ => Intact) s := by
  have ht := h.addConnection (r := { row with id := nextRowid ConnectionRow.id s.connections }) rfl
    hp hd
  exact ⟨h, ht, ht⟩

/-- Nothing refers to what a sweep deletes. -/
theorem deleteOlderThan_intact (h : Intact s) (beforeMs : ℤ) :
    (deleteOlderThan beforeMs).Holds Intact (fun _ => Intact) s := by
  have hconn := h.filterConnections fun c => !decide (c.tsStartMs < beforeMs)
  have halerts := hconn.filterAlerts fun a => !decide (a.tsMs < beforeMs)
  exact ⟨h, hconn, halerts, halerts⟩

end Operations

section Growth

theorem extends_of_eq {s t : Store F} (hp : t.processIds = s.processIds)
    (hd : t.destIds = s.destIds) : Extends s t :=
  ⟨hp ▸ List.Subset.refl _, hd ▸ List.Subset.refl _⟩

theorem upsertProcess_extends (exe name : String) (ts : ℤ) :
    (upsertProcess exe name ts : StoreM F ProcessUpsert).Within Extends := by
  refine within_bind (within_query _) fun found => ?_
  cases found with
  | some id =>
    refine within_bind (within_exec fun s => ?_) fun _ => trivial
    exact extends_of_eq (processIds_update s id fun _ => rfl) rfl
  | none =>
    refine within_bind (within_exec fun s => ⟨?_, List.Subset.refl _⟩) fun _ => trivial
    exact List.map_subset _ (List.subset_append_left _ _)

theorem upsertDestination_extends (ip : IpAddr) (name : Option String) (geo : GeoInfo) (ts : ℤ) :
    (upsertDestination ip name geo ts : StoreM F ℕ).Within Extends := by
  refine within_bind (within_query _) fun found => ?_
  cases found with
  | some id =>
    refine within_bind (within_exec fun s => ?_) fun _ => trivial
    exact extends_of_eq rfl (destIds_update s id fun _ => rfl)
  | none =>
    refine within_exec fun s => ⟨List.Subset.refl _, ?_⟩
    exact List.map_subset _ (List.subset_append_left _ _)

/-- The rows that references name. -/
def referents (s : Store F) : List ℕ × List ℕ := (s.processIds, s.destIds)

theorem extends_of_keeps {α : Type} {p : StoreM F α} (h : Keeps referents p) : p.Within Extends :=
  h.mono fun _ _ ht => extends_of_eq (congrArg Prod.fst ht) (congrArg Prod.snd ht)

end Growth

end Pktscope.Store

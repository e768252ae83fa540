import Pktscope.Enrich.Names
import Pktscope.Library.Text
import Pktscope.Process.Identity
import Pktscope.Store.Tables

/-! # Store operations

The operations of the store, statement by statement, each with the equation of
its run without failure.
-/

namespace Pktscope.Store

open Library Library.Prog Library.Sql

variable {F : Type}

section Meta

def metaGet (key : String) : StoreM F (Option String) := query fun s => s.metaRows.lookup key

def metaSet (key value : String) : StoreM F Unit :=
  write fun s => { s with metaRows := s.metaRows.insert key value }

/-- A stored integer; text that is no `i64` reads as absent. -/
def readI64 (text : Option String) : Option ℤ :=
  (text.bind parseInt).filter fun n => decide (I64.InRange n)

def metaGetI64 (key : String) : StoreM F (Option ℤ) := do
  return readI64 (← metaGet key)

def readBaselineState (text : Option String) : BaselineState :=
  if text = some "active" then .active else .learning

def baselineState : StoreM F BaselineState := do
  return readBaselineState (← metaGet "baseline_state")

theorem readI64_toString {n : ℤ} (h : I64.InRange n) : readI64 (some (toString n)) = some n := by
  simp [readI64, parseInt_toString, h, -Int.toString_eq_repr]

end Meta

section Processes

def upsertProcess (exePath name : String) (ts : ℤ) : StoreM F ProcessUpsert := do
  match ← query fun s => (select ProcessRow.exePath exePath s.processes).map ProcessRow.id with
  | some id =>
    write fun s => { s with
      processes := update ProcessRow.id id (fun r => { r with lastSeenMs := ts, name }) s.processes }
    return ⟨id, false⟩
  | none =>
    let id ← exec (fun s => nextRowid ProcessRow.id s.processes) fun s => { s with
      processes := s.processes ++ [{
        id := nextRowid ProcessRow.id s.processes
        exePath
        name
        firstSeenMs := ts
        lastSeenMs := ts
        curIdentityId := none }] }
    return ⟨id, true⟩

def identityRow (s : Store F) (processId : ℕ) (ident : BinaryIdentity) (ts : ℤ) : IdentityRow where
  id := nextRowid IdentityRow.id s.identities
  processId := processId
  kind := ident.kind.toDb
  value := ident.value
  signingId := ident.signingId
  teamId := ident.teamId
  authority := ident.authority
  status := ident.status.toDb
  firstSeenMs := ts

/-- Record an identity and make it the process's current one; tell whether it is new. -/
def recordIdentity (processId : ℕ) (ident : BinaryIdentity) (ts : ℤ) : StoreM F Bool := do
  let key := (processId, ident.kind.toDb, ident.value)
  let inserted ← exec (fun s => (select IdentityRow.key key s.identities).isNone) fun s => { s with
    identities := insertOrIgnore IdentityRow.key (identityRow s processId ident ts) s.identities }
  -- The row is there, inserted now or kept from before.
  let id ← query fun s => (select IdentityRow.key key s.identities).map IdentityRow.id
  write fun s => { s with
    processes := update ProcessRow.id processId (fun r => { r with curIdentityId := id })
      s.processes }
  return inserted

/-- The join of a process with its current identity. -/
def findIdentity (s : Store F) (processId : ℕ) : Option BinaryIdentity := do
  let p ← select ProcessRow.id processId s.processes
  let i ← select IdentityRow.id (← p.curIdentityId) s.identities
  return i.toIdentity p.exePath

def currentIdentity (processId : ℕ) : StoreM F (Option BinaryIdentity) :=
  query fun s => findIdentity s processId

end Processes

section Destinations

def upsertDestination (ip : IpAddr) (name : Option String) (geo : GeoInfo) (ts : ℤ) :
    StoreM F ℕ := do
  let ipS := ip.display
  match ← query fun s => (select DestRow.ip ipS s.destinations).map DestRow.id with
  | some id =>
    write fun s => { s with
      destinations := update DestRow.id id (fun r => { r with
        lastSeenMs := ts
        bestName := name.or r.bestName
        asn := geo.asn.or r.asn
        asOrg := geo.asOrg.or r.asOrg
        country := geo.country.or r.country }) s.destinations }
    return id
  | none =>
    exec (fun s => nextRowid DestRow.id s.destinations) fun s => { s with
      destinations := s.destinations ++ [{
        id := nextRowid DestRow.id s.destinations
        ip := ipS
        bestName := name
        asn := geo.asn
        asOrg := geo.asOrg
        country := geo.country
        firstSeenMs := ts
        lastSeenMs := ts }] }

def touchPair (processId destId : ℕ) (ts : ℤ) : StoreM F PairUpsert := do
  let key := fun r : PairRow => (r.processId, r.destId)
  match ← query fun s => (select key (processId, destId) s.pairs).map PairRow.id with
  | some id =>
    write fun s => { s with
      pairs := update PairRow.id id
        (fun r => { r with lastSeenMs := ts, connCount := r.connCount + 1 }) s.pairs }
    return ⟨id, false⟩
  | none =>
    let id ← exec (fun s => nextRowid PairRow.id s.pairs) fun s => { s with
      pairs := s.pairs ++ [{
        id := nextRowid PairRow.id s.pairs
        processId
        destId
        firstSeenMs := ts
        lastSeenMs := ts
        connCount := 1 }] }
    return ⟨id, true⟩

/-- Whether a process already has a country, a network or a label. -/
def hasCountry (s : Store F) (processId : ℕ) (country : String) : Bool :=
  (select CountryRow.key (processId, country) s.countries).isSome

def hasAsn (s : Store F) (processId asn : ℕ) : Bool :=
  (select AsnRow.key (processId, asn) s.asns).isSome

def hasLabel (s : Store F) (processId : ℕ) (label : String) : Bool :=
  (select LabelRow.key (processId, label) s.labels).isSome

/-- Record a country for a process; tell whether it is new. -/
def noteCountry (processId : ℕ) (country : String) (ts : ℤ) : StoreM F Bool :=
  exec (fun s => !s.hasCountry processId country) fun s => { s with
    countries := insertOrIgnore CountryRow.key ⟨processId, country, ts⟩ s.countries }

def noteAsn (processId asn : ℕ) (asOrg : Option String) (ts : ℤ) : StoreM F Bool :=
  exec (fun s => !s.hasAsn processId asn) fun s => { s with
    asns := insertOrIgnore AsnRow.key ⟨processId, asn, asOrg, ts⟩ s.asns }

def noteLabel (processId : ℕ) (label : String) (ts : ℤ) : StoreM F Bool :=
  exec (fun s => !s.hasLabel processId label) fun s => { s with
    labels := insertOrIgnore LabelRow.key ⟨processId, label, ts⟩ s.labels }

end Destinations

section Volume

def getVolumeStat (processId : ℕ) : StoreM F (Option (VolumeStat F)) :=
  query fun s => s.volumes.lookup processId

def upsertVolumeStat (processId : ℕ) (v : VolumeStat F) : StoreM F Unit :=
  write fun s => { s with volumes := s.volumes.insert processId v }

end Volume

section History

def recordName (ip : IpAddr) (name source : String) (ts : ℤ) : StoreM F Unit :=
  write fun s => { s with
    names := insertOrIgnore (fun r => (r.ip, r.name, r.source)) ⟨ip.display, name, source, ts⟩
      s.names }

def insertConnection (c : ConnectionRow) : StoreM F ℕ :=
  exec (fun s => nextRowid ConnectionRow.id s.connections) fun s => { s with
    connections := s.connections ++ [{ c with id := nextRowid ConnectionRow.id s.connections }] }

/-- `SELECT MAX(ts_ms) FROM alerts WHERE dedup_key = key`. -/
def lastAlertTs (s : Store F) (key : String) : Option ℤ :=
  ((s.alerts.filter fun a => decide (a.dedupKey = key)).map AlertRow.tsMs).max?

/-- Whether an alert with the same key fired less than `cooldownMs` before `ts`. -/
def inCooldown (recent : Option ℤ) (ts cooldownMs : ℤ) : Bool :=
  match recent with
  | some prev => decide (I64.sub ts prev < cooldownMs)
  | none => false

def alertRow (s : Store F) (alert : Alert F) : AlertRow F where
  id := nextRowid AlertRow.id s.alerts
  kind := alert.kind.asDb
  severity := alert.severity.asDb
  tsMs := alert.ts
  processId := alert.processId
  destId := alert.destId
  dedupKey := alert.dedupKey
  title := alert.title
  detailJson := alert.detail

/-- Store an alert unless one with its key fired within the cooldown. -/
def insertAlert (alert : Alert F) (cooldownMs : ℤ) : StoreM F (Option ℕ) := do
  let recent ← query fun s => s.lastAlertTs alert.dedupKey
  if inCooldown recent alert.ts cooldownMs then
    return none
  else
    let id ← exec (fun s => nextRowid AlertRow.id s.alerts) fun s => { s with
      alerts := s.alerts ++ [s.alertRow alert] }
    return some id

/-- The retention sweep. -/
def deleteOlderThan (beforeMs : ℤ) : StoreM F Unit := do
  write fun s => { s with connections := s.connections.filter fun c => !decide (c.tsStartMs < beforeMs) }
  write fun s => { s with alerts := s.alerts.filter fun a => !decide (a.tsMs < beforeMs) }

end History

end Pktscope.Store

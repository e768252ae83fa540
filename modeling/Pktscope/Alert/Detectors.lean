import Pktscope.Alert.Baseline
import Pktscope.Flow.State

/-! # The five detectors

One event runs all detectors against the stored baseline. The baseline is
always updated; alerts are emitted only in the active state, subject to the
stored cooldown.
-/

namespace Pktscope

open Store

/-- One correlated flow observation. -/
structure FlowEvent where
  ts : ℤ
  key : FlowKey
  proc : Option SocketProc
  identity : Option BinaryIdentity
  destIp : IpAddr
  destPort : UInt16
  localPort : UInt16
  protocol : UInt8
  name : Option String
  geo : GeoInfo
  bytesUp : ℕ
  bytesDown : ℕ
  flowFirstSeen : Bool
  outbound : Bool

namespace FlowEvent

def destLabel (ev : FlowEvent) : String := ev.name.getD ev.destIp.display

/-- The organisation, else the registrable domain, else the address of the destination. -/
def stableLabel (ev : FlowEvent) : String :=
  match ev.geo.asOrg, ev.name with
  | some org, _ => org
  | none, some name => registrableDomainOf name
  | none, none => ev.destIp.display

end FlowEvent

/-- The key under which the store knows a process. -/
def SocketProc.exe (p : SocketProc) : String := p.exePath.getD s!"pid:{p.pid}"

structure EvalOutcome (F : Type) where
  alerts : List (Alert F)
  processId : Option ℕ
  destId : ℕ

/-- What the detectors know about the event's process and destination. -/
structure Subject where
  active : Bool
  proc : SocketProc
  pidRow : ℕ
  destId : ℕ

namespace AlertEngine

variable {F : Type} [F64 F]

def cooldownMs (cfg : AlertConfig F) : ℤ := cfg.cooldown.millisI64

/-- Store an alert, and add it to the fired ones unless it is in its cooldown. -/
def emit (cfg : AlertConfig F) (out : List (Alert F)) (alert : Alert F) :
    StoreM F (List (Alert F)) := do
  match ← insertAlert alert (cooldownMs cfg) with
  | some id => return out ++ [{ alert with id := some id }]
  | none => return out

section Alerts

variable (ev : FlowEvent) (sub : Subject)

def egressKey (exe : String) : String := s!"egress|{exe}"

def identityKey (exe value : String) : String := s!"identity|{exe}|{value}"

def destKey (pidRow : ℕ) (label : String) : String := s!"dest|{pidRow}|{label}"

def countryKey (pidRow : ℕ) (country : String) : String := s!"geo|{pidRow}|cc|{country}"

def asnKey (pidRow asn : ℕ) : String := s!"geo|{pidRow}|asn|{asn}"

def volumeKey (pidRow : ℕ) : String := s!"volume|{pidRow}"

/-- An alert about the event's process and destination. -/
def alertOf (kind : AlertKind) (severity : Severity) (dedupKey title : String)
    (detail : List (String × Json F)) : Alert F where
  id := none
  kind := kind
  severity := severity
  ts := ev.ts
  processId := some sub.pidRow
  destId := some sub.destId
  dedupKey := dedupKey
  title := title
  detail := .object ([("pid", .num sub.proc.pid), ("exe", .str sub.proc.exe)] ++ detail)

def egressAlert : Alert F :=
  alertOf ev sub .newProcessEgress .warning (egressKey sub.proc.exe)
    s!"{sub.proc.name} made its first outbound connection (→ {ev.destLabel})"
    [("dest", .str ev.destLabel)]

def identityJson (i : BinaryIdentity) : Json F :=
  .object [("team", .ofOption i.teamId), ("signing", .ofOption i.signingId), ("value", .str i.value)]

def identityAlert (base ident : BinaryIdentity) : Alert F :=
  alertOf ev sub .identityChange .critical (identityKey sub.proc.exe ident.value)
    s!"{sub.proc.name} binary identity changed since baseline"
    [("old", identityJson base), ("new", identityJson ident)]

def destAlert : Alert F :=
  alertOf ev sub .newProcessDest .notice (destKey sub.pidRow ev.stableLabel)
    s!"{sub.proc.name} contacted a new destination: {ev.stableLabel}"
    [("label", .str ev.stableLabel), ("ip", .str ev.destIp.display)]

def countryAlert (country : String) : Alert F :=
  alertOf ev sub .newGeo .notice (countryKey sub.pidRow country)
    s!"{sub.proc.name} connected to a new country: {country}" [("country", .str country)]

def asnAlert (asn : ℕ) : Alert F :=
  let org := match ev.geo.asOrg with
    | some o => s!" ({o})"
    | none => ""
  alertOf ev sub .newGeo .notice (asnKey sub.pidRow asn)
    s!"{sub.proc.name} connected to a new network: AS{asn}{org}"
    [("asn", .num asn), ("as_org", .ofOption ev.geo.asOrg)]

def zScore (sample : Baseline.VolumeSample F) : F :=
  if F64.lt 0.0 sample.std then (sample.x - sample.mean) / sample.std
  else if F64.lt sample.mean sample.x then F64.infinity
  else 0.0

def volumeAlert (sample : Baseline.VolumeSample F) : Alert F :=
  let severity :=
    if F64.le (10.0 * F64.max sample.mean 1.0) sample.x then Severity.critical else .warning
  let bytes := F64.toU64 sample.x
  let z := zScore sample
  alertOf ev sub .volumeSpike severity (volumeKey sub.pidRow)
    s!"{sub.proc.name} outbound volume spike: {bytes} bytes/interval (z={F64.fmt1 z})"
    [("bytes", .num bytes), ("mean", .ofF64 sample.mean), ("std", .ofF64 sample.std),
      ("z", .ofF64 z)]

end Alerts

section Signals

variable (cfg : AlertConfig F) (ev : FlowEvent) (sub : Subject)

/-- Signal 2: a new process phoning home. -/
def newProcessEgress (wasNew : Bool) (out : List (Alert F)) : StoreM F (List (Alert F)) :=
  if sub.active && wasNew && ev.outbound then emit cfg out (egressAlert ev sub) else return out

/-- Signal 5: a change of the binary's identity. -/
def identityChange (out : List (Alert F)) : StoreM F (List (Alert F)) := do
  match ev.identity with
  | none => return out
  | some ident =>
    let baseline ← currentIdentity sub.pidRow
    let _ ← recordIdentity sub.pidRow ident ev.ts
    match baseline with
    | none => return out
    | some base =>
      if sub.active && ev.outbound && base.changedSince ident cfg.flagSignedUpdates then
        emit cfg out (identityAlert ev sub base ident)
      else return out

/-- Signal 1: a new destination of the process. -/
def newProcessDest (out : List (Alert F)) : StoreM F (List (Alert F)) := do
  let labelNew ← noteLabel sub.pidRow ev.stableLabel ev.ts
  let _ ← touchPair sub.pidRow sub.destId ev.ts
  if sub.active && labelNew && ev.outbound then emit cfg out (destAlert ev sub) else return out

/-- Signal 3: a new country. -/
def newCountry (out : List (Alert F)) : StoreM F (List (Alert F)) := do
  match ev.geo.country with
  | none => return out
  | some cc =>
    let countryNew ← noteCountry sub.pidRow cc ev.ts
    if countryNew && sub.active && ev.outbound then emit cfg out (countryAlert ev sub cc)
    else return out

/-- Signal 3: a new network. -/
def newAsn (out : List (Alert F)) : StoreM F (List (Alert F)) := do
  match ev.geo.asn with
  | none => return out
  | some asn =>
    let asnNew ← noteAsn sub.pidRow asn ev.geo.asOrg ev.ts
    if asnNew && sub.active && ev.outbound then emit cfg out (asnAlert ev sub asn)
    else return out

/-- Whether a closed interval is a spike. -/
def isSpike (sample : Baseline.VolumeSample F) : Bool :=
  decide (sample.samples ≥ cfg.volumeMinSamples) &&
    decide (F64.toU64 sample.x ≥ cfg.volumeAbsFloorBytes) &&
    F64.le cfg.volumeZThreshold (zScore sample)

/-- Signal 4: a spike of the outbound volume. -/
def volumeSpike (out : List (Alert F)) : StoreM F (List (Alert F)) := do
  match ← Baseline.updateVolume cfg sub.pidRow ev.bytesUp ev.ts with
  | none => return out
  | some sample =>
    if sub.active && isSpike cfg sample then emit cfg out (volumeAlert ev sub sample)
    else return out

/-- The detectors in the order of the engine. -/
def signals (wasNew : Bool) : StoreM F (List (Alert F)) := do
  let out ← newProcessEgress cfg ev sub wasNew []
  let out ← identityChange cfg ev sub out
  let out ← newProcessDest cfg ev sub out
  let out ← newCountry cfg ev sub out
  let out ← newAsn cfg ev sub out
  volumeSpike cfg ev sub out

end Signals

/-- Keep the observed name of the destination. -/
def recordObserved (ev : FlowEvent) : StoreM F Unit :=
  match ev.name with
  | some name => recordName ev.destIp name "obs" ev.ts
  | none => return ()

/-- Run all detectors on one event; without attribution only the destination is kept. -/
def evaluateFull (cfg : AlertConfig F) (ev : FlowEvent) : StoreM F (EvalOutcome F) := do
  let state ← Baseline.ensureStarted cfg ev.ts
  let destId ← upsertDestination ev.destIp ev.name ev.geo ev.ts
  recordObserved ev
  match ev.proc with
  | none => return { alerts := [], processId := none, destId }
  | some p =>
    let procUp ← upsertProcess p.exe p.name ev.ts
    let sub := { active := decide (state = .active), proc := p, pidRow := procUp.id, destId }
    let alerts ← signals cfg ev sub procUp.wasNew
    return { alerts, processId := some procUp.id, destId }

end AlertEngine

end Pktscope

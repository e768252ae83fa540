import Pktscope.Alert.Detectors
import Pktscope.Flow.Tracker

/-! # The daemon worker

Each received packet goes through the name resolver and the flow tracker, its
contribution is correlated with a process, a name and a place, run through the
detectors, and shown in the live table; a flow that the tracker completes is
written to the connection history. The socket lookup, the file identity and the
failures of the store come from outside, one answer per packet.
-/

namespace Pktscope

open AlertEngine

/-- A live connection, as shown by the inspector. -/
structure ConnectionDto where
  id : ℕ
  process : String
  pid : Option ℕ
  destName : String
  remoteIp : String
  remotePort : UInt16
  localPort : UInt16
  protocol : UInt8
  country : Option String
  asn : Option ℕ
  asOrg : Option String
  bytesUp : ℕ
  bytesDown : ℕ
  firstSeenMs : ℤ
  lastSeenMs : ℤ
  outbound : Bool
  deriving DecidableEq

/-- What the worker broadcasts to subscribers. -/
inductive Event (F : Type) where
  | flow (dto : ConnectionDto)
  | closed (id : ℕ)
  | alert (a : Alert F)
  | heartbeat (tsMs : ℤ)

/-- Per-flow bookkeeping for the history row of the flow. -/
structure FlowMeta where
  id : ℕ
  outbound : Bool
  processId : Option ℕ
  destId : Option ℕ
  deriving DecidableEq

structure WorkerCtx (F : Type) where
  cfg : AlertConfig F
  enricher : Enricher
  localAddrs : Finset IpAddr

/-- What the rest of the system answers while one packet is handled. -/
structure Env where
  lookupSocketProc : UInt8 → IpAddr → UInt16 → Option SocketProc
  identify : String → BinaryIdentity
  /-- The statement of the evaluation that fails, if one does. -/
  evalFault : Option ℕ
  /-- Whether writing the history row fails. -/
  insertFails : Bool

/-- One turn of the receive loop: a decoded packet, or a timeout. -/
inductive Recv where
  | packet (pkt : DecodedPacket) (env : Env)
  | timeout (nowMs : ℤ)

/-- The state of the worker; the channel of completed flows is inside the tracker. -/
structure Worker (F : Type) where
  store : Store F
  live : AList fun _ : FlowKey => ConnectionDto
  bus : List (Event F)
  tracker : FlowTracker F
  resolver : NameResolver
  metas : AList fun _ : FlowKey => FlowMeta
  nextId : ℕ

/-- The two sides of a packet, with whether it leaves the local one. -/
structure Sides where
  localAddr : IpAddr
  localPort : UInt16
  remoteAddr : IpAddr
  remotePort : UInt16
  outbound : Bool
  deriving DecidableEq

/-- The local side is the source unless only the destination is local. -/
def orient (localAddrs : Finset IpAddr) (key : FlowKey) (dir : Dir) : Sides :=
  let (src, dst) : Endpoint × Endpoint := match dir with
    | .lowToHigh => (⟨key.addrLow, key.portLow⟩, ⟨key.addrHigh, key.portHigh⟩)
    | .highToLow => (⟨key.addrHigh, key.portHigh⟩, ⟨key.addrLow, key.portLow⟩)
  if decide (dst.addr ∈ localAddrs) && !decide (src.addr ∈ localAddrs) then
    { localAddr := dst.addr, localPort := dst.port, remoteAddr := src.addr, remotePort := src.port,
      outbound := false }
  else
    { localAddr := src.addr, localPort := src.port, remoteAddr := dst.addr, remotePort := dst.port,
      outbound := true }

namespace Worker

variable {F : Type} [F64 F] (ctx : WorkerCtx F)

/-- The worker before its first packet, on a store that may hold earlier runs. -/
def start (store : Store F) : Worker F where
  store := store
  live := ∅
  bus := []
  tracker := FlowTracker.new.withCompletionSink.setLocalAddrs ctx.localAddrs
  resolver := .new
  metas := ∅
  nextId := 1

/-- One packet as `handleUpdate` sees it. -/
structure Visit where
  key : FlowKey
  sides : Sides
  bytes : ℕ
  firstSeen : Bool
  proc : Option SocketProc
  identity : Option BinaryIdentity
  name : Option String
  geo : GeoInfo
  tsMs : ℤ

def visitOf (env : Env) (resolver : NameResolver) (upd : FlowUpdate) (tsMs : ℤ) : Visit :=
  let sides := orient ctx.localAddrs upd.key upd.dir
  let proc := env.lookupSocketProc upd.key.protocol sides.localAddr sides.localPort
  { key := upd.key
    sides
    bytes := upd.bytes.toNat
    firstSeen := upd.firstSeen
    proc
    identity := (proc.bind SocketProc.exePath).map env.identify
    name := resolver.nameFor sides.remoteAddr
    geo := ctx.enricher sides.remoteAddr
    tsMs }

namespace Visit

variable (v : Visit)

def upDelta : ℕ := if v.sides.outbound then v.bytes else 0

def downDelta : ℕ := if v.sides.outbound then 0 else v.bytes

/-- The event of a visit; its direction is the one of the flow's first packet. -/
def event (outbound : Bool) : FlowEvent where
  ts := v.tsMs
  key := v.key
  proc := v.proc
  identity := v.identity
  destIp := v.sides.remoteAddr
  destPort := v.sides.remotePort
  localPort := v.sides.localPort
  protocol := v.key.protocol
  name := v.name
  geo := v.geo
  bytesUp := v.upDelta
  bytesDown := v.downDelta
  flowFirstSeen := v.firstSeen
  outbound := outbound

/-- The bookkeeping of a flow, made at its first packet. -/
def openMeta (nextId : ℕ) (found : Option FlowMeta) : FlowMeta :=
  found.getD { id := nextId, outbound := v.sides.outbound, processId := none, destId := none }

/-- The live entry of a flow, made at its first packet. -/
def openDto (fm : FlowMeta) (found : Option ConnectionDto) : ConnectionDto :=
  found.getD {
    id := fm.id
    process := (v.proc.map SocketProc.name).getD "?"
    pid := v.proc.map SocketProc.pid
    destName := v.name.getD v.sides.remoteAddr.display
    remoteIp := v.sides.remoteAddr.display
    remotePort := v.sides.remotePort
    localPort := v.sides.localPort
    protocol := v.key.protocol
    country := v.geo.country
    asn := v.geo.asn
    asOrg := v.geo.asOrg
    bytesUp := 0
    bytesDown := 0
    firstSeenMs := v.tsMs
    lastSeenMs := v.tsMs
    outbound := fm.outbound }

/-- What a packet changes in the live entry of its flow. -/
def updateDto (dto : ConnectionDto) : ConnectionDto :=
  { dto with
    bytesUp := dto.bytesUp + v.upDelta
    bytesDown := dto.bytesDown + v.downDelta
    lastSeenMs := v.tsMs
    destName := v.name.getD dto.destName
    country := v.geo.country.or dto.country
    asn := v.geo.asn.or dto.asn
    asOrg := if v.geo.asn.isSome then v.geo.asOrg else dto.asOrg
    process := (v.proc.map SocketProc.name).getD dto.process
    pid := (v.proc.map SocketProc.pid).or dto.pid }

end Visit

/-- What a successful evaluation changes in the bookkeeping of the flow. -/
def noteOutcome (fm : FlowMeta) (outcome : Option (EvalOutcome F)) : FlowMeta :=
  match outcome with
  | some o => { fm with processId := o.processId, destId := some o.destId }
  | none => fm

/-- The alerts of a successful evaluation. -/
def firedAlerts (outcome : Option (EvalOutcome F)) : List (Alert F) :=
  match outcome with
  | some o => o.alerts
  | none => []

def handleUpdate (env : Env) (w : Worker F) (upd : FlowUpdate) (tsMs : ℤ) : Worker F :=
  let v := visitOf ctx env w.resolver upd tsMs
  let found := w.metas.lookup v.key
  let fm := v.openMeta w.nextId found
  -- A failed evaluation is dropped: neither the bookkeeping nor the bus sees it.
  let (outcome, store) := (evaluateFull ctx.cfg (v.event fm.outbound)).attempt env.evalFault w.store
  let dto := v.updateDto (v.openDto fm (w.live.lookup v.key))
  { w with
    store
    metas := w.metas.insert v.key (noteOutcome fm outcome)
    nextId := if found.isSome then w.nextId else w.nextId + 1
    live := w.live.insert v.key dto
    bus := w.bus ++ (firedAlerts outcome).map .alert ++ [.flow dto] }

/-- The history row of a completed flow. -/
def closedRow (w : Worker F) (snap : FlowStatsSnapshot F) : ConnectionRow where
  id := 0
  processId := (w.metas.lookup snap.key).bind FlowMeta.processId
  destId := (w.metas.lookup snap.key).bind FlowMeta.destId
  proto := snap.protocol
  localPort := snap.localPort.getD 0
  remotePort := snap.remotePort.getD 0
  bytesUp := snap.bytesUp
  bytesDown := snap.bytesDown
  name := (w.live.lookup snap.key).map ConnectionDto.destName
  tsStartMs := snap.firstSeen.timestampMillis
  tsEndMs := snap.lastSeen.timestampMillis

def persistClosed (insertFails : Bool) (w : Worker F) (snap : FlowStatsSnapshot F) : Worker F :=
  let insert := Store.insertConnection (w.closedRow snap)
  { w with
    metas := w.metas.erase snap.key
    live := w.live.erase snap.key
    bus := w.bus ++ ((w.metas.lookup snap.key).map fun fm => .closed fm.id).toList
    store := (insert.attempt (if insertFails then some 0 else none) w.store).2 }

/-- Empty the channel of completed flows. -/
def drain (insertFails : Bool) (w : Worker F) : Worker F :=
  match w.tracker.completedTx with
  | some snaps =>
    let w := { w with tracker := { w.tracker with completedTx := some [] } }
    snaps.foldl (persistClosed insertFails) w
  | none => w

/-- The part of a turn before the channel of completed flows is emptied. -/
def receive (pkt : DecodedPacket) (env : Env) (w : Worker F) : Worker F :=
  let w := { w with resolver := (w.resolver.observePacket pkt).1 }
  let (tracker, pkt, upd) := w.tracker.update pkt
  let w := { w with tracker }
  match upd with
  | some upd => handleUpdate ctx env w upd pkt.timestamp.timestampMillis
  | none => w

/-- One turn of the receive loop. -/
def step (w : Worker F) : Recv → Worker F
  | .packet pkt env => (receive ctx pkt env w).drain env.insertFails
  | .timeout nowMs => { w with bus := w.bus ++ [.heartbeat nowMs] }

/-- The worker after some turns, before it looks at `stop` again. -/
def steps (w : Worker F) (inputs : List Recv) : Worker F := inputs.foldl (step ctx) w

/-- The whole run, until the stop flag or a disconnect ends it. -/
def runWorker (store : Store F) (inputs : List Recv) : Worker F :=
  (steps ctx (start ctx store) inputs).drain false

end Worker

end Pktscope

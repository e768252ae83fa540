import Pktscope.Alert.Kinds
import Pktscope.Inspector.State
import Pktscope.Store.Reads

/-! # Requests and responses

What the server answers to each request, from the store and the live table. A read
that the database fails is answered with its error, except in the status, which
then shows a default.
-/

namespace Pktscope

open Library

structure DaemonStatus where
  pid : UInt32
  uptimeSecs : ℕ
  interface : String
  baseline : String
  learningEndsMs : Option ℤ
  processes : ℕ
  destinations : ℕ
  alerts : ℕ
  schemaVersion : ℕ
  version : String
  deriving DecidableEq

inductive Request where
  | status
  | liveConnections
  | listProcesses
  | listDestinations (processId : ℤ)
  | processHistory (processId sinceMs untilMs : ℤ)
  | recentAlerts (limit : UInt64)
  | recentConnections (limit : UInt64)
  | subscribe
  | stop
  deriving DecidableEq

inductive Response (F : Type) where
  | status (s : DaemonStatus)
  | connections (conns : List ConnectionDto)
  | processes (rows : List ProcessListing)
  | destinations (rows : List DestRow)
  | history (rows : List ConnectionRow)
  | alerts (alerts : List (Alert F))
  | subscribed
  | stopping
  | error (message : String)

/-- What a query is answered from, and the statements that the database fails meanwhile: of each read
of the query at most one, with the text of the error (or of that for a detail that cannot be read). -/
structure ServerCtx (F : Type) where
  store : Store F
  live : LiveState
  interface : String
  pid : UInt32
  uptimeSecs : ℕ
  version : String
  failing : ℕ → Option ℕ
  errorText : String

namespace ServerCtx

variable {F α : Type} (o : OrderBy) (ctx : ServerCtx F)

/-- The result of the `k`-th read of a query. -/
def read (k : ℕ) (p : StoreM F α) : Except String α :=
  match (p.attempt (ctx.failing k) ctx.store).1 with
  | some a => .ok a
  | none => .error ctx.errorText

/-- The response to a query of one read. -/
def answerWith (p : StoreM F α) (f : α → Response F) : Response F :=
  match ctx.read 0 p with
  | .ok a => f a
  | .error message => .error message

/-- The rows of a process; no row has a negative id. -/
def forProcess (processId : ℤ) (p : ℕ → StoreM F (List α)) : StoreM F (List α) :=
  if 0 ≤ processId then p processId.toNat else Prog.query fun _ => []

def status : DaemonStatus :=
  let (processes, destinations, alerts) := (ctx.read 0 Store.counts).toOption.getD (0, 0, 0)
  { pid := ctx.pid
    uptimeSecs := ctx.uptimeSecs
    interface := ctx.interface
    baseline :=
      match ctx.read 1 Store.baselineState with
      | .ok .active => "active"
      | _ => "learning"
    learningEndsMs := (ctx.read 2 (Store.metaGetI64 "learning_ends_ms")).toOption.join
    processes, destinations, alerts
    schemaVersion := 1
    version := ctx.version }

/-- The response with alerts, if all of them can be read. -/
def ofAlerts : Option (List (Alert F)) → Response F
  | some rows => .alerts rows
  | none => .error ctx.errorText

def handleQuery [SerdeJson F] : Request → Response F
  | .status => .status ctx.status
  | .liveConnections => .connections ctx.live.snapshot
  | .listProcesses => ctx.answerWith (Store.listProcesses o) .processes
  | .listDestinations processId =>
    ctx.answerWith (forProcess processId (Store.listDestinationsForProcess o)) .destinations
  | .processHistory processId sinceMs untilMs =>
    ctx.answerWith
      (forProcess processId fun id => Store.queryProcessHistory o id sinceMs untilMs) .history
  | .recentAlerts limit => ctx.answerWith (Store.queryRecentAlerts o limit) ctx.ofAlerts
  | .recentConnections limit => ctx.answerWith (Store.recentConnections o limit) .history
  | .subscribe | .stop => .error "handled out of band"

end ServerCtx

end Pktscope

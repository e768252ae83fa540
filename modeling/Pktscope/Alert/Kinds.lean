import Mathlib.Data.List.Sort
import Pktscope.Numeric.Machine

/-! # Alerts

The five egress signals, their severities, and the record of a fired alert.
-/

namespace Pktscope

/-- The five egress alert signals. -/
inductive AlertKind where
  | newProcessDest
  | newProcessEgress
  | newGeo
  | volumeSpike
  | identityChange
  deriving DecidableEq

def AlertKind.asDb : AlertKind → String
  | .newProcessDest => "new_process_dest"
  | .newProcessEgress => "new_process_egress"
  | .newGeo => "new_geo"
  | .volumeSpike => "volume_spike"
  | .identityChange => "identity_change"

def AlertKind.fromDb (s : String) : Option AlertKind :=
  if s = "new_process_dest" then some .newProcessDest
  else if s = "new_process_egress" then some .newProcessEgress
  else if s = "new_geo" then some .newGeo
  else if s = "volume_spike" then some .volumeSpike
  else if s = "identity_change" then some .identityChange
  else none

inductive Severity where
  | info | notice | warning | critical
  deriving DecidableEq

def Severity.asDb : Severity → String
  | .info => "info"
  | .notice => "notice"
  | .warning => "warning"
  | .critical => "critical"

def Severity.fromDb (s : String) : Option Severity :=
  if s = "info" then some .info
  else if s = "notice" then some .notice
  else if s = "warning" then some .warning
  else if s = "critical" then some .critical
  else none

@[simp] theorem AlertKind.fromDb_asDb (k : AlertKind) : fromDb k.asDb = some k := by
  cases k <;> decide

@[simp] theorem Severity.fromDb_asDb (s : Severity) : fromDb s.asDb = some s := by
  cases s <;> decide

/-- A JSON value. -/
inductive Json (F : Type) where
  | null
  | num (n : ℕ)
  | float (x : F)
  | str (s : String)
  | obj (fields : List (String × Json F))

def Json.ofOption {F : Type} : Option String → Json F
  | some s => .str s
  | none => .null

/-- An object, whose map is sorted by the names of its fields. -/
def Json.object {F : Type} (fields : List (String × Json F)) : Json F :=
  .obj (fields.insertionSort fun a b => a.1 ≤ b.1)

/-- A float as `json!` takes it, which has no value for one that is not finite. -/
def Json.ofF64 {F : Type} [F64 F] (x : F) : Json F := if F64.isFinite x then .float x else .null

/-- A fired alert. -/
structure Alert (F : Type) where
  id : Option ℕ
  kind : AlertKind
  severity : Severity
  ts : ℤ
  processId : Option ℕ
  destId : Option ℕ
  /-- Stable for one kind and subject; drives the cooldown. -/
  dedupKey : String
  title : String
  detail : Json F

end Pktscope

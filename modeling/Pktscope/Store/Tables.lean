import Mathlib.Data.List.AList
import Pktscope.Alert.Kinds
import Pktscope.Library.Prog
import Pktscope.Library.Sql
import Pktscope.Process.Identity

/-! # The tables of the store

The rows of the baseline and history database. A store operation is a program
of SQL statements, each of which commits on its own.
-/

namespace Pktscope

structure ProcessRow where
  id : ℕ
  exePath : String
  name : String
  firstSeenMs : ℤ
  lastSeenMs : ℤ
  curIdentityId : Option ℕ
  deriving DecidableEq

structure IdentityRow where
  id : ℕ
  processId : ℕ
  kind : String
  value : String
  signingId : Option String
  teamId : Option String
  authority : Option String
  status : String
  firstSeenMs : ℤ
  deriving DecidableEq

/-- The unique columns of an identity row. -/
def IdentityRow.key (r : IdentityRow) : ℕ × String × String := (r.processId, r.kind, r.value)

def IdentityRow.toIdentity (r : IdentityRow) (exePath : String) : BinaryIdentity where
  path := Library.utf8Bytes exePath
  kind := .ofDb r.kind
  value := r.value
  signingId := r.signingId
  teamId := r.teamId
  authority := r.authority
  status := .ofDb r.status

structure DestRow where
  id : ℕ
  ip : String
  bestName : Option String
  asn : Option ℕ
  asOrg : Option String
  country : Option String
  firstSeenMs : ℤ
  lastSeenMs : ℤ
  deriving DecidableEq

structure NameRow where
  ip : String
  name : String
  source : String
  seenMs : ℤ
  deriving DecidableEq

structure PairRow where
  id : ℕ
  processId : ℕ
  destId : ℕ
  firstSeenMs : ℤ
  lastSeenMs : ℤ
  connCount : ℕ
  deriving DecidableEq

structure CountryRow where
  processId : ℕ
  country : String
  firstSeenMs : ℤ
  deriving DecidableEq

structure AsnRow where
  processId : ℕ
  asn : ℕ
  asOrg : Option String
  firstSeenMs : ℤ
  deriving DecidableEq

structure LabelRow where
  processId : ℕ
  label : String
  firstSeenMs : ℤ
  deriving DecidableEq

/-- The unique columns of the novelty tables. -/
def CountryRow.key (r : CountryRow) : ℕ × String := (r.processId, r.country)

def AsnRow.key (r : AsnRow) : ℕ × ℕ := (r.processId, r.asn)

def LabelRow.key (r : LabelRow) : ℕ × String := (r.processId, r.label)

/-- The volume baseline of a process: a moving mean and variance of bytes sent per interval. -/
structure VolumeStat (F : Type) where
  ewmaMean : F
  ewmaVar : F
  intervalAcc : F
  intervalStartMs : ℤ
  samples : ℕ

structure ConnectionRow where
  id : ℕ
  processId : Option ℕ
  destId : Option ℕ
  proto : UInt8
  localPort : UInt16
  remotePort : UInt16
  bytesUp : ℕ
  bytesDown : ℕ
  name : Option String
  tsStartMs : ℤ
  tsEndMs : ℤ
  deriving DecidableEq

structure AlertRow (F : Type) where
  id : ℕ
  kind : String
  severity : String
  tsMs : ℤ
  processId : Option ℕ
  destId : Option ℕ
  dedupKey : String
  title : String
  /-- The value whose text the column has. -/
  detailJson : Json F

/-- The database. -/
structure Store (F : Type) where
  metaRows : AList fun _ : String => String
  processes : List ProcessRow
  identities : List IdentityRow
  destinations : List DestRow
  names : List NameRow
  pairs : List PairRow
  countries : List CountryRow
  asns : List AsnRow
  labels : List LabelRow
  volumes : AList fun _ : ℕ => VolumeStat F
  connections : List ConnectionRow
  alerts : List (AlertRow F)

def schemaVersion : ℕ := 1

/-- The store after the migration of a new file. -/
def Store.openNew {F : Type} : Store F where
  metaRows := AList.singleton "schema_version" (toString schemaVersion)
  processes := []
  identities := []
  destinations := []
  names := []
  pairs := []
  countries := []
  asns := []
  labels := []
  volumes := ∅
  connections := []
  alerts := []

/-- Programs of SQL statements over the store; a failing statement is the `StoreError` case. -/
abbrev StoreM (F : Type) := Library.Prog (Store F)

inductive BaselineState where
  | learning
  | active
  deriving DecidableEq

structure ProcessUpsert where
  id : ℕ
  wasNew : Bool
  deriving DecidableEq

structure PairUpsert where
  id : ℕ
  wasNew : Bool
  deriving DecidableEq

end Pktscope

import Pktscope.Library.Utf8

/-! # Processes and binary identities

What the socket lookup says about the owner of a socket, and the identity of an
executable with the test for a meaningful change.
-/

namespace Pktscope

open Library

/-- A path as the system has it, whose bytes need not be text. -/
abbrev OsPath := List UInt8

/-- `Path::display` -/
def OsPath.display (path : OsPath) : String := fromUtf8Lossy path

/-- The owner of a socket. -/
structure SocketProc where
  pid : ℕ
  name : String
  exePath : Option String
  deriving DecidableEq

inductive IdentityKind where
  | macCodesign | sha256 | unknown
  deriving DecidableEq

inductive IdentityStatus where
  | valid | unsigned | adHoc | invalid | unreadable
  deriving DecidableEq

structure BinaryIdentity where
  path : OsPath
  kind : IdentityKind
  /-- A code hash or the SHA-256 of the file; empty if the file is unreadable. -/
  value : String
  signingId : Option String
  teamId : Option String
  authority : Option String
  status : IdentityStatus
  deriving DecidableEq

namespace BinaryIdentity

/-- Whether `current` is a meaningful change from the baseline. -/
def changedSince (base current : BinaryIdentity) (flagSignedUpdates : Bool) : Bool :=
  if base.status = .unreadable ∨ current.status = .unreadable then false
  else
    let regressed := decide (base.status = .valid ∧ current.status ≠ .valid)
    match base.kind, current.kind with
    | .macCodesign, .macCodesign =>
      if base.teamId ≠ current.teamId ∨ base.signingId ≠ current.signingId then true
      else if regressed then true
      else if base.value ≠ current.value then flagSignedUpdates
      else false
    | _, _ => decide (base.value ≠ current.value) || regressed

/-- What is recorded for a file that cannot be read. -/
def unreadable (path : OsPath) (kind : IdentityKind) : BinaryIdentity where
  path := path
  kind := kind
  value := ""
  signingId := none
  teamId := none
  authority := none
  status := .unreadable

/-- The identity off macOS: the content hash, if the file can be read. -/
def computeIdentity (sha256File : OsPath → Option String) (path : OsPath) : BinaryIdentity :=
  match sha256File path with
  | some value =>
    { path, kind := .sha256, value, signingId := none, teamId := none, authority := none,
      status := .valid }
  | none => unreadable path .sha256

end BinaryIdentity

def IdentityKind.toDb : IdentityKind → String
  | .macCodesign => "mac_codesign"
  | .sha256 => "sha256"
  | .unknown => "unknown"

def IdentityKind.ofDb (s : String) : IdentityKind :=
  if s = "mac_codesign" then .macCodesign else if s = "sha256" then .sha256 else .unknown

def IdentityStatus.toDb : IdentityStatus → String
  | .valid => "valid"
  | .unsigned => "unsigned"
  | .adHoc => "adhoc"
  | .invalid => "invalid"
  | .unreadable => "unreadable"

def IdentityStatus.ofDb (s : String) : IdentityStatus :=
  if s = "valid" then .valid
  else if s = "adhoc" then .adHoc
  else if s = "invalid" then .invalid
  else if s = "unreadable" then .unreadable
  else .unsigned

@[simp] theorem IdentityKind.ofDb_toDb (k : IdentityKind) : ofDb k.toDb = k := by
  cases k <;> decide

@[simp] theorem IdentityStatus.ofDb_toDb (s : IdentityStatus) : ofDb s.toDb = s := by
  cases s <;> decide

end Pktscope

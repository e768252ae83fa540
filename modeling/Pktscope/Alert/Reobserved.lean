import Pktscope.Alert.IdentityWatch

/-! # Identities observed again

An identity is stored under its process, kind and value, and what was stored
first stays. The process's current identity is then the recorded one exactly
when the first record of its value has the same signer and status.
-/

namespace Pktscope

open Library Library.Prog Library.Sql Store AlertEngine

variable {F : Type}

/-- What an identity says beside its kind and its value. -/
structure Signer where
  signingId : Option String
  teamId : Option String
  authority : Option String
  status : IdentityStatus
  deriving DecidableEq

namespace BinaryIdentity

variable (ident : BinaryIdentity)

def signer : Signer := ⟨ident.signingId, ident.teamId, ident.authority, ident.status⟩

/-- The unique columns of the row that the identity is stored in. -/
def rowKey (pid : ℕ) : ℕ × String × String := (pid, ident.kind.toDb, ident.value)

/-- Two identities agree but for the path. -/
def Agrees (other : BinaryIdentity) : Prop :=
  ident.kind = other.kind ∧ ident.value = other.value ∧ ident.signer = other.signer

theorem Agrees.not_changedSince {base : BinaryIdentity} (h : base.Agrees ident) (flag : Bool) :
    base.changedSince ident flag = false := by
  obtain ⟨hkind, hvalue, hsigner⟩ := h
  obtain ⟨hsigning, hteam, -, hstatus⟩ := Signer.mk.inj hsigner
  unfold changedSince
  rw [hkind, hvalue, hsigning, hteam, hstatus]
  cases ident.kind <;> simp

end BinaryIdentity

/-- An identity that a process is observed with. -/
structure Observation where
  pid : ℕ
  ident : BinaryIdentity
  ts : ℤ

def Observation.rowKey (o : Observation) : ℕ × String × String := o.ident.rowKey o.pid

def IdentityRow.signer (r : IdentityRow) : Signer :=
  ⟨r.signingId, r.teamId, r.authority, .ofDb r.status⟩

namespace Store

/-- The store after some observations are recorded. -/
def recordAll (s : Store F) (observations : List Observation) : Store F :=
  observations.foldl (fun s o => ((recordIdentity o.pid o.ident o.ts).run s).2) s

/-- The signer that was first recorded under a key, in the store or by the observations. -/
def firstSigner (s : Store F) (observations : List Observation) (key : ℕ × String × String) :
    Option Signer :=
  ((select IdentityRow.key key s.identities).map IdentityRow.signer).or
    (observations.findSome? fun o => if o.rowKey = key then some o.ident.signer else none)

section Rows

variable {s : Store F}

theorem signer_identityRow (pid : ℕ) (ident : BinaryIdentity) (ts : ℤ) :
    (identityRow s pid ident ts).signer = ident.signer := by
  simp [IdentityRow.signer, identityRow, BinaryIdentity.signer]

theorem signer_recorded (o : Observation) (key : ℕ × String × String) :
    (select IdentityRow.key key (recorded s o.pid o.ident o.ts).identities).map
        IdentityRow.signer =
      ((select IdentityRow.key key s.identities).map IdentityRow.signer).or
        (if o.rowKey = key then some o.ident.signer else none) := by
  have hkey : (identityRow s o.pid o.ident o.ts).key = o.rowKey := rfl
  rw [recorded, select_insertOrIgnore_eq, hkey, Option.map_or]
  split_ifs with h
  · rw [Option.map_some, signer_identityRow]
  · rfl

theorem signer_recordAll (observations : List Observation) (key : ℕ × String × String) :
    (select IdentityRow.key key (s.recordAll observations).identities).map IdentityRow.signer =
      s.firstSigner observations key := by
  induction observations generalizing s with
  | nil => simp [recordAll, firstSigner]
  | cons o observations ih =>
    have hstep : s.recordAll (o :: observations) =
        (recorded s o.pid o.ident o.ts).recordAll observations := rfl
    rw [hstep, ih, firstSigner, firstSigner, signer_recorded, Option.or_assoc, List.findSome?_cons]
    split_ifs with h <;> simp

theorem distinctIds_recordAll (hs : DistinctIds s) (observations : List Observation) :
    DistinctIds (s.recordAll observations) := by
  induction observations generalizing s with
  | nil => exact hs
  | cons o observations ih => exact ih (hs.recorded o.pid o.ident o.ts)

theorem hasProcess_recordAll {pid : ℕ} (hp : (select ProcessRow.id pid s.processes).isSome)
    (observations : List Observation) :
    (select ProcessRow.id pid (s.recordAll observations).processes).isSome := by
  induction observations generalizing s with
  | nil => exact hp
  | cons o observations ih =>
    apply ih
    change (select ProcessRow.id pid (recorded s o.pid o.ident o.ts).processes).isSome
    rw [select_processes_recorded, Option.isSome_map]
    exact hp

end Rows

section Observe

variable {s : Store F} {pid : ℕ}

theorem currentIdentity_recordIdentity (hs : DistinctIds s)
    (hp : (select ProcessRow.id pid s.processes).isSome) (ident : BinaryIdentity) (ts : ℤ) :
    ∃ cur, ((currentIdentity pid).run ((recordIdentity pid ident ts).run s).2).1 = some cur ∧
      cur.kind = ident.kind ∧ cur.value = ident.value ∧
      some cur.signer = s.firstSigner [⟨pid, ident, ts⟩] (ident.rowKey pid) := by
  obtain ⟨r, hr⟩ := Option.isSome_iff_exists.mp hp
  have hrow := signer_recordAll (s := s) [⟨pid, ident, ts⟩] (ident.rowKey pid)
  have hkept := select_identities_recorded s pid ident ts
  refine ⟨_, findIdentity_recorded_self hs hr ident ts, ?_, ?_, ?_⟩
  · have hkind : (keptRow s pid ident ts).kind = ident.kind.toDb :=
      congrArg (fun k => k.2.1) (keptRow_key s pid ident ts)
    rw [IdentityRow.toIdentity, hkind, IdentityKind.ofDb_toDb]
  · exact congrArg (fun k => k.2.2) (keptRow_key s pid ident ts)
  · rw [← hrow]
    exact (congrArg (Option.map IdentityRow.signer) hkept).symm

/-- A recorded identity is the current one, and never a change from it, exactly when the first
record of its kind and value has its signer and status. -/
theorem currentIdentity_iff (hs : DistinctIds s)
    (hp : (select ProcessRow.id pid s.processes).isSome) (observations : List Observation)
    (ident : BinaryIdentity) (ts : ℤ) :
    (∃ cur, ((currentIdentity pid).run
        ((recordIdentity pid ident ts).run (s.recordAll observations)).2).1 = some cur ∧
      cur.Agrees ident ∧ ∀ flag, cur.changedSince ident flag = false) ↔
      ∀ signer ∈ s.firstSigner observations (ident.rowKey pid), signer = ident.signer := by
  have hfirst : (s.recordAll observations).firstSigner [⟨pid, ident, ts⟩] (ident.rowKey pid) =
      (s.firstSigner observations (ident.rowKey pid)).or (some ident.signer) := by
    rw [firstSigner, signer_recordAll]
    simp [Observation.rowKey]
  obtain ⟨cur, hcur, hkind, hvalue, hsigner⟩ := currentIdentity_recordIdentity
    (distinctIds_recordAll hs observations) (hasProcess_recordAll hp observations) ident ts
  rw [hfirst] at hsigner
  constructor
  · rintro ⟨cur', hcur', ⟨-, -, hagree⟩, -⟩ signer hmem
    obtain rfl : cur = cur' := Option.some.inj (hcur.symm.trans hcur')
    rw [Option.mem_def.mp hmem, Option.some_or] at hsigner
    exact (Option.some.inj hsigner).symm.trans hagree
  · intro h
    have hagree : cur.Agrees ident := by
      refine ⟨hkind, hvalue, ?_⟩
      cases hf : s.firstSigner observations (ident.rowKey pid) with
      | none =>
        rw [hf, Option.none_or] at hsigner
        exact Option.some.inj hsigner
      | some signer =>
        rw [hf, Option.some_or] at hsigner
        exact (Option.some.inj hsigner).trans (h signer hf)
    exact ⟨cur, hcur, hagree, hagree.not_changedSince⟩

end Observe

section Resigned

/-- An application signed by a team. -/
def signedBy (team : String) : BinaryIdentity :=
  ⟨utf8Bytes "/Applications/App", .macCodesign, "h1", some "com.x", some team, none, .valid⟩

def appStore : Store ℚ := ((upsertProcess "/Applications/App" "App" 0).run openNew).2

theorem currentIdentity_iff_signed :
    (∃ cur, ((currentIdentity 1).run
        ((recordIdentity 1 (signedBy "TEAM") 2).run
          (appStore.recordAll [⟨1, signedBy "TEAM", 1⟩])).2).1 = some cur ∧
      cur.Agrees (signedBy "TEAM") ∧ ∀ flag, cur.changedSince (signedBy "TEAM") flag = false) ↔
      ∀ signer ∈ appStore.firstSigner [⟨1, signedBy "TEAM", 1⟩] ((signedBy "TEAM").rowKey 1),
        signer = (signedBy "TEAM").signer :=
  currentIdentity_iff (fun _ hi => absurd hi List.not_mem_nil) (by decide) _ _ _

/-- The same code hash under another team: the old team stays current. -/
theorem resigned_still_changed :
    let s := appStore.recordAll [⟨1, signedBy "TEAM", 1⟩, ⟨1, signedBy "OTHER", 2⟩]
    ((currentIdentity 1).run s).1 = some (signedBy "TEAM") ∧
      (signedBy "TEAM").changedSince (signedBy "OTHER") false = true := by
  decide

end Resigned

end Store

end Pktscope

import Mathlib.Data.List.Sort
import Pktscope.Store.Integrity

/-! # Read queries

What the server answers from the store. The database may give rows of the same
time in any order, so the order is one of the ways to sort that it may use.
-/

namespace Pktscope

open Library Library.Prog Library.Sql

/-- A way to carry out `ORDER BY ts DESC`. -/
structure OrderBy where
  sortDesc : {ρ : Type} → (ρ → ℤ) → List ρ → List ρ
  perm : ∀ {ρ : Type} (ts : ρ → ℤ) (t : List ρ), (sortDesc ts t).Perm t
  sorted : ∀ {ρ : Type} (ts : ρ → ℤ) (t : List ρ),
    (sortDesc ts t).Pairwise fun r r' => ts r' ≤ ts r

/-- Rows of the same time in the order of their insertion. -/
def OrderBy.stable : OrderBy where
  sortDesc ts t := t.mergeSort fun r r' => decide (ts r' ≤ ts r)
  perm _ t := List.mergeSort_perm t _
  sorted ts t := by
    let newer (r r' : _) : Bool := decide (ts r' ≤ ts r)
    have htrans : ∀ a b c, newer a b = true → newer b c = true → newer a c = true := by
      intro a b c hab hbc
      simp only [newer, decide_eq_true_eq] at *
      omega
    have htotal : ∀ a b, (newer a b || newer b a) = true := by
      intro a b
      simp only [newer, Bool.or_eq_true, decide_eq_true_eq]
      omega
    exact (List.pairwise_mergeSort htrans htotal t).imp of_decide_eq_true

namespace OrderBy

variable {ρ κ : Type} (o : OrderBy) {ts : ρ → ℤ} {t : List ρ} {r : ρ}

theorem mem_sortDesc : r ∈ o.sortDesc ts t ↔ r ∈ t := (o.perm ts t).mem_iff

theorem length_sortDesc : (o.sortDesc ts t).length = t.length := (o.perm ts t).length_eq

theorem filter_sortDesc [DecidableEq κ] {key : ρ → κ} (h : Distinct key t) (k : κ) :
    ((o.sortDesc ts t).filter fun r => decide (key r = k)) = (select key k t).toList := by
  have hp := (o.perm ts t).filter fun r => decide (key r = k)
  rw [h.filter_eq] at hp
  cases hsel : select key k t with
  | none =>
    rw [hsel] at hp
    exact List.perm_nil.mp hp
  | some r =>
    rw [hsel] at hp
    exact List.perm_singleton.mp hp

end OrderBy

/-- `LIMIT n` of a number that is passed `as i64`; there is no limit under a negative one. -/
def limitRows {ρ : Type} (limit : UInt64) (t : List ρ) : List ρ :=
  let n := I64.wrap limit.toNat
  if n < 0 then t else t.take n.toNat

/-- `serde_json`: what a value is written as, and what is read from a text. -/
class SerdeJson (F : Type) where
  toText : Json F → String
  fromText : String → Option (Json F)

/-- A listed process; its current identity is not shown. -/
structure ProcessListing where
  id : ℕ
  exePath : String
  name : String
  firstSeenMs : ℤ
  lastSeenMs : ℤ
  deriving DecidableEq

def ProcessRow.listing (r : ProcessRow) : ProcessListing :=
  ⟨r.id, r.exePath, r.name, r.firstSeenMs, r.lastSeenMs⟩

namespace Store

variable {F : Type}

/-- The alert of a row, with a detail; a kind or a severity that is not known reads as a default. -/
def alertOfRow (r : AlertRow F) (detail : Json F) : Alert F where
  id := some r.id
  kind := (AlertKind.fromDb r.kind).getD .newProcessDest
  severity := (Severity.fromDb r.severity).getD .info
  ts := r.tsMs
  processId := r.processId
  destId := r.destId
  dedupKey := r.dedupKey
  title := r.title
  detail := detail

/-- An alert as it is read back, with what the parser makes of the text of its detail. -/
def parseAlertRow [SerdeJson F] (r : AlertRow F) : Option (Alert F) :=
  (SerdeJson.fromText (SerdeJson.toText r.detailJson)).map (alertOfRow r)

section Queries

variable (o : OrderBy)

def listProcesses : StoreM F (List ProcessListing) :=
  query fun s => o.sortDesc ProcessListing.lastSeenMs (s.processes.map ProcessRow.listing)

/-- The destinations of a process, joined over its pairs. -/
def destinationsOf (s : Store F) (processId : ℕ) : List DestRow :=
  s.destinations.flatMap fun d =>
    (s.pairs.filter fun p => decide (p.destId = d.id) && decide (p.processId = processId)).map
      fun _ => d

def listDestinationsForProcess (processId : ℕ) : StoreM F (List DestRow) :=
  query fun s => o.sortDesc DestRow.lastSeenMs (s.destinationsOf processId)

/-- The newest alerts, or nothing if the detail of one of them cannot be read. -/
def queryRecentAlerts [SerdeJson F] (limit : UInt64) : StoreM F (Option (List (Alert F))) :=
  query fun s => (limitRows limit (o.sortDesc AlertRow.tsMs s.alerts)).mapM parseAlertRow

def queryProcessHistory (processId : ℕ) (sinceMs untilMs : ℤ) : StoreM F (List ConnectionRow) :=
  query fun s => o.sortDesc ConnectionRow.tsStartMs (s.connections.filter fun c =>
    decide (c.processId = some processId) && decide (c.tsStartMs ≥ sinceMs) &&
      decide (c.tsStartMs ≤ untilMs))

def recentConnections (limit : UInt64) : StoreM F (List ConnectionRow) :=
  query fun s => limitRows limit (o.sortDesc ConnectionRow.tsStartMs s.connections)

/-- The numbers of processes, destinations and alerts. -/
def counts : StoreM F (ℕ × ℕ × ℕ) := do
  let p ← query fun s => s.processes.length
  let d ← query fun s => s.destinations.length
  let a ← query fun s => s.alerts.length
  return (p, d, a)

end Queries

section Limits

variable {ρ : Type} {ts : ρ → ℤ} {t : List ρ}

theorem limitRows_eq (limit : UInt64) (t : List ρ) :
    limitRows limit t = if limit.toNat < 2 ^ 63 then t.take limit.toNat else t := by
  have hlt := limit.toNat_lt
  have hwrap : I64.wrap limit.toNat =
      if limit.toNat < 2 ^ 63 then (limit.toNat : ℤ) else (limit.toNat : ℤ) - 2 ^ 64 := by
    rw [I64.wrap, Int.bmod_def]
    split_ifs <;> omega
  unfold limitRows
  rw [hwrap]
  by_cases h : limit.toNat < 2 ^ 63
  · have hn : ¬ (limit.toNat : ℤ) < 0 := by omega
    simp only [if_pos h, if_neg hn, Int.toNat_natCast]
  · have hn : (limit.toNat : ℤ) - 2 ^ 64 < 0 := by omega
    simp only [if_neg h, if_pos hn]

/-- A limit takes the newest rows: the rest are older than all that are given. -/
structure Newest (ts : ρ → ℤ) (limit : UInt64) (t given : List ρ) : Prop where
  sorted : given.Pairwise fun r r' => ts r' ≤ ts r
  length : given.length = if limit.toNat < 2 ^ 63 then min limit.toNat t.length else t.length
  rest : ∃ left, (given ++ left).Perm t ∧ ∀ r ∈ given, ∀ r' ∈ left, ts r' ≤ ts r

theorem Newest.map {ρ' : Type} {ts' : ρ' → ℤ} {g : ρ → ρ'} {limit : UInt64} {given : List ρ}
    (h : Newest ts limit t given) (hg : ∀ r, ts' (g r) = ts r) :
    Newest ts' limit (t.map g) (given.map g) where
  sorted := by
    rw [List.pairwise_map]
    simpa only [hg] using h.sorted
  length := by simpa using h.length
  rest := by
    obtain ⟨left, hperm, hle⟩ := h.rest
    refine ⟨left.map g, ?_, ?_⟩
    · rw [← List.map_append]
      exact hperm.map g
    · rintro r hr r' hr'
      obtain ⟨a, ha, rfl⟩ := List.mem_map.mp hr
      obtain ⟨b, hb, rfl⟩ := List.mem_map.mp hr'
      rw [hg, hg]
      exact hle a ha b hb

theorem newest_limitRows (o : OrderBy) (ts : ρ → ℤ) (limit : UInt64) (t : List ρ) :
    Newest ts limit t (limitRows limit (o.sortDesc ts t)) := by
  have hs := o.sorted ts t
  have hp := o.perm ts t
  rw [limitRows_eq]
  split_ifs with h
  · refine ⟨hs.sublist (List.take_sublist _ _), ?_, (o.sortDesc ts t).drop limit.toNat, ?_, ?_⟩
    · rw [if_pos h, List.length_take, o.length_sortDesc]
    · rw [List.take_append_drop]
      exact hp
    · rintro r hr r' hr'
      rw [← List.take_append_drop limit.toNat (o.sortDesc ts t), List.pairwise_append] at hs
      exact hs.2.2 r hr r' hr'
  · refine ⟨hs, ?_, [], ?_, ?_⟩
    · rw [if_neg h, o.length_sortDesc]
    · rw [List.append_nil]
      exact hp
    · exact fun _ _ _ hr' => nomatch hr'

end Limits

section Join

variable {s : Store F}

/-- Whether a process has a pair with a destination. -/
def paired (s : Store F) (processId destId : ℕ) : Bool :=
  (select (fun r : PairRow => (r.processId, r.destId)) (processId, destId) s.pairs).isSome

/-- The pairs are unique, so the join gives each destination at most once. -/
theorem Keyed.destinationsOf_eq (h : Keyed s) (pid : ℕ) :
    s.destinationsOf pid = s.destinations.filter fun d => s.paired pid d.id := by
  have hone : ∀ d : DestRow,
      ((s.pairs.filter fun p => decide (p.destId = d.id) && decide (p.processId = pid)).map
        fun _ => d) = if s.paired pid d.id then [d] else [] := by
    intro d
    have hkey : (fun p : PairRow => decide (p.destId = d.id) && decide (p.processId = pid)) =
        fun p => decide ((p.processId, p.destId) = (pid, d.id)) := by
      ext p
      simp [Bool.and_comm]
    rw [hkey, h.pairKeys.filter_eq, paired]
    cases select (fun r : PairRow => (r.processId, r.destId)) (pid, d.id) s.pairs <;> rfl
  unfold destinationsOf
  induction s.destinations with
  | nil => rfl
  | cons d ds ih =>
    rw [List.flatMap_cons, hone, ih, List.filter_cons]
    split <;> rfl

end Join

end Store

end Pktscope

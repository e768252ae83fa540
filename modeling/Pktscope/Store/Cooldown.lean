import Pktscope.Store.Queries

/-! # The alert cooldown

An alert is stored unless the latest stored one with its key is younger than the
cooldown. Whatever the order of the timestamps, and whatever the retention sweep
has deleted, the stored alerts of one key stay a cooldown apart.
-/

namespace Pktscope.Store

open Library Library.Prog Library.Sql

variable {F : Type}

/-- A call on the alert history, with its failing statement, if one fails. -/
inductive AlertCall (F : Type) where
  | insert (alert : Alert F) (fault : Option ℕ)
  | sweep (beforeMs : ℤ) (fault : Option ℕ)

namespace AlertCall

/-- The timestamp that a call brings. -/
def time? : AlertCall F → Option ℤ
  | insert alert _ => some alert.ts
  | sweep _ _ => none

/-- The store after a call, under one cooldown for all. -/
def apply (cooldownMs : ℤ) (s : Store F) : AlertCall F → Store F
  | insert alert fault => ((insertAlert alert cooldownMs).attempt fault s).2
  | sweep beforeMs fault => ((deleteOlderThan beforeMs).attempt fault s).2

end AlertCall

/-- The store after some calls on a new one. -/
def runCalls (cooldownMs : ℤ) (calls : List (AlertCall F)) : Store F :=
  calls.foldl (AlertCall.apply cooldownMs) openNew

/-- Alerts with one key are so far apart. -/
def Spaced (cooldownMs : ℤ) (alerts : List (AlertRow F)) : Prop :=
  alerts.Pairwise fun a b => a.dedupKey = b.dedupKey → cooldownMs ≤ (a.tsMs - b.tsMs).natAbs

/-- Two timestamps whose difference does not overflow. -/
def Near (ts : ℤ) : Prop := ts.natAbs < 2 ^ 62

theorem Near.sub {ts prev : ℤ} (h : Near ts) (h' : Near prev) : I64.sub ts prev = ts - prev := by
  apply I64.wrap_of_inRange
  unfold Near at h h'
  unfold I64.InRange I64.minValue I64.maxValue
  omega

section Calls

variable {s : Store F} {alert : Alert F} {c : ℤ}

/-- An alert is in its cooldown if a stored one with its key is younger than that. -/
theorem inCooldown_iff (hts : Near alert.ts) (hs : ∀ r ∈ s.alerts, Near r.tsMs) :
    inCooldown (s.lastAlertTs alert.dedupKey) alert.ts c = true ↔
      ∃ r ∈ s.alerts, r.dedupKey = alert.dedupKey ∧ alert.ts - r.tsMs < c := by
  unfold lastAlertTs
  generalize htimes : (s.alerts.filter fun a => decide (a.dedupKey = alert.dedupKey)).map
    AlertRow.tsMs = times
  have hmem (ts : ℤ) :
      ts ∈ times ↔ ∃ r ∈ s.alerts, r.dedupKey = alert.dedupKey ∧ r.tsMs = ts := by
    simp [← htimes, and_assoc]
  cases hmax : times.max? with
  | none =>
    obtain rfl := List.max?_eq_none_iff.mp hmax
    constructor
    · intro h
      cases h
    · rintro ⟨r, hr, hkey, -⟩
      exact absurd ((hmem r.tsMs).mpr ⟨r, hr, hkey, rfl⟩) List.not_mem_nil
  | some prev =>
    obtain ⟨hprev, hle⟩ := List.max?_eq_some_iff.mp hmax
    obtain ⟨r, hr, hkey, rfl⟩ := (hmem prev).mp hprev
    rw [inCooldown, hts.sub (hs r hr), decide_eq_true_iff]
    constructor
    · intro h
      exact ⟨r, hr, hkey, h⟩
    · rintro ⟨r', hr', hkey', h⟩
      have := hle r'.tsMs ((hmem r'.tsMs).mpr ⟨r', hr', hkey', rfl⟩)
      omega

theorem insertAlert_cases (s : Store F) (alert : Alert F) (c : ℤ) (fault : Option ℕ) :
    (insertAlert alert c).attempt fault s = (none, s) ∨
      inCooldown (s.lastAlertTs alert.dedupKey) alert.ts c = true ∧
        (insertAlert alert c).attempt fault s = (some none, s) ∨
      inCooldown (s.lastAlertTs alert.dedupKey) alert.ts c = false ∧
        (insertAlert alert c).attempt fault s = (some (some (s.alertRow alert).id),
          { s with alerts := s.alerts ++ [s.alertRow alert] }) := by
  have hrun : insertAlert alert c = .stmt id fun s : Store F =>
      if inCooldown (s.lastAlertTs alert.dedupKey) alert.ts c then .ret none
      else .stmt (fun s => { s with alerts := s.alerts ++ [s.alertRow alert] }) fun s =>
        .ret (some (s.alertRow alert).id) := rfl
  rw [hrun]
  cases hcool : inCooldown (s.lastAlertTs alert.dedupKey) alert.ts c with
  | true =>
    rcases fault with - | - | n
    · exact Or.inr (Or.inl ⟨rfl, by simp [attempt, Prog.run, hcool]⟩)
    · exact Or.inl rfl
    · exact Or.inr (Or.inl ⟨rfl, by simp [attempt, cut, hcool]⟩)
  | false =>
    rcases fault with - | - | - | n
    · exact Or.inr (Or.inr ⟨rfl, by simp [attempt, Prog.run, hcool]⟩)
    · exact Or.inl rfl
    · exact Or.inl (by simp [attempt, cut, hcool])
    · exact Or.inr (Or.inr ⟨rfl, by simp [attempt, cut, hcool]⟩)

theorem alerts_deleteOlderThan (s : Store F) (beforeMs : ℤ) (fault : Option ℕ) :
    ((deleteOlderThan beforeMs).attempt fault s).2.alerts.Sublist s.alerts := by
  have hholds : (deleteOlderThan beforeMs).Holds (fun t => t.alerts.Sublist s.alerts)
      (fun _ t => t.alerts.Sublist s.alerts) s :=
    ⟨.refl _, .refl _, List.filter_sublist, List.filter_sublist⟩
  exact hholds.attempt fault

end Calls

/-- What a run leaves behind: spaced alerts, whose timestamps some call has brought. -/
structure Cooled (c : ℤ) (calls : List (AlertCall F)) (s : Store F) : Prop where
  spaced : Spaced c s.alerts
  brought : ∀ r ∈ s.alerts, r.tsMs ∈ calls.filterMap AlertCall.time?

section Runs

variable {s : Store F} {calls : List (AlertCall F)} {c : ℤ}

theorem spaced_concat {r : AlertRow F} (h : Spaced c s.alerts)
    (hr : ∀ a ∈ s.alerts, a.dedupKey = r.dedupKey → c ≤ r.tsMs - a.tsMs) :
    Spaced c (s.alerts ++ [r]) := by
  refine List.pairwise_append.mpr ⟨h, List.pairwise_singleton _ _, fun a ha b hb hkey => ?_⟩
  obtain rfl := List.mem_singleton.mp hb
  have := hr a ha hkey
  omega

theorem Cooled.near (h : Cooled c calls s)
    (hts : ∀ call ∈ calls, ∀ ts ∈ call.time?, Near ts) : ∀ r ∈ s.alerts, Near r.tsMs := by
  intro r hr
  obtain ⟨call, hcall, htime⟩ := List.mem_filterMap.mp (h.brought r hr)
  exact hts call hcall _ htime

theorem Cooled.apply (h : Cooled c calls s)
    (hts : ∀ call ∈ calls, ∀ ts ∈ call.time?, Near ts) {call : AlertCall F}
    (hcall : ∀ ts ∈ call.time?, Near ts) : Cooled c (calls ++ [call]) (call.apply c s) := by
  have hold : ∀ r ∈ s.alerts, r.tsMs ∈ (calls ++ [call]).filterMap AlertCall.time? := by
    intro r hr
    rw [List.filterMap_append]
    exact List.mem_append_left _ (h.brought r hr)
  cases call with
  | sweep beforeMs fault =>
    have hsub := alerts_deleteOlderThan s beforeMs fault
    exact ⟨h.spaced.sublist hsub, fun r hr => hold r (hsub.subset hr)⟩
  | insert alert fault =>
    rcases insertAlert_cases s alert c fault with hr | ⟨-, hr⟩ | ⟨hcool, hr⟩
    · rw [AlertCall.apply, hr]
      exact ⟨h.spaced, hold⟩
    · rw [AlertCall.apply, hr]
      exact ⟨h.spaced, hold⟩
    · rw [AlertCall.apply, hr]
      have hnear := hcall alert.ts rfl
      constructor
      · apply spaced_concat h.spaced
        intro a ha hkey
        by_contra hlt
        have hin := (inCooldown_iff (c := c) hnear (h.near hts)).mpr
          ⟨a, ha, hkey, not_le.mp hlt⟩
        rw [hcool] at hin
        cases hin
      · intro r hr
        rcases List.mem_append.mp hr with hr | hr
        · exact hold r hr
        · obtain rfl := List.mem_singleton.mp hr
          simp [alertRow, AlertCall.time?]

theorem cooled_runCalls (hts : ∀ call ∈ calls, ∀ ts ∈ call.time?, Near ts) :
    Cooled c calls (runCalls c calls) := by
  induction calls using List.reverseRecOn with
  | nil => exact ⟨.nil, fun _ hr => nomatch hr⟩
  | append_singleton calls call ih =>
    have hinit : ∀ call ∈ calls, ∀ ts ∈ call.time?, Near ts := fun call hcall =>
      hts call (List.mem_append_left _ hcall)
    rw [runCalls, List.foldl_append]
    exact (ih hinit).apply hinit (hts call (List.mem_append_right _ (List.mem_singleton_self _)))

/-- In every run the stored alerts of one key are a cooldown apart, an insertion answers with an id
exactly when it adds its row, and while time does not go back only a young alert suppresses. -/
theorem alert_cooldown_run (hts : ∀ call ∈ calls, ∀ ts ∈ call.time?, Near ts) :
    let s := runCalls c calls
    Spaced c s.alerts ∧ ∀ (alert : Alert F) (fault : Option ℕ), Near alert.ts →
      let (answer, t) := (insertAlert alert c).attempt fault s
      t.alerts = s.alerts ++ (if answer.join.isSome then [s.alertRow alert] else []) ∧
        (answer = some none →
          (calls.filterMap AlertCall.time? ++ [alert.ts]).Pairwise (· ≤ ·) →
          ∃ r ∈ s.alerts, r.dedupKey = alert.dedupKey ∧ r.tsMs ≤ alert.ts ∧
            alert.ts - r.tsMs < c) := by
  intro s
  have hs : Cooled c calls s := cooled_runCalls hts
  refine ⟨hs.spaced, fun alert fault hnear => ?_⟩
  rcases insertAlert_cases s alert c fault with hr | ⟨hcool, hr⟩ | ⟨-, hr⟩
  · rw [hr]
    exact ⟨(List.append_nil _).symm, nofun⟩
  · rw [hr]
    refine ⟨(List.append_nil _).symm, fun _ hsorted => ?_⟩
    obtain ⟨r, hmem, hkey, hlt⟩ := (inCooldown_iff hnear (hs.near hts)).mp hcool
    have hle := (List.pairwise_append.mp hsorted).2.2 r.tsMs (hs.brought r hmem) alert.ts
      (List.mem_singleton_self _)
    exact ⟨r, hmem, hkey, hle, hlt⟩
  · rw [hr]
    exact ⟨rfl, nofun⟩

end Runs

section Samples

def dnsAlert (ts : ℤ) : Alert ℚ :=
  ⟨none, .newProcessDest, .notice, ts, some 1, some 1, "dest|1|example.com", "", .null⟩

/-- A late alert, a repeated one, a sweep and one more. -/
def sampleCalls : List (AlertCall ℚ) :=
  [.insert (dnsAlert 5000) none, .insert (dnsAlert 4000) none, .insert (dnsAlert 5500) none,
    .sweep 5001 none, .insert (dnsAlert 5200) none]

theorem alert_cooldown_run_sample : Spaced 1000 (runCalls 1000 sampleCalls).alerts :=
  (alert_cooldown_run (by simp [sampleCalls, AlertCall.time?, dnsAlert, Near])).1

end Samples

end Pktscope.Store

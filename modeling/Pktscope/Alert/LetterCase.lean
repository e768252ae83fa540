import Pktscope.Enrich.Spelling
import Pktscope.Monitor.LabelDrift

/-! # Destinations and the case of their names

A destination without an organisation is known by the registrable domain as its
name spells it. Two spellings of a name are one destination of a process exactly
when the labels of that domain are spelled alike.
-/

namespace Pktscope.AlertEngine

open Library Library.Prog Store

variable {F : Type} [F64 F]

/-- How many new destinations a call reports. -/
def destAlerts (c : EvalCall F) (s : Store F) : ℕ :=
  (Worker.firedAlerts (c.attempt s).1).countP isDestAlert

theorem destAlerts_eq {c : EvalCall F} {s : Store F} (hs : Coherent s) :
    destAlerts c s = if (c.attempt s).1.isSome && bringsDest c.cfg c.ev s then 1 else 0 :=
  countP_attempt hs c.fault

theorem destAlerts_le_one {c : EvalCall F} {s : Store F} (hs : Coherent s) :
    destAlerts c s ≤ 1 := by
  rw [destAlerts_eq hs]
  split <;> decide

section Runs

variable {s : Store F} {c d : EvalCall F}

theorem runEvals_append (s : Store F) (calls calls' : List (EvalCall F)) :
    runEvals s (calls ++ calls') = runEvals (runEvals s calls) calls' := List.foldl_append

theorem retains_runEvals (s : Store F) (calls : List (EvalCall F)) :
    Retains s (runEvals s calls) := by
  induction calls generalizing s with
  | nil => exact refl_of Retains s
  | cons c calls ih => exact trans_of Retains (retains_attempt c.cfg c.ev c.fault s) (ih _)

theorem destAlerts_eq_zero (hs : Coherent s) (hsame : contactOf c.ev = contactOf d.ev)
    (hc : (c.attempt s).1.isSome) (between : List (EvalCall F)) :
    destAlerts d (runEvals (c.attempt s).2 between) = 0 := by
  have hafter : Coherent (c.attempt s).2 := (evaluateFull_coherent hs).attempt c.fault
  have hcoh := runEvals_coherent hafter between
  have hold : bringsDest d.cfg d.ev (runEvals (c.attempt s).2 between) = false := by
    rw [bringsDest, ← hsame, Bool.and_eq_false_iff]
    right
    cases hp : c.ev.proc with
    | none => rw [contactOf, hp, Option.map_none, Option.any_none]
    | some p =>
      obtain ⟨o, ho⟩ := Option.isSome_iff_exists.mp hc
      have hknown : knows (c.attempt s).2 (.label p.exe c.ev.stableLabel) = true := by
        have hs' : (c.attempt s).2 = ((evaluateFull c.cfg c.ev).run s).2 := (attempt_eq_run ho).2
        rw [hs', knows_evaluateFull hs]
        exact Or.inr ((mem_novelties hp).mpr (Or.inr (Or.inl rfl)))
      rw [contactOf, hp, Option.map_some, Option.any_some,
        (retains_runEvals _ between).knows hknown]
      rfl
  rw [destAlerts_eq hcoh, hold, Bool.and_false]
  rfl

theorem destAlerts_add_le_one (hs : Reached s) (hsame : contactOf c.ev = contactOf d.ev)
    (before between : List (EvalCall F)) :
    destAlerts c (runEvals s before) + destAlerts d (runEvals s (before ++ c :: between)) ≤ 1 := by
  have hcoh := runEvals_coherent hs.coherent before
  have hrest : runEvals s (before ++ c :: between) =
      runEvals (c.attempt (runEvals s before)).2 between := runEvals_append s before (c :: between)
  by_cases hc : (c.attempt (runEvals s before)).1.isSome
  · rw [hrest, destAlerts_eq_zero hcoh hsame hc between]
    exact destAlerts_le_one hcoh
  · have hzero : destAlerts c (runEvals s before) = 0 := by
      rw [destAlerts_eq hcoh, Bool.eq_false_of_not_eq_true hc, Bool.false_and]
      rfl
    rw [hzero, Nat.zero_add]
    exact destAlerts_le_one (runEvals_coherent hs.coherent _)

end Runs

/-- Two names are one destination of a process, reported at most once, exactly when
they spell the labels of the registrable domain alike. -/
theorem one_destination_iff {e e' : FlowEvent} {p p' : SocketProc} (hp : e.proc = some p)
    (hp' : e'.proc = some p') (hexe : p.exe = p'.exe) (horg : e.geo.asOrg = none)
    (horg' : e'.geo.asOrg = none) {a b : String} (ha : e.name = some a) (hb : e'.name = some b) :
    (e.stableLabel = e'.stableLabel ∧
        ∀ s : Store F, Reached s → ∀ before between : List (EvalCall F), ∀ c d : EvalCall F,
          c.ev = e → d.ev = e' →
          destAlerts c (runEvals s before) +
            destAlerts d (runEvals s (before ++ c :: between)) ≤ 1) ↔
      (lastLabels a).take (depthOf (lastLabels a)) =
        (lastLabels b).take (depthOf (lastLabels a)) := by
  have hlabel : e.stableLabel = registrableDomainOf a := by rw [FlowEvent.stableLabel, horg, ha]
  have hlabel' : e'.stableLabel = registrableDomainOf b := by rw [FlowEvent.stableLabel, horg', hb]
  rw [← registrableDomainOf_eq_iff, hlabel, hlabel']
  constructor
  · exact fun h => h.1
  · intro h
    refine ⟨h, ?_⟩
    rintro s hs before between c d rfl rfl
    apply destAlerts_add_le_one hs
    rw [contactOf, contactOf, hp, hp', Option.map_some, Option.map_some, hlabel, hlabel', h, hexe]

section Spellings

/-- A connection of a browser to a host that the resolver has spelled so. -/
def browserEvent (ts : ℤ) (name : String) : FlowEvent :=
  { serverEvent ts true with name := some name }

/-- The learning window of a new store passes. -/
def windowCalls : List (EvalCall ℚ) := [⟨.demo, { serverEvent 0 false with proc := none }, none⟩]

theorem one_destination_iff_dots :
    ((browserEvent 5000 "example.com").stableLabel = (browserEvent 5001 "example.com.").stableLabel ∧
        ∀ s : Store ℚ, Reached s → ∀ before between : List (EvalCall ℚ), ∀ c d : EvalCall ℚ,
          c.ev = browserEvent 5000 "example.com" → d.ev = browserEvent 5001 "example.com." →
          destAlerts c (runEvals s before) +
            destAlerts d (runEvals s (before ++ c :: between)) ≤ 1) ↔
      (lastLabels "example.com").take (depthOf (lastLabels "example.com")) =
        (lastLabels "example.com.").take (depthOf (lastLabels "example.com")) :=
  one_destination_iff (F := ℚ) rfl rfl rfl rfl rfl rfl rfl

/-- A host whose name comes back in another case is reported a second time. -/
theorem spelling_reported_again :
    SameName "www.example.com" "wWw.eXample.cOM" ∧
      (browserEvent 5000 "www.example.com").stableLabel ≠
        (browserEvent 5001 "wWw.eXample.cOM").stableLabel ∧
      destAlerts (⟨.demo, browserEvent 5000 "www.example.com", none⟩ : EvalCall ℚ)
          (runEvals openNew windowCalls) +
        destAlerts (⟨.demo, browserEvent 5001 "wWw.eXample.cOM", none⟩ : EvalCall ℚ)
          (runEvals openNew (windowCalls ++
            ⟨.demo, browserEvent 5000 "www.example.com", none⟩ :: [])) = 2 := by
  decide

end Spellings

end Pktscope.AlertEngine

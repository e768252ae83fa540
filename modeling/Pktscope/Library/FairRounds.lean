import Mathlib.Data.List.Basic
import Mathlib.Tactic.Common

/-! # Fair schedules

Threads move one at a time. A round of a schedule is fair if every thread is tried
in it. If no move raises a measure, and until the end some thread is ready to lower
it and stays ready while the others wait, then fair rounds reach the end.
-/

namespace Library

variable {σ μ τ : Type} {step : σ → μ → σ} {who : μ → τ} {holds ended : σ → Prop}
variable {ready : τ → σ → Prop} {ρ : σ → ℕ}

/-- Every thread is tried. -/
def FairRound (who : μ → τ) (round : List μ) : Prop := ∀ t, ∃ m ∈ round, who m = t

/-- A measure of what is left to do, with the threads that are ready to lower it. -/
structure Progress (step : σ → μ → σ) (who : μ → τ) (holds ended : σ → Prop) (ready : τ → σ → Prop)
    (ρ : σ → ℕ) : Prop where
  keeps : ∀ s m, holds s → holds (step s m)
  stays : ∀ s m, holds s → ended s → ended (step s m)
  falls : ∀ s m, holds s → ρ (step s m) ≤ ρ s
  moves : ∀ s m, holds s → ¬ ended s → ready (who m) s → ρ (step s m) < ρ s
  /-- A thread stays ready while others only wait. -/
  waits : ∀ s m t, holds s → ready t s → ρ (step s m) < ρ s ∨ ready t (step s m)
  live : ∀ s, holds s → ¬ ended s → ∃ t, ready t s

namespace Progress

variable (h : Progress step who holds ended ready ρ)

include h

theorem keeps_run {s : σ} (hs : holds s) (ms : List μ) : holds (ms.foldl step s) := by
  induction ms generalizing s with
  | nil => exact hs
  | cons m ms ih => exact ih (h.keeps s m hs)

theorem stays_run {s : σ} (hs : holds s) (he : ended s) (ms : List μ) :
    ended (ms.foldl step s) := by
  induction ms generalizing s with
  | nil => exact he
  | cons m ms ih => exact ih (h.keeps s m hs) (h.stays s m hs he)

theorem falls_run {s : σ} (hs : holds s) (ms : List μ) : ρ (ms.foldl step s) ≤ ρ s := by
  induction ms generalizing s with
  | nil => exact Nat.le_refl _
  | cons m ms ih => exact Nat.le_trans (ih (h.keeps s m hs)) (h.falls s m hs)

theorem ready_run {s : σ} (hs : holds s) {t : τ} (ht : ready t s) {ms : List μ}
    (hm : ∃ m ∈ ms, who m = t) : ended (ms.foldl step s) ∨ ρ (ms.foldl step s) < ρ s := by
  induction ms generalizing s with
  | nil => simp at hm
  | cons m ms ih =>
    rw [List.foldl_cons]
    by_cases he : ended s
    · exact Or.inl (h.stays_run (h.keeps s m hs) (h.stays s m hs he) ms)
    by_cases hwho : who m = t
    · right
      subst hwho
      exact Nat.lt_of_le_of_lt (h.falls_run (h.keeps s m hs) ms) (h.moves s m hs he ht)
    · rcases h.waits s m t hs ht with hlt | ht'
      · exact Or.inr (Nat.lt_of_le_of_lt (h.falls_run (h.keeps s m hs) ms) hlt)
      · have htried : ∃ m ∈ ms, who m = t := by
          obtain ⟨m', hm', ht⟩ := hm
          rcases List.mem_cons.mp hm' with rfl | hm'
          · exact absurd ht hwho
          · exact ⟨m', hm', ht⟩
        rcases ih (h.keeps s m hs) ht' htried with hend | hlt
        · exact Or.inl hend
        · exact Or.inr (Nat.lt_of_lt_of_le hlt (h.falls s m hs))

/-- As many fair rounds as the measure says reach the end. -/
theorem ends {s : σ} (hs : holds s) {rounds : List (List μ)}
    (hfair : ∀ round ∈ rounds, FairRound who round) (hlen : ρ s < rounds.length) :
    ended (rounds.flatten.foldl step s) := by
  induction rounds generalizing s with
  | nil => cases hlen
  | cons round rounds ih =>
    rw [List.flatten_cons, List.foldl_append]
    have hkeeps := h.keeps_run hs round
    by_cases he : ended s
    · exact h.stays_run hkeeps (h.stays_run hs he round) _
    · obtain ⟨t, ht⟩ := h.live s hs he
      rcases h.ready_run hs ht (hfair round List.mem_cons_self t) with hend | hlt
      · exact h.stays_run hkeeps hend _
      · rw [List.length_cons] at hlen
        exact ih hkeeps (fun r hr => hfair r (List.mem_cons_of_mem _ hr)) (by omega)

end Progress

end Library

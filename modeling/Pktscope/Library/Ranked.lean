import Mathlib.Data.List.Basic
import Mathlib.Data.List.Induction
import Mathlib.Tactic.Common

/-! # The latest of the highest rank

A register that is overwritten unless its present value has a higher rank holds
the last element of the highest rank that was ever offered.
-/

namespace Library

variable {α : Type} (rank : α → ℕ)

/-- The last element of a log among those that no element outranks. -/
def latestBest (log : List α) : Option α :=
  (log.filter fun a => log.all fun b => decide (rank b ≤ rank a)).getLast?

/-- Offer a new value to a register. -/
def offer (held : Option α) (a : α) : Option α :=
  match held with
  | some b => if rank b > rank a then some b else some a
  | none => some a

variable {rank} {log : List α} {a b : α}

theorem mem_of_latestBest (h : latestBest rank log = some b) :
    b ∈ log ∧ ∀ c ∈ log, rank c ≤ rank b := by
  have hb := List.mem_filter.mp (List.mem_of_getLast? h)
  simpa using hb

theorem exists_best (h : log ≠ []) : ∃ b ∈ log, ∀ c ∈ log, rank c ≤ rank b := by
  induction log with
  | nil => exact absurd rfl h
  | cons a log ih =>
    by_cases hl : log = []
    · exact ⟨a, List.mem_cons_self, by simp [hl]⟩
    · obtain ⟨b, hb, hmax⟩ := ih hl
      rcases Nat.le_total (rank a) (rank b) with hle | hle
      · refine ⟨b, List.mem_cons_of_mem _ hb, ?_⟩
        simpa using ⟨hle, hmax⟩
      · refine ⟨a, List.mem_cons_self, ?_⟩
        simpa using fun c hc => Nat.le_trans (hmax c hc) hle

theorem latestBest_eq_none : latestBest rank log = none ↔ log = [] := by
  constructor
  · intro h
    by_contra hl
    obtain ⟨b, hb, hmax⟩ := exists_best hl
    have hf : b ∈ log.filter fun a => log.all fun c => decide (rank c ≤ rank a) := by
      simpa [hb] using hmax
    rw [latestBest, List.getLast?_eq_none_iff] at h
    rw [h] at hf
    cases hf
  · rintro rfl
    rfl

/-- The latest best of a log is what a register holds. -/
theorem latestBest_concat (log : List α) (a : α) :
    latestBest rank (log ++ [a]) = offer rank (latestBest rank log) a := by
  have hself : (log ++ [a]).filter (fun x => (log ++ [a]).all fun c => decide (rank c ≤ rank x)) =
      (log.filter fun x => (log.all fun c => decide (rank c ≤ rank x)) && decide (rank a ≤ rank x)) ++
        if log.all fun c => decide (rank c ≤ rank a) then [a] else [] := by
    rw [List.filter_append]
    congr 1
    · refine List.filter_congr fun x _ => ?_
      simp
    · by_cases h : ∀ c ∈ log, rank c ≤ rank a <;> simp [List.filter_cons, h]
  rw [latestBest, hself]
  cases hb : latestBest rank log with
  | none =>
    rw [latestBest_eq_none.mp hb]
    rfl
  | some b =>
    obtain ⟨hmem, hmax⟩ := mem_of_latestBest hb
    by_cases hlt : rank b > rank a
    · have hout : ¬ (log.all fun c => decide (rank c ≤ rank a)) = true := by
        simp only [List.all_eq_true, decide_eq_true_eq, not_forall]
        exact ⟨b, hmem, Nat.not_le_of_lt hlt⟩
      have hsame : (log.filter fun x => (log.all fun c => decide (rank c ≤ rank x)) &&
          decide (rank a ≤ rank x)) = log.filter fun x => log.all fun c => decide (rank c ≤ rank x) := by
        refine List.filter_congr fun x _ => ?_
        by_cases hx : (log.all fun c => decide (rank c ≤ rank x)) = true
        · have hbx : rank b ≤ rank x := by
            simp only [List.all_eq_true, decide_eq_true_eq] at hx
            exact hx b hmem
          simp [hx, Nat.le_trans (Nat.le_of_lt hlt) hbx]
        · simp [hx]
      rw [if_neg hout, List.append_nil, hsame, offer, if_pos hlt]
      exact hb
    · have hin : (log.all fun c => decide (rank c ≤ rank a)) = true := by
        simp only [List.all_eq_true, decide_eq_true_eq]
        exact fun c hc => Nat.le_trans (hmax c hc) (Nat.le_of_not_lt hlt)
      rw [if_pos hin, List.getLast?_append, offer, if_neg hlt]
      rfl

end Library

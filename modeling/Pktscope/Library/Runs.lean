import Mathlib.Data.List.Basic
import Mathlib.Tactic.Common

/-! # Runs that may stop

The states of a run whose steps may end it. What holds at the start and is kept
by every step that goes on holds of every state of the run.
-/

namespace Library

variable {σ ι ε : Type} {step : σ → ι → Except ε σ} {s : σ} {is : List ι}

/-- The state after some steps of a run, unless the run has stopped before. -/
def stateAt (step : σ → ι → Except ε σ) (s : σ) (is : List ι) (n : ℕ) : Except ε σ :=
  (is.take n).foldlM step s

@[simp] theorem stateAt_zero : stateAt step s is 0 = .ok s := rfl

theorem stateAt_succ {n : ℕ} {i : ι} (h : is[n]? = some i) :
    stateAt step s is (n + 1) = stateAt step s is n >>= fun s => step s i := by
  rw [stateAt, stateAt, List.take_add_one, h, Option.toList_some, List.foldlM_append]
  refine congrArg _ (funext fun s => ?_)
  rw [List.foldlM_cons]
  exact bind_pure (step s i)

/-- A step of a run that goes on. -/
theorem stateAt_succ_eq_ok {n : ℕ} {i : ι} (h : is[n]? = some i) {s' : σ}
    (hs : stateAt step s is (n + 1) = .ok s') :
    ∃ t, stateAt step s is n = .ok t ∧ step t i = .ok s' := by
  rw [stateAt_succ h] at hs
  cases ht : stateAt step s is n with
  | error e =>
    rw [ht] at hs
    cases hs
  | ok t =>
    rw [ht] at hs
    exact ⟨t, rfl, hs⟩

theorem stateAt_induction {P : ℕ → σ → Prop} (hstart : P 0 s)
    (hstep : ∀ n i t s', is[n]? = some i → stateAt step s is n = .ok t → P n t →
      step t i = .ok s' → P (n + 1) s') {n : ℕ} (hn : n ≤ is.length) {s' : σ}
    (hs : stateAt step s is n = .ok s') : P n s' := by
  induction n generalizing s' with
  | zero =>
    cases hs
    exact hstart
  | succ n ih =>
    have hi : is[n]? = some is[n] := List.getElem?_eq_getElem hn
    obtain ⟨t, ht, hgoes⟩ := stateAt_succ_eq_ok hi hs
    exact hstep n _ t s' hi ht (ih (Nat.le_of_lt hn) ht) hgoes

end Library

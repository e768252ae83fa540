import Mathlib.Algebra.Order.Field.Basic
import Mathlib.Tactic.Linarith
import Mathlib.Tactic.Ring

/-! # Exponentially weighted statistics

A running mean and variance that give a new sample the weight `α`. With a weight
between zero and one the mean stays between the samples, and the variance never
becomes negative.
-/

namespace Library

variable {K : Type} [Field K]

structure Ewma (K : Type) where
  mean : K
  var : K

namespace Ewma

/-- The statistics with one more sample, which is judged against the old mean. -/
def fold (α : K) (e : Ewma K) (x : K) : Ewma K where
  mean := e.mean + α * (x - e.mean)
  var := (1 - α) * (e.var + α * (x - e.mean) * (x - e.mean))

variable {α x a : K} {e : Ewma K}

/-- The new mean is a convex combination. -/
theorem mean_fold : (e.fold α x).mean = (1 - α) * e.mean + α * x := by
  rw [fold]
  ring

variable [LinearOrder K] [IsStrictOrderedRing K]

theorem le_mean_fold (h0 : 0 ≤ α) (h1 : α ≤ 1) (hm : a ≤ e.mean) (hx : a ≤ x) :
    a ≤ (e.fold α x).mean := by
  have hold := mul_le_mul_of_nonneg_left hm (sub_nonneg.mpr h1)
  have hnew := mul_le_mul_of_nonneg_left hx h0
  rw [mean_fold]
  linarith

theorem mean_fold_le (h0 : 0 ≤ α) (h1 : α ≤ 1) (hm : e.mean ≤ a) (hx : x ≤ a) :
    (e.fold α x).mean ≤ a := by
  have hold := mul_le_mul_of_nonneg_left hm (sub_nonneg.mpr h1)
  have hnew := mul_le_mul_of_nonneg_left hx h0
  rw [mean_fold]
  linarith

theorem var_fold_nonneg (h0 : 0 ≤ α) (h1 : α ≤ 1) (hv : 0 ≤ e.var) : 0 ≤ (e.fold α x).var := by
  have hsquare : 0 ≤ α * (x - e.mean) * (x - e.mean) := by
    rw [mul_assoc]
    exact mul_nonneg h0 (mul_self_nonneg _)
  exact mul_nonneg (sub_nonneg.mpr h1) (add_nonneg hv hsquare)

end Ewma

end Library

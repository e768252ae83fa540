import Mathlib.Data.List.Induction
import Mathlib.Logic.Function.Basic
import Mathlib.Tactic.Common

/-! # Replaying writes

A log of writes determines a table: a cell holds what its last write left there.
A replay need not start where the log did. From a table that already has some of
the writes, any part of the log that has all the others leads to the same end.
-/

namespace Library

variable {ι V : Type} [DecidableEq ι]

/-- A write to a cell; `none` empties it. -/
abbrev CellWrite (ι V : Type) := ι × Option V

/-- The table after a log of writes. -/
def replay (base : ι → Option V) (log : List (CellWrite ι V)) : ι → Option V :=
  log.foldl (fun table w => Function.update table w.1 w.2) base

/-- The last write to a cell. -/
def lastWrite (log : List (CellWrite ι V)) (i : ι) : Option (Option V) :=
  log.foldl (fun last w => if w.1 = i then some w.2 else last) none

theorem replay_append (base : ι → Option V) (log log' : List (CellWrite ι V)) :
    replay base (log ++ log') = replay (replay base log) log' := List.foldl_append

theorem replay_concat (base : ι → Option V) (log : List (CellWrite ι V)) (w : CellWrite ι V) :
    replay base (log ++ [w]) = Function.update (replay base log) w.1 w.2 := replay_append ..

theorem lastWrite_concat (log : List (CellWrite ι V)) (w : CellWrite ι V) (i : ι) :
    lastWrite (log ++ [w]) i = if w.1 = i then some w.2 else lastWrite log i := by
  rw [lastWrite, List.foldl_append]
  rfl

theorem lastWrite_eq_none {log : List (CellWrite ι V)} {i : ι} :
    lastWrite log i = none ↔ ∀ w ∈ log, w.1 ≠ i := by
  induction log using List.reverseRecOn with
  | nil => exact iff_of_true rfl fun _ hw => nomatch hw
  | append_singleton log w ih =>
    rw [lastWrite_concat]
    split_ifs with hw
    · refine iff_of_false (by simp) fun h => h w (by simp) hw
    · rw [ih]
      constructor
      · intro h v hv
        rcases List.mem_append.mp hv with hv | hv
        · exact h v hv
        · exact List.mem_singleton.mp hv ▸ hw
      · exact fun h v hv => h v (List.mem_append_left _ hv)

/-- A cell holds what its last write left there. -/
theorem replay_apply (base : ι → Option V) (log : List (CellWrite ι V)) (i : ι) :
    replay base log i = (lastWrite log i).getD (base i) := by
  induction log using List.reverseRecOn with
  | nil => rfl
  | append_singleton log w ih =>
    rw [replay_concat, lastWrite_concat, Function.update_apply, ih]
    by_cases h : i = w.1
    · rw [if_pos h, if_pos h.symm, Option.getD_some]
    · rw [if_neg h, if_neg (Ne.symm h)]

theorem replay_eq_iff (base base' : ι → Option V) (log : List (CellWrite ι V)) (i : ι) :
    replay base log i = replay base' log i ↔ (∀ w ∈ log, w.1 ≠ i) → base i = base' i := by
  rw [replay_apply, replay_apply, ← lastWrite_eq_none]
  cases lastWrite log i <;> simp

end Library

import Mathlib.Data.List.Basic
import Mathlib.Tactic.Common

/-! # Tables of rows

A table is the list of its rows in the order of insertion. Rows are found and
changed by a key column, and a new row gets the next free row id.
-/

namespace Library.Sql

variable {ρ κ κ' : Type} [DecidableEq κ] [DecidableEq κ']

/-- `SELECT .. WHERE key = k`, of a unique column. -/
def select (key : ρ → κ) (k : κ) (t : List ρ) : Option ρ := t.find? fun r => decide (key r = k)

/-- `UPDATE .. WHERE key = k`. -/
def update (key : ρ → κ) (k : κ) (f : ρ → ρ) (t : List ρ) : List ρ :=
  t.map fun r => if key r = k then f r else r

/-- `INSERT OR IGNORE` under a unique column. -/
def insertOrIgnore (key : ρ → κ) (r : ρ) (t : List ρ) : List ρ :=
  if (select key (key r) t).isSome then t else t ++ [r]

/-- The row id of the next insertion. -/
def nextRowid (id : ρ → ℕ) (t : List ρ) : ℕ := (t.map id).foldr max 0 + 1

variable {key : ρ → κ} {t : List ρ} {k : κ} {r : ρ}

theorem mem_of_select (h : select key k t = some r) : r ∈ t := List.mem_of_find?_eq_some h

theorem key_of_select (h : select key k t = some r) : key r = k := by
  simpa using List.find?_some h

theorem select_eq_none : select key k t = none ↔ ∀ r ∈ t, key r ≠ k := by
  simp [select]

theorem select_isSome : (select key k t).isSome ↔ ∃ r ∈ t, key r = k := by
  simp [select]

theorem select_append (t : List ρ) (r : ρ) (k : κ) :
    select key k (t ++ [r]) = (select key k t).or (if key r = k then some r else none) := by
  simp [select, List.find?_append, List.find?_singleton]

@[simp] theorem select_nil (k : κ) : select key k ([] : List ρ) = none := rfl

/-- An update that keeps the selecting column changes the row it finds in place. -/
theorem select_update {key' : ρ → κ'} {k' : κ'} {f : ρ → ρ} (hf : ∀ r, key' (f r) = key' r)
    (t : List ρ) (k : κ) :
    select key' k' (update key k f t) =
      (select key' k' t).map fun r => if key r = k then f r else r := by
  induction t with
  | nil => rfl
  | cons r t ih =>
    have hr : key' (if key r = k then f r else r) = key' r := by split_ifs <;> simp [hf]
    simp only [select, update, List.map_cons, List.find?_cons, hr]
    split
    · rfl
    · exact ih

/-- An update keeps every column that its function keeps. -/
theorem map_update {β : Type} {g : ρ → β} {f : ρ → ρ} (hf : ∀ r, g (f r) = g r) (t : List ρ) (k : κ) :
    (update key k f t).map g = t.map g := by
  rw [update, List.map_map]
  refine List.map_congr_left fun r _ => ?_
  by_cases h : key r = k <;> simp [h, hf]

theorem select_isSome_map : (select key k t).isSome ↔ k ∈ t.map key := by
  rw [select_isSome, List.mem_map]

theorem select_insertOrIgnore_eq (key : ρ → κ) (r : ρ) (t : List ρ) (k : κ) :
    select key k (insertOrIgnore key r t) =
      (select key k t).or (if key r = k then some r else none) := by
  unfold insertOrIgnore
  split_ifs with h hk hk
  · subst hk
    obtain ⟨r', hr'⟩ := Option.isSome_iff_exists.mp h
    rw [hr', Option.some_or]
  · rw [Option.or_none]
  · rw [select_append, if_pos hk]
  · rw [select_append, if_neg hk]

theorem select_insertOrIgnore (key : ρ → κ) (r : ρ) (t : List ρ) (k : κ) :
    (select key k (insertOrIgnore key r t)).isSome ↔ (select key k t).isSome ∨ key r = k := by
  rw [select_insertOrIgnore_eq, Option.isSome_or, Bool.or_eq_true]
  by_cases hk : key r = k <;> simp [hk]

theorem select_insertOrIgnore_self (key : ρ → κ) (r : ρ) (t : List ρ) :
    select key (key r) (insertOrIgnore key r t) = some ((select key (key r) t).getD r) := by
  rw [select_insertOrIgnore_eq, if_pos rfl]
  cases select key (key r) t <;> rfl

theorem mem_insertOrIgnore {r' : ρ} (h : r' ∈ insertOrIgnore key r t) : r' ∈ t ∨ r' = r := by
  unfold insertOrIgnore at h
  split at h
  · exact Or.inl h
  · exact (List.mem_append.mp h).imp_right List.mem_singleton.mp

theorem subset_insertOrIgnore {r' : ρ} (h : r' ∈ t) : r' ∈ insertOrIgnore key r t := by
  unfold insertOrIgnore
  split
  · exact h
  · exact List.mem_append_left _ h

theorem mem_update {f : ρ → ρ} {r' : ρ} (h : r' ∈ update key k f t) :
    ∃ r ∈ t, r' = if key r = k then f r else r := by
  obtain ⟨r, hr, rfl⟩ := List.mem_map.mp h
  exact ⟨r, hr, rfl⟩

theorem lt_nextRowid (id : ρ → ℕ) (h : r ∈ t) : id r < nextRowid id t := by
  unfold nextRowid
  induction t with
  | nil => cases h
  | cons a t ih =>
    rcases List.mem_cons.mp h with rfl | h
    · simp only [List.map_cons, List.foldr_cons]; omega
    · have := ih h
      simp only [List.map_cons, List.foldr_cons]; omega

end Library.Sql

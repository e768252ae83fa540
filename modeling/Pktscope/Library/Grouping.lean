import Mathlib.Data.List.Sort
import Pktscope.Library.Ordered
import Pktscope.Library.Sessions

/-! # Grouping

A rollup reads a list once and keeps one row for each label. The row of a label
is the fold of the elements with that label, and a measure to which every
element adds has the same sum over the rows as over the list.
-/

namespace Library

variable {α κ ρ : Type}

/-- The label of an element, the row made for the first element of a label, and what an element
adds to the row of its label. -/
structure Rollup (α κ ρ : Type) where
  label : α → κ
  new : κ → α → ρ
  add : ρ → α → ρ

/-- A measure of rows to which an element adds its own. -/
structure Rollup.Adds (r : Rollup α κ ρ) (f : ρ → ℕ) (g : α → ℕ) : Prop where
  new : ∀ k a, f (r.new k a) = 0
  add : ∀ row a, f (r.add row a) = f row + g a

namespace Rollup

variable [LinearOrder κ] (r : Rollup α κ ρ)

/-- Count an element in the row of its label. -/
def count (map : OrderedMap κ ρ) (a : α) : OrderedMap κ ρ :=
  map.insert (r.label a) (r.add ((map.get? (r.label a)).getD (r.new (r.label a) a)) a)

def table (l : List α) : OrderedMap κ ρ := l.foldl r.count .empty

/-- The row of a label, if an element has it. -/
def rowOf (l : List α) (k : κ) : Option ρ :=
  sessionFold (fun row a => r.add (row.getD (r.new k a)) a) (l.filter fun a => r.label a = k)

theorem table_concat (l : List α) (a : α) : r.table (l ++ [a]) = r.count (r.table l) a := by
  rw [table, List.foldl_append]
  rfl

theorem rowOf_concat (l : List α) (a : α) (k : κ) :
    r.rowOf (l ++ [a]) k =
      if r.label a = k then some (r.add ((r.rowOf l k).getD (r.new k a)) a) else r.rowOf l k := by
  unfold rowOf
  rw [List.filter_append]
  split_ifs with hk
  · rw [List.filter_singleton, decide_eq_true hk, cond_true, sessionFold_concat]
  · rw [List.filter_singleton, decide_eq_false hk, cond_false, List.append_nil]

theorem get?_table (l : List α) (k : κ) : (r.table l).get? k = r.rowOf l k := by
  induction l using List.reverseRecOn with
  | nil => rfl
  | append_singleton l a ih =>
    rw [table_concat, rowOf_concat, count, OrderedMap.get?_insert]
    by_cases hk : r.label a = k
    · subst hk
      rw [if_pos rfl, if_pos rfl, ih]
    · rw [if_neg (Ne.symm hk), if_neg hk, ih]

variable {r} {l : List α} {k : κ} {row : ρ}

theorem isSome_rowOf : (r.rowOf l k).isSome ↔ ∃ a ∈ l, r.label a = k := by
  induction l using List.reverseRecOn with
  | nil => simp [rowOf, sessionFold]
  | append_singleton l a ih =>
    rw [rowOf_concat]
    constructor
    · intro h
      split_ifs at h with hk
      · exact ⟨a, List.mem_concat_self, hk⟩
      · obtain ⟨b, hb, hbk⟩ := ih.mp h
        exact ⟨b, List.mem_append_left _ hb, hbk⟩
    · rintro ⟨b, hb, hbk⟩
      split_ifs with hk
      · rfl
      · rcases List.mem_append.mp hb with hb | hb
        · exact ih.mpr ⟨b, hb, hbk⟩
        · obtain rfl := List.mem_singleton.mp hb
          exact absurd hbk hk

theorem label_of_rowOf (labelOf : ρ → κ) (hnew : ∀ k a, labelOf (r.new k a) = k)
    (hadd : ∀ row a, labelOf (r.add row a) = labelOf row) (h : r.rowOf l k = some row) :
    labelOf row = k := by
  induction l using List.reverseRecOn generalizing row with
  | nil => cases h
  | append_singleton l a ih =>
    rw [rowOf_concat] at h
    split_ifs at h with hk
    · rw [Option.some.injEq] at h
      subst h
      rw [hadd]
      cases hrow : r.rowOf l k with
      | none => exact hnew k a
      | some row => exact ih hrow
    · exact ih h

theorem rowOf_induction {P : List α → ρ → Prop}
    (hnew : ∀ a, r.label a = k → P [a] (r.add (r.new k a) a))
    (hadd : ∀ l row a, r.label a = k → P l row → P (l ++ [a]) (r.add row a))
    (h : r.rowOf l k = some row) : P (l.filter fun a => r.label a = k) row := by
  induction l using List.reverseRecOn generalizing row with
  | nil => cases h
  | append_singleton l a ih =>
    rw [rowOf_concat] at h
    rw [List.filter_append]
    split_ifs at h with hk
    · rw [Option.some.injEq] at h
      subst h
      rw [List.filter_singleton, decide_eq_true hk, cond_true]
      cases hrow : r.rowOf l k with
      | none =>
        have hnone : l.filter (fun a => r.label a = k) = [] := by
          rw [List.filter_eq_nil_iff]
          intro b hb hbk
          have hsome : (r.rowOf l k).isSome := isSome_rowOf.mpr ⟨b, hb, of_decide_eq_true hbk⟩
          rw [hrow] at hsome
          cases hsome
        rw [hnone]
        exact hnew a hk
      | some row => exact hadd _ row a hk (ih hrow)
    · rw [List.filter_singleton, decide_eq_false hk, cond_false, List.append_nil]
      exact ih h

theorem table_perm {l' : List α} (hperm : l.Perm l')
    (hnew : ∀ a b, r.label a = r.label b →
      r.add (r.add (r.new (r.label a) a) a) b = r.add (r.add (r.new (r.label b) b) b) a)
    (hadd : ∀ row a b, r.add (r.add row a) b = r.add (r.add row b) a) :
    r.table l = r.table l' := by
  apply OrderedMap.ext_get?
  intro k
  rw [get?_table, get?_table]
  apply (hperm.filter _).foldl_eq'
  intro a ha b hb row
  have hak : r.label a = k := of_decide_eq_true (List.mem_filter.mp ha).2
  have hbk : r.label b = k := of_decide_eq_true (List.mem_filter.mp hb).2
  cases row with
  | none =>
    subst hak
    simp [hnew a b hbk.symm, hbk]
  | some row => simp [hadd]

section Adds

variable {f : ρ → ℕ} {g : α → ℕ} (h : r.Adds f g)

include h

/-- The row of a label measures what the elements with the label do. -/
theorem Adds.rowOf (l : List α) (k : κ) :
    (r.rowOf l k).elim 0 f = ((l.filter fun a => r.label a = k).map g).sum := by
  refine sessionFold_sum (fun row a => ?_) _
  rw [h.add]
  cases row with
  | none => rw [Option.getD_none, h.new, Option.elim_none]
  | some row => rfl

/-- The rows together measure what the list does. -/
theorem Adds.total_table (l : List α) : (r.table l).total f = (l.map g).sum := by
  induction l using List.reverseRecOn with
  | nil => rfl
  | append_singleton l a ih =>
    have hstep : (r.count (r.table l) a).total f + ((r.table l).get? (r.label a)).elim 0 f =
        (r.table l).total f +
          f (r.add (((r.table l).get? (r.label a)).getD (r.new (r.label a) a)) a) :=
      OrderedMap.total_insert_add _ _ _
    rw [table_concat, List.map_append, List.sum_append, List.map_singleton,
      List.sum_singleton, ← ih]
    rw [h.add] at hstep
    cases hrow : (r.table l).get? (r.label a) with
    | none =>
      simp only [hrow, Option.getD_none, h.new, Option.elim_none] at hstep ⊢
      omega
    | some row =>
      simp only [hrow, Option.getD_some, Option.elim_some] at hstep ⊢
      omega

end Adds

theorem mem_rows (labelOf : ρ → κ) (hnew : ∀ k a, labelOf (r.new k a) = k)
    (hadd : ∀ row a, labelOf (r.add row a) = labelOf row) :
    row ∈ (r.table l).entries.map Prod.snd ↔ r.rowOf l (labelOf row) = some row := by
  rw [List.mem_map, ← get?_table, OrderedMap.get?_eq_some_iff]
  constructor
  · rintro ⟨⟨k, row⟩, hrow, rfl⟩
    have hget := OrderedMap.get?_of_mem hrow
    rw [get?_table] at hget
    rwa [label_of_rowOf labelOf hnew hadd hget]
  · exact fun hrow => ⟨_, hrow, rfl⟩

theorem map_rows (labelOf : ρ → κ) (hnew : ∀ k a, labelOf (r.new k a) = k)
    (hadd : ∀ row a, labelOf (r.add row a) = labelOf row) (l : List α) :
    ((r.table l).entries.map Prod.snd).map labelOf = (r.table l).keys := by
  rw [List.map_map, OrderedMap.keys]
  refine List.map_congr_left fun e he => ?_
  have hget := OrderedMap.get?_of_mem (k := e.1) (v := e.2) he
  rw [get?_table] at hget
  exact label_of_rowOf labelOf hnew hadd hget

end Rollup

end Library

import Mathlib.Data.List.Nodup
import Mathlib.Order.Basic
import Pktscope.Library.Sql

/-! # Keys and references

What a database checks of its tables: row ids grow with the order of insertion,
no two rows agree in a unique column, and a column that refers to another table
holds row ids of that table. Every statement keeps each of the three under the
condition that the database itself would check.
-/

namespace Library.Sql

variable {ρ κ κ' : Type} [DecidableEq κ] [DecidableEq κ']

/-- Row ids grow with the order of insertion. -/
def Numbered (id : ρ → ℕ) (t : List ρ) : Prop := t.Pairwise fun r r' => id r < id r'

/-- No two rows agree in a unique column. -/
def Distinct (key : ρ → κ) (t : List ρ) : Prop := (t.map key).Nodup

/-- Every entry of a column is among the row ids of another table. -/
def Refers (col : ρ → Option ℕ) (t : List ρ) (ids : List ℕ) : Prop := ∀ r ∈ t, ∀ i ∈ col r, i ∈ ids

section Numbered

variable {id : ρ → ℕ} {key : ρ → κ} {t : List ρ} {r : ρ}

theorem Numbered.concat (h : Numbered id t) (hr : id r = nextRowid id t) :
    Numbered id (t ++ [r]) := by
  rw [Numbered, List.pairwise_append]
  refine ⟨h, List.pairwise_singleton _ _, ?_⟩
  intro a ha b hb
  rw [List.mem_singleton.mp hb, hr]
  exact lt_nextRowid id ha

theorem Numbered.update (h : Numbered id t) {f : ρ → ρ} (hf : ∀ r, id (f r) = id r) (k : κ) :
    Numbered id (update key k f t) := by
  rw [Numbered, ← List.pairwise_map (R := (· < ·))] at h ⊢
  rwa [map_update hf]

theorem Numbered.filter (h : Numbered id t) (q : ρ → Bool) : Numbered id (t.filter q) :=
  h.sublist List.filter_sublist

theorem Numbered.insertOrIgnore (h : Numbered id t) (hr : id r = nextRowid id t) :
    Numbered id (insertOrIgnore key r t) := by
  unfold Sql.insertOrIgnore
  split
  · exact h
  · exact h.concat hr

theorem Numbered.distinct (h : Numbered id t) : Distinct id t := by
  rw [Distinct, List.Nodup, List.pairwise_map]
  exact h.imp Nat.ne_of_lt

theorem Numbered.nodup (h : Numbered id t) : t.Nodup := h.imp fun hlt he => Nat.ne_of_lt hlt (congrArg id he)

end Numbered

section Distinct

variable {key : ρ → κ} {key' : ρ → κ'} {t : List ρ} {r r' : ρ}

theorem Distinct.concat (h : Distinct key t) (hr : select key (key r) t = none) :
    Distinct key (t ++ [r]) := by
  rw [Distinct, List.map_append, List.map_singleton, List.nodup_append]
  refine ⟨h, List.nodup_singleton _, ?_⟩
  rintro k hk k' hk' rfl
  obtain ⟨a, ha, rfl⟩ := List.mem_map.mp hk
  exact select_eq_none.mp hr a ha (List.mem_singleton.mp hk')

omit [DecidableEq κ] in
theorem Distinct.update (h : Distinct key t) {f : ρ → ρ} (hf : ∀ r, key (f r) = key r) (k : κ') :
    Distinct key (update key' k f t) := by
  rw [Distinct, map_update hf]
  exact h

theorem Distinct.insertOrIgnore (h : Distinct key t) : Distinct key (insertOrIgnore key r t) := by
  unfold Sql.insertOrIgnore
  split
  · exact h
  · rename_i hn
    exact h.concat (by simpa using hn)

omit [DecidableEq κ] in
theorem Distinct.eq (h : Distinct key t) (hr : r ∈ t) (hr' : r' ∈ t) (hk : key r = key r') :
    r = r' := List.inj_on_of_nodup_map h hr hr' hk

/-- At most one row has a value of a unique column. -/
theorem Distinct.filter_eq (h : Distinct key t) (k : κ) :
    (t.filter fun r => decide (key r = k)) = (select key k t).toList := by
  induction t with
  | nil => rfl
  | cons a t ih =>
    obtain ⟨ha, ht⟩ := List.nodup_cons.mp h
    by_cases hk : key a = k
    · have hnone : (t.filter fun r => decide (key r = k)) = [] := by
        rw [List.filter_eq_nil_iff]
        rintro b hb hbk
        exact ha (List.mem_map.mpr ⟨b, hb, (of_decide_eq_true hbk).trans hk.symm⟩)
      simp [select, hk, hnone]
    · simpa [select, hk] using ih ht

end Distinct

section Refers

variable {col : ρ → Option ℕ} {key : ρ → κ} {t : List ρ} {ids ids' : List ℕ} {r : ρ}

theorem Refers.mono (h : Refers col t ids) (hi : ids ⊆ ids') : Refers col t ids' :=
  fun r hr i hc => hi (h r hr i hc)

theorem Refers.concat (h : Refers col t ids) (hr : ∀ i ∈ col r, i ∈ ids) :
    Refers col (t ++ [r]) ids := by
  rintro a ha i hc
  rcases List.mem_append.mp ha with ha | ha
  · exact h a ha i hc
  · exact hr i (List.mem_singleton.mp ha ▸ hc)

theorem Refers.update (h : Refers col t ids) {f : ρ → ρ} (hf : ∀ r, col (f r) = col r) (k : κ) :
    Refers col (update key k f t) ids := by
  rintro a ha i hc
  obtain ⟨b, hb, rfl⟩ := mem_update ha
  have he : col (if key b = k then f b else b) = col b := by split <;> simp [hf]
  exact h b hb i (he ▸ hc)

theorem Refers.filter (h : Refers col t ids) (q : ρ → Bool) : Refers col (t.filter q) ids :=
  fun r hr => h r (List.mem_filter.mp hr).1

theorem Refers.insertOrIgnore (h : Refers col t ids) (hr : ∀ i ∈ col r, i ∈ ids) :
    Refers col (insertOrIgnore key r t) ids := by
  rintro a ha i hc
  rcases mem_insertOrIgnore ha with ha | rfl
  · exact h a ha i hc
  · exact hr i hc

end Refers

end Library.Sql

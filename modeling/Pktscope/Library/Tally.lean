import Mathlib.Algebra.GroupWithZero.Nat
import Mathlib.Algebra.BigOperators.Group.Finset.Piecewise
import Mathlib.Data.List.AList
import Mathlib.Tactic.Common

/-! # Tallies

How often each key occurs in a list, and the entries of another list that remain
when each key is matched as often as it was counted.
-/

namespace Library

/-- How many entries are left under each key. -/
abbrev Tally (K : Type) := AList fun _ : K => ℕ

namespace Tally

variable {K β : Type} [DecidableEq K] {m m' : Tally K} {k k' : K}

def count (m : Tally K) (k : K) : ℕ := (m.lookup k).getD 0

def set (m : Tally K) (k : K) (c : ℕ) : Tally K := m.insert k c

def bump (m : Tally K) (k : K) : Tally K := m.set k (m.count k + 1)

def ofKeys (ks : List K) : Tally K := ks.foldl bump (∅ : Tally K)

theorem count_set (m : Tally K) (k k' : K) (c : ℕ) :
    (m.set k c).count k' = if k' = k then c else m.count k' := by
  unfold count set
  split_ifs with h
  · rw [h, AList.lookup_insert, Option.getD_some]
  · rw [AList.lookup_insert_ne h]

theorem count_foldl_bump (ks : List K) (m : Tally K) (k : K) :
    (ks.foldl bump m).count k = m.count k + ks.count k := by
  induction ks generalizing m with
  | nil => rfl
  | cons a ks ih =>
    rw [List.foldl_cons, ih, bump, count_set, List.count_cons]
    by_cases h : k = a
    · subst h
      simp only [if_pos, beq_self_eq_true]
      omega
    · simp [h, Ne.symm h]

theorem count_ofKeys (ks : List K) (k : K) : (ofKeys ks).count k = ks.count k := by
  rw [ofKeys, count_foldl_bump]
  exact Nat.zero_add _

/-- Use up one of the entries left under a key. -/
def take? (m : Tally K) (k : K) : Option (Tally K) :=
  match m.lookup k with
  | some c => if 0 < c then some (m.set k (c - 1)) else none
  | none => none

theorem take?_of_count_eq_zero (h : m.count k = 0) : m.take? k = none := by
  unfold count at h
  unfold take?
  cases hl : m.lookup k with
  | none => rfl
  | some c =>
    rw [hl, Option.getD_some] at h
    simp [h]

theorem take?_of_count_pos (h : 0 < m.count k) : m.take? k = some (m.set k (m.count k - 1)) := by
  unfold count at h ⊢
  unfold take?
  cases hl : m.lookup k with
  | none =>
    rw [hl] at h
    exact absurd h (Nat.lt_irrefl 0)
  | some c =>
    rw [hl, Option.getD_some] at h
    exact if_pos h

section Unmatched

/-- The entries that find nothing left under their key. -/
def unmatched (key : β → K) : Tally K → List β → List β
  | _, [] => []
  | m, b :: bs =>
    match m.take? (key b) with
    | some m' => unmatched key m' bs
    | none => b :: unmatched key m bs

theorem unmatched_cons_of_some {key : β → K} {b : β} (h : m.take? (key b) = some m')
    (bs : List β) : unmatched key m (b :: bs) = unmatched key m' bs := by
  rw [unmatched, h]

theorem unmatched_cons_of_none {key : β → K} {b : β} (h : m.take? (key b) = none)
    (bs : List β) : unmatched key m (b :: bs) = b :: unmatched key m bs := by
  rw [unmatched, h]

theorem unmatched_sublist (key : β → K) (m : Tally K) (bs : List β) :
    (unmatched key m bs).Sublist bs := by
  induction bs generalizing m with
  | nil => exact List.Sublist.slnil
  | cons b bs ih =>
    cases h : m.take? (key b) with
    | some m' =>
      rw [unmatched_cons_of_some h]
      exact (ih m').cons b
    | none =>
      rw [unmatched_cons_of_none h]
      exact (ih m).cons_cons b

/-- Under each key, the first entries are matched as often as the tally says and the others
remain. -/
theorem countP_unmatched (key : β → K) (m : Tally K) (bs : List β) (k : K) :
    (unmatched key m bs).countP (fun b => decide (key b = k)) =
      bs.countP (fun b => decide (key b = k)) - m.count k := by
  induction bs generalizing m with
  | nil => simp [unmatched]
  | cons b bs ih =>
    rcases Nat.eq_zero_or_pos (m.count (key b)) with hzero | hpos
    · rw [unmatched_cons_of_none (take?_of_count_eq_zero hzero)]
      simp only [List.countP_cons, ih, decide_eq_true_eq]
      split_ifs with h
      · subst h
        omega
      · rfl
    · rw [unmatched_cons_of_some (take?_of_count_pos hpos)]
      simp only [List.countP_cons, ih, decide_eq_true_eq, count_set]
      by_cases h : key b = k
      · subst h
        simp only [if_pos]
        omega
      · simp only [if_neg h, if_neg (Ne.symm h), Nat.add_zero]

end Unmatched

/-- The counts of the entries of a list add up to its length. -/
theorem sum_count_eq_length {s : Finset β} {l : List β} [DecidableEq β] [BEq β] [LawfulBEq β]
    (h : ∀ x ∈ l, x ∈ s) : ∑ x ∈ s, l.count x = l.length := by
  induction l with
  | nil => simp
  | cons b l ih =>
    have hb : b ∈ s := h b List.mem_cons_self
    have hl := ih fun x hx => h x (List.mem_cons_of_mem b hx)
    simp only [List.count_cons, Finset.sum_add_distrib, hl, beq_iff_eq, Finset.sum_ite_eq, if_pos hb,
      List.length_cons]

end Tally

end Library

import Mathlib.Algebra.BigOperators.Group.List.Basic
import Mathlib.Algebra.GroupWithZero.Nat
import Mathlib.Data.List.Basic

/-! # Bounded dictionaries

A dictionary keeps its newest entries, as many as fit into a limit on their
summed cost. What does not fit any more is dropped from the old end.
-/

namespace Library.Dictionary

variable {α : Type} (cost : α → ℕ)

/-- The summed cost of some entries. -/
def total (l : List α) : ℕ := (l.map cost).sum

/-- The entries that fit into a limit, the newest first. -/
def fitting : ℕ → List α → List α
  | _, [] => []
  | limit, a :: l => if cost a ≤ limit then a :: fitting (limit - cost a) l else []

/-- A new entry; the old ones make room for it, and it is not kept when it alone does not fit. -/
def add (limit : ℕ) (a : α) (l : List α) : List α :=
  if cost a ≤ limit then a :: fitting cost (limit - cost a) l else []

variable {cost} {limit small : ℕ} {a : α} {l k : List α}

@[simp] theorem total_nil : total cost [] = 0 := rfl

@[simp] theorem total_cons : total cost (a :: l) = cost a + total cost l := List.sum_cons

@[simp] theorem total_append : total cost (l ++ k) = total cost l + total cost k := by
  simp [total]

theorem total_reverse : total cost l.reverse = total cost l := by
  rw [total, List.map_reverse, List.sum_reverse]
  rfl

theorem cost_le_total (h : a ∈ l) : cost a ≤ total cost l := by
  induction h with
  | head l =>
    rw [total_cons]
    exact Nat.le_add_right _ _
  | tail b _ ih =>
    rw [total_cons]
    exact Nat.le_trans ih (Nat.le_add_left _ _)

theorem add_eq_fitting : add cost limit a l = fitting cost limit (a :: l) := rfl

theorem fitting_head (limit : ℕ) (l : List α) : fitting cost limit l <+: l := by
  induction l generalizing limit with
  | nil => exact List.prefix_refl []
  | cons a l ih =>
    unfold fitting
    split
    · exact (List.prefix_cons_inj a).mpr (ih _)
    · exact List.nil_prefix

theorem total_fitting_le (limit : ℕ) (l : List α) : total cost (fitting cost limit l) ≤ limit := by
  induction l generalizing limit with
  | nil => exact Nat.zero_le limit
  | cons a l ih =>
    unfold fitting
    split
    · have hrest := ih (limit - cost a)
      rw [total_cons]
      omega
    · exact Nat.zero_le limit

/-- What fits as a whole stays. -/
theorem fitting_eq_self (h : total cost l ≤ limit) : fitting cost limit l = l := by
  induction l generalizing limit with
  | nil => rfl
  | cons a l ih =>
    rw [total_cons] at h
    rw [fitting, if_pos (by omega), ih (by omega)]

theorem fitting_concat (h : limit < total cost (l ++ [a])) :
    fitting cost limit (l ++ [a]) = fitting cost limit l := by
  induction l generalizing limit with
  | nil =>
    rw [List.nil_append, total_cons, total_nil] at h
    simpa [fitting] using h
  | cons b l ih =>
    rw [List.cons_append, total_cons] at h
    rw [List.cons_append, fitting, fitting]
    by_cases hb : cost b ≤ limit
    · rw [if_pos hb, if_pos hb, ih (by omega)]
    · rw [if_neg hb, if_neg hb]

/-- A list of bytes that is written piece by piece and cut somewhere: the pieces in front that are
whole, and the head of a piece that is not. -/
theorem fitting_cut {β : Type} {f : α → List β} {front back : List β}
    (h : front ++ back = l.flatMap f) :
    ∃ part, front = (fitting (fun a => (f a).length) front.length l).flatMap f ++ part ∧
      (part = [] ∨ ∃ a ∈ l, ∃ more, f a = part ++ more ∧ more ≠ []) := by
  induction l generalizing front with
  | nil =>
    obtain ⟨rfl, -⟩ := List.append_eq_nil_iff.mp h
    exact ⟨[], rfl, Or.inl rfl⟩
  | cons a l ih =>
    rw [List.flatMap_cons] at h
    by_cases hfit : (f a).length ≤ front.length
    · obtain ⟨front, rfl⟩ : f a <+: front :=
        List.prefix_of_prefix_length_le ⟨_, h.symm⟩ (List.prefix_append front back) hfit
      rw [List.append_assoc] at h
      obtain ⟨part, hfront, hpart⟩ := ih (List.append_cancel_left h)
      refine ⟨part, ?_, ?_⟩
      · rw [fitting, if_pos hfit, List.length_append, Nat.add_sub_cancel_left, List.flatMap_cons,
          List.append_assoc, ← hfront]
      · rcases hpart with hnil | ⟨b, hb, hmore⟩
        · exact Or.inl hnil
        · exact Or.inr ⟨b, List.mem_cons_of_mem a hb, hmore⟩
    · obtain ⟨more, hmore⟩ : front <+: f a :=
        List.prefix_of_prefix_length_le (List.prefix_append front back) ⟨_, h.symm⟩ (by omega)
      refine ⟨front, ?_, Or.inr ⟨a, List.mem_cons_self, more, hmore.symm, ?_⟩⟩
      · rw [fitting, if_neg hfit]
        rfl
      · rintro rfl
        rw [List.append_nil] at hmore
        exact hfit (hmore ▸ Nat.le_refl _)

end Library.Dictionary

import Mathlib.Data.List.Basic

/-! # Slices

The part of a list from one place to another.
-/

namespace Library

variable {α : Type} (l : List α)

/-- The elements from place `a` up to place `b`. -/
def slice (a b : ℕ) : List α := (l.take b).drop a

section Slice

variable {l} {a b c : ℕ}

theorem length_slice (h : b ≤ l.length) : (slice l a b).length = b - a := by
  rw [slice, List.length_drop, List.length_take_of_le h]

theorem length_slice_le (l : List α) (a b : ℕ) : (slice l a b).length ≤ l.length := by
  rw [slice, List.length_drop, List.length_take]
  omega

theorem slice_self (l : List α) (a : ℕ) : slice l a a = [] :=
  List.drop_eq_nil_of_le (List.length_take_le a l)

theorem slice_whole (l : List α) : slice l 0 l.length = l := by
  rw [slice, List.take_length, List.drop_zero]

theorem slice_append (hab : a ≤ b) (hbc : b ≤ c) : slice l a b ++ slice l b c = slice l a c := by
  have htake : l.take b = (l.take c).take b := by rw [List.take_take, Nat.min_eq_left hbc]
  have hdrop : (l.take c).drop b = ((l.take c).drop a).drop (b - a) := by
    rw [List.drop_drop, Nat.add_sub_cancel' hab]
  rw [slice, slice, slice, htake, List.drop_take, hdrop, List.take_append_drop]

theorem slice_cons (ha : a < l.length) (hab : a < b) :
    slice l a b = l[a] :: slice l (a + 1) b := by
  have hlt : a < (l.take b).length := by
    rw [List.length_take]
    omega
  rw [slice, slice, List.drop_eq_getElem_cons hlt, List.getElem_take]

/-- What follows the end of a slice does not matter. -/
theorem slice_append_of_le {t : List α} (h : b ≤ l.length) : slice (l ++ t) a b = slice l a b := by
  rw [slice, slice, List.take_append_of_le_length h]

theorem drop_slice (l : List α) (a b n : ℕ) : (slice l a b).drop n = slice l (a + n) b := by
  rw [slice, slice, List.drop_drop]

end Slice

end Library

import Mathlib.Algebra.GroupWithZero.Nat
import Mathlib.Data.Finset.Card
import Mathlib.Data.List.Basic
import Mathlib.Data.List.Induction
import Mathlib.Tactic.Common

/-! # Windows over a sequence

The last entries of a sequence, and the places of those that have a property.
A new entry shifts the places when the first one leaves the window.
-/

namespace Library

variable {α : Type}

/-- The last entries of a sequence, so many at most. -/
def lastN (n : ℕ) (l : List α) : List α := l.drop (l.length - n)

theorem length_lastN (n : ℕ) (l : List α) : (lastN n l).length = min l.length n := by
  rw [lastN, List.length_drop]
  omega

/-- A window over a window. -/
theorem lastN_append (n : ℕ) (l m : List α) : lastN n (lastN n l ++ m) = lastN n (l ++ m) := by
  simp only [lastN, List.length_append, List.length_drop]
  rw [List.drop_append, List.drop_append, List.drop_drop, List.length_drop]
  congr 2
  · omega
  · omega

theorem lastN_of_le {n : ℕ} {l : List α} (h : l.length ≤ n) : lastN n l = l := by
  rw [lastN, Nat.sub_eq_zero_of_le h, List.drop_zero]

/-- The places of the entries with a property, in increasing order. -/
def positions (p : α → Bool) (l : List α) : List ℕ :=
  (List.range l.length).filter fun i => (l[i]?).any p

variable {p : α → Bool} {l : List α}

theorem mem_positions {i : ℕ} : i ∈ positions p l ↔ ∃ a, l[i]? = some a ∧ p a := by
  simp only [positions, List.mem_filter, List.mem_range, Option.any_eq_true]
  constructor
  · rintro ⟨-, h⟩
    exact h
  · rintro ⟨a, ha, hp⟩
    exact ⟨(List.getElem?_eq_some_iff.mp ha).1, a, ha, hp⟩

theorem positions_sorted (p : α → Bool) (l : List α) : (positions p l).Pairwise (· < ·) :=
  List.Pairwise.filter _ List.pairwise_lt_range

theorem positions_concat (a : α) :
    positions p (l ++ [a]) = positions p l ++ if p a then [l.length] else [] := by
  simp only [positions, List.length_append, List.length_singleton, List.range_succ,
    List.filter_append]
  congr 1
  · apply List.filter_congr
    intro i hi
    rw [List.getElem?_append_left (List.mem_range.mp hi)]
  · by_cases ha : p a <;> simp [ha]

theorem length_positions (p : α → Bool) (l : List α) : (positions p l).length = l.countP p := by
  induction l using List.reverseRecOn with
  | nil => rfl
  | append_singleton l a ih =>
    rw [positions_concat, List.length_append, ih, List.countP_append, List.countP_singleton]
    split <;> rfl

theorem positions_append (p : α → Bool) (l m : List α) :
    positions p (l ++ m) = positions p l ++ (positions p m).map (l.length + ·) := by
  induction m using List.reverseRecOn with
  | nil => simp [positions]
  | append_singleton m a ih =>
    rw [← List.append_assoc, positions_concat, ih, positions_concat, List.map_append,
      List.append_assoc, List.length_append]
    congr 2
    split <;> rfl

/-- The entry at a place is that of the entries with the property. -/
theorem getElem?_positions (p : α → Bool) (l : List α) (s : ℕ) :
    ((positions p l)[s]?.bind fun i => l[i]?) = (l.filter p)[s]? := by
  induction l using List.reverseRecOn with
  | nil => rfl
  | append_singleton l a ih =>
    have hlen : (positions p l).length = (l.filter p).length := by
      rw [length_positions, List.countP_eq_length_filter]
    rw [positions_concat, List.filter_append]
    rcases Nat.lt_or_ge s (positions p l).length with hs | hs
    · rw [List.getElem?_append_left hs, List.getElem?_append_left (hlen ▸ hs), ← ih]
      refine Option.bind_congr fun i hi => ?_
      obtain ⟨b, hb, -⟩ := mem_positions.mp (List.mem_of_getElem? hi)
      exact List.getElem?_append_left (List.getElem?_eq_some_iff.mp hb).1
    · rw [List.getElem?_append_right hs, List.getElem?_append_right (hlen ▸ hs), ← hlen,
        List.filter_singleton]
      cases p a with
      | false => simp
      | true => cases s - (positions p l).length <;> simp

theorem place_lt_iff {s i k : ℕ} (h : (positions p l)[s]? = some i) :
    i < k ↔ s < (l.take k).countP p := by
  rw [← List.take_append_drop k l, positions_append] at h
  have hlen := length_positions p (l.take k)
  rcases Nat.lt_or_ge s (positions p (l.take k)).length with hs | hs
  · rw [List.getElem?_append_left hs] at h
    obtain ⟨b, hb, -⟩ := mem_positions.mp (List.mem_of_getElem? h)
    have hi := (List.getElem?_eq_some_iff.mp hb).1
    rw [List.length_take] at hi
    omega
  · rw [List.getElem?_append_right hs] at h
    obtain ⟨j, hj, rfl⟩ := List.mem_map.mp (List.mem_of_getElem? h)
    obtain ⟨b, hb, -⟩ := mem_positions.mp hj
    have hdrop := (List.getElem?_eq_some_iff.mp hb).1
    rw [List.length_drop] at hdrop
    rw [List.length_take]
    omega

theorem mem_places {n : ℕ} :
    n ∈ (positions p l).toFinset ↔ ∃ a, l[n]? = some a ∧ p a := by
  rw [List.mem_toFinset, mem_positions]

theorem card_places (p : α → Bool) (l : List α) :
    (positions p l).toFinset.card = l.countP p := by
  rw [List.toFinset_card_of_nodup ((positions_sorted p l).imp fun h => h.ne), length_positions]

/-- What is left of the places when the first entry leaves. -/
def shifted (places : List ℕ) : List ℕ :=
  places.filterMap fun i => if i = 0 then none else some (i - 1)

theorem shifted_positions (a : α) : shifted (positions p (a :: l)) = positions p l := by
  have hsucc : shifted ((List.range l.length).map Nat.succ |>.filter fun i => ((a :: l)[i]?).any p) =
      positions p l := by
    rw [List.filter_map, shifted, List.filterMap_map]
    simp [Function.comp_def, positions]
  rw [positions, List.length_cons, List.range_succ_eq_map, List.filter_cons]
  split
  · rw [shifted, List.filterMap_cons]
    exact hsucc
  · exact hsucc

theorem filterMap_positions (p : α → Bool) (l : List α) :
    (positions p l).filterMap (l[·]?) = l.filter p := by
  induction l using List.reverseRecOn with
  | nil => rfl
  | append_singleton l a ih =>
    rw [positions_concat, List.filterMap_append, List.filter_append, ← ih]
    congr 1
    · apply List.filterMap_congr
      intro i hi
      obtain ⟨b, hb, -⟩ := mem_positions.mp hi
      rw [List.getElem?_append_left (List.getElem?_eq_some_iff.mp hb).1]
    · by_cases ha : p a <;> simp [ha]

theorem filterMap_range {β : Type} (f : α → Option β) (l : List α) :
    ((List.range l.length).filterMap fun i => l[i]?.bind f) = l.filterMap f := by
  induction l with
  | nil => rfl
  | cons a l ih =>
    rw [List.length_cons, List.range_succ_eq_map, List.filterMap_cons, List.filterMap_map]
    simp only [List.getElem?_cons_zero, Option.bind_some, Function.comp_def, Nat.succ_eq_add_one,
      List.getElem?_cons_succ, ih, List.filterMap_cons]

end Library

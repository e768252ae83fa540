import Mathlib.Algebra.GroupWithZero.Nat
import Mathlib.Algebra.Order.BigOperators.Group.List
import Mathlib.Data.List.Basic
import Mathlib.Order.Defs.LinearOrder
import Mathlib.Order.Lattice

/-! # Ordered maps

A map is the list of its entries in strictly increasing key order.
-/

namespace Library

/-- A list of entries in strictly increasing key order. -/
structure OrderedMap (K V : Type) [LinearOrder K] where
  entries : List (K × V)
  sorted : entries.Pairwise fun a b => a.1 < b.1

namespace OrderedMap

variable {K V : Type} [LinearOrder K]

def empty : OrderedMap K V := ⟨[], .nil⟩

def len (m : OrderedMap K V) : ℕ := m.entries.length

def keys (m : OrderedMap K V) : List K := m.entries.map Prod.fst

def get? (m : OrderedMap K V) (k : K) : Option V :=
  (m.entries.find? fun e => decide (e.1 = k)).map Prod.snd

def insertNew (k : K) (v : V) : List (K × V) → List (K × V)
  | [] => [(k, v)]
  | e :: l => if k < e.1 then (k, v) :: e :: l else if k = e.1 then e :: l else e :: insertNew k v l

theorem mem_insertNew {k : K} {v : V} {l : List (K × V)} {e : K × V} (h : e ∈ insertNew k v l) :
    e = (k, v) ∨ e ∈ l := by
  induction l with
  | nil => exact Or.inl (List.mem_singleton.mp h)
  | cons a l ih =>
    unfold insertNew at h
    split_ifs at h
    · exact List.mem_cons.mp h
    · exact Or.inr h
    · rcases List.mem_cons.mp h with rfl | h
      · exact Or.inr List.mem_cons_self
      · exact (ih h).imp_right (List.mem_cons_of_mem a)

theorem sorted_insertNew (k : K) (v : V) {l : List (K × V)}
    (h : l.Pairwise fun a b => a.1 < b.1) :
    (insertNew k v l).Pairwise fun a b => a.1 < b.1 := by
  induction l with
  | nil => exact List.pairwise_singleton ..
  | cons a l ih =>
    have ha := List.pairwise_cons.mp h
    unfold insertNew
    split_ifs with hlt heq
    · refine List.pairwise_cons.mpr ⟨fun b hb => ?_, h⟩
      rcases List.mem_cons.mp hb with rfl | hb
      · exact hlt
      · exact lt_trans hlt (ha.1 b hb)
    · exact h
    · refine List.pairwise_cons.mpr ⟨fun b hb => ?_, ih ha.2⟩
      rcases mem_insertNew hb with rfl | hb
      · exact lt_of_le_of_ne (not_lt.mp hlt) (Ne.symm heq)
      · exact ha.1 b hb

/-- Add an entry unless the key has one. -/
def orInsert (m : OrderedMap K V) (k : K) (v : V) : OrderedMap K V :=
  ⟨insertNew k v m.entries, sorted_insertNew k v m.sorted⟩

def remove (m : OrderedMap K V) (k : K) : OrderedMap K V :=
  ⟨m.entries.filter fun e => decide (e.1 ≠ k), m.sorted.filter _⟩

/-- Set the entry of a key. -/
def insert (m : OrderedMap K V) (k : K) (v : V) : OrderedMap K V := (m.remove k).orInsert k v

/-- The keys up to a bound, in increasing order. -/
def rangeTo (m : OrderedMap K V) (k : K) : List K := m.keys.filter fun a => decide (a ≤ k)

section Get

variable (m : OrderedMap K V) (k k' : K) (v : V)

@[simp] theorem get?_empty : (empty : OrderedMap K V).get? k = none := rfl

theorem find?_insertNew_of_ne {k k' : K} (h : k' ≠ k) (v : V) (l : List (K × V)) :
    (insertNew k v l).find? (fun e => decide (e.1 = k')) = l.find? fun e => decide (e.1 = k') := by
  have hnew : decide (k = k') = false := decide_eq_false (Ne.symm h)
  induction l with
  | nil => simp [insertNew, hnew]
  | cons e l ih =>
    unfold insertNew
    split_ifs
    · rw [List.find?_cons_of_neg (by simpa using Ne.symm h)]
    · rfl
    · rw [List.find?_cons, List.find?_cons, ih]

theorem find?_insertNew_self (k : K) (v : V) {l : List (K × V)} (h : ∀ e ∈ l, e.1 ≠ k) :
    (insertNew k v l).find? (fun e => decide (e.1 = k)) = some (k, v) := by
  induction l with
  | nil => simp [insertNew]
  | cons e l ih =>
    have he : e.1 ≠ k := h e List.mem_cons_self
    unfold insertNew
    rw [if_neg (Ne.symm he)]
    split_ifs
    · simp
    · rw [List.find?_cons_of_neg (by simpa using he)]
      exact ih fun e he => h e (List.mem_cons_of_mem _ he)

theorem get?_remove : (m.remove k).get? k' = if k' = k then none else m.get? k' := by
  unfold remove get?
  rw [List.find?_filter]
  split_ifs with h
  · subst h
    simp
  · refine congrArg _ (congrArg (fun p => List.find? p m.entries) (funext fun e => ?_))
    by_cases he : e.1 = k'
    · simp [he, h]
    · simp [he]

/-- Setting an entry changes no other one. -/
theorem get?_insert : (m.insert k v).get? k' = if k' = k then some v else m.get? k' := by
  unfold insert orInsert
  split_ifs with h
  · subst h
    have hnone : ∀ e ∈ (m.remove k').entries, e.1 ≠ k' := by
      intro e he
      simpa using (List.mem_filter.mp he).2
    rw [get?, find?_insertNew_self k' v hnone, Option.map_some]
  · rw [get?, find?_insertNew_of_ne h, ← get?, get?_remove, if_neg h]

variable {m k v}

theorem mem_of_get? (h : m.get? k = some v) : (k, v) ∈ m.entries := by
  obtain ⟨e, he, rfl⟩ := Option.map_eq_some_iff.mp h
  have hk := List.find?_some he
  obtain rfl : e.1 = k := of_decide_eq_true hk
  exact List.mem_of_find?_eq_some he

theorem get?_of_mem (h : (k, v) ∈ m.entries) : m.get? k = some v := by
  obtain ⟨l₁, l₂, hl⟩ := List.append_of_mem h
  have hs := m.sorted
  rw [hl] at hs
  have hfront : ∀ e ∈ l₁, ¬decide (e.1 = k) = true := fun e he =>
    decide_eq_true_iff.not.mpr
      (ne_of_lt ((List.pairwise_append.mp hs).2.2 e he _ List.mem_cons_self))
  rw [get?, hl, List.find?_append, List.find?_eq_none.mpr hfront, Option.none_or,
    List.find?_cons_of_pos (by simp), Option.map_some]

theorem get?_eq_some_iff : m.get? k = some v ↔ (k, v) ∈ m.entries := ⟨mem_of_get?, get?_of_mem⟩

/-- Maps with the same value at every key are equal. -/
theorem ext_get? {m m' : OrderedMap K V} (h : ∀ k, m.get? k = m'.get? k) : m = m' := by
  have hnodup (m : OrderedMap K V) : m.entries.Nodup := by
    refine m.sorted.imp fun {a b} hab => ?_
    rintro rfl
    exact lt_irrefl _ hab
  have hmem (e : K × V) : e ∈ m.entries ↔ e ∈ m'.entries := by
    rw [← get?_eq_some_iff, ← get?_eq_some_iff, h]
  have hperm := (List.perm_ext_iff_of_nodup (hnodup m) (hnodup m')).mpr hmem
  have hentries : m.entries = m'.entries :=
    hperm.eq_of_pairwise (fun a b _ _ hab hba => absurd hab (lt_asymm hba)) m.sorted m'.sorted
  cases m
  cases m'
  cases hentries
  rfl

theorem get?_of_len_eq_zero (h : m.len = 0) (k : K) : m.get? k = none := by
  rw [get?, List.eq_nil_of_length_eq_zero h]
  rfl

theorem len_remove_lt (h : m.get? k = some v) : (m.remove k).len < m.len :=
  List.length_filter_lt_length_iff_exists.mpr ⟨_, mem_of_get? h, by simp⟩

end Get

section Keys

variable {m : OrderedMap K V} {k k' : K} {v : V}

theorem keys_sorted (m : OrderedMap K V) : m.keys.Pairwise fun a b => a < b :=
  List.pairwise_map.mpr m.sorted

theorem le_of_head? (hk : k ∈ m.keys.head?) (hk' : k' ∈ m.keys) : k ≤ k' := by
  have hsorted := keys_sorted m
  cases hl : m.keys with
  | nil =>
    rw [hl] at hk'
    cases hk'
  | cons a l =>
    rw [hl] at hk hk' hsorted
    cases hk
    rcases List.mem_cons.mp hk' with rfl | hk'
    · exact le_refl _
    · exact le_of_lt (List.rel_of_pairwise_cons hsorted hk')

theorem mem_keys_remove : k' ∈ (m.remove k).keys ↔ k' ∈ m.keys ∧ k' ≠ k := by
  simp only [keys, remove, List.mem_map, List.mem_filter, decide_eq_true_eq]
  constructor
  · rintro ⟨e, ⟨he, hne⟩, rfl⟩
    exact ⟨⟨e, he, rfl⟩, hne⟩
  · rintro ⟨⟨e, he, rfl⟩, hne⟩
    exact ⟨e, ⟨he, hne⟩, rfl⟩

theorem mem_keys_insertNew {l : List (K × V)} :
    k' ∈ (insertNew k v l).map Prod.fst ↔ k' = k ∨ k' ∈ l.map Prod.fst := by
  induction l with
  | nil => simp [insertNew]
  | cons e l ih =>
    unfold insertNew
    split_ifs with hlt heq
    · simp
    · simp [heq]
    · rw [List.map_cons, List.mem_cons, ih, List.map_cons, List.mem_cons]
      exact or_left_comm

theorem mem_keys_orInsert : k' ∈ (m.orInsert k v).keys ↔ k' = k ∨ k' ∈ m.keys := mem_keys_insertNew

theorem length_insertNew_le (k : K) (v : V) (l : List (K × V)) :
    (insertNew k v l).length ≤ l.length + 1 := by
  induction l with
  | nil => exact Nat.le_refl _
  | cons e l ih =>
    unfold insertNew
    split_ifs
    · exact Nat.le_refl _
    · exact Nat.le_succ _
    · exact Nat.succ_le_succ ih

theorem len_orInsert_le (m : OrderedMap K V) (k : K) (v : V) : (m.orInsert k v).len ≤ m.len + 1 :=
  length_insertNew_le k v m.entries

theorem len_remove_lt_of_mem (h : k ∈ m.keys) : (m.remove k).len < m.len := by
  obtain ⟨e, he, rfl⟩ := List.mem_map.mp h
  exact len_remove_lt (get?_of_mem he)

end Keys

section Total

/-- The sum of the sizes of the values. -/
def total (m : OrderedMap K V) (size : V → ℕ) : ℕ := (m.entries.map fun e => size e.2).sum

variable {m : OrderedMap K V} {k : K} {v : V} {size : V → ℕ}

theorem filter_ne_of_get?_none (h : m.get? k = none) :
    (m.entries.filter fun e => decide (e.1 ≠ k)) = m.entries := by
  rw [List.filter_eq_self]
  intro e he
  rw [decide_eq_true_iff]
  rintro rfl
  rw [get?_of_mem he] at h
  cases h

theorem sum_filter_ne {l : List (K × V)} (hl : l.Pairwise fun a b => a.1 < b.1) (h : (k, v) ∈ l) :
    ((l.filter fun e => decide (e.1 ≠ k)).map fun e => size e.2).sum + size v =
      (l.map fun e => size e.2).sum := by
  induction l with
  | nil => cases h
  | cons e l ih =>
    have hcons := List.pairwise_cons.mp hl
    rcases List.mem_cons.mp h with rfl | h
    · have hrest : (l.filter fun e => decide (e.1 ≠ k)) = l := by
        rw [List.filter_eq_self]
        intro e he
        exact decide_eq_true (ne_of_gt (hcons.1 e he))
      rw [List.filter_cons_of_neg (by simp), hrest, List.map_cons, List.sum_cons, Nat.add_comm]
    · have hne : e.1 ≠ k := ne_of_lt (hcons.1 _ h)
      rw [List.filter_cons_of_pos (by simpa using hne), List.map_cons, List.sum_cons, List.map_cons,
        List.sum_cons, Nat.add_assoc, ih hcons.2 h]

theorem total_remove (h : m.get? k = some v) : (m.remove k).total size + size v = m.total size :=
  sum_filter_ne m.sorted (mem_of_get? h)

theorem sum_insertNew {l : List (K × V)} (h : ∀ e ∈ l, e.1 ≠ k) :
    ((insertNew k v l).map fun e => size e.2).sum = (l.map fun e => size e.2).sum + size v := by
  induction l with
  | nil => simp [insertNew]
  | cons e l ih =>
    have hne : e.1 ≠ k := h e List.mem_cons_self
    unfold insertNew
    rw [if_neg (Ne.symm hne)]
    split_ifs
    · simp only [List.map_cons, List.sum_cons]
      omega
    · simp only [List.map_cons, List.sum_cons, ih fun e he => h e (List.mem_cons_of_mem _ he)]
      omega

/-- A write replaces what the key had. -/
theorem total_insert_add (m : OrderedMap K V) (k : K) (v : V) :
    (m.insert k v).total size + (m.get? k).elim 0 size = m.total size + size v := by
  have hne : ∀ e ∈ (m.remove k).entries, e.1 ≠ k := fun e he => by
    simpa using (List.mem_filter.mp he).2
  have hinsert : (m.insert k v).total size = (m.remove k).total size + size v := sum_insertNew hne
  cases hk : m.get? k with
  | none =>
    have hsame : (m.remove k).entries = m.entries := filter_ne_of_get?_none hk
    rw [hinsert, total, hsame, Option.elim_none]
    rfl
  | some old =>
    rw [hinsert, ← total_remove hk, Option.elim_some]
    omega

theorem total_insert (h : m.get? k = none) : (m.insert k v).total size = m.total size + size v := by
  have hwrite : (m.insert k v).total size + (m.get? k).elim 0 size = m.total size + size v :=
    m.total_insert_add k v
  rwa [h, Option.elim_none] at hwrite

end Total

end OrderedMap

end Library

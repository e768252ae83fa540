import Mathlib.Data.List.Induction
import Pktscope.Library.Constraints

/-! # Tables fed by a log

A table with one row for each key: an element of a log changes the row of its
key, or adds one. What a row shows is a function of the elements with its key,
in their order.
-/

namespace Library

section LastKnown

variable {α β : Type}

/-- The last value that an element of a log carries. -/
def lastKnown (f : α → Option β) (log : List α) : Option β := (log.filterMap f).getLast?

@[simp] theorem lastKnown_nil (f : α → Option β) : lastKnown f [] = none := rfl

@[simp] theorem lastKnown_concat (f : α → Option β) (log : List α) (a : α) :
    lastKnown f (log ++ [a]) = (f a).or (lastKnown f log) := by
  rw [lastKnown, List.filterMap_append, List.getLast?_append]
  cases h : f a <;> simp [h, lastKnown]

theorem ends_concat {log : List α} {first : α} (hf : log.head? = some first)
    (a : α) : (log ++ [a]).head? = some first ∧ (log ++ [a]).getLast? = some a := by
  constructor
  · rw [List.head?_append, hf]
    rfl
  · simp

/-- The elements of a log with a label. -/
def labelled {κ : Type} [DecidableEq κ] (label : α → κ) (log : List α) (k : κ) : List α :=
  log.filter fun a => decide (label a = k)

theorem labelled_concat {κ : Type} [DecidableEq κ] (label : α → κ) (log : List α) (a : α)
    (k : κ) : labelled label (log ++ [a]) k =
      labelled label log k ++ if label a = k then [a] else [] := by
  rw [labelled, List.filter_append, List.filter_singleton]
  by_cases h : label a = k <;> simp [h, labelled]

end LastKnown

namespace Sql

section Map

variable {ρ ρ' κ : Type} [DecidableEq κ] {g : ρ → ρ'}

theorem select_map (key : ρ' → κ) (k : κ) (t : List ρ) :
    select key k (t.map g) = (select (key ∘ g) k t).map g := List.find?_map

theorem update_map (key : ρ' → κ) {f : ρ' → ρ'} {f' : ρ → ρ} (h : ∀ r, g (f' r) = f (g r)) (k : κ)
    (t : List ρ) : update key k f (t.map g) = (update (key ∘ g) k f' t).map g := by
  rw [update, update, List.map_map, List.map_map]
  refine List.map_congr_left fun r _ => ?_
  by_cases hk : key (g r) = k <;> simp [hk, h]

theorem nextRowid_map (id : ρ' → ℕ) (t : List ρ) :
    nextRowid id (t.map g) = nextRowid (id ∘ g) t := by
  rw [nextRowid, List.map_map, nextRowid]

end Map

variable {α β ρ κ : Type} [DecidableEq κ]

/-- How an element of a log is entered into a table with row ids and one row for each key. -/
structure Feed (α ρ κ : Type) where
  id : ρ → ℕ
  key : ρ → κ
  label : α → κ
  new : ℕ → α → ρ
  change : α → ρ → ρ
  id_new : ∀ i a, id (new i a) = i
  key_new : ∀ i a, key (new i a) = label a
  id_change : ∀ a r, id (change a r) = id r
  key_change : ∀ a r, key (change a r) = key r

namespace Feed

variable (f : Feed α ρ κ) (a : α) (t : List ρ)

/-- Look for the row of the key, then update it or insert one. -/
def enter : List ρ :=
  match (select f.key (f.label a) t).map f.id with
  | some i => update f.id i (f.change a) t
  | none => t ++ [f.new (nextRowid f.id t) a]

/-- The row of the element's key after it is entered. -/
def row : ρ :=
  match select f.key (f.label a) t with
  | some r => f.change a r
  | none => f.new (nextRowid f.id t) a

variable {f a t}

theorem enter_of_some {r : ρ} (h : select f.key (f.label a) t = some r) :
    f.enter a t = update f.id (f.id r) (f.change a) t := by
  rw [enter, h]
  rfl

theorem enter_of_none (h : select f.key (f.label a) t = none) :
    f.enter a t = t ++ [f.new (nextRowid f.id t) a] := by
  rw [enter, h]
  rfl

/-- Only the row of the element's key changes. -/
theorem select_enter (h : Numbered f.id t) (k : κ) :
    select f.key k (f.enter a t) =
      if f.label a = k then some (f.row a t) else select f.key k t := by
  cases hsel : select f.key (f.label a) t with
  | some r =>
    rw [enter_of_some hsel, select_update (f.key_change a), row, hsel]
    by_cases hk : f.label a = k
    · rw [if_pos hk, ← hk, hsel]
      simp
    · rw [if_neg hk]
      cases hq : select f.key k t with
      | none => rfl
      | some q =>
        have hne : f.id q ≠ f.id r := by
          intro hid
          obtain rfl : q = r := h.distinct.eq (mem_of_select hq) (mem_of_select hsel) hid
          exact hk ((key_of_select hsel).symm.trans (key_of_select hq))
        simp [hne]
  | none =>
    rw [enter_of_none hsel, select_append, f.key_new, row, hsel]
    by_cases hk : f.label a = k
    · rw [if_pos hk, if_pos hk, ← hk, hsel]
      rfl
    · rw [if_neg hk, if_neg hk, Option.or_none]

theorem numbered_enter (h : Numbered f.id t) : Numbered f.id (f.enter a t) := by
  cases hsel : select f.key (f.label a) t with
  | some r =>
    rw [enter_of_some hsel]
    exact h.update (f.id_change a) _
  | none =>
    rw [enter_of_none hsel]
    exact h.concat (f.id_new _ _)

section RowIds

variable {k k' : κ} {i : ℕ}

/-- The row id of a key. -/
def idOf (f : Feed α ρ κ) (t : List ρ) (k : κ) : Option ℕ := (select f.key k t).map f.id

/-- A row that is there keeps its row id. -/
theorem idOf_enter (h : Numbered f.id t) (hi : f.idOf t k = some i) :
    f.idOf (f.enter a t) k = some i := by
  rw [idOf, select_enter h]
  split_ifs with hk
  · rw [← hk] at hi
    obtain ⟨r, hr, rfl⟩ := Option.map_eq_some_iff.mp hi
    rw [row, hr, Option.map_some, f.id_change]
  · exact hi

theorem idOf_enter_self (h : Numbered f.id t) :
    f.idOf (f.enter a t) (f.label a) = some ((f.idOf t (f.label a)).getD (nextRowid f.id t)) := by
  rw [idOf, select_enter h, if_pos rfl, row, idOf]
  cases select f.key (f.label a) t with
  | some r => simp [f.id_change]
  | none => simp [f.id_new]

theorem idOf_inj (h : Numbered f.id t) (hk : f.idOf t k = some i) (hk' : f.idOf t k' = some i) :
    k = k' := by
  obtain ⟨r, hr, rfl⟩ := Option.map_eq_some_iff.mp hk
  obtain ⟨r', hr', hid⟩ := Option.map_eq_some_iff.mp hk'
  obtain rfl : r' = r := h.distinct.eq (mem_of_select hr') (mem_of_select hr) hid
  exact (key_of_select hr).symm.trans (key_of_select hr')

theorem exists_idOf (hd : Distinct f.key t) (hi : i ∈ t.map f.id) :
    ∃ k, f.idOf t k = some i := by
  obtain ⟨r, hr, rfl⟩ := List.mem_map.mp hi
  refine ⟨f.key r, ?_⟩
  obtain ⟨r', hr'⟩ := Option.isSome_iff_exists.mp (select_isSome.mpr (⟨r, hr, rfl⟩ : ∃ q ∈ t, f.key q = f.key r))
  obtain rfl : r' = r := hd.eq (mem_of_select hr') hr (key_of_select hr')
  rw [idOf, hr']
  rfl

end RowIds

/-- What a row shows, as a function of the elements entered into it. -/
structure Shows (f : Feed α ρ κ) (view : ρ → β) (history : List α → Option β) : Prop where
  nil : history [] = none
  new : ∀ i a, history [a] = some (view (f.new i a))
  change : ∀ log a r, history log = some (view r) → history (log ++ [a]) = some (view (f.change a r))
  none : ∀ log, history log = none → log = []

variable {view : ρ → β} {history : List α → Option β} {log : List α}

/-- A table whose rows show the elements of a log. -/
structure Fed (f : Feed α ρ κ) (view : ρ → β) (history : List α → Option β) (log : List α)
    (t : List ρ) : Prop where
  numbered : Numbered f.id t
  shown : ∀ k, (select f.key k t).map view = history (labelled f.label log k)

theorem Shows.fed_nil (h : f.Shows view history) : Fed f view history [] [] :=
  ⟨List.Pairwise.nil, fun _ => h.nil.symm⟩

theorem Shows.fed_enter (h : f.Shows view history) (ht : Fed f view history log t) (a : α) :
    Fed f view history (log ++ [a]) (f.enter a t) where
  numbered := numbered_enter ht.numbered
  shown k := by
    have hk := ht.shown k
    rw [select_enter ht.numbered, labelled_concat]
    by_cases hl : f.label a = k
    · subst hl
      rw [if_pos rfl, if_pos rfl, Option.map_some, row]
      cases hsel : select f.key (f.label a) t with
      | some r =>
        rw [hsel] at hk
        exact (h.change _ a r hk.symm).symm
      | none =>
        rw [hsel] at hk
        rw [h.none _ hk.symm]
        exact (h.new _ a).symm
    · rw [if_neg hl, if_neg hl, List.append_nil]
      exact hk

end Feed

end Sql

end Library

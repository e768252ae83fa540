import Mathlib.Algebra.GroupWithZero.Nat
import Mathlib.Data.List.AList

/-! # Least recently used caches

A cache is a table with its most recently used entry first and a capacity that
it never exceeds. Borrowing a missing key from a full cache evicts the entry
used longest ago.
-/

namespace Library

/-- A table of at most `cap` entries, the most recently used one first. -/
structure LruCache (K V : Type) [DecidableEq K] where
  table : AList fun _ : K => V
  cap : ℕ
  cap_pos : 0 < cap
  fits : table.keys.length ≤ cap

namespace LruCache

section DropLast

variable {K V : Type}

/-- The table without its last entry. -/
def dropLast (t : AList fun _ : K => V) : AList fun _ : K => V where
  entries := t.entries.dropLast
  nodupKeys := List.NodupKeys.sublist (List.dropLast_sublist _) t.nodupKeys

theorem keys_dropLast (t : AList fun _ : K => V) : (dropLast t).keys = t.keys.dropLast := by
  simp [dropLast, AList.keys, List.keys, List.map_dropLast]

theorem lookup_dropLast [DecidableEq K] (t : AList fun _ : K => V) (k' : K) :
    (dropLast t).lookup k' = if t.keys.getLast? = some k' then none else t.lookup k' := by
  split_ifs with h
  · obtain ⟨ks, hk⟩ := List.getLast?_eq_some_iff.mp h
    have hd := t.keys_nodup
    rw [hk, List.nodup_append] at hd
    rw [AList.lookup_eq_none, AList.mem_keys, keys_dropLast, hk, List.dropLast_concat]
    exact fun hm => hd.2.2 k' hm k' (by simp) rfl
  · rcases List.eq_nil_or_concat' t.entries with hn | ⟨l, e, he⟩
    · simp [dropLast, AList.lookup, hn]
    · have hne : k' ≠ e.1 := by
        rintro rfl
        exact h (by simp [AList.keys, List.keys, he])
      have hl : l.dlookup k' = t.entries.dlookup k' := by
        rw [he, List.dlookup_append, List.dlookup_cons_ne _ _ hne]
        simp
      simpa [dropLast, AList.lookup, he] using hl

end DropLast

variable {K V : Type} [DecidableEq K]

def empty (cap : ℕ) (h : 0 < cap) : LruCache K V := ⟨∅, cap, h, by simp⟩

def len (c : LruCache K V) : ℕ := c.table.keys.length

def contains (c : LruCache K V) (k : K) : Bool := decide (k ∈ c.table)

/-- The entry of a key, without marking it as used. -/
def peek (c : LruCache K V) (k : K) : Option V := c.table.lookup k

/-- The entries, the most recently used one first. -/
def iter (c : LruCache K V) : List (K × V) := c.table.entries.map fun e => (e.1, e.2)

/-- Remove a key. -/
def pop (c : LruCache K V) (k : K) : LruCache K V where
  table := c.table.erase k
  cap := c.cap
  cap_pos := c.cap_pos
  fits := by
    rw [AList.keys_erase]
    exact le_trans List.length_erase_le c.fits

/-- The key that borrowing `k` evicts: the last one, if `k` is new and the cache is full. -/
def victim (c : LruCache K V) (k : K) : Option K :=
  if k ∈ c.table ∨ c.len < c.cap then none else c.table.keys.getLast?

/-- The table once there is room for `k`. -/
def room (c : LruCache K V) (k : K) : AList fun _ : K => V :=
  if k ∈ c.table ∨ c.len < c.cap then c.table else dropLast c.table

theorem length_insert_room (c : LruCache K V) (k : K) (v : V) :
    ((c.room k).insert k v).keys.length ≤ c.cap := by
  have hc := c.cap_pos
  have hf := c.fits
  rw [AList.keys_insert, List.length_cons]
  unfold room len
  split_ifs with h
  · by_cases hk : k ∈ c.table
    · have hp : 0 < c.table.keys.length := List.length_pos_of_mem (AList.mem_keys.mp hk)
      rw [List.length_erase_of_mem (AList.mem_keys.mp hk)]
      omega
    · have hl := h.resolve_left hk
      exact lt_of_le_of_lt List.length_erase_le hl
  · have hl : ((dropLast c.table).keys.erase k).length ≤ c.table.keys.length - 1 := by
      refine le_trans List.length_erase_le ?_
      rw [keys_dropLast, List.length_dropLast]
    omega

/-- Borrow the entry of `k`, made with `new` if it is missing, and write it back as used. -/
def getOrInsertMut (c : LruCache K V) (k : K) (new : V) : V × (V → LruCache K V) :=
  ((c.peek k).getD new, fun v => ⟨(c.room k).insert k v, c.cap, c.cap_pos, c.length_insert_room k v⟩)

@[simp] theorem contains_iff {c : LruCache K V} {k : K} : c.contains k = true ↔ k ∈ c.table := by
  simp [contains]

theorem peek_eq_none {c : LruCache K V} {k : K} : c.peek k = none ↔ k ∉ c.table :=
  AList.lookup_eq_none

theorem peek_isSome {c : LruCache K V} {k : K} : (c.peek k).isSome ↔ k ∈ c.table :=
  AList.lookup_isSome

@[simp] theorem peek_empty (cap : ℕ) (h : 0 < cap) (k : K) :
    (empty cap h : LruCache K V).peek k = none := AList.lookup_empty k

@[simp] theorem peek_pop_self (c : LruCache K V) (k : K) : (c.pop k).peek k = none :=
  AList.lookup_erase k c.table

theorem peek_pop_of_ne (c : LruCache K V) {k k' : K} (h : k' ≠ k) :
    (c.pop k).peek k' = c.peek k' := AList.lookup_erase_ne h

@[simp] theorem cap_pop (c : LruCache K V) (k : K) : (c.pop k).cap = c.cap := rfl

section GetOrInsertMut

variable (c : LruCache K V) (k : K) (new v : V)

@[simp] theorem cap_getOrInsertMut : ((c.getOrInsertMut k new).2 v).cap = c.cap := rfl

@[simp] theorem peek_getOrInsertMut_self : ((c.getOrInsertMut k new).2 v).peek k = some v :=
  AList.lookup_insert (c.room k)

/-- Borrowing a key touches no other entry than the one it evicts. -/
theorem peek_getOrInsertMut_of_ne {k' : K} (h : k' ≠ k) :
    ((c.getOrInsertMut k new).2 v).peek k' =
      if c.victim k = some k' then none else c.peek k' := by
  change ((c.room k).insert k v).lookup k' = _
  rw [AList.lookup_insert_ne h]
  unfold room victim peek
  by_cases hr : k ∈ c.table ∨ c.len < c.cap
  · simp only [if_pos hr, reduceCtorEq, if_false]
  · simp only [if_neg hr, lookup_dropLast]

end GetOrInsertMut

theorem victim_eq_none_of_mem {c : LruCache K V} {k : K} (h : k ∈ c.table) :
    c.victim k = none := if_pos (Or.inl h)

theorem victim_mem {c : LruCache K V} {k k' : K} (h : c.victim k = some k') : k' ∈ c.table := by
  unfold victim at h
  split_ifs at h
  exact AList.mem_keys.mpr (List.mem_of_getLast? h)

theorem victim_ne {c : LruCache K V} {k k' : K} (h : c.victim k = some k') : k' ≠ k := by
  rintro rfl
  rw [victim_eq_none_of_mem (victim_mem h)] at h
  cases h

/-- A key is evicted exactly when a new key meets a full cache. -/
theorem victim_isSome {c : LruCache K V} {k : K} :
    (c.victim k).isSome ↔ k ∉ c.table ∧ c.len = c.cap := by
  have hf : c.len ≤ c.cap := c.fits
  have hp := c.cap_pos
  unfold victim
  split_ifs with h
  · simp only [Option.isSome_none, Bool.false_eq_true, false_iff, not_and]
    intro hk
    have hl := h.resolve_left hk
    omega
  · rw [not_or, not_lt] at h
    have he : c.len = c.cap := le_antisymm hf h.2
    have hn : c.table.keys ≠ [] := by
      intro hn
      simp [len, hn] at he
      omega
    simp [List.getLast?_eq_some_getLast hn, h.1, he]

section Total

variable (f : V → ℕ)

/-- The sum of a measure over the values of a table. -/
def tableSum (t : AList fun _ : K => V) : ℕ := (t.entries.map fun e => f e.2).sum

theorem tableSum_erase (t : AList fun _ : K => V) (k : K) :
    tableSum f (t.erase k) + (t.lookup k).elim 0 f = tableSum f t := by
  change ((t.entries.kerase k).map fun e => f e.2).sum + (t.entries.dlookup k).elim 0 f = _
  unfold tableSum
  induction t.entries with
  | nil => rfl
  | cons e l ih =>
    obtain ⟨k', v⟩ := e
    by_cases hk : k = k'
    · subst hk
      have herase : List.kerase k (⟨k, v⟩ :: l) = l := List.kerase_cons_eq rfl
      rw [herase, List.dlookup_cons_eq, List.map_cons, List.sum_cons]
      exact Nat.add_comm _ _
    · rw [List.kerase_cons_ne hk, List.dlookup_cons_ne _ _ hk, List.map_cons, List.map_cons,
        List.sum_cons, List.sum_cons, Nat.add_assoc, ih]

theorem tableSum_insert (t : AList fun _ : K => V) (k : K) (v : V) :
    tableSum f (t.insert k v) + (t.lookup k).elim 0 f = tableSum f t + f v := by
  have herase := tableSum_erase f t k
  have hinsert : tableSum f (t.insert k v) = f v + tableSum f (t.erase k) := by
    unfold tableSum
    rw [AList.entries_insert, List.map_cons, List.sum_cons]
    rfl
  omega

theorem tableSum_dropLast (t : AList fun _ : K => V) :
    tableSum f (dropLast t) + (t.keys.getLast?.bind t.lookup).elim 0 f = tableSum f t := by
  rcases List.eq_nil_or_concat' t.entries with hn | ⟨l, e, he⟩
  · simp [tableSum, dropLast, AList.keys, List.keys, hn]
  · have hlast : t.keys.getLast? = some e.1 := by simp [AList.keys, List.keys, he]
    have hlookup : t.lookup e.1 = some e.2 := by
      rw [← Option.mem_def, AList.mem_lookup_iff, he]
      simp
    rw [hlast, Option.bind_some, hlookup]
    simp [tableSum, dropLast, he]

/-- The sum of a measure over the entries of a cache. -/
def total (c : LruCache K V) : ℕ := (c.iter.map fun e => f e.2).sum

variable (c : LruCache K V) (k : K)

theorem total_eq : c.total f = tableSum f c.table := by
  rw [total, iter, List.map_map]
  rfl

theorem total_pop : (c.pop k).total f + (c.peek k).elim 0 f = c.total f := by
  rw [total_eq, total_eq]
  exact tableSum_erase f c.table k

theorem lookup_room : (c.room k).lookup k = c.peek k := by
  unfold room
  split_ifs with h
  · rfl
  · have hk : c.peek k = none := peek_eq_none.mpr fun hm => h (Or.inl hm)
    rw [lookup_dropLast, ← peek, hk, ite_self]

theorem tableSum_room :
    tableSum f (c.room k) + ((c.victim k).bind c.peek).elim 0 f = tableSum f c.table := by
  unfold room victim
  split_ifs
  · rfl
  · exact tableSum_dropLast f c.table

/-- Writing an entry replaces its own measure and loses the one of the evicted entry. -/
theorem total_getOrInsertMut (new v : V) :
    ((c.getOrInsertMut k new).2 v).total f + (c.peek k).elim 0 f +
      ((c.victim k).bind c.peek).elim 0 f = c.total f + f v := by
  have hroom := tableSum_room f c k
  have hinsert := tableSum_insert f (c.room k) k v
  rw [lookup_room] at hinsert
  rw [total_eq, total_eq]
  change tableSum f ((c.room k).insert k v) + _ + _ = _
  omega

end Total

end LruCache

end Library

import Mathlib.Data.List.AList
import Mathlib.Tactic.Common
import Pktscope.Library.Folds

/-! # Pending requests

A table keeps the requests that wait for an answer, one for each key. A message
writes or drops the entry of its own key; other entries may only be evicted. So
an entry stems from the last message of its key, and no two answers are matched
with one request.
-/

namespace Library

/-- How a hash table lists its keys: any of them may come first. -/
structure KeyOrder (κ β : Type) where
  first : (AList fun _ : κ => β) → Option κ
  mem_of_first : ∀ {t k}, first t = some k → k ∈ t
  isSome_first : ∀ {t k}, k ∈ t → (first t).isSome

/-- The key written last comes first. -/
def KeyOrder.latest (κ β : Type) : KeyOrder κ β where
  first t := t.keys.head?
  mem_of_first h := AList.mem_keys.mpr (List.mem_of_head? h)
  isSome_first h := List.isSome_head?.mpr (List.ne_nil_of_mem (AList.mem_keys.mp h))

variable {α κ β : Type} {key : α → κ}

/-- The last message of a key in a log, and where it stands. -/
structure IsLast (key : α → κ) (log : List α) (k : κ) (i : ℕ) (a : α) : Prop where
  getElem? : log[i]? = some a
  key_eq : key a = k
  key_ne : ∀ {j b}, i < j → log[j]? = some b → key b ≠ k

namespace IsLast

variable {log : List α} {k : κ} {i j : ℕ} {a b : α}

theorem lt_length (h : IsLast key log k i a) : i < log.length :=
  (List.getElem?_eq_some_iff.mp h.getElem?).1

theorem concat_self (log : List α) (a : α) : IsLast key (log ++ [a]) (key a) log.length a where
  getElem? := List.getElem?_concat_length
  key_eq := rfl
  key_ne hj hb := by
    have hlen := (List.getElem?_eq_some_iff.mp hb).1
    rw [List.length_append, List.length_singleton] at hlen
    omega

theorem concat (h : IsLast key log k i a) (hb : key b ≠ k) : IsLast key (log ++ [b]) k i a where
  getElem? := getElem?_concat_eq_some_iff.mpr (Or.inl h.getElem?)
  key_eq := h.key_eq
  key_ne hj hc := by
    rcases getElem?_concat_eq_some_iff.mp hc with hc | ⟨-, rfl⟩
    · exact h.key_ne hj hc
    · exact hb

/-- Two messages that follow on one request are one message. -/
theorem eq_of_take {j' : ℕ} {r r' : α} (hr : log[j]? = some r) (hr' : log[j']? = some r')
    (h : IsLast key (log.take j) (key r) i a) (h' : IsLast key (log.take j') (key r') i b) :
    j = j' := by
  -- the earlier of the two has the key and stands between the request and the later one
  have before {j j' : ℕ} {r r' a b : α} (hr : log[j]? = some r)
      (h : IsLast key (log.take j) (key r) i a) (h' : IsLast key (log.take j') (key r') i b) :
      ¬ j < j' := by
    intro hlt
    have hi : i < j := lt_of_lt_of_le h.lt_length (List.length_take_le _ _)
    have hsame : a = b := by
      have ha := h.getElem?
      have hb := h'.getElem?
      rw [List.getElem?_take_of_lt hi] at ha
      rw [List.getElem?_take_of_lt (Nat.lt_trans hi hlt), ha, Option.some.injEq] at hb
      exact hb
    have hkey : key r = key r' := by rw [← h.key_eq, hsame, h'.key_eq]
    exact h'.key_ne hi (by rw [List.getElem?_take_of_lt hlt, hr]) hkey
  exact le_antisymm (not_lt.mp (before hr' h' h)) (not_lt.mp (before hr h h'))

end IsLast

/-- Every entry of a table was made by the last message of its key. -/
def Traced (key : α → κ) (opens : α → Option β) [DecidableEq κ] (log : List α)
    (t : AList fun _ : κ => β) : Prop :=
  ∀ k b, t.lookup k = some b → ∃ i a, IsLast key log k i a ∧ opens a = some b

namespace Traced

variable [DecidableEq κ] {opens : α → Option β} {log : List α} {t : AList fun _ : κ => β} {a : α}
  {b : β}

theorem nil : Traced key opens [] (∅ : AList fun _ : κ => β) := by
  intro k b h
  rw [AList.lookup_empty] at h
  cases h

theorem evict (h : Traced key opens log t) (k : κ) : Traced key opens log (t.erase k) := by
  intro k' b hb
  by_cases hk : k' = k
  · rw [hk, AList.lookup_erase] at hb
    cases hb
  · rw [AList.lookup_erase_ne hk] at hb
    exact h k' b hb

theorem insert (h : Traced key opens log t) (hopens : opens a = some b) :
    Traced key opens (log ++ [a]) (t.insert (key a) b) := by
  intro k c hc
  by_cases hk : k = key a
  · subst hk
    rw [AList.lookup_insert, Option.some.injEq] at hc
    subst hc
    exact ⟨log.length, a, .concat_self log a, hopens⟩
  · rw [AList.lookup_insert_ne hk] at hc
    obtain ⟨i, a', hlast, hopens'⟩ := h k c hc
    exact ⟨i, a', hlast.concat (Ne.symm hk), hopens'⟩

theorem erase (h : Traced key opens log t) (a : α) :
    Traced key opens (log ++ [a]) (t.erase (key a)) := by
  intro k c hc
  by_cases hk : k = key a
  · rw [hk, AList.lookup_erase] at hc
    cases hc
  · rw [AList.lookup_erase_ne hk] at hc
    obtain ⟨i, a', hlast, hopens⟩ := h k c hc
    exact ⟨i, a', hlast.concat (Ne.symm hk), hopens⟩

end Traced

end Library

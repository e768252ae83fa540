import Mathlib.Algebra.GroupWithZero.Nat
import Mathlib.Data.List.Basic
import Mathlib.Data.List.Induction
import Mathlib.Tactic.Common

/-! # Sessions

A run writes a log, one entry for some of its steps. An entry opens, continues
or ends the session of its key, and may end sessions of other keys. A table
whose entries the steps make, update and drop accordingly holds for each key
the fold of the key's current session.
-/

namespace Library

variable {σ ι α κ β : Type} [DecidableEq κ]

/-- The log of a run. -/
def logOf (step : σ → ι → σ) (entry : σ → ι → Option α) : σ → List ι → List α
  | _, [] => []
  | s, i :: is => (entry s i).toList ++ logOf step entry (step s i) is

theorem logOf_append (step : σ → ι → σ) (entry : σ → ι → Option α) (s : σ) (is js : List ι) :
    logOf step entry s (is ++ js) =
      logOf step entry s is ++ logOf step entry (is.foldl step s) js := by
  induction is generalizing s with
  | nil => rfl
  | cons i is ih => simp only [List.cons_append, logOf, ih, List.append_assoc, List.foldl_cons]

theorem logOf_concat (step : σ → ι → σ) (entry : σ → ι → Option α) (s : σ) (is : List ι) (i : ι) :
    logOf step entry s (is ++ [i]) =
      logOf step entry s is ++ (entry (is.foldl step s) i).toList := by
  rw [logOf_append, logOf, logOf, List.append_nil]

theorem exists_moment {step : σ → ι → σ} {entry : σ → ι → Option α} {s : σ} {is : List ι} {j : ℕ}
    {a : α} (h : (logOf step entry s is)[j]? = some a) :
    ∃ t i, is[t]? = some i ∧ entry ((is.take t).foldl step s) i = some a ∧
      (logOf step entry s (is.take t)).length = j := by
  induction is generalizing s j with
  | nil => cases h
  | cons i is ih =>
    rw [logOf] at h
    cases he : entry s i with
    | none =>
      rw [he, Option.toList_none, List.nil_append] at h
      obtain ⟨t, i', hi', hentry, hlen⟩ := ih h
      refine ⟨t + 1, i', hi', hentry, ?_⟩
      simpa [logOf, he] using hlen
    | some b =>
      rw [he, Option.toList_some, List.singleton_append] at h
      cases j with
      | zero =>
        cases h
        exact ⟨0, i, rfl, he, rfl⟩
      | succ j =>
        obtain ⟨t, i', hi', hentry, hlen⟩ := ih h
        refine ⟨t + 1, i', hi', hentry, ?_⟩
        simpa [logOf, he] using hlen

theorem forall_mem_logOf {step : σ → ι → σ} {entry : σ → ι → Option α} {P : α → Prop}
    (h : ∀ s i, ∀ a ∈ entry s i, P a) (s : σ) (is : List ι) :
    ∀ a ∈ logOf step entry s is, P a := by
  induction is generalizing s with
  | nil => exact fun _ ha => nomatch ha
  | cons i is ih =>
    intro a ha
    rcases List.mem_append.mp ha with ha | ha
    · exact h s i a (Option.mem_toList.mp ha)
    · exact ih _ a ha

theorem forall_take_iff {step : σ → ι → σ} {I P : σ → Prop} {Q : σ → ι → Prop}
    (hI : ∀ s i, I s → I (step s i)) (hstep : ∀ s i, I s → P s → (P (step s i) ↔ Q s i))
    {s : σ} (hs : I s) (hp : P s) (is : List ι) :
    (∀ n, P ((is.take n).foldl step s)) ↔
      ∀ n i, is[n]? = some i → Q ((is.take n).foldl step s) i := by
  induction is generalizing s with
  | nil => simp [hp]
  | cons i is ih =>
    have hhead : P (step s i) ↔ Q s i := hstep s i hs hp
    constructor
    · intro h n j hj
      have hnext : P (step s i) := h 1
      cases n with
      | zero =>
        cases hj
        exact hhead.mp hnext
      | succ n => exact (ih (hI s i hs) hnext).mp (fun m => h (m + 1)) n j hj
    · intro h n
      have hnext : P (step s i) := hhead.mpr (h 0 i rfl)
      cases n with
      | zero => exact hp
      | succ n => exact (ih (hI s i hs) hnext).mpr (fun m => h (m + 1)) n

section Session

variable (key : α → κ) (ends : κ → α → Bool)

/-- The entries of a key since its last session ended. -/
def session (k : κ) (log : List α) : List α :=
  log.foldl (fun l a => if ends k a then [] else if key a = k then l ++ [a] else l) []

@[simp] theorem session_nil (k : κ) : session key ends k [] = [] := rfl

theorem session_concat (k : κ) (log : List α) (a : α) :
    session key ends k (log ++ [a]) =
      if ends k a then []
      else if key a = k then session key ends k log ++ [a]
      else session key ends k log := by
  rw [session, List.foldl_append]
  rfl

theorem mem_session {k : κ} {log : List α} {a : α} (h : a ∈ session key ends k log) :
    a ∈ log ∧ key a = k := by
  induction log using List.reverseRecOn with
  | nil => cases h
  | append_singleton log b ih =>
    rw [session_concat] at h
    split_ifs at h with he hk
    · cases h
    · rcases List.mem_append.mp h with h | h
      · exact ⟨List.mem_append_left _ (ih h).1, (ih h).2⟩
      · obtain rfl := List.mem_singleton.mp h
        exact ⟨List.mem_append_right _ h, hk⟩
    · exact ⟨List.mem_append_left _ (ih h).1, (ih h).2⟩

theorem session_sublist (k : κ) (log : List α) : (session key ends k log).Sublist log := by
  induction log using List.reverseRecOn with
  | nil => exact List.Sublist.refl _
  | append_singleton log a ih =>
    rw [session_concat]
    split_ifs
    · exact List.nil_sublist _
    · exact ih.append (List.Sublist.refl _)
    · exact ih.trans (List.sublist_append_left _ _)

/-- The sessions that an entry of their key has ended, in order, with that entry. -/
def finishedAfter (before : List α) : List α → List (List α)
  | [] => []
  | a :: log =>
    (if ends (key a) a then [session key ends (key a) before ++ [a]] else []) ++
      finishedAfter (before ++ [a]) log

def finished (log : List α) : List (List α) := finishedAfter key ends [] log

theorem finished_concat (log : List α) (a : α) :
    finished key ends (log ++ [a]) = finished key ends log ++
      if ends (key a) a then [session key ends (key a) log ++ [a]] else [] := by
  have h (before : List α) : finishedAfter key ends before (log ++ [a]) =
      finishedAfter key ends before log ++
        if ends (key a) a then [session key ends (key a) (before ++ log) ++ [a]] else [] := by
    induction log generalizing before with
    | nil => simp [finishedAfter]
    | cons b log ih => simp only [List.cons_append, finishedAfter, ih, List.append_assoc,
        List.nil_append]
  exact h []

/-- The fold of a session, if it has an entry. -/
def sessionFold (upd : Option β → α → β) (l : List α) : Option β :=
  l.foldl (fun b a => some (upd b a)) none

theorem sessionFold_concat (upd : Option β → α → β) (l : List α) (a : α) :
    sessionFold upd (l ++ [a]) = some (upd (sessionFold upd l) a) := by
  rw [sessionFold, List.foldl_append]
  rfl

/-- A measure that every entry adds to. -/
theorem sessionFold_sum {upd : Option β → α → β} {f : β → ℕ} {g : α → ℕ}
    (h : ∀ b a, f (upd b a) = b.elim 0 f + g a) (l : List α) :
    (sessionFold upd l).elim 0 f = (l.map g).sum := by
  induction l using List.reverseRecOn with
  | nil => rfl
  | append_singleton l a ih =>
    rw [sessionFold_concat, Option.elim_some, h, ih, List.map_append, List.sum_append]
    rfl

theorem sessionFold_head {upd : Option β → α → β} {γ : Type} {f : β → γ} {g : α → γ}
    (h : ∀ b a, f (upd b a) = (b.map f).getD (g a)) (l : List α) :
    (sessionFold upd l).map f = l.head?.map g := by
  induction l using List.reverseRecOn with
  | nil => rfl
  | append_singleton l a ih =>
    rw [sessionFold_concat, Option.map_some, h, ih]
    cases l <;> rfl

/-- A table that the steps change as the log says holds the folds of the sessions. -/
theorem cell_eq_sessionFold (upd : Option β → α → β) {step : σ → ι → σ} {entry : σ → ι → Option α}
    {g : σ → κ → Option β} {I : σ → Prop}
    (hI : ∀ s i, I s → I (step s i))
    (hnone : ∀ s i, I s → entry s i = none → ∀ k, g (step s i) k = g s k)
    (hsome : ∀ s i a, I s → entry s i = some a → ∀ k, g (step s i) k =
      if ends k a then none else if key a = k then some (upd (g s k) a) else g s k)
    {s : σ} (hs : I s) (hcell : ∀ k, g s k = none) (is : List ι) (k : κ) :
    g (is.foldl step s) k = sessionFold upd (session key ends k (logOf step entry s is)) := by
  have hinv : ∀ js : List ι, I (js.foldl step s) := by
    intro js
    induction js using List.reverseRecOn with
    | nil => exact hs
    | append_singleton js j ih =>
      rw [List.foldl_append]
      exact hI _ _ ih
  induction is using List.reverseRecOn with
  | nil => exact hcell k
  | append_singleton is i ih =>
    rw [List.foldl_append, List.foldl_cons, List.foldl_nil, logOf_concat]
    cases he : entry (is.foldl step s) i with
    | none => rw [hnone _ _ (hinv is) he, ih, Option.toList_none, List.append_nil]
    | some a =>
      rw [hsome _ _ a (hinv is) he, ih, Option.toList_some, session_concat]
      split_ifs
      · rfl
      · rw [sessionFold_concat]
      · rfl

end Session

end Library

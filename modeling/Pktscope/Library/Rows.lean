import Mathlib.Data.Nat.Notation

/-! # Rows of items

A reader takes items one behind the other until it ends. Two readers take the same
items exactly if their items go in pairs.
-/

namespace Library

variable {σ σ' ε ε' α : Type}

/-- The items that a reader takes from a state on, and where it ends. -/
inductive Reads (item : σ → α → σ → Prop) (ends : σ → ε → Prop) : σ → List α → ε → Prop
  | ends {s : σ} {e : ε} (h : ends s e) : Reads item ends s [] e
  | item {s t : σ} {a : α} {l : List α} {e : ε} (h : item s a t) (hrest : Reads item ends t l e) :
      Reads item ends s (a :: l) e

/-- A number of pairs that two readers take from two states on, and where they end. -/
inductive Paired (pair : σ → σ' → σ → σ' → Prop) (ends : σ → ε → Prop) (ends' : σ' → ε' → Prop) :
    ℕ → σ → σ' → ε → ε' → Prop
  | ends {s : σ} {s' : σ'} {e : ε} {e' : ε'} (h : ends s e) (h' : ends' s' e') :
      Paired pair ends ends' 0 s s' e e'
  | pair {n : ℕ} {s t : σ} {s' t' : σ'} {e : ε} {e' : ε'} (h : pair s s' t t')
      (hrest : Paired pair ends ends' n t t' e e') : Paired pair ends ends' (n + 1) s s' e e'

variable {item : σ → α → σ → Prop} {item' : σ' → α → σ' → Prop} {pair : σ → σ' → σ → σ' → Prop}
  {ends : σ → ε → Prop} {ends' : σ' → ε' → Prop}

/-- Two readers take the same items exactly if one item of each makes a pair at every step. -/
theorem exists_reads_iff_paired
    (hpair : ∀ s s' t t', pair s s' t t' ↔ ∃ a, item s a t ∧ item' s' a t') {n : ℕ} {s : σ} {s' : σ'}
    {e : ε} {e' : ε'} : (∃ l : List α, l.length = n ∧ Reads item ends s l e ∧
      Reads item' ends' s' l e') ↔ Paired pair ends ends' n s s' e e' := by
  constructor
  · rintro ⟨l, rfl, h, h'⟩
    induction h generalizing s' with
    | ends hend =>
      cases h' with
      | ends hend' => exact .ends hend hend'
    | item hitem _ ih =>
      cases h' with
      | item hitem' hrest' => exact .pair ((hpair _ _ _ _).mpr ⟨_, hitem, hitem'⟩) (ih hrest')
  · intro h
    induction h with
    | ends hend hend' => exact ⟨[], rfl, .ends hend, .ends hend'⟩
    | pair hp _ ih =>
      obtain ⟨a, hitem, hitem'⟩ := (hpair _ _ _ _).mp hp
      obtain ⟨l, hlen, hl, hl'⟩ := ih
      exact ⟨a :: l, congrArg (· + 1) hlen, .item hitem hl, .item hitem' hl'⟩

end Library

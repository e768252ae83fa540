import Mathlib.Algebra.GroupWithZero.Nat
import Mathlib.Data.Finset.Card
import Mathlib.Data.List.Basic
import Mathlib.Data.List.Induction
import Mathlib.Tactic.Common

/-! # Folds over histories

A register that some steps of a history overwrite holds the last value written,
which need not be the last one that matters.
-/

namespace Library

variable {α β σ : Type}

/-- A cell of a state that each step either overwrites or leaves alone. -/
theorem foldl_register {f : σ → α → σ} {g : σ → Option β} {w : α → Option β}
    {I : σ → Prop} {P : α → Prop} (hI : ∀ s a, I s → P a → I (f s a))
    (hstep : ∀ s a, I s → P a → g (f s a) = (w a).or (g s)) {xs : List α}
    (hP : ∀ a ∈ xs, P a) {s : σ} (hs : I s) :
    g (xs.foldl f s) = (xs.filterMap w).getLast?.or (g s) := by
  induction xs generalizing s with
  | nil => rfl
  | cons a xs ih =>
    have ha : P a := hP a List.mem_cons_self
    rw [List.foldl_cons, ih (fun b hb => hP b (List.mem_cons_of_mem _ hb)) (hI s a hs ha),
      hstep s a hs ha, List.filterMap_cons]
    cases hw : w a with
    | none => rfl
    | some b =>
      cases hl : (xs.filterMap w).getLast? <;> simp [List.getLast?_cons, hl]

theorem foldl_cell {f : σ → α → σ} {g : σ → β} {w : α → Option β}
    (hstep : ∀ s a, g (f s a) = (w a).getD (g s)) (xs : List α) (s : σ) :
    g (xs.foldl f s) = ((xs.filterMap w).getLast?).getD (g s) := by
  induction xs generalizing s with
  | nil => rfl
  | cons a xs ih =>
    rw [List.foldl_cons, ih, hstep, List.filterMap_cons]
    cases hw : w a with
    | none => rfl
    | some b => rw [Option.getD_some, List.getLast?_cons, Option.getD_some]

theorem getElem?_concat_eq_some_iff {log : List α} {a c : α} {i : ℕ} :
    (log ++ [a])[i]? = some c ↔ log[i]? = some c ∨ i = log.length ∧ a = c := by
  rcases lt_trichotomy i log.length with hlt | rfl | hgt
  · rw [List.getElem?_append_left hlt]
    constructor
    · exact Or.inl
    · rintro (h | ⟨rfl, -⟩)
      · exact h
      · exact absurd hlt (lt_irrefl _)
  · rw [List.getElem?_concat_length, List.getElem?_eq_none le_rfl]
    simp
  · rw [List.getElem?_eq_none, List.getElem?_eq_none hgt.le]
    · constructor
      · intro h
        cases h
      · rintro (h | ⟨rfl, -⟩)
        · cases h
        · exact absurd hgt (lt_irrefl _)
    · rw [List.length_append, List.length_singleton]
      exact hgt

/-- The last value that a history writes, where what is written depends on the history before. -/
def LastValue (w : List α → α → Option β) (log : List α) (b : β) : Prop :=
  ∃ i a, log[i]? = some a ∧ w (log.take i) a = some b ∧
    ∀ j c, i < j → log[j]? = some c → w (log.take j) c = none

theorem lastValue_concat {w : List α → α → Option β} {log : List α} {a : α} {b : β} :
    LastValue w (log ++ [a]) b ↔ w log a = some b ∨ w log a = none ∧ LastValue w log b := by
  have hfront {i : ℕ} (hi : i ≤ log.length) : (log ++ [a]).take i = log.take i :=
    List.take_append_of_le_length hi
  have hall : (log ++ [a]).take log.length = log := List.take_left
  constructor
  · rintro ⟨i, c, hc, hw, hlater⟩
    rcases getElem?_concat_eq_some_iff.mp hc with hc' | ⟨rfl, rfl⟩
    · have hlt : i < log.length := (List.getElem?_eq_some_iff.mp hc').1
      have hnone := hlater log.length a hlt List.getElem?_concat_length
      rw [hall] at hnone
      rw [hfront hlt.le] at hw
      refine Or.inr ⟨hnone, i, c, hc', hw, fun j d hj hd => ?_⟩
      rw [← hfront (List.getElem?_eq_some_iff.mp hd).1.le]
      exact hlater j d hj (getElem?_concat_eq_some_iff.mpr (Or.inl hd))
    · rw [hall] at hw
      exact Or.inl hw
  · rintro (hw | ⟨hnone, i, c, hc, hw, hlater⟩)
    · refine ⟨log.length, a, List.getElem?_concat_length, hall.symm ▸ hw, fun j d hj hd => ?_⟩
      have hlt := (List.getElem?_eq_some_iff.mp hd).1
      rw [List.length_append, List.length_singleton] at hlt
      omega
    · have hlt : i < log.length := (List.getElem?_eq_some_iff.mp hc).1
      refine ⟨i, c, getElem?_concat_eq_some_iff.mpr (Or.inl hc), ?_, fun j d hj hd => ?_⟩
      · rwa [hfront hlt.le]
      · rcases getElem?_concat_eq_some_iff.mp hd with hd' | ⟨rfl, rfl⟩
        · rw [hfront (List.getElem?_eq_some_iff.mp hd').1.le]
          exact hlater j d hj hd'
        · rwa [hall]

theorem cell_eq_some_iff_lastValue {f : σ → α → σ} {g : σ → Option β} {w : List α → α → Option β}
    {s : σ} (hstart : g s = none)
    (hstep : ∀ log a, g (f (log.foldl f s) a) = (w log a).or (g (log.foldl f s))) (log : List α)
    {b : β} : g (log.foldl f s) = some b ↔ LastValue w log b := by
  induction log using List.reverseRecOn with
  | nil =>
    constructor
    · intro h
      rw [List.foldl_nil, hstart] at h
      cases h
    · rintro ⟨i, a, ha, -⟩
      cases ha
  | append_singleton log a ih =>
    rw [List.foldl_append, List.foldl_cons, List.foldl_nil, hstep, lastValue_concat, ← ih]
    cases w log a with
    | none => simp
    | some c => simp

theorem getLast?_of_perm {γ : Type} {w : α → Option β} {u : β → γ} {l l' : List α} (h : l.Perm l')
    (hu : ∀ a ∈ l, ∀ b ∈ l, ∀ x ∈ w a, ∀ y ∈ w b, u x = u y) :
    ((l'.filterMap w).getLast?).map u = ((l.filterMap w).getLast?).map u := by
  have hperm := h.filterMap w
  cases hl : (l.filterMap w).getLast? with
  | none =>
    rw [List.getLast?_eq_none_iff] at hl
    rw [hl] at hperm
    rw [hperm.symm.eq_nil]
    rfl
  | some x =>
    cases hl' : (l'.filterMap w).getLast? with
    | none =>
      rw [List.getLast?_eq_none_iff] at hl'
      rw [hl'] at hperm
      rw [hperm.eq_nil] at hl
      cases hl
    | some y =>
      obtain ⟨a, ha, hx⟩ := List.mem_filterMap.mp (List.mem_of_getLast? hl)
      obtain ⟨b, hb, hy⟩ := List.mem_filterMap.mp (hperm.mem_iff.mpr (List.mem_of_getLast? hl'))
      rw [Option.map_some, Option.map_some, hu b hb a ha y hy x hx]

/-- A list with marked entries inserted anywhere. -/
inductive Inserted (p : α → Bool) : List α → List α → Prop where
  | nil : Inserted p [] []
  | keep (a : α) {l l' : List α} : Inserted p l l' → Inserted p (a :: l) (a :: l')
  | insert {a : α} {l l' : List α} : p a = true → Inserted p l l' → Inserted p l (a :: l')

namespace Inserted

variable {p : α → Bool} {l l' m m' : List α}

theorem refl (l : List α) : Inserted p l l := by
  induction l with
  | nil => exact nil
  | cons a l ih => exact keep a ih

theorem append (h : Inserted p l l') (hm : Inserted p m m') : Inserted p (l ++ m) (l' ++ m') := by
  induction h with
  | nil => exact hm
  | keep a _ ih => exact keep a ih
  | insert ha _ ih => exact insert ha ih

/-- A selection that leaves out marked entries does not see them. -/
theorem filter_eq (h : Inserted p l l') {q : α → Bool} (hq : ∀ a, p a = true → q a = false) :
    l'.filter q = l.filter q := by
  induction h with
  | nil => rfl
  | keep a _ ih => rw [List.filter_cons, List.filter_cons, ih]
  | insert ha _ ih => rw [List.filter_cons, hq _ ha, if_neg (by simp), ih]

end Inserted

theorem last_carries_iff (f : α → Option β) (l : List α) :
    (∀ b, (l.filterMap f).getLast? = some b → l.getLast?.bind f = some b) ↔
      (∀ a ∈ l.getLast?, (f a).isSome) ∨ ∀ a ∈ l, f a = none := by
  rcases List.eq_nil_or_concat' l with rfl | ⟨l, a, rfl⟩
  · simp
  have hlast : (l ++ [a]).getLast?.bind f = f a := by simp
  rw [hlast]
  cases hf : f a with
  | some b => simp [hf]
  | none =>
    simp only [List.filterMap_append, List.filterMap_cons, hf, List.filterMap_nil, List.append_nil,
      List.getLast?_concat, Option.mem_some_iff, forall_eq', Option.isSome_none, reduceCtorEq,
      false_or, List.mem_append, List.mem_singleton]
    constructor
    · intro h x hx
      rcases hx with hx | rfl
      · by_contra hne
        obtain ⟨b, hb⟩ := Option.ne_none_iff_exists'.mp hne
        have hmem : b ∈ l.filterMap f := List.mem_filterMap.mpr ⟨x, hx, hb⟩
        exact h _ (List.getLast?_eq_some_getLast (List.ne_nil_of_mem hmem))
      · exact hf
    · intro h b hb
      obtain ⟨x, hx, hxb⟩ := List.mem_filterMap.mp (List.mem_of_getLast? hb)
      rw [h x (Or.inl hx)] at hxb
      cases hxb

theorem exists_prefix_of_filterMap {w : α → Option β} {l : List α} {before : List β} {b : β}
    (h : before ++ [b] <+: l.filterMap w) :
    ∃ front a, front ++ [a] <+: l ∧ front.filterMap w = before ∧ w a = some b := by
  obtain ⟨rest, hrest⟩ := h
  rw [List.append_assoc] at hrest
  obtain ⟨front, back, rfl, hfront, hback⟩ := List.filterMap_eq_append_iff.mp hrest.symm
  obtain ⟨skipped, a, back', rfl, hskipped, ha, -⟩ := List.filterMap_eq_cons_iff.mp hback
  refine ⟨front ++ skipped, a, ⟨back', by simp⟩, ?_, ha⟩
  rw [List.filterMap_append, hfront, List.filterMap_eq_nil_iff.mpr hskipped, List.append_nil]

theorem sum_map_eq_countP {p : α → Bool} {f : α → ℕ} {l : List α}
    (h : ∀ a ∈ l, f a = if p a then 1 else 0) : (l.map f).sum = l.countP p := by
  induction l with
  | nil => rfl
  | cons a l ih =>
    rw [List.map_cons, List.sum_cons, h a List.mem_cons_self, List.countP_cons,
      ih fun b hb => h b (List.mem_cons_of_mem _ hb), Nat.add_comm]

theorem countP_le_one_iff {p : α → Bool} {f : α → β} {l : List α}
    (h : l.Pairwise fun a b => p a = true → p b = true → f a ≠ f b) :
    l.countP p ≤ 1 ↔ ∀ a ∈ l, ∀ b ∈ l, p a = true → p b = true → f a = f b := by
  have hmem (a : α) : a ∈ l.filter p ↔ a ∈ l ∧ p a = true := List.mem_filter
  have hpair : (l.filter p).Pairwise fun a b => f a ≠ f b := by
    rw [List.pairwise_filter]
    exact h
  rw [List.countP_eq_length_filter]
  constructor
  · intro hlen a ha b hb hpa hpb
    have ha' := (hmem a).mpr ⟨ha, hpa⟩
    have hb' := (hmem b).mpr ⟨hb, hpb⟩
    rcases hl : l.filter p with _ | ⟨c, _ | ⟨d, cs⟩⟩
    · rw [hl] at ha'
      cases ha'
    · rw [hl] at ha' hb'
      rw [List.mem_singleton.mp ha', List.mem_singleton.mp hb']
    · rw [hl] at hlen
      simp at hlen
  · intro hall
    rcases hl : l.filter p with _ | ⟨c, _ | ⟨d, cs⟩⟩
    · exact Nat.zero_le 1
    · exact Nat.le_refl 1
    · rw [hl] at hpair hmem
      obtain ⟨hc, hpc⟩ := (hmem c).mp List.mem_cons_self
      obtain ⟨hd, hpd⟩ := (hmem d).mp (List.mem_cons_of_mem _ List.mem_cons_self)
      exact absurd (hall c hc d hd hpc hpd) (List.rel_of_pairwise_cons hpair List.mem_cons_self)

theorem card_eq_card_image_iff [DecidableEq β] {A T : Finset α} {f : α → β}
    (h : A ⊆ T) :
    T.card = (A.image f).card ↔ T ⊆ A ∧ ∀ n ∈ A, ∀ m ∈ A, f n = f m → n = m := by
  constructor
  · intro he
    have hle : T.card ≤ A.card := he.trans_le Finset.card_image_le
    obtain rfl : A = T := Finset.eq_of_subset_of_card_le h hle
    have hinj : Set.InjOn f A := Finset.card_image_iff.mp he.symm
    exact ⟨subset_rfl, fun n hn m hm => hinj hn hm⟩
  · rintro ⟨hT, hinj⟩
    have hinj' : Set.InjOn f A := fun n hn m hm => hinj n hn m hm
    rw [Finset.card_image_of_injOn hinj', Finset.Subset.antisymm h hT]

end Library

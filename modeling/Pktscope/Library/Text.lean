import Mathlib.Data.Int.Notation
import Mathlib.Data.List.Basic
import Mathlib.Data.List.DropRight
import Mathlib.Data.List.Induction
import Mathlib.Tactic.Common

/-! # Decimal text and separated fields

Printing an integer and parsing it again is the identity, and the digits of a
number determine it. A separator that occurs in neither of two first fields
splits their joins in one way.
-/

namespace Library

/-- A nonempty list of decimal digits. -/
def parseNat (cs : List Char) : Option ℕ :=
  if cs ≠ [] ∧ cs.all Char.isDigit then some (Nat.ofDigitChars 10 cs 0) else none

/-- Decimal digits after an optional sign. -/
def parseInt (s : String) : Option ℤ :=
  match s.toList with
  | '-' :: cs => (parseNat cs).map fun n => -(n : ℤ)
  | '+' :: cs => (parseNat cs).map Int.ofNat
  | cs => (parseNat cs).map Int.ofNat

theorem parseNat_toDigits (n : ℕ) : parseNat (Nat.toDigits 10 n) = some n := by
  have hd : (Nat.toDigits 10 n).all Char.isDigit = true := by
    rw [List.all_eq_true]
    exact fun c hc => Nat.isDigit_of_mem_toDigits (by omega) (by omega) hc
  rw [parseNat, if_pos ⟨Nat.toDigits_ne_nil, hd⟩, Nat.ofDigitChars_ten_toDigits]

theorem not_mem_toDigits {c : Char} (hc : c.isDigit = false) (n : ℕ) : c ∉ Nat.toDigits 10 n := by
  intro h
  rw [Nat.isDigit_of_mem_toDigits (by omega) (by omega) h] at hc
  cases hc

theorem parseInt_repr (n : ℕ) : parseInt n.repr = some (n : ℤ) := by
  have hl : n.repr.toList = Nat.toDigits 10 n := Nat.toList_repr
  have hminus := not_mem_toDigits (c := '-') rfl n
  have hplus := not_mem_toDigits (c := '+') rfl n
  unfold parseInt
  rw [hl]
  split
  · rename_i hs; simp [hs] at hminus
  · rename_i hs; simp [hs] at hplus
  · rw [parseNat_toDigits]; rfl

theorem parseInt_toString (n : ℤ) : parseInt (toString n) = some n := by
  rw [Int.toString_eq_repr, Int.repr_eq_if]
  split_ifs with h
  · rw [parseInt_repr, Int.toNat_of_nonneg h]
  · have hl : ("-" ++ (-n).toNat.repr).toList = '-' :: Nat.toDigits 10 (-n).toNat := by
      rw [String.toList_append, Nat.toList_repr]; rfl
    unfold parseInt
    rw [hl]
    have hn : -((-n).toNat : ℤ) = n := by omega
    simp only [parseNat_toDigits]
    exact congrArg some hn

section Digits

/-- The characters of a number are digits of its base. -/
theorem exists_digit {b n : ℕ} {c : Char} (hb : 1 < b) (h : c ∈ Nat.toDigits b n) :
    ∃ d < b, c = d.digitChar := by
  induction n using Nat.strongRecOn with
  | ind n ih =>
    rw [Nat.toDigits_eq_if hb] at h
    split_ifs at h with hn
    · exact ⟨n, hn, List.mem_singleton.mp h⟩
    · rcases List.mem_append.mp h with h | h
      · exact ih (n / b) (Nat.div_lt_self (by omega) hb) h
      · exact ⟨n % b, Nat.mod_lt n (by omega), List.mem_singleton.mp h⟩

/-- The value of a digit of any base up to 16. -/
def digitValue (c : Char) : ℕ := if c.isDigit then c.toNat - '0'.toNat else c.toNat - 'a'.toNat + 10

/-- The number that some digits stand for. -/
def valueOf (b : ℕ) (digits : List Char) : ℕ := digits.foldl (fun n c => n * b + digitValue c) 0

theorem valueOf_toDigits {b : ℕ} (hb : 1 < b) (hb' : b ≤ 16) (n : ℕ) :
    valueOf b (Nat.toDigits b n) = n := by
  have hdigit : ∀ d < 16, digitValue (Nat.digitChar d) = d := by decide
  induction n using Nat.strongRecOn with
  | ind n ih =>
    rw [Nat.toDigits_eq_if hb]
    split_ifs with hn
    · change 0 * b + digitValue (Nat.digitChar n) = n
      rw [hdigit n (by omega), Nat.zero_mul, Nat.zero_add]
    · have hmod := Nat.mod_lt n (show 0 < b by omega)
      have hdiv := ih (n / b) (Nat.div_lt_self (by omega) hb)
      unfold valueOf at hdiv ⊢
      rw [List.foldl_append, hdiv, List.foldl_cons, List.foldl_nil, hdigit _ (by omega),
        Nat.div_add_mod']

theorem toDigits_inj {b m n : ℕ} (hb : 1 < b) (hb' : b ≤ 16)
    (h : Nat.toDigits b m = Nat.toDigits b n) : m = n := by
  rw [← valueOf_toDigits hb hb' m, h, valueOf_toDigits hb hb']

theorem valueOf_leftpad (b width : ℕ) (l : List Char) :
    valueOf b (l.leftpad width '0') = valueOf b l := by
  have hzeros : ∀ k, (List.replicate k '0').foldl (fun n c => n * b + digitValue c) 0 = 0 := by
    intro k
    induction k with
    | zero => rfl
    | succ k ih =>
      have hzero : digitValue '0' = 0 := by decide
      rw [List.replicate_succ, List.foldl_cons, hzero, Nat.zero_mul, ih]
  rw [valueOf, List.leftpad, List.foldl_append, hzeros, valueOf]

theorem leftpad_toDigits_inj {b width m n : ℕ} (hb : 1 < b) (hb' : b ≤ 16)
    (h : (Nat.toDigits b m).leftpad width '0' = (Nat.toDigits b n).leftpad width '0') : m = n := by
  have hvalue := congrArg (valueOf b) h
  rwa [valueOf_leftpad, valueOf_leftpad, valueOf_toDigits hb hb', valueOf_toDigits hb hb'] at hvalue

end Digits

theorem rdropWhile_append {α : Type} {p : α → Bool} {l : List α} (h : l.rdropWhile p ≠ [])
    (front : List α) : (front ++ l).rdropWhile p = front ++ l.rdropWhile p := by
  induction l using List.reverseRecOn with
  | nil => exact absurd (List.rdropWhile_nil _) h
  | append_singleton l a ih =>
    rw [← List.append_assoc]
    by_cases ha : p a
    · rw [List.rdropWhile_concat_pos _ _ _ ha] at h ⊢
      rw [List.rdropWhile_concat_pos _ _ _ ha, ih h]
    · rw [List.rdropWhile_concat_neg _ _ _ ha, List.rdropWhile_concat_neg _ _ _ ha,
        List.append_assoc]

theorem intercalate_drop_suffix {α : Type} (sep : List α) (ls : List (List α)) (n : ℕ) :
    sep.intercalate (ls.drop n) <:+ sep.intercalate ls := by
  induction ls generalizing n with
  | nil => simp
  | cons l ls ih =>
    cases n with
    | zero => exact List.suffix_refl _
    | succ n =>
      rw [List.drop_succ_cons]
      cases ls with
      | nil =>
        rw [List.drop_nil]
        exact List.nil_suffix
      | cons l' ls =>
        rw [List.intercalate_cons_cons]
        exact (ih n).trans (List.suffix_append_of_suffix (List.suffix_refl _))

theorem mem_intercalate {α : Type} {c : α} {sep : List α} {fields : List (List α)}
    (h : c ∈ sep.intercalate fields) : c ∈ sep ∨ ∃ l ∈ fields, c ∈ l := by
  induction fields with
  | nil => cases h
  | cons l fields ih =>
    cases fields with
    | nil =>
      rw [List.intercalate_singleton] at h
      exact Or.inr ⟨l, List.mem_cons_self, h⟩
    | cons l' fields =>
      rw [List.intercalate_cons_cons] at h
      rcases List.mem_append.mp h with h | h
      · rcases List.mem_append.mp h with h | h
        · exact Or.inr ⟨l, List.mem_cons_self, h⟩
        · exact Or.inl h
      · obtain hsep | ⟨l'', hl, hc⟩ := ih h
        · exact Or.inl hsep
        · exact Or.inr ⟨l'', List.mem_cons_of_mem _ hl, hc⟩

/-- A separator that neither first field contains ends both of them. -/
theorem append_cons_inj {α : Type} {c : α} {a a' b b' : List α} (ha : c ∉ a) (ha' : c ∉ a')
    (h : a ++ c :: b = a' ++ c :: b') : a = a' ∧ b = b' := by
  induction a generalizing a' with
  | nil =>
    cases a' with
    | nil => exact ⟨rfl, (List.cons.inj h).2⟩
    | cons d a' => exact absurd ((List.cons.inj h).1 ▸ List.mem_cons_self) ha'
  | cons d a ih =>
    cases a' with
    | nil => exact absurd ((List.cons.inj h).1 ▸ List.mem_cons_self) ha
    | cons d' a' =>
      obtain ⟨rfl, ht⟩ := List.cons.inj h
      obtain ⟨rfl, hb⟩ := ih (fun hm => ha (List.mem_cons_of_mem _ hm))
        (fun hm => ha' (List.mem_cons_of_mem _ hm)) ht
      exact ⟨rfl, hb⟩

theorem append_cons_inj_right {α : Type} {c : α} {a a' b b' : List α} (hb : c ∉ b) (hb' : c ∉ b')
    (h : a ++ c :: b = a' ++ c :: b') : a = a' ∧ b = b' := by
  have hreverse : b.reverse ++ c :: a.reverse = b'.reverse ++ c :: a'.reverse := by
    simpa using congrArg List.reverse h
  obtain ⟨hb, ha⟩ := append_cons_inj (by simpa using hb) (by simpa using hb') hreverse
  exact ⟨List.reverse_injective ha, List.reverse_injective hb⟩

section Split

variable {α : Type} [DecidableEq α]

/-- The parts of a list have no separator. -/
theorem not_mem_of_mem_splitOn {x : α} {xs l : List α} (h : l ∈ xs.splitOn x) : x ∉ l := by
  induction xs generalizing l with
  | nil =>
    rw [List.splitOn_nil, List.mem_singleton] at h
    rw [h]
    exact List.not_mem_nil
  | cons y xs ih =>
    rw [List.splitOn_cons_eq_if_modifyHead] at h
    split_ifs at h with hy
    · rcases List.mem_cons.mp h with rfl | h
      · exact List.not_mem_nil
      · exact ih h
    · obtain ⟨part, parts, hparts⟩ := List.exists_cons_of_ne_nil (List.splitOn_ne_nil x xs)
      rw [hparts] at h ih
      rcases List.mem_cons.mp h with rfl | h
      · intro hx
        rcases List.mem_cons.mp hx with rfl | hx
        · exact hy (beq_self_eq_true _)
        · exact ih List.mem_cons_self hx
      · exact ih (List.mem_cons_of_mem _ h)

end Split

section Joined

theorem intercalate_inj {α : Type} [BEq α] [LawfulBEq α] {c : α} {l l' : List (List α)}
    (hl : ∀ f ∈ l, f ≠ [] ∧ c ∉ f) (hl' : ∀ f ∈ l', f ≠ [] ∧ c ∉ f)
    (h : [c].intercalate l = [c].intercalate l') : l = l' := by
  have hempty : ∀ fs : List (List α), (∀ f ∈ fs, f ≠ [] ∧ c ∉ f) →
      [c].intercalate fs = [] → fs = [] := by
    intro fs hfs hnil
    cases fs with
    | nil => rfl
    | cons f fs =>
      have hsplit := List.splitOn_intercalate c (fun f hf => (hfs f hf).2) (List.cons_ne_nil f fs)
      rw [hnil, List.splitOn_nil] at hsplit
      exact absurd (List.cons.inj hsplit).1.symm (hfs f List.mem_cons_self).1
  by_cases hn : l = []
  · subst hn
    exact (hempty l' hl' h.symm).symm
  by_cases hn' : l' = []
  · subst hn'
    exact hempty l hl h
  rw [← List.splitOn_intercalate c (fun f hf => (hl f hf).2) hn, h,
    List.splitOn_intercalate c (fun f hf => (hl' f hf).2) hn']

theorem intercalate_map_inj {β : Type} {sep : String} {c : Char} (hsep : sep.toList = [c])
    {f : β → String} (hf : Function.Injective f) (htext : ∀ b, (f b).toList ≠ [] ∧ c ∉ (f b).toList) :
    Function.Injective fun l : List β => sep.intercalate (l.map f) := by
  intro l l' h
  have hlist := congrArg String.toList h
  simp only [String.toList_intercalate, hsep, List.map_map] at hlist
  have hfields : ∀ l : List β, ∀ x ∈ l.map (String.toList ∘ f), x ≠ [] ∧ c ∉ x := by
    intro l x hx
    obtain ⟨b, -, rfl⟩ := List.mem_map.mp hx
    exact htext b
  have hinj : Function.Injective (String.toList ∘ f) := fun a b hab => hf (String.toList_inj.mp hab)
  exact hinj.list_map (intercalate_inj (hfields l) (hfields l') hlist)

theorem toString_nat_inj {m n : ℕ} (h : toString m = toString n) : m = n := by
  have hlist : (toString m).toList = (toString n).toList := congrArg String.toList h
  rw [Nat.toString_eq_repr, Nat.toString_eq_repr, Nat.toList_repr, Nat.toList_repr] at hlist
  exact toDigits_inj (by decide) (by decide) hlist

theorem toList_toString_nat (n : ℕ) : (toString n).toList = Nat.toDigits 10 n := Nat.toList_repr

end Joined

end Library

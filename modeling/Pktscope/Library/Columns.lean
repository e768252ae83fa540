import Mathlib.Algebra.GroupWithZero.Nat
import Pktscope.Library.Text

/-! # Printed tables

Words stand between separators, each in a column with blanks in front of it, and each
line of a table has an end of its own. Numbers are printed with upper-case digits and
a fixed width.
-/

namespace Library

section Words

variable {α : Type} {p : α → Bool} {sep : α}

/-- The nonempty parts between separators. -/
def words (p : α → Bool) (cs : List α) : List (List α) := (cs.splitOnP p).filter (· ≠ [])

/-- A word without separators, and how many blanks stand in front of it beside the one that parts
it from the word before. -/
structure Column (p : α → Bool) where
  gap : ℕ
  text : List α
  nonempty : text ≠ []
  plain : ∀ c ∈ text, p c = false

/-- Columns behind another one. -/
def columnsText (sep : α) (cols : List (Column p)) : List α :=
  cols.flatMap fun col => sep :: (List.replicate col.gap sep ++ col.text)

@[simp] theorem words_nil : words p [] = [] := by simp [words]

theorem words_append_cons (hsep : p sep = true) (front rest : List α) :
    words p (front ++ sep :: rest) = words p front ++ words p rest := by
  rw [words, List.splitOnP_append_cons front rest hsep, List.filter_append, words, words]

/-- Separators in front belong to no word. -/
theorem words_replicate_append (hsep : p sep = true) (k : ℕ) (rest : List α) :
    words p (List.replicate k sep ++ rest) = words p rest := by
  induction k with
  | zero => rfl
  | succ k ih =>
    have hcons := words_append_cons hsep [] (List.replicate k sep ++ rest)
    rw [List.nil_append, words_nil, List.nil_append, ih] at hcons
    exact hcons

theorem Column.words_text (col : Column p) : words p col.text = [col.text] := by
  simp [words, List.splitOnP_eq_singleton col.plain, col.nonempty]

/-- The columns of a line are its words. -/
theorem words_columnsText (hsep : p sep = true) (first : Column p) (cols : List (Column p))
    (padding : ℕ) :
    words p (first.text ++ (columnsText sep cols ++ List.replicate padding sep)) =
      (first :: cols).map Column.text := by
  have hpad (k : ℕ) : words p (List.replicate k sep) = [] := by
    simpa using words_replicate_append hsep k []
  induction cols generalizing first with
  | nil =>
    cases padding with
    | zero => simp [columnsText, first.words_text]
    | succ k =>
      have hcut := words_append_cons hsep first.text (List.replicate k sep)
      rw [first.words_text, hpad] at hcut
      simpa [columnsText, List.replicate_succ] using hcut
  | cons col cols ih =>
    have hcut := words_append_cons hsep first.text
      (List.replicate col.gap sep ++ (col.text ++ (columnsText sep cols ++ List.replicate padding sep)))
    rw [words_replicate_append hsep, first.words_text, ih col] at hcut
    simpa [columnsText] using hcut

theorem mem_columnsText {c : α} {cols : List (Column p)} (h : c ∈ columnsText sep cols) :
    c = sep ∨ p c = false := by
  obtain ⟨col, -, hc⟩ := List.mem_flatMap.mp h
  rcases List.mem_cons.mp hc with rfl | hc
  · exact Or.inl rfl
  · rcases List.mem_append.mp hc with hc | hc
    · exact Or.inl (List.eq_of_mem_replicate hc)
    · exact Or.inr (col.plain c hc)

theorem splitOn_flatMap_concat [DecidableEq α] {x : α} {ls : List (List α)} (h : ∀ l ∈ ls, x ∉ l) :
    (ls.flatMap fun l => l ++ [x]).splitOn x = ls ++ [[]] := by
  induction ls with
  | nil => rfl
  | cons l ls ih =>
    have hrest := ih fun l' hl' => h l' (List.mem_cons_of_mem l hl')
    have hl := List.splitOn_append_cons_self_of_not_mem (h l List.mem_cons_self)
      (ls.flatMap fun l => l ++ [x])
    rw [hrest] at hl
    simpa using hl

end Words

section Hex

/-- A number with upper-case digits, padded with zeros. -/
def upperHex (width n : ℕ) : List Char :=
  ((Nat.toDigits 16 n).leftpad width '0').map Char.toUpper

theorem exists_digit_of_mem_leftpad {width n : ℕ} {c : Char}
    (h : c ∈ (Nat.toDigits 16 n).leftpad width '0') : ∃ d < 16, c = d.digitChar := by
  rcases List.mem_append.mp h with h | h
  · exact ⟨0, by omega, List.eq_of_mem_replicate h⟩
  · exact exists_digit (by omega) h

theorem forall_mem_upperHex {P : Char → Prop} (hP : ∀ d < 16, P d.digitChar.toUpper) {width n : ℕ} :
    ∀ c ∈ upperHex width n, P c := by
  intro c hc
  obtain ⟨low, hlow, rfl⟩ := List.mem_map.mp hc
  obtain ⟨d, hd, rfl⟩ := exists_digit_of_mem_leftpad hlow
  exact hP d hd

theorem length_upperHex {width n : ℕ} (hwidth : 0 < width) (h : n < 16 ^ width) :
    (upperHex width n).length = width := by
  have hlen := (Nat.length_toDigits_le_iff (by omega) hwidth).mpr h
  simp [upperHex, hlen]

theorem mapM_map_toUpper {digit : Char → Option ℕ}
    (hdigit : ∀ d < 16, digit d.digitChar.toUpper = some d) {l : List Char}
    (hl : ∀ c ∈ l, ∃ d < 16, c = d.digitChar) :
    (l.map Char.toUpper).mapM digit = some (l.map digitValue) := by
  have hvalue : ∀ d < 16, digitValue (Nat.digitChar d) = d := by decide
  induction l with
  | nil => rfl
  | cons c l ih =>
    obtain ⟨d, hd, rfl⟩ := hl c List.mem_cons_self
    simp [List.mapM_cons, hdigit d hd, hvalue d hd, ih fun c hc => hl c (List.mem_cons_of_mem _ hc)]

theorem mapM_upperHex {digit : Char → Option ℕ}
    (hdigit : ∀ d < 16, digit d.digitChar.toUpper = some d) (width n : ℕ) :
    ∃ ds, (upperHex width n).mapM digit = some ds ∧ ds ≠ [] ∧
      ds.foldl (fun n d => 16 * n + d) 0 = n := by
  refine ⟨_, mapM_map_toUpper hdigit fun c => exists_digit_of_mem_leftpad, ?_, ?_⟩
  · simp [List.leftpad]
  · have hvalue : valueOf 16 ((Nat.toDigits 16 n).leftpad width '0') = n := by
      rw [valueOf_leftpad, valueOf_toDigits (by omega) (by omega)]
    rw [List.foldl_map]
    simpa [valueOf, Nat.mul_comm] using hvalue

end Hex

end Library

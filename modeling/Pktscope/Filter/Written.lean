import Pktscope.Filter.Eval
import Pktscope.Filter.Reading

/-! # What a parsed filter can name

A parsed filter names only words of its text and no address of sixteen octets.
The parser always ends: every nested unary expression has a shorter text.
-/

namespace Pktscope

open Library Parse

/-- A value that a text can write. -/
def FilterValue.WrittenIn (s : List Char) : FilterValue → Prop
  | integer _ => True
  | ipAddr (.v4 _) => True
  | ipAddr (.v6 _) => False
  | str w => w.toList ≠ [] ∧ w.toList <:+: s

def PatternIn (s : List Char) (p : String) : Prop := p.toList ≠ [] ∧ p.toList <:+: s

/-- Every value and every pattern of a filter is written in a text. -/
def FilterExpr.WrittenIn (s : List Char) (e : FilterExpr) : Prop :=
  e.Forall (FilterValue.WrittenIn s) (PatternIn s)

theorem patternIn_inherited : Inherited PatternIn :=
  fun _ _ _ hst h => ⟨h.1, h.2.trans hst.isInfix⟩

theorem valueIn_inherited : Inherited FilterValue.WrittenIn := by
  intro s t v hst h
  match v, h with
  | .integer _, _ => trivial
  | .ipAddr (.v4 _), _ => trivial
  | .str _, h => exact ⟨h.1, h.2.trans hst.isInfix⟩

theorem written_inherited : Inherited FilterExpr.WrittenIn := fun s t _ hst h =>
  FilterExpr.Forall.mono h (fun v => valueIn_inherited s t v hst)
    fun p => patternIn_inherited s t p hst

namespace FilterGrammar

variable [Nom] {α : Type} {n : ℕ} {P : List Char → α → Prop} {f : Parser α}

theorem yields_ws (hf : Yields n f P) (hP : Inherited P) : Yields n (ws f) P :=
  Nom.yields_delimited Nom.yields_multispace0 hf Nom.yields_multispace0 hP

theorem consumes_ws (hf : Consumes f) : Consumes (ws f) := by
  intro s r h
  rw [ws_eq] at h
  cases hb : f (blanksOff s) with
  | ok t =>
    rw [hb] at h
    cases h
    have hlt := hf _ _ hb
    have hle := length_blanksOff_le (s := s)
    have hle' := length_blanksOff_le (s := t.1)
    simp only
    omega
  | refuse => rw [hb] at h; cases h
  | fault e => rw [hb] at h; cases h

/-- The two spellings of an operator. -/
theorem yields_either (a b : List Char) :
    Yields n (ws (Nom.alt [Nom.tag a, Nom.tag b])) fun _ _ => True := by
  apply yields_ws _ inherited_true
  apply Nom.yields_alt
  intro p hp
  simp only [List.mem_cons, List.not_mem_nil, or_false] at hp
  rcases hp with rfl | rfl
  · exact Nom.yields_tag a
  · exact Nom.yields_tag b

theorem consumes_either {a b : List Char} (ha : a ≠ []) (hb : b ≠ []) :
    Consumes (ws (Nom.alt [Nom.tag a, Nom.tag b])) := by
  apply consumes_ws
  apply Nom.consumes_alt
  intro p hp
  simp only [List.mem_cons, List.not_mem_nil, or_false] at hp
  rcases hp with rfl | rfl
  · exact Nom.consumes_tag ha
  · exact Nom.consumes_tag hb

section Atoms

theorem yields_identifier : Yields n identifier fun _ _ => True := by
  apply Nom.yields_recognize
  apply Nom.yields_many1 _ inherited_true
  apply Nom.yields_alt
  intro p hp
  simp only [List.mem_cons, List.not_mem_nil, or_false] at hp
  rcases hp with rfl | rfl
  · rw [Nom.alphanumeric1_eq]
    exact (yields_run1 _).mono fun _ _ _ => trivial
  · exact Nom.yields_recognize (Nom.yields_char '_')

theorem yields_fieldPath : Yields n fieldPath fun _ _ => True := by
  intro s hs
  apply yields_identifier.andThen hs
  rintro ⟨r, first⟩ hr -
  have hrest := Nom.yields_many0
    (Nom.yields_preceded (Nom.yields_char '.') (yields_identifier (n := n)) inherited_true)
    inherited_true
  apply hrest.andThen (hr.length_le.trans_lt hs)
  rintro ⟨t, rest⟩ ht -
  simp only
  split
  · exact trivial
  · exact ⟨ht.trans hr, trivial⟩

theorem yields_word : Yields n word fun s w => w ≠ [] ∧ w <:+: s := by
  rw [word_eq]
  exact (yields_run1 _).mono fun s w h => ⟨h.1, h.2.1⟩

theorem yields_compareOp : Yields n compareOp fun _ _ => True := by
  apply Nom.yields_alt
  intro p hp
  simp only [List.mem_cons, List.not_mem_nil, or_false] at hp
  rcases hp with rfl | rfl <;> exact Nom.yields_value _ (Nom.yields_tag _)

theorem yields_ipAddrValue : Yields n ipAddrValue fun _ v => ∃ a, v = .ipAddr (.v4 a) := by
  have hd : ∀ {Q : Parser (List Char)}, Q = Nom.digit1 → Yields n Q fun _ _ => True := by
    rintro Q rfl
    exact Nom.yields_digit1.mono fun _ _ _ => trivial
  have hrec := Nom.yields_recognize (n := n)
    (Nom.yields_tuple (hd rfl) (Nom.yields_tuple (Nom.yields_char '.') (Nom.yields_tuple (hd rfl)
      (Nom.yields_tuple (Nom.yields_char '.') (Nom.yields_tuple (hd rfl)
        (Nom.yields_tuple (Nom.yields_char '.') (hd rfl)))))))
  intro s hs
  apply hrec.andThen hs
  rintro ⟨r, w⟩ hr -
  simp only
  split
  · exact ⟨hr, _, rfl⟩
  · exact trivial

theorem yields_integerValue : Yields n integerValue FilterValue.WrittenIn := by
  intro s hs
  apply Nom.yields_digit1.andThen hs
  rintro ⟨r, w⟩ hr -
  simp only
  split
  · exact ⟨hr, trivial⟩
  · exact trivial

theorem yields_stringValue : Yields n stringValue FilterValue.WrittenIn := by
  intro s hs
  apply yields_word.andThen hs
  rintro ⟨r, w⟩ hr hw
  exact ⟨hr, by simpa [FilterValue.WrittenIn] using hw⟩

theorem yields_filterValue : Yields n filterValue FilterValue.WrittenIn := by
  apply Nom.yields_alt
  intro p hp
  simp only [List.mem_cons, List.not_mem_nil, or_false] at hp
  rcases hp with rfl | rfl | rfl
  · apply yields_ipAddrValue.mono
    rintro s _ ⟨a, rfl⟩
    trivial
  · exact yields_integerValue
  · exact yields_stringValue

theorem yields_containsExpr : Yields n containsExpr FilterExpr.WrittenIn := by
  intro s hs
  apply (yields_ws yields_fieldPath inherited_true).andThen hs
  rintro ⟨r, field⟩ hr -
  apply (yields_ws (Nom.yields_tag "contains".toList) inherited_true).andThen
    (hr.length_le.trans_lt hs)
  rintro ⟨t, _⟩ ht -
  have hword : Yields n (ws word) fun s w => w ≠ [] ∧ w <:+: s :=
    yields_ws yields_word fun s t w hst h => ⟨h.1, h.2.trans hst.isInfix⟩
  apply hword.andThen ((ht.trans hr).length_le.trans_lt hs)
  rintro ⟨u, w⟩ hu ⟨hne, hw⟩
  refine ⟨hu.trans (ht.trans hr), ?_⟩
  simpa [FilterExpr.WrittenIn, FilterExpr.Forall, PatternIn] using
    ⟨hne, hw.trans (ht.trans hr).isInfix⟩

theorem yields_comparisonExpr : Yields n comparisonExpr FilterExpr.WrittenIn := by
  intro s hs
  apply (yields_ws yields_fieldPath inherited_true).andThen hs
  rintro ⟨r, field⟩ hr -
  apply (yields_ws yields_compareOp inherited_true).andThen (hr.length_le.trans_lt hs)
  rintro ⟨t, op⟩ ht -
  apply (yields_ws yields_filterValue valueIn_inherited).andThen
    ((ht.trans hr).length_le.trans_lt hs)
  rintro ⟨u, v⟩ hu hv
  exact ⟨hu.trans (ht.trans hr), valueIn_inherited _ _ _ (ht.trans hr) hv⟩

theorem yields_protocolAtom : Yields n protocolAtom fun _ _ => True := by
  apply Nom.yields_alt
  intro p hp
  have hmem : p ∈ protocolNames.map fun q => Nom.value q.1 (Nom.tag q.2.toList) := hp
  obtain ⟨q, -, rfl⟩ := List.mem_map.mp hmem
  exact Nom.yields_value q.1 (Nom.yields_tag q.2.toList)

end Atoms

section Levels

variable {unary expr : Parser FilterExpr}

theorem yields_atom (h : Yields n expr FilterExpr.WrittenIn) :
    Yields (n + 1) (atom expr) FilterExpr.WrittenIn := by
  apply Nom.yields_alt
  intro p hp
  simp only [List.mem_cons, List.not_mem_nil, or_false] at hp
  rcases hp with rfl | rfl | rfl | rfl
  · exact Nom.yields_delimited_succ (yields_ws (Nom.yields_char '(') inherited_true)
      (consumes_ws (Nom.consumes_char '(')) h (yields_ws (Nom.yields_char ')') inherited_true)
      written_inherited
  · exact yields_containsExpr
  · exact yields_comparisonExpr
  · exact Nom.yields_map (yields_ws yields_protocolAtom inherited_true) fun _ _ _ => trivial

theorem yields_andTerm (h : Yields n unary FilterExpr.WrittenIn) :
    Yields n (andTerm unary) FilterExpr.WrittenIn :=
  yields_chainl h (Nom.yields_preceded (yields_either _ _) h written_inherited) written_inherited
    fun _ _ _ ha hb => ⟨ha, hb⟩

theorem yields_expr (h : Yields n unary FilterExpr.WrittenIn) :
    Yields n (FilterGrammar.expr unary) FilterExpr.WrittenIn :=
  yields_chainl (yields_andTerm h)
    (Nom.yields_preceded (yields_either _ _) (yields_andTerm h) written_inherited)
    written_inherited fun _ _ _ ha hb => ⟨ha, hb⟩

end Levels

/-- With as many calls as a text has characters, and one more, a unary expression is read or
refused. -/
theorem yields_unary : ∀ n : ℕ, Yields n (unary n) FilterExpr.WrittenIn
  | 0 => fun _ hs => absurd hs (Nat.not_lt_zero _)
  | n + 1 => by
    have ih := yields_unary n
    apply Nom.yields_alt
    intro p hp
    simp only [List.mem_cons, List.not_mem_nil, or_false] at hp
    rcases hp with rfl | rfl
    · have hneg := Nom.yields_preceded_succ (yields_either "not".toList "!".toList)
        (consumes_either (by simp) (by simp)) ih written_inherited
      exact Nom.yields_map (Q := FilterExpr.WrittenIn) hneg fun _ _ h => h
    · exact yields_atom (yields_expr ih)

end FilterGrammar

variable [Nom]

/-- A parsed filter names what its text writes. -/
theorem parseFilter_written {s : String} {e : FilterExpr} (h : parseFilter s = .ok e) :
    e.WrittenIn (trim s.toList) := by
  have hy := FilterGrammar.yields_expr (FilterGrammar.yields_unary ((trim s.toList).length + 1))
    (trim s.toList) (Nat.lt_succ_self _)
  simp only [parseFilter] at h
  split at h
  · cases h
  · split at h
    · rename_i hok
      rw [hok] at hy
      split at h
      · cases h
        exact hy.2
      · cases h
    · cases h
    · cases h

end Pktscope

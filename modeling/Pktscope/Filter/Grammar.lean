import Pktscope.Filter.Reading

/-! # The texts of the filter grammar

A text of the grammar has a space between its tokens, any parentheses, and
every operator in either spelling. The parser reads it as what it spells, by
induction on the text: each level reads its texts whatever follows them.
-/

namespace Pktscope

open Library Parse

def CompareOp.text : CompareOp → String
  | eq => "=="
  | ne => "!="

def FilterValue.text : FilterValue → String
  | integer n => toString n
  | ipAddr a => a.display
  | str s => s

/-- A word has a character, no white space and no closing parenthesis. -/
def IsWord (s : String) : Prop :=
  s ≠ "" ∧ ∀ c ∈ s.toList, isWhite c = false ∧ c ≠ ')'

instance decidableIsWord (s : String) : Decidable (IsWord s) :=
  decidable_of_iff (s ≠ "" ∧ (s.toList.all fun c => !isWhite c && c != ')') = true)
    (by simp [IsWord])

/-- Integers in range, addresses of four octets and words that do not begin with a digit. -/
def FilterValue.Plain : FilterValue → Prop
  | integer n => 0 ≤ n ∧ n < 2 ^ 63
  | ipAddr (.v4 _) => True
  | ipAddr (.v6 _) => False
  | str s => IsWord s ∧ ∀ c ∈ s.toList.head?, c.isDigit = false

instance FilterValue.decidablePlain : (v : FilterValue) → Decidable v.Plain
  | .integer n => inferInstanceAs (Decidable (0 ≤ n ∧ n < 2 ^ 63))
  | .ipAddr (.v4 _) => isTrue trivial
  | .ipAddr (.v6 _) => isFalse id
  | .str s => decidable_of_iff (IsWord s ∧ (s.toList.head?.all fun c => !c.isDigit) = true)
      (by cases h : s.toList.head? <;> simp [Plain, h])

/-- Two pieces of text with a space between them. -/
def spaced (x y : List Char) : List Char := x ++ ' ' :: y

namespace FilterGrammar

/-- The texts of the atoms. -/
inductive AtomText : List Char → FilterExpr → Prop where

  | protocol (p : ProtocolAtom) : AtomText p.text.toList (.protocolPresent p)

  | comparison {f : FieldPath} {v : FilterValue} (op : CompareOp) : f.Plain → v.Plain →
      AtomText (spaced f.asStr.toList (spaced op.text.toList v.text.toList)) (.comparison f op v)

  | contains {f : FieldPath} {w : String} : f.Plain → IsWord w →
      AtomText (spaced f.asStr.toList (spaced "contains".toList w.toList)) (.contains f w)

inductive Level | or | and | term
  deriving DecidableEq

/-- The texts of an expression as an operand: of `or`, of `and`, or of `not`. -/
inductive Spells : Level → List Char → FilterExpr → Prop where

  | atom {x : List Char} {e : FilterExpr} : AtomText x e → Spells .term x e

  | not {x : List Char} {e : FilterExpr} (t : List Char) : t ∈ ["not".toList, "!".toList] →
      Spells .term x e → Spells .term (spaced t x) (.not e)

  | parens {x : List Char} {e : FilterExpr} : Spells .or x e →
      Spells .term (spaced ['('] (spaced x [')'])) e

  | term {x : List Char} {e : FilterExpr} : Spells .term x e → Spells .and x e

  | and {x y : List Char} {a b : FilterExpr} (t : List Char) : t ∈ ["and".toList, "&&".toList] →
      Spells .and x a → Spells .term y b → Spells .and (spaced x (spaced t y)) (.and a b)

  | conj {x : List Char} {e : FilterExpr} : Spells .and x e → Spells .or x e

  | or {x y : List Char} {a b : FilterExpr} (t : List Char) : t ∈ ["or".toList, "||".toList] →
      Spells .or x a → Spells .and y b → Spells .or (spaced x (spaced t y)) (.or a b)

section Atoms

variable {R w t : List Char} {e : FilterExpr} {x : List Char}

/-- A token without a space in it begins a text only within the first name. -/
theorem isPrefixOf_open (hR : Open R) : ∀ t w : List Char, ' ' ∉ t →
    t.isPrefixOf (w ++ R) = t.isPrefixOf w
  | [], _, _ => by simp
  | c :: t, [], ht => by
    cases R with
    | nil => rfl
    | cons d R =>
      have hd : (c == d) = false := by
        rw [hR d rfl, beq_eq_false_iff_ne]
        intro h
        exact ht (by simp [h])
      simp [List.isPrefixOf, hd]
  | c :: t, d :: w, ht => by
    have ih := isPrefixOf_open hR t w fun h => ht (List.mem_cons_of_mem c h)
    simp [List.isPrefixOf, ih]

theorem isPrefixOf_of_head {a s : List Char} (ha : a ≠ []) (h : ∀ c ∈ s.head?, a.head? ≠ some c) :
    a.isPrefixOf s = false := by
  cases a with
  | nil => exact absurd rfl ha
  | cons c a =>
    cases s with
    | nil => rfl
    | cons d s =>
      have hne : (c == d) = false := by
        rw [beq_eq_false_iff_ne]
        rintro rfl
        exact h c rfl rfl
      simp [List.isPrefixOf, hne]

theorem endsWord_of_isWhite_ne {c : Char} (hw : isWhite c = false) (hc : c ≠ ')') :
    endsWord c = false := by
  simp only [endsWord, List.contains_cons, List.contains_nil, Bool.or_false,
    Bool.or_eq_false_iff, beq_eq_false_iff_ne]
  refine ⟨?_, ?_, ?_, ?_, hc⟩ <;> rintro rfl <;> cases hw

theorem isWhite_of_isIdent {c : Char} (h : isIdent c) : isWhite c = false := by
  change (((decide (c.val ≥ 65 ∧ c.val ≤ 90) || (decide (c.val ≥ 97) && decide (c.val ≤ 122))) ||
    (decide (c.val ≥ 48) && decide (c.val ≤ 57))) || c == '_') = true at h
  simp only [Bool.or_eq_true, Bool.and_eq_true, decide_eq_true_eq, UInt32.le_iff_toNat_le,
    ge_iff_le, beq_iff_eq] at h
  change ((((65 ≤ c.toNat ∧ c.toNat ≤ 90) ∨ (97 ≤ c.toNat ∧ c.toNat ≤ 122)) ∨
    (48 ≤ c.toNat ∧ c.toNat ≤ 57)) ∨ c = '_') at h
  simp only [isWhite, Bool.or_eq_false_iff, decide_eq_false_iff_not, beq_eq_false_iff_ne]
  rcases h with ((h | h) | h) | rfl
  · omega
  · omega
  · omega
  · decide

/-- The first name of an atom is what precedes its first space. -/
structure Named (x w y : List Char) : Prop where
  eq : x = w ++ y
  opens : Open y
  head : ∃ c l, w = c :: l ∧ isIdent c
  names : ∀ c ∈ w, isIdent c ∨ c = '.'
  positive : "not".toList.isPrefixOf w = false

theorem named_protocol (p : ProtocolAtom) : Named p.text.toList p.text.toList [] where
  eq := (List.append_nil _).symm
  opens := open_nil
  head := by cases p <;> exact ⟨_, _, rfl, rfl⟩
  names := fun c hc => .inl (p.idents c hc)
  positive := by cases p <;> decide

theorem named_field {f : FieldPath} (hf : f.Plain) (y : List Char) :
    Named (spaced f.asStr.toList y) f.asStr.toList (' ' :: y) where
  eq := rfl
  opens := open_space
  head := by
    obtain ⟨_ | ⟨w, l⟩⟩ := f
    · simp [FieldPath.Plain] at hf
    · obtain ⟨hne, hw⟩ := hf.2.1 w (by simp)
      rw [FieldPath.asStr_cons]
      cases hl : w.toList with
      | nil => exact absurd (String.toList_eq_nil_iff.mp hl) hne
      | cons c cs => exact ⟨c, _, rfl, hw c (by simp [hl])⟩
  names := by
    obtain ⟨_ | ⟨w, l⟩⟩ := f
    · simp [FieldPath.Plain] at hf
    · intro c hc
      simp only [FieldPath.asStr_cons, FieldPath.dotted, List.mem_append, List.mem_flatMap,
        List.mem_cons] at hc
      rcases hc with hc | ⟨v, hv, rfl | hc⟩
      · exact .inl ((hf.2.1 w (by simp)).2 c hc)
      · exact .inr rfl
      · exact .inl ((hf.2.1 v (by simp [hv])).2 c hc)
  positive := hf.2.2

theorem AtomText.named (h : AtomText x e) : ∃ w y, Named x w y := by
  cases h with
  | protocol p => exact ⟨_, _, named_protocol p⟩
  | comparison op hf hv => exact ⟨_, _, named_field hf _⟩
  | contains hf hw => exact ⟨_, _, named_field hf _⟩

/-- A text that neither begins nor ends with white space. -/
structure Trimmed (x : List Char) : Prop where
  head : ∃ c l, x = c :: l ∧ isWhite c = false
  last : ∃ l c, x = l ++ [c] ∧ isWhite c = false

theorem Trimmed.trim (h : Trimmed x) : trim x = x := by
  obtain ⟨⟨c, l, hl, hc⟩, m, d, hm, hd⟩ := h
  have hdrop : x.dropWhile isWhite = x := by simp [hl, hc]
  have hrev : x.reverse.dropWhile isWhite = x.reverse := by simp [hm, hd]
  rw [Pktscope.trim, hdrop, hrev, List.reverse_reverse]

theorem Trimmed.spaced {y : List Char} (hx : Trimmed x) (hy : Trimmed y) :
    Trimmed (spaced x y) := by
  obtain ⟨⟨c, l, hl, hc⟩, -⟩ := hx
  obtain ⟨-, m, d, hm, hd⟩ := hy
  constructor
  · exact ⟨c, l ++ ' ' :: y, by simp [Pktscope.spaced, hl], hc⟩
  · exact ⟨x ++ ' ' :: m, d, by simp [Pktscope.spaced, hm], hd⟩

theorem trimmed_of_forall (hne : x ≠ []) (hx : ∀ c ∈ x, isWhite c = false) : Trimmed x where
  head := by
    cases x with
    | nil => exact absurd rfl hne
    | cons c l => exact ⟨c, l, rfl, hx c (by simp)⟩
  last := ⟨x.dropLast, x.getLast hne, (List.dropLast_append_getLast hne).symm,
    hx _ (List.getLast_mem hne)⟩

theorem Trimmed.front (h : Trimmed x) (y : List Char) :
    ∀ c ∈ (x ++ y).head?, isBlank c = false := by
  obtain ⟨⟨c, l, hl, hc⟩, -⟩ := h
  intro d hd
  obtain rfl : c = d := by simpa [hl] using hd
  simp only [isBlank, Bool.or_eq_false_iff, decide_eq_false_iff_not]
  refine ⟨⟨⟨?_, ?_⟩, ?_⟩, ?_⟩ <;> rintro rfl <;> cases hc

theorem Trimmed.blanksOff (h : Trimmed x) (y : List Char) : blanksOff (x ++ y) = x ++ y :=
  blanksOff_eq_self (h.front y)

theorem isWhite_of_isDigit {c : Char} (h : c.isDigit) : isWhite c = false :=
  isWhite_of_isIdent (by simp [isIdent, Char.isAlphanum, h])

theorem isWord_trimmed {w : String} (h : IsWord w) : Trimmed w.toList :=
  trimmed_of_forall (by simpa using h.1) fun c hc => (h.2 c hc).1

theorem trimmed_digits (n : ℕ) : Trimmed (Nat.toDigits 10 n) :=
  trimmed_of_forall Nat.toDigits_ne_nil fun c hc => isWhite_of_isDigit (isDigit_toDigits n c hc)

theorem integer_text {n : ℤ} (hn : 0 ≤ n) :
    (FilterValue.integer n).text.toList = Nat.toDigits 10 n.toNat := by
  obtain ⟨m, rfl⟩ := Int.eq_ofNat_of_zero_le hn
  simp [FilterValue.text, Int.toString_eq_repr, Int.repr_eq_if]

theorem plain_trimmed {v : FilterValue} (h : v.Plain) : Trimmed v.text.toList := by
  match v, h with
  | .integer n, h => rw [integer_text h.1]; exact trimmed_digits _
  | .ipAddr (.v4 a), _ =>
    apply trimmed_of_forall
    · simp [FilterValue.text, IpAddr.display, v4Text_toList, quad]
    · intro c hc
      simp only [FilterValue.text, IpAddr.display, v4Text_toList, quad, List.mem_append,
        List.mem_cons] at hc
      rcases hc with hc | rfl | hc | rfl | hc | rfl | hc
      all_goals first | rfl | exact isWhite_of_isDigit (isDigit_toDigits _ c hc)
  | .str s, h => exact isWord_trimmed h.1

end Atoms

section Atoms

variable [Nom] {R w y t : List Char} {e : FilterExpr} {x : List Char}

theorem filterValue_text {v : FilterValue} (hv : v.Plain) (hR : Open R) :
    filterValue (v.text.toList ++ R) = ok (R, v) := by
  match v, hv with
  | .integer n, h =>
    rw [integer_text h.1, filterValue_integer (by have := h.1; have := h.2; omega)]
    · rw [Int.toNat_of_nonneg h.1]
    · exact fun c hc => ⟨hR.not_mem rfl c hc, hR.not_mem (p := (· == '.')) rfl c hc⟩
  | .ipAddr (.v4 a), _ => exact filterValue_v4 a (hR.not_mem rfl)
  | .str s, h =>
    have hs := filterValue_word (w := s.toList) (s := R) h.2 (by simpa using h.1.1)
      (fun c hc => endsWord_of_isWhite_ne (h.1.2 c hc).1 (h.1.2 c hc).2)
      (fun c hc => by rw [hR c hc]; rfl)
    rwa [String.ofList_toList] at hs

theorem ws_fieldPath {f : FieldPath} (hf : f.Plain) (s : List Char) :
    ws fieldPath (f.asStr.toList ++ ' ' :: s) = ok (blanksOff s, f) := by
  apply ws_front
  · apply fieldPath_front hf
    intro c hc
    obtain rfl : ' ' = c := by simpa using hc
    exact ⟨rfl, rfl⟩
  · obtain ⟨c, l, hw, hc⟩ := (named_field hf s).head
    intro d hd
    obtain rfl : c = d := by simpa [hw] using hd
    simp only [isBlank, Bool.or_eq_false_iff, decide_eq_false_iff_not]
    refine ⟨⟨⟨?_, ?_⟩, ?_⟩, ?_⟩ <;> rintro rfl <;> cases hc

theorem containsExpr_front {f : FieldPath} {v : String} (hf : f.Plain) (hv : IsWord v)
    (hR : Open R) :
    containsExpr (spaced f.asStr.toList (spaced "contains".toList v.toList) ++ R) =
      ok (blanksOff R, .contains f v) := by
  have hfield := ws_fieldPath hf ("contains".toList ++ ' ' :: v.toList ++ R)
  have htag : ws (Nom.tag "contains".toList) ("contains".toList ++ (' ' :: v.toList ++ R)) =
      ok (v.toList ++ R, "contains".toList) := by
    rw [ws_tag]
    · exact congrArg (fun s => ok (s, _)) ((isWord_trimmed hv).blanksOff R)
    · intro c hc
      obtain rfl : 'c' = c := by simpa using hc
      rfl
  have hword : ws word (v.toList ++ R) = ok (blanksOff R, v.toList) :=
    ws_front (word_front (by simpa using hv.1)
      (fun c hc => endsWord_of_isWhite_ne (hv.2 c hc).1 (hv.2 c hc).2)
      (fun c hc => by rw [hR c hc]; rfl)) ((isWord_trimmed hv).front R)
  have hassoc : spaced f.asStr.toList (spaced "contains".toList v.toList) ++ R =
      f.asStr.toList ++ ' ' :: ("contains".toList ++ ' ' :: v.toList ++ R) := by
    simp [spaced]
  have hblank : blanksOff ("contains".toList ++ ' ' :: v.toList ++ R) =
      "contains".toList ++ (' ' :: v.toList ++ R) := by
    rw [List.append_assoc]
    rfl
  rw [hblank] at hfield
  simp only [containsExpr, hassoc, hfield, ok_bind, htag, hword, String.ofList_toList]
  rfl

theorem compareOp_front (op : CompareOp) (s : List Char) :
    ws compareOp (op.text.toList ++ ' ' :: s) = ok (blanksOff s, op) := by
  cases op with
  | eq =>
    apply ws_front _ (by simp [CompareOp.text, isBlank])
    have hne : Nom.value CompareOp.ne (Nom.tag "!=".toList) ("==".toList ++ ' ' :: s) = refuse := by
      rw [Nom.value_eq, Nom.tag_refuse rfl, refuse_bind]
    have heq : Nom.value CompareOp.eq (Nom.tag "==".toList) ("==".toList ++ ' ' :: s) =
        ok (' ' :: s, .eq) := by
      rw [Nom.value_eq, Nom.tag_front, ok_bind]
    exact (Nom.alt_of_refuse hne).trans (Nom.alt_of_ok heq)
  | ne =>
    apply ws_front _ (by simp [CompareOp.text, isBlank])
    have hne : Nom.value CompareOp.ne (Nom.tag "!=".toList) ("!=".toList ++ ' ' :: s) =
        ok (' ' :: s, .ne) := by
      rw [Nom.value_eq, Nom.tag_front, ok_bind]
    exact Nom.alt_of_ok hne

theorem comparisonExpr_of_value {f : FieldPath} (hf : f.Plain) (op : CompareOp) {v : FilterValue}
    {s r : List Char} (hs : blanksOff s = s) (hv : filterValue s = ok (r, v)) :
    comparisonExpr (spaced f.asStr.toList (spaced op.text.toList s)) =
      ok (blanksOff r, .comparison f op v) := by
  have hfield := ws_fieldPath hf (op.text.toList ++ ' ' :: s)
  have hop := compareOp_front op s
  have hval : ws filterValue s = ok (blanksOff r, v) := ws_ok (by rw [hs, hv])
  have hblank : blanksOff (op.text.toList ++ ' ' :: s) = op.text.toList ++ ' ' :: s := by
    cases op <;> rfl
  rw [hblank] at hfield
  rw [hs] at hop
  simp only [comparisonExpr, spaced, hfield, ok_bind, hop, hval]
  rfl

theorem containsExpr_refuse {f : FieldPath} (hf : f.Plain) (op : CompareOp) (s : List Char) :
    containsExpr (spaced f.asStr.toList (spaced op.text.toList s)) = refuse := by
  have hfield := ws_fieldPath hf (op.text.toList ++ ' ' :: s)
  have htag : ws (Nom.tag "contains".toList) (blanksOff (op.text.toList ++ ' ' :: s)) = refuse := by
    apply ws_refuse
    apply Nom.tag_refuse
    cases op <;> rfl
  simp only [containsExpr, spaced, hfield, ok_bind, htag, refuse_bind]

theorem protocolAtom_front (p : ProtocolAtom) (hR : Open R) :
    protocolAtom (p.text.toList ++ R) = ok (R, p) := by
  have hvalue : ∀ q : ProtocolAtom × String, ' ' ∉ q.2.toList →
      q.2.toList.isPrefixOf p.text.toList = false →
        Nom.value q.1 (Nom.tag q.2.toList) (p.text.toList ++ R) = refuse := by
    intro q hsp hq
    rw [Nom.value_eq, Nom.tag_refuse (by rw [isPrefixOf_open hR _ _ hsp, hq]), refuse_bind]
  have hself : Nom.value p (Nom.tag p.text.toList) (p.text.toList ++ R) = ok (R, p) := by
    rw [Nom.value_eq, Nom.tag_front, ok_bind]
  have hskip : ∀ l k : List (ProtocolAtom × String), (∀ q ∈ l, ' ' ∉ q.2.toList ∧
      q.2.toList.isPrefixOf p.text.toList = false) → k.head? = some (p, p.text) →
        Nom.alt ((l ++ k).map fun q => Nom.value q.1 (Nom.tag q.2.toList))
          (p.text.toList ++ R) = ok (R, p) := by
    intro l k hl hk
    induction l with
    | nil =>
      obtain ⟨k, rfl⟩ : ∃ m, k = (p, p.text) :: m := by
        cases k with
        | nil => cases hk
        | cons q m => exact ⟨m, by rw [show q = (p, p.text) by simpa using hk]⟩
      exact Nom.alt_of_ok hself
    | cons q l ih =>
      have hq := hl q (by simp)
      have hrest := ih fun q hq => hl q (by simp [hq])
      cases hm : l ++ k with
      | nil => simp [List.append_eq_nil_iff.mp hm] at hk
      | cons m ms =>
        rw [hm] at hrest
        simp only [List.cons_append, hm, List.map_cons] at hrest ⊢
        rw [Nom.alt_of_refuse (hvalue q hq.1 hq.2)]
        exact hrest
  have hsplit := hskip (protocolNames.takeWhile fun q => q.1 != p)
    (protocolNames.dropWhile fun q => q.1 != p) (by cases p <;> decide) (by cases p <;> rfl)
  rwa [List.takeWhile_append_dropWhile] at hsplit

/-- An atom begins neither with a negation nor with a parenthesis. -/
theorem Named.refuse {p : Parser FilterExpr} {q : Parser FilterExpr} (h : Named x w y)
    (hR : Open R) :
    Nom.preceded (ws (Nom.alt [Nom.tag "not".toList, Nom.tag "!".toList])) p (x ++ R) = refuse ∧
      Nom.delimited (ws (Nom.char '(')) q (ws (Nom.char ')')) (x ++ R) = refuse := by
  obtain ⟨c, l, hw, hc⟩ := h.head
  have hopen : Open (y ++ R) := h.opens.append hR
  have hx : x ++ R = w ++ (y ++ R) := by rw [h.eq, List.append_assoc]
  have hblank : blanksOff (w ++ (y ++ R)) = w ++ (y ++ R) := by
    rw [hw]
    apply blanksOff_cons
    simp only [isBlank, Bool.or_eq_false_iff, decide_eq_false_iff_not]
    refine ⟨⟨⟨?_, ?_⟩, ?_⟩, ?_⟩ <;> rintro rfl <;> cases hc
  have hbang : "!".toList.isPrefixOf w = false := by
    rw [hw]
    have hne : ('!' == c) = false := by
      rw [beq_eq_false_iff_ne]
      rintro rfl
      cases hc
    simp [List.isPrefixOf, hne]
  constructor
  · apply Nom.preceded_refuse
    apply ws_refuse
    rw [hx, hblank]
    apply Nom.alt_refuse
    simp only [List.mem_cons, List.not_mem_nil, or_false, forall_eq_or_imp, forall_eq]
    constructor
    · exact Nom.tag_refuse (by rw [isPrefixOf_open hopen _ _ (by decide), h.positive])
    · exact Nom.tag_refuse (by rw [isPrefixOf_open hopen _ _ (by decide), hbang])
  · have hparen : ws (Nom.char '(') (x ++ R) = Parse.refuse := by
      apply ws_refuse
      rw [hx, hblank, Nom.char_eq, hw]
      apply one_refuse
      intro d hd
      obtain rfl : c = d := by simpa using hd
      rw [beq_eq_false_iff_ne]
      rintro rfl
      cases hc
    rw [Nom.delimited_eq, hparen, refuse_bind]

theorem atom_protocol (q : Parser FilterExpr) (p : ProtocolAtom) (hR : Open R) :
    atom q (p.text.toList ++ R) = ok (blanksOff R, .protocolPresent p) := by
  have hnamed := named_protocol p
  have hfront : ∀ c ∈ (p.text.toList ++ R).head?, isBlank c = false := by
    apply Trimmed.front
    apply trimmed_of_forall (by cases p <;> decide)
    exact fun c hc => isWhite_of_isIdent (p.idents c hc)
  have hfield : ws fieldPath (p.text.toList ++ R) = refuse := by
    apply ws_refuse
    rw [blanksOff_eq_self hfront]
    exact fieldPath_name (by cases p <;> decide) p.idents
      fun c hc => ⟨hR.not_mem rfl c hc, hR.not_mem (p := (· == '.')) rfl c hc⟩
  have hcontains : containsExpr (p.text.toList ++ R) = refuse := by
    simp only [containsExpr, hfield, refuse_bind]
  have hcomparison : comparisonExpr (p.text.toList ++ R) = refuse := by
    simp only [comparisonExpr, hfield, refuse_bind]
  have hatom := ws_front (protocolAtom_front p hR) hfront
  rw [atom, Nom.alt_of_refuse (hnamed.refuse (p := q) hR).2, Nom.alt_of_refuse hcontains,
    Nom.alt_of_refuse hcomparison, Nom.alt_singleton, Nom.map_eq, hatom, ok_bind]

/-- A comparison is an atom whenever its value is read. -/
theorem atom_comparison (q : Parser FilterExpr) {f : FieldPath} (hf : f.Plain) (op : CompareOp)
    {v : FilterValue} {s r : List Char} (hs : blanksOff s = s) (hv : filterValue s = ok (r, v)) :
    atom q (spaced f.asStr.toList (spaced op.text.toList s)) =
      ok (blanksOff r, .comparison f op v) := by
  have hparen := ((named_field hf (spaced op.text.toList s)).refuse (p := q) (q := q) open_nil).2
  rw [List.append_nil] at hparen
  rw [atom, Nom.alt_of_refuse hparen, Nom.alt_of_refuse (containsExpr_refuse hf op s),
    Nom.alt_of_ok (comparisonExpr_of_value hf op hs hv)]

theorem atom_front (q : Parser FilterExpr) (h : AtomText x e) (hR : Open R) :
    atom q (x ++ R) = ok (blanksOff R, e) := by
  cases h with
  | protocol p => exact atom_protocol q p hR
  | @comparison f v op hf hv =>
    have hassoc : spaced f.asStr.toList (spaced op.text.toList v.text.toList) ++ R =
        spaced f.asStr.toList (spaced op.text.toList (v.text.toList ++ R)) := by
      simp [spaced]
    rw [hassoc]
    exact atom_comparison q hf op ((plain_trimmed hv).blanksOff R) (filterValue_text hv hR)
  | contains hf hw =>
    rw [atom, Nom.alt_of_refuse ((named_field hf _).refuse (p := q) hR).2,
      Nom.alt_of_ok (containsExpr_front hf hw hR)]

/-- A text that is read as an atom is read as a unary expression. -/
theorem unary_of_atom {r : List Char} (hx : Named x w y) (hR : Open R) (n : ℕ)
    (h : atom (expr (unary n)) (x ++ R) = ok (r, e)) : unary (n + 1) (x ++ R) = ok (r, e) := by
  have hnot : Nom.map (Nom.preceded (ws (Nom.alt [Nom.tag "not".toList, Nom.tag "!".toList]))
      (unary n)) FilterExpr.not (x ++ R) = refuse := by
    rw [Nom.map_eq, (hx.refuse (q := unary n) hR).1, refuse_bind]
  rw [unary, Nom.alt_of_refuse hnot, Nom.alt_singleton, h]

end Atoms

section Operators

variable [Nom] {a b s t : List Char}

theorem either_front (ha : a ≠ []) (hb : b ≠ []) (hab : a.head? ≠ b.head?)
    (ht : t = a ∨ t = b) : Nom.alt [Nom.tag a, Nom.tag b] (t ++ s) = ok (s, t) := by
  rcases ht with rfl | rfl
  · exact Nom.alt_of_ok (Nom.tag_front t s)
  · have hrefuse : Nom.tag a (t ++ s) = refuse := by
      apply Nom.tag_refuse
      apply isPrefixOf_of_head ha
      intro c hc
      cases t with
      | nil => exact absurd rfl hb
      | cons d t =>
        obtain rfl : d = c := by simpa using hc
        exact hab
    rw [Nom.alt_of_refuse hrefuse, Nom.alt_singleton, Nom.tag_front]

theorem either_refuse (ha : a ≠ []) (hb : b ≠ [])
    (h : ∀ c ∈ s.head?, a.head? ≠ some c ∧ b.head? ≠ some c) :
    Nom.alt [Nom.tag a, Nom.tag b] s = refuse := by
  apply Nom.alt_refuse
  simp only [List.mem_cons, List.not_mem_nil, or_false, forall_eq_or_imp, forall_eq]
  exact ⟨Nom.tag_refuse (isPrefixOf_of_head ha fun c hc => (h c hc).1),
    Nom.tag_refuse (isPrefixOf_of_head hb fun c hc => (h c hc).2)⟩

theorem operator_front {p : Parser FilterExpr} {y R : List Char} (ha : a ≠ []) (hb : b ≠ [])
    (hab : a.head? ≠ b.head?) (ht : t = a ∨ t = b) (htrim : Trimmed t) (hy : Trimmed y) :
    Nom.preceded (ws (Nom.alt [Nom.tag a, Nom.tag b])) p (t ++ ' ' :: (y ++ R)) = p (y ++ R) := by
  have hop := ws_front (either_front (s := ' ' :: (y ++ R)) ha hb hab ht) (htrim.front _)
  rw [blanksOff_space, hy.blanksOff] at hop
  exact Nom.preceded_ok hop

theorem operator_refuse {p : Parser FilterExpr} (ha : a ≠ []) (hb : b ≠ [])
    (h : ∀ c ∈ (blanksOff s).head?, a.head? ≠ some c ∧ b.head? ≠ some c) :
    Nom.preceded (ws (Nom.alt [Nom.tag a, Nom.tag b])) p s = refuse :=
  Nom.preceded_refuse (ws_refuse (either_refuse ha hb h))

end Operators

section Trimmed

variable {l : Level} {x R : List Char} {e : FilterExpr}

theorem trimmed_token : ∀ t ∈ ["not".toList, "!".toList, "and".toList, "&&".toList, "or".toList,
    "||".toList, "(".toList, ")".toList, "==".toList, "!=".toList, "contains".toList],
    Trimmed t := by
  have h : ∀ t ∈ ["not".toList, "!".toList, "and".toList, "&&".toList, "or".toList, "||".toList,
      "(".toList, ")".toList, "==".toList, "!=".toList, "contains".toList],
      t ≠ [] ∧ (t.all fun c => !isWhite c) = true := by decide
  intro t ht
  obtain ⟨hne, hall⟩ := h t ht
  exact trimmed_of_forall hne fun c hc => by simpa using List.all_eq_true.mp hall c hc

theorem plain_field_trimmed {f : FieldPath} (hf : f.Plain) : Trimmed f.asStr.toList := by
  have hnamed := named_field hf []
  obtain ⟨c, l, hw, -⟩ := hnamed.head
  apply trimmed_of_forall (by simp [hw])
  intro c hc
  rcases hnamed.names c hc with h | rfl
  · exact isWhite_of_isIdent h
  · rfl

theorem AtomText.trimmed (h : AtomText x e) : Trimmed x := by
  cases h with
  | protocol p =>
    apply trimmed_of_forall (by cases p <;> decide)
    exact fun c hc => isWhite_of_isIdent (p.idents c hc)
  | comparison op hf hv =>
    apply (plain_field_trimmed hf).spaced
    apply Trimmed.spaced _ (plain_trimmed hv)
    exact trimmed_token _ (by cases op <;> simp [CompareOp.text])
  | contains hf hw =>
    apply (plain_field_trimmed hf).spaced
    exact (trimmed_token _ (by simp)).spaced (isWord_trimmed hw)

theorem Spells.trimmed (h : Spells l x e) : Trimmed x := by
  induction h with
  | atom h => exact h.trimmed
  | not t ht _ ih => exact (trimmed_token t (by simp at ht ⊢; tauto)).spaced ih
  | parens _ ih =>
    exact (trimmed_token ['('] (by simp)).spaced (ih.spaced (trimmed_token [')'] (by simp)))
  | term _ ih => exact ih
  | and t ht _ _ iha ihb =>
    exact iha.spaced ((trimmed_token t (by simp at ht ⊢; tauto)).spaced ihb)
  | conj _ ih => exact ih
  | or t ht _ _ iha ihb =>
    exact iha.spaced ((trimmed_token t (by simp at ht ⊢; tauto)).spaced ihb)

/-- What may follow a text of a level: behind an operand of `or` no `and` follows. -/
def Stops : Level → List Char → Prop
  | .or, R => R = [] ∨ ∃ c s, R = ' ' :: c :: s ∧ c ∈ [')', 'o', '|']
  | _, R => Open R

theorem Stops.open (h : Stops l R) : Open R := by
  cases l with
  | term => exact h
  | and => exact h
  | or =>
    rcases h with rfl | ⟨c, s, rfl, -⟩
    · exact open_nil
    · exact open_space

end Trimmed

section Texts

variable {l : Level} {x y t R : List Char} {e : FilterExpr} {n : ℕ}

theorem spaced_operator (x t y R : List Char) :
    spaced x (spaced t y) ++ R = x ++ ' ' :: (t ++ ' ' :: (y ++ R)) := by
  simp [spaced]

theorem length_lt_of_spaced (h : (spaced x (spaced t y)).length < n) :
    x.length < n ∧ y.length < n := by
  simp only [spaced, List.length_append, List.length_cons] at h
  omega

theorem length_behind_operator (t y R : List Char) :
    (blanksOff R).length < (t ++ ' ' :: (y ++ R)).length := by
  have := length_blanksOff_le (s := R)
  simp only [List.length_append, List.length_cons]
  omega

variable [Nom]

/-- One more operand of `and`, behind its operator. -/
def andStep (n : ℕ) : Parser FilterExpr :=
  Nom.preceded (ws (Nom.alt [Nom.tag "&&".toList, Nom.tag "and".toList])) (unary n)

def orStep (n : ℕ) : Parser FilterExpr :=
  Nom.preceded (ws (Nom.alt [Nom.tag "||".toList, Nom.tag "or".toList])) (andTerm (unary n))

/-- The parser of a level reads a text, whatever follows. -/
def Reads (n : ℕ) : Level → List Char → List Char → FilterExpr → Prop
  | .term, x, R, e => unary n (x ++ R) = ok (blanksOff R, e)
  | .and, x, R, e => Collects (unary n) (andStep n) .and (x ++ R) (blanksOff R) e
  | .or, x, R, e => Collects (andTerm (unary n)) (orStep n) .or (x ++ R) (blanksOff R) e

theorem andStep_refuse (h : Stops .or R) : andStep n (blanksOff R) = refuse := by
  apply operator_refuse (by simp) (by simp)
  rcases h with rfl | ⟨c, s, rfl, hc⟩
  · simp [blanksOff]
  · have hblank : isBlank c = false := by
      simp only [List.mem_cons, List.not_mem_nil, or_false] at hc
      rcases hc with rfl | rfl | rfl <;> rfl
    rw [blanksOff_space, blanksOff_cons hblank, blanksOff_cons hblank]
    intro d hd
    obtain rfl : c = d := by simpa using hd
    simp only [List.mem_cons, List.not_mem_nil, or_false] at hc
    rcases hc with rfl | rfl | rfl <;> simp

/-- No `or` follows at the end of a text or before a closing parenthesis. -/
theorem orStep_refuse (h : ∀ c ∈ R.head?, c = ')') : orStep n R = refuse := by
  apply operator_refuse (by simp) (by simp)
  have hblank : blanksOff R = R := blanksOff_eq_self fun c hc => by rw [h c hc]; rfl
  rw [hblank]
  intro c hc
  rw [h c hc]
  simp

theorem ws_char (c : Char) (hc : isBlank c = false) (s : List Char) :
    ws (Nom.char c) (c :: s) = ok (blanksOff s, c) := by
  apply ws_ok
  rw [blanksOff_cons hc, Nom.char_eq]
  simp [one]

theorem Spells.reads (h : Spells l x e) : ∀ n R, x.length < n → Stops l R → Reads n l x R e := by
  induction h with
  | @atom x e h =>
    intro n R hn hR
    obtain ⟨w, y, hx⟩ := h.named
    obtain ⟨n, rfl⟩ : ∃ m, n = m + 1 := ⟨n - 1, by omega⟩
    exact unary_of_atom hx hR n (atom_front _ h hR)
  | @not x e t ht h ih =>
    intro n R hn hR
    obtain ⟨n, rfl⟩ : ∃ m, n = m + 1 := ⟨n - 1, by omega⟩
    have hlen : x.length < n := by simp [spaced] at hn; omega
    have hop := operator_front (p := unary n) (a := "not".toList) (b := "!".toList) (y := x)
      (R := R) (t := t) (by simp) (by simp) (by simp) (by simpa using ht)
      (trimmed_token t (by simp at ht ⊢; tauto)) h.trimmed
    have hassoc : spaced t x ++ R = t ++ ' ' :: (x ++ R) := by simp [spaced]
    have hread : unary n (x ++ R) = ok (blanksOff R, e) := ih n R hlen hR
    simp only [Reads, hassoc, unary]
    apply Nom.alt_of_ok
    rw [Nom.map_eq, hop, hread, ok_bind]
  | @parens x e h ih =>
    intro n R hn hR
    obtain ⟨n, rfl⟩ : ∃ m, n = m + 1 := ⟨n - 1, by omega⟩
    have hlen : x.length < n := by simp [spaced] at hn; omega
    have hassoc : spaced ['('] (spaced x [')']) ++ R = '(' :: ' ' :: (x ++ ' ' :: ')' :: R) := by
      simp [spaced]
    have hinner : expr (unary n) (x ++ ' ' :: ')' :: R) = ok (')' :: R, e) :=
      Collects.chainl (ih n (' ' :: ')' :: R) hlen (.inr ⟨')', R, rfl, by simp⟩))
        (orStep_refuse fun c hc => by simpa using hc.symm)
    have hopen : ws (Nom.char '(') ('(' :: ' ' :: (x ++ ' ' :: ')' :: R)) =
        ok (x ++ ' ' :: ')' :: R, '(') := by
      rw [ws_char '(' rfl, blanksOff_space, h.trimmed.blanksOff]
    have hnot : Nom.map (Nom.preceded (ws (Nom.alt [Nom.tag "not".toList, Nom.tag "!".toList]))
        (unary n)) FilterExpr.not ('(' :: ' ' :: (x ++ ' ' :: ')' :: R)) = refuse := by
      rw [Nom.map_eq, operator_refuse (by simp) (by simp), refuse_bind]
      rw [blanksOff_cons rfl]
      intro c hc
      obtain rfl : '(' = c := by simpa using hc
      simp
    simp only [Reads, hassoc, unary]
    rw [Nom.alt_of_refuse hnot, Nom.alt_singleton, FilterGrammar.atom]
    apply Nom.alt_of_ok
    rw [Nom.delimited_eq, hopen, ok_bind, hinner, ok_bind, ws_char ')' rfl, ok_bind]
  | term h ih =>
    intro n R hn hR
    exact Collects.one (ih n R hn hR)
  | @and x y a b t ht ha hb iha ihb =>
    intro n R hn hR
    obtain ⟨hxn, hyn⟩ := length_lt_of_spaced hn
    have htrim : Trimmed t := trimmed_token t (by simp at ht ⊢; tauto)
    have hfirst := iha n (' ' :: (t ++ ' ' :: (y ++ R))) hxn open_space
    simp only [Reads, blanksOff_space, htrim.blanksOff] at hfirst
    have hstep : andStep n (t ++ ' ' :: (y ++ R)) = ok (blanksOff R, b) :=
      (operator_front (by simp) (by simp) (by simp) (by simp at ht; tauto) htrim hb.trimmed).trans
        (ihb n R hyn hR)
    simp only [Reads, spaced_operator]
    exact hfirst.more hstep (length_behind_operator t y R)
  | @conj x e h ih =>
    intro n R hn hR
    exact Collects.one (Collects.chainl (ih n R hn hR.open) (andStep_refuse hR))
  | @or x y a b t ht ha hb iha ihb =>
    intro n R hn hR
    obtain ⟨hxn, hyn⟩ := length_lt_of_spaced hn
    have htrim : Trimmed t := trimmed_token t (by simp at ht ⊢; tauto)
    have hstops : Stops .or (' ' :: (t ++ ' ' :: (y ++ R))) := by
      simp only [List.mem_cons, List.not_mem_nil, or_false] at ht
      rcases ht with rfl | rfl
      · exact .inr ⟨'o', _, rfl, by simp⟩
      · exact .inr ⟨'|', _, rfl, by simp⟩
    have hfirst := iha n (' ' :: (t ++ ' ' :: (y ++ R))) hxn hstops
    simp only [Reads, blanksOff_space, htrim.blanksOff] at hfirst
    have hterm : andTerm (unary n) (y ++ R) = ok (blanksOff R, b) :=
      Collects.chainl (ihb n R hyn hR.open) (andStep_refuse hR)
    have hstep : orStep n (t ++ ' ' :: (y ++ R)) = ok (blanksOff R, b) :=
      (operator_front (by simp) (by simp) (by simp) (by simp at ht; tauto) htrim hb.trimmed).trans
        hterm
    simp only [Reads, spaced_operator]
    exact hfirst.more hstep (length_behind_operator t y R)

/-- Every text of the grammar is parsed to what it spells. -/
theorem Spells.parseFilter {s : String} (h : Spells .or s.toList e) : parseFilter s = .ok e := by
  obtain ⟨⟨c, l, hl, -⟩, -⟩ := h.trimmed
  have hread := Collects.chainl (h.reads (s.toList.length + 1) [] (by omega) (.inl rfl))
    (orStep_refuse (by simp [blanksOff]))
  rw [List.append_nil] at hread
  have hexpr : expr (unary (s.toList.length + 1)) s.toList = ok ([], e) := hread
  simp only [Pktscope.parseFilter, h.trimmed.trim, hexpr]
  simp [hl]

end Texts

end FilterGrammar

end Pktscope

import Pktscope.Filter.Parser

/-! # What each parser reads

The parsers of the filter grammar on texts that begin with what they look for:
names, fields, words, values and protocols, each ending before a space or at
the end of the text.
-/

namespace Pktscope

open Library Parse

def isIdent (c : Char) : Bool := c.isAlphanum || c == '_'

/-- The characters that end a word. -/
def endsWord (c : Char) : Bool := [' ', '\t', '\n', '\r', ')'].contains c

namespace FieldPath

/-- A path of at least two names that does not begin like a negation. -/
def Plain (f : FieldPath) : Prop :=
  2 ≤ f.segments.length ∧ (∀ w ∈ f.segments, w ≠ "" ∧ ∀ c ∈ w.toList, isIdent c) ∧
    "not".toList.isPrefixOf f.asStr.toList = false

instance decidablePlain (f : FieldPath) : Decidable f.Plain :=
  decidable_of_iff (2 ≤ f.segments.length ∧
    (f.segments.all fun w => w != "" && w.toList.all isIdent) = true ∧
      "not".toList.isPrefixOf f.asStr.toList = false) (by simp [Plain])

/-- The names behind the first one. -/
def dotted (l : List String) : List Char := l.flatMap fun w => '.' :: w.toList

theorem asStr_cons (w : String) (l : List String) :
    (asStr ⟨w :: l⟩).toList = w.toList ++ dotted l := by
  induction l generalizing w with
  | nil => simp [asStr, dotted]
  | cons v l ih =>
    have hv : (".".intercalate (v :: l)).toList = v.toList ++ dotted l := ih v
    simp [asStr, String.intercalate_cons_cons, hv, dotted]

end FieldPath

/-- The name of a protocol in a filter. -/
def ProtocolAtom.text : ProtocolAtom → String
  | ethernet => "eth"
  | arp => "arp"
  | ip => "ip"
  | ipv4 => "ipv4"
  | ipv6 => "ipv6"
  | tcp => "tcp"
  | udp => "udp"
  | icmp => "icmp"
  | icmpv6 => "icmpv6"
  | dns => "dns"
  | tls => "tls"

theorem ProtocolAtom.idents (p : ProtocolAtom) : ∀ c ∈ p.text.toList, isIdent c := by
  cases p <;> exact List.all_eq_true.mp rfl

namespace FilterGrammar

section Texts

theorem isDigit_toDigits (n : ℕ) : ∀ c ∈ Nat.toDigits 10 n, c.isDigit := fun _ hc =>
  Nat.isDigit_of_mem_toDigits (by omega) (by omega) hc

/-- Four fields with dots between them. -/
def quad (b c d e : List Char) : List Char := b ++ '.' :: (c ++ '.' :: (d ++ '.' :: e))

theorem parseOctet_toDigits : ∀ n < 256, parseOctet (Nat.toDigits 10 n) = some n := by
  decide +kernel

theorem v4Text_toList (a : UInt32) : (IpAddr.v4Text a).toList =
    quad (Nat.toDigits 10 (IpAddr.octets a).1) (Nat.toDigits 10 (IpAddr.octets a).2.1)
      (Nat.toDigits 10 (IpAddr.octets a).2.2.1) (Nat.toDigits 10 (IpAddr.octets a).2.2.2) := by
  simp [IpAddr.v4Text, quad, Nat.toList_repr, toString]

theorem parseV4_quad {b c d e : ℕ} (hb : b < 256) (hc : c < 256) (hd : d < 256) (he : e < 256) :
    parseV4 (quad (Nat.toDigits 10 b) (Nat.toDigits 10 c) (Nat.toDigits 10 d)
      (Nat.toDigits 10 e)) = some (UInt32.ofNat (((b * 256 + c) * 256 + d) * 256 + e)) := by
  have hquad : quad (Nat.toDigits 10 b) (Nat.toDigits 10 c) (Nat.toDigits 10 d)
      (Nat.toDigits 10 e) = ['.'].intercalate [Nat.toDigits 10 b, Nat.toDigits 10 c,
        Nat.toDigits 10 d, Nat.toDigits 10 e] := by
    simp [quad, List.intercalate]
  rw [parseV4, hquad, List.splitOn_intercalate]
  · simp [parseOctet_toDigits, hb, hc, hd, he]
  · simp [not_mem_toDigits]
  · simp

theorem parseV4_v4Text (a : UInt32) : parseV4 (IpAddr.v4Text a).toList = some a := by
  have ha := a.toNat_lt
  rw [v4Text_toList, parseV4_quad] <;> simp only [IpAddr.octets]
  · congr 1
    apply UInt32.toNat_inj.mp
    rw [UInt32.toNat_ofNat_of_lt']
    · omega
    · simp only [UInt32.size]
      omega
  all_goals omega

end Texts

section Rest

variable {R : List Char}

/-- Nothing or a space follows. -/
def Open (R : List Char) : Prop := ∀ c ∈ R.head?, c = ' '

theorem open_nil : Open [] := fun c h => by cases h

theorem open_space : Open (' ' :: R) := fun c h => by simpa using h.symm

theorem Open.not_mem (h : Open R) {p : Char → Bool} (hp : p ' ' = false) :
    ∀ c ∈ R.head?, p c = false := by
  intro c hc
  rw [h c hc, hp]

theorem Open.append {y : List Char} (hy : Open y) (hR : Open R) : Open (y ++ R) := by
  intro c hc
  cases y with
  | nil => exact hR c hc
  | cons d y => exact hy c hc

end Rest

variable [Nom] {α : Type} {f : Parser α} {a : α} {c : Char} {s r w R : List Char}

theorem ws_eq (f : Parser α) (s : List Char) :
    ws f s = f (blanksOff s) >>= fun r => ok (blanksOff r.1, r.2) := by
  simp only [ws, Nom.delimited_eq, Nom.multispace0_eq, ok_bind]

theorem ws_ok (h : f (blanksOff s) = ok (r, a)) : ws f s = ok (blanksOff r, a) := by
  rw [ws_eq, h]
  rfl

theorem ws_refuse (h : f (blanksOff s) = refuse) : ws f s = refuse := by
  rw [ws_eq, h]
  rfl

theorem ws_front (h : f (w ++ R) = ok (R, a)) (hw : ∀ c ∈ (w ++ R).head?, isBlank c = false) :
    ws f (w ++ R) = ok (blanksOff R, a) := by
  apply ws_ok
  rw [blanksOff_eq_self hw, h]

theorem ws_tag {t : List Char} (hw : ∀ c ∈ (t ++ R).head?, isBlank c = false) :
    ws (Nom.tag t) (t ++ R) = ok (blanksOff R, t) :=
  ws_front (Nom.tag_front t R) hw

section Names

theorem piece_refuse (hs : ∀ c ∈ s.head?, isIdent c = false) :
    Nom.alt [Nom.alphanumeric1, Nom.recognize (Nom.char '_')] s = refuse := by
  have hc : ∀ c ∈ s.head?, Char.isAlphanum c = false ∧ (c == '_') = false := by
    intro c hc
    simpa [isIdent] using hs c hc
  apply Nom.alt_refuse
  simp only [List.mem_cons, List.not_mem_nil, or_false, forall_eq_or_imp, forall_eq]
  constructor
  · rw [Nom.alphanumeric1_eq]; exact run1_refuse fun c h => (hc c h).1
  · apply Nom.recognize_refuse
    rw [Nom.char_eq]
    exact one_refuse fun c h => (hc c h).2

/-- A run of letters and digits, or an underscore. -/
theorem piece_front (hc : isIdent c) (hs : ∀ d ∈ s.head?, isIdent d = false) : ∃ u v, c :: w = u ++ v ∧ u ≠ [] ∧
      Nom.alt [Nom.alphanumeric1, Nom.recognize (Nom.char '_')] (c :: w ++ s) = ok (v ++ s, u) := by
  by_cases ha : c.isAlphanum
  · refine ⟨(c :: w).takeWhile Char.isAlphanum, (c :: w).dropWhile Char.isAlphanum,
      (List.takeWhile_append_dropWhile ..).symm, by simp [ha], ?_⟩
    apply Nom.alt_of_ok
    rw [Nom.alphanumeric1_eq]
    nth_rewrite 1 [← List.takeWhile_append_dropWhile (p := Char.isAlphanum) (l := c :: w)]
    rw [List.append_assoc]
    apply run1_front (by simp [ha]) (fun d hd => List.mem_takeWhile_imp hd)
    intro d hd
    cases hv : (c :: w).dropWhile Char.isAlphanum with
    | nil =>
      rw [hv] at hd
      have := hs d hd
      simp only [isIdent, Bool.or_eq_false_iff] at this
      exact this.1
    | cons e v =>
      rw [hv] at hd
      obtain rfl : e = d := by simpa using hd
      simpa [hv] using List.head?_dropWhile_not Char.isAlphanum (c :: w)
  · have hu : c = '_' := by simpa [isIdent, ha] using hc
    refine ⟨[c], w, rfl, by simp, ?_⟩
    have hr : Nom.alphanumeric1 (c :: w ++ s) = refuse := by
      rw [Nom.alphanumeric1_eq]
      exact run1_refuse fun d hd => by simpa [← show c = d by simpa using hd] using ha
    rw [Nom.alt_of_refuse hr]
    apply Nom.alt_of_ok
    have hc : Nom.char '_' ([c] ++ (w ++ s)) = ok (w ++ s, '_') := by
      rw [Nom.char_eq]
      simp [one, hu]
    exact Nom.recognize_front hc

theorem pieces_front (hs : ∀ c ∈ s.head?, isIdent c = false) (w : List Char)
    (hw : ∀ c ∈ w, isIdent c) : ∃ l,
      Nom.many0 (Nom.alt [Nom.alphanumeric1, Nom.recognize (Nom.char '_')]) (w ++ s) =
        ok (s, l) := by
  induction hn : w.length using Nat.strong_induction_on generalizing w with
  | _ n ih =>
    cases w with
    | nil => exact ⟨[], Nom.many0_refuse _ _ (piece_refuse hs)⟩
    | cons c w =>
      obtain ⟨u, v, huv, hu, hp⟩ := piece_front (w := w) (hw c (by simp)) hs
      have hlen : (c :: w).length = u.length + v.length := by rw [huv, List.length_append]
      have hpos := List.length_pos_iff.mpr hu
      obtain ⟨l, hl⟩ := ih v.length (by omega) v (fun d hd => hw d (by simp [huv, hd])) rfl
      refine ⟨u :: l, ?_⟩
      rw [Nom.many0_step _ _ _ _ hp (by simp only [List.length_append]; omega), hl]
      rfl

theorem identifier_front (hne : w ≠ []) (hw : ∀ c ∈ w, isIdent c)
    (hs : ∀ c ∈ s.head?, isIdent c = false) : identifier (w ++ s) = ok (s, w) := by
  cases w with
  | nil => exact absurd rfl hne
  | cons c w =>
    obtain ⟨u, v, huv, -, hp⟩ := piece_front (w := w) (hw c (by simp)) hs
    obtain ⟨l, hl⟩ := pieces_front hs v fun d hd => hw d (by simp [huv, hd])
    apply Nom.recognize_front (a := u :: l)
    rw [Nom.many1_eq, hp, ok_bind, hl]
    rfl

theorem many0_dotted (hs : ∀ c ∈ s.head?, isIdent c = false ∧ (c == '.') = false) :
    ∀ l : List String, (∀ w ∈ l, w ≠ "" ∧ ∀ c ∈ w.toList, isIdent c) →
      Nom.many0 (Nom.preceded (Nom.char '.') identifier) (FieldPath.dotted l ++ s) =
        ok (s, l.map String.toList)
  | [], _ => by
    apply Nom.many0_refuse
    apply Nom.preceded_refuse
    rw [Nom.char_eq]
    exact one_refuse fun c h => (hs c h).2
  | w :: l, hl => by
    have hw := hl w (by simp)
    have hdot : Nom.char '.' ('.' :: (w.toList ++ (FieldPath.dotted l ++ s))) =
        ok (w.toList ++ (FieldPath.dotted l ++ s), '.') := by
      rw [Nom.char_eq]
      rfl
    have hnext : ∀ c ∈ (FieldPath.dotted l ++ s).head?, isIdent c = false := by
      intro c hc
      cases l with
      | nil => exact (hs c hc).1
      | cons v l =>
        obtain rfl : '.' = c := by simpa [FieldPath.dotted] using hc
        rfl
    have hid := identifier_front (s := FieldPath.dotted l ++ s) (by simpa using hw.1) hw.2 hnext
    have heq : FieldPath.dotted (w :: l) ++ s =
        '.' :: (w.toList ++ (FieldPath.dotted l ++ s)) := by
      simp [FieldPath.dotted]
    rw [heq, Nom.many0_step _ _ _ _ ((Nom.preceded_ok hdot).trans hid)
      (by simp only [List.length_cons, List.length_append]; omega),
      many0_dotted hs l fun v hv => hl v (by simp [hv])]
    rfl

theorem fieldPath_front {f : FieldPath} (hf : f.Plain)
    (hs : ∀ c ∈ s.head?, isIdent c = false ∧ (c == '.') = false) :
    fieldPath (f.asStr.toList ++ s) = ok (s, f) := by
  obtain ⟨_ | ⟨w, l⟩⟩ := f
  · simp [FieldPath.Plain] at hf
  · obtain ⟨hlen, hall, -⟩ := hf
    have hw := hall w (by simp)
    have hid : identifier (w.toList ++ (FieldPath.dotted l ++ s)) =
        ok (FieldPath.dotted l ++ s, w.toList) := by
      apply identifier_front (by simpa using hw.1) hw.2
      intro c hc
      cases l with
      | nil => exact (hs c hc).1
      | cons v l =>
        obtain rfl : '.' = c := by simpa [FieldPath.dotted] using hc
        rfl
    have hrest := many0_dotted hs l fun v hv => hall v (by simp [hv])
    have hmap : (l.map String.toList).map String.ofList = l := by simp [Function.comp_def]
    rw [FieldPath.asStr_cons, List.append_assoc]
    simp only [fieldPath, hid, ok_bind, hrest, List.map_cons, hmap, String.ofList_toList]
    apply if_neg
    simp only [List.length_cons] at hlen ⊢
    omega

/-- A name without a dot is no field. -/
theorem fieldPath_name (hne : w ≠ []) (hw : ∀ c ∈ w, isIdent c)
    (hs : ∀ c ∈ s.head?, isIdent c = false ∧ (c == '.') = false) :
    fieldPath (w ++ s) = refuse := by
  have hid := identifier_front hne hw fun c hc => (hs c hc).1
  have hrest := many0_dotted hs [] (by simp)
  simp only [FieldPath.dotted, List.flatMap_nil, List.nil_append] at hrest
  simp only [fieldPath, hid, ok_bind, hrest]
  rfl

end Names

section Words

theorem word_eq : word = run1 fun c => !endsWord c := by
  rw [word, Nom.noneOf_eq]
  exact Nom.recognize_many1_one _

theorem word_front (hne : w ≠ []) (hw : ∀ c ∈ w, endsWord c = false)
    (hs : ∀ c ∈ s.head?, endsWord c) : word (w ++ s) = ok (s, w) := by
  rw [word_eq]
  exact run1_front hne (fun c hc => congrArg (!·) (hw c hc)) fun c hc => congrArg (!·) (hs c hc)

/-- The first character of a word is one that no number begins with. -/
theorem filterValue_word (hd : ∀ c ∈ w.head?, c.isDigit = false) (hne : w ≠ [])
    (hw : ∀ c ∈ w, endsWord c = false) (hs : ∀ c ∈ s.head?, endsWord c) :
    filterValue (w ++ s) = ok (s, .str (String.ofList w)) := by
  have hhead : ∀ c ∈ (w ++ s).head?, c.isDigit = false := by
    intro c hc
    cases w with
    | nil => exact absurd rfl hne
    | cons d w => exact hd c hc
  have hdigit : Nom.digit1 (w ++ s) = refuse := by
    rw [Nom.digit1_eq]
    exact run1_refuse hhead
  have hip : ipAddrValue (w ++ s) = refuse := by
    simp only [ipAddrValue, Nom.recognize_eq, Nom.tuple_eq, hdigit, refuse_bind]
  have hint : integerValue (w ++ s) = refuse := by
    simp only [integerValue, hdigit, refuse_bind]
  have hstr : stringValue (w ++ s) = ok (s, .str (String.ofList w)) := by
    simp only [stringValue, word_front hne hw hs, ok_bind]
    rfl
  rw [filterValue, Nom.alt_of_refuse hip, Nom.alt_of_refuse hint, Nom.alt_of_ok hstr]

end Words

section Numbers

theorem digit1_front (hne : w ≠ []) (hw : ∀ c ∈ w, c.isDigit) (hs : ∀ c ∈ s.head?, c.isDigit = false) :
    Nom.digit1 (w ++ s) = ok (s, w) := by
  rw [Nom.digit1_eq]
  exact run1_front hne hw hs

theorem ipAddrValue_run (hne : w ≠ []) (hw : ∀ c ∈ w, c.isDigit)
    (hs : ∀ c ∈ s.head?, c.isDigit = false ∧ (c == '.') = false) :
    ipAddrValue (w ++ s) = refuse := by
  have hdigit := digit1_front hne hw fun c hc => (hs c hc).1
  have hdot : Nom.char '.' s = refuse := by
    rw [Nom.char_eq]
    exact one_refuse fun c hc => (hs c hc).2
  simp only [ipAddrValue, Nom.recognize_eq, Nom.tuple_eq, hdigit, ok_bind, hdot, refuse_bind]

theorem filterValue_integer {n : ℕ} (hn : n < 2 ^ 63)
    (hs : ∀ c ∈ s.head?, c.isDigit = false ∧ (c == '.') = false) :
    filterValue (Nat.toDigits 10 n ++ s) = ok (s, .integer n) := by
  have hdigit := digit1_front Nat.toDigits_ne_nil (isDigit_toDigits n) fun c hc => (hs c hc).1
  have hip := ipAddrValue_run Nat.toDigits_ne_nil (isDigit_toDigits n) hs
  have hval : parseI64 (Nat.toDigits 10 n) = some n := by
    rw [parseI64, parseNat_toDigits]
    simpa using hn
  have hint : integerValue (Nat.toDigits 10 n ++ s) = ok (s, .integer n) := by
    simp only [integerValue, hdigit, ok_bind, hval]
    rfl
  rw [filterValue, Nom.alt_of_refuse hip, Nom.alt_of_ok hint]

theorem char_dot (s : List Char) : Nom.char '.' ('.' :: s) = ok (s, '.') := by
  rw [Nom.char_eq]
  rfl

/-- Four runs of digits with dots between them are an address if its octets are in range. -/
theorem ipAddrValue_quad {b c d e : List Char} (hne : ∀ l ∈ [b, c, d, e], l ≠ [])
    (hd : ∀ l ∈ [b, c, d, e], ∀ x ∈ l, x.isDigit) (hs : ∀ x ∈ s.head?, x.isDigit = false) :
    ipAddrValue (quad b c d e ++ s) = match parseV4 (quad b c d e) with
      | some a => ok (s, .ipAddr (.v4 a))
      | none => refuse := by
  have hdot : ∀ t : List Char, ∀ x ∈ ('.' :: t).head?, x.isDigit = false := by
    intro t x hx
    obtain rfl : '.' = x := by simpa using hx
    rfl
  have hb := fun t => digit1_front (s := '.' :: t) (hne b (by simp)) (hd b (by simp)) (hdot t)
  have hc := fun t => digit1_front (s := '.' :: t) (hne c (by simp)) (hd c (by simp)) (hdot t)
  have hd' := fun t => digit1_front (s := '.' :: t) (hne d (by simp)) (hd d (by simp)) (hdot t)
  have he := digit1_front (hne e (by simp)) (hd e (by simp)) hs
  have hread : ∃ r, Nom.tuple Nom.digit1 (Nom.tuple (Nom.char '.') (Nom.tuple Nom.digit1
      (Nom.tuple (Nom.char '.') (Nom.tuple Nom.digit1 (Nom.tuple (Nom.char '.') Nom.digit1)))))
      (quad b c d e ++ s) = ok (s, r) := by
    simp only [quad, List.append_assoc, List.cons_append, Nom.tuple_eq, hb, hc, hd', he, ok_bind,
      char_dot]
    exact ⟨_, rfl⟩
  obtain ⟨r, hr⟩ := hread
  simp only [ipAddrValue, Nom.recognize_front hr, ok_bind]
  rfl

theorem filterValue_v4 (a : UInt32) (hs : ∀ c ∈ s.head?, c.isDigit = false) :
    filterValue ((IpAddr.v4Text a).toList ++ s) = ok (s, .ipAddr (.v4 a)) := by
  have hip : ipAddrValue ((IpAddr.v4Text a).toList ++ s) = ok (s, .ipAddr (.v4 a)) := by
    have hval := parseV4_v4Text a
    rw [v4Text_toList] at hval ⊢
    rw [ipAddrValue_quad _ _ hs, hval]
    · simp [Nat.toDigits_ne_nil]
    · simp only [List.mem_cons, List.not_mem_nil, or_false, forall_eq_or_imp, forall_eq]
      exact ⟨isDigit_toDigits _, isDigit_toDigits _, isDigit_toDigits _, isDigit_toDigits _⟩
  rw [filterValue, Nom.alt_of_ok hip]

end Numbers

end FilterGrammar

end Pktscope

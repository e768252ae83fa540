import Mathlib.Data.List.TakeWhile
import Pktscope.Library.Checked

/-! # Parser combinators

A parser reads a value off the front of a text. The combinators of `nom` are
known by what their documentation says of them; a chain of operators that
group to the left is read by repeating the step from one operand to the next.
-/

namespace Library

open Parse

/-- The value read and the rest of the text. -/
abbrev Parser (α : Type) : Type := List Char → Parse (List Char × α)

/-- The second outcome when the first one is a refusal. -/
def Parse.otherwise {α : Type} : Parse α → Parse α → Parse α
  | refuse, y => y
  | x, _ => x

@[simp] theorem Parse.refuse_otherwise {α : Type} (y : Parse α) : refuse.otherwise y = y := rfl

@[simp] theorem Parse.ok_otherwise {α : Type} (a : α) (y : Parse α) :
    (ok a).otherwise y = ok a := rfl

/-- The white space that `multispace0` skips. -/
def isBlank (c : Char) : Bool := c = ' ' || c = '\t' || c = '\r' || c = '\n'

def blanksOff (s : List Char) : List Char := s.dropWhile isBlank

/-- The longest front of a text with one class of characters, if it is not empty. -/
def run1 (p : Char → Bool) : Parser (List Char) := fun s =>
  if s.takeWhile p = [] then refuse else ok (s.dropWhile p, s.takeWhile p)

/-- One character of a class. -/
def one (p : Char → Bool) : Parser Char
  | c :: s => if p c then ok (s, c) else refuse
  | [] => refuse

/-- The parsers of `nom` over text, by their documented behaviour. -/
class Nom where
  tag : List Char → Parser (List Char)
  char : Char → Parser Char
  noneOf : List Char → Parser Char
  multispace0 : Parser (List Char)
  digit1 : Parser (List Char)
  alphanumeric1 : Parser (List Char)
  alt {α : Type} : List (Parser α) → Parser α
  map {α β : Type} : Parser α → (α → β) → Parser β
  value {α β : Type} : β → Parser α → Parser β
  recognize {α : Type} : Parser α → Parser (List Char)
  preceded {α β : Type} : Parser α → Parser β → Parser β
  delimited {α β γ : Type} : Parser α → Parser β → Parser γ → Parser β
  tuple {α β : Type} : Parser α → Parser β → Parser (α × β)
  many0 {α : Type} : Parser α → Parser (List α)
  many1 {α : Type} : Parser α → Parser (List α)
  tag_eq (t s : List Char) :
    tag t s = if t.isPrefixOf s then ok (s.drop t.length, t) else refuse
  char_eq (c : Char) : char c = one (· == c)
  noneOf_eq (cs : List Char) : noneOf cs = one fun c => !cs.contains c
  multispace0_eq (s : List Char) : multispace0 s = ok (blanksOff s, s.takeWhile isBlank)
  digit1_eq : digit1 = run1 Char.isDigit
  alphanumeric1_eq : alphanumeric1 = run1 Char.isAlphanum
  /-- The next choice is tried where this one refuses. -/
  alt_cons {α : Type} (p q : Parser α) (ps : List (Parser α)) (s : List Char) :
    alt (p :: q :: ps) s = (p s).otherwise (alt (q :: ps) s)
  alt_singleton {α : Type} (p : Parser α) (s : List Char) : alt [p] s = p s
  map_eq {α β : Type} (p : Parser α) (f : α → β) (s : List Char) :
    map p f s = p s >>= fun r => ok (r.1, f r.2)
  value_eq {α β : Type} (b : β) (p : Parser α) (s : List Char) :
    value b p s = p s >>= fun r => ok (r.1, b)
  recognize_eq {α : Type} (p : Parser α) (s : List Char) :
    recognize p s = p s >>= fun r => ok (r.1, s.take (s.length - r.1.length))
  preceded_eq {α β : Type} (p : Parser α) (q : Parser β) (s : List Char) :
    preceded p q s = p s >>= fun r => q r.1
  delimited_eq {α β γ : Type} (p : Parser α) (q : Parser β) (t : Parser γ) (s : List Char) :
    delimited p q t s = p s >>= fun r => q r.1 >>= fun b => t b.1 >>= fun e => ok (e.1, b.2)
  tuple_eq {α β : Type} (p : Parser α) (q : Parser β) (s : List Char) :
    tuple p q s = p s >>= fun r => q r.1 >>= fun b => ok (b.1, (r.2, b.2))
  /-- The repetition ends where its parser refuses. -/
  many0_refuse {α : Type} (p : Parser α) (s : List Char) :
    p s = refuse → many0 p s = ok (s, [])
  many0_fault {α : Type} (p : Parser α) (s : List Char) (e : Fault) :
    p s = fault e → many0 p s = fault e
  many0_step {α : Type} (p : Parser α) (s r : List Char) (a : α) :
    p s = ok (r, a) → r.length < s.length →
      many0 p s = many0 p r >>= fun q => ok (q.1, a :: q.2)
  /-- A round that reads nothing is an error. -/
  many0_stuck {α : Type} (p : Parser α) (s r : List Char) (a : α) :
    p s = ok (r, a) → r.length = s.length → many0 p s = refuse
  many1_eq {α : Type} (p : Parser α) (s : List Char) :
    many1 p s = p s >>= fun r => many0 p r.1 >>= fun q => ok (q.1, r.2 :: q.2)

namespace Nom

section Documented

variable {α : Type}

/-- The first choice that does not refuse. -/
def firstOf : List (Parser α) → Parser α
  | [], _ => refuse
  | p :: ps, s => (p s).otherwise (firstOf ps s)

/-- At most so many rounds of a repetition. -/
def rounds (p : Parser α) : ℕ → Parser (List α)
  | 0, _ => refuse
  | n + 1, s =>
    match p s with
    | refuse => ok (s, [])
    | fault e => fault e
    | ok (r, a) =>
      if r.length < s.length then rounds p n r >>= fun q => ok (q.1, a :: q.2) else refuse

theorem rounds_eq (p : Parser α) : ∀ (n m : ℕ) (s : List Char), s.length < n → s.length < m →
    rounds p n s = rounds p m s
  | n + 1, m + 1, s, hn, hm => by
    simp only [rounds]
    cases p s with
    | refuse => rfl
    | fault e => rfl
    | ok r =>
      by_cases hr : r.1.length < s.length
      · simp only [if_pos hr]
        rw [rounds_eq p n m r.1 (by omega) (by omega)]
      · simp only [if_neg hr]

theorem rounds_step {p : Parser α} {s r : List Char} {a : α} (h : p s = ok (r, a))
    (hl : r.length < s.length) (n : ℕ) :
    rounds p (n + 1) s = rounds p n r >>= fun q => ok (q.1, a :: q.2) := by
  simp only [rounds, h, if_pos hl]

end Documented

/-- The documented behaviour is that of some parsers. -/
@[reducible] def documented : Nom where
  tag t s := if t.isPrefixOf s then ok (s.drop t.length, t) else refuse
  char c := one (· == c)
  noneOf cs := one fun c => !cs.contains c
  multispace0 s := ok (blanksOff s, s.takeWhile isBlank)
  digit1 := run1 Char.isDigit
  alphanumeric1 := run1 Char.isAlphanum
  alt := firstOf
  map p f s := p s >>= fun r => ok (r.1, f r.2)
  value b p s := p s >>= fun r => ok (r.1, b)
  recognize p s := p s >>= fun r => ok (r.1, s.take (s.length - r.1.length))
  preceded p q s := p s >>= fun r => q r.1
  delimited p q t s := p s >>= fun r => q r.1 >>= fun b => t b.1 >>= fun e => ok (e.1, b.2)
  tuple p q s := p s >>= fun r => q r.1 >>= fun b => ok (b.1, (r.2, b.2))
  many0 p s := rounds p (s.length + 1) s
  many1 p s := p s >>= fun r => rounds p (r.1.length + 1) r.1 >>= fun q => ok (q.1, r.2 :: q.2)
  tag_eq _ _ := rfl
  char_eq _ := rfl
  noneOf_eq _ := rfl
  multispace0_eq _ := rfl
  digit1_eq := rfl
  alphanumeric1_eq := rfl
  alt_cons _ _ _ _ := rfl
  alt_singleton p s := by simp only [firstOf]; cases p s <;> rfl
  map_eq _ _ _ := rfl
  value_eq _ _ _ := rfl
  recognize_eq _ _ := rfl
  preceded_eq _ _ _ := rfl
  delimited_eq _ _ _ _ := rfl
  tuple_eq _ _ _ := rfl
  many0_refuse p s h := by simp [rounds, h]
  many0_fault p s e h := by simp [rounds, h]
  many0_step p s r a h hl := by
    rw [rounds_step h hl, rounds_eq p s.length (r.length + 1) r hl (by omega)]
  many0_stuck p s r a h hl := by simp [rounds, h, hl]
  many1_eq _ _ := rfl

end Nom

section Reading

variable {p : Char → Bool} {c : Char} {s w : List Char}

theorem takeWhile_front (hw : ∀ c ∈ w, p c) (hs : ∀ c ∈ s.head?, p c = false) :
    (w ++ s).takeWhile p = w := by
  rw [List.takeWhile_append_of_pos hw]
  cases s with
  | nil => simp
  | cons c s => simp [hs c rfl]

theorem dropWhile_front (hw : ∀ c ∈ w, p c) (hs : ∀ c ∈ s.head?, p c = false) :
    (w ++ s).dropWhile p = s := by
  rw [List.dropWhile_append_of_pos hw]
  cases s with
  | nil => rfl
  | cons c s => simp [hs c rfl]

theorem run1_front (hne : w ≠ []) (hw : ∀ c ∈ w, p c) (hs : ∀ c ∈ s.head?, p c = false) :
    run1 p (w ++ s) = ok (s, w) := by
  simp [run1, takeWhile_front hw hs, dropWhile_front hw hs, hne]

theorem run1_refuse (hs : ∀ c ∈ s.head?, p c = false) : run1 p s = refuse := by
  cases s with
  | nil => rfl
  | cons c s => simp [run1, hs c rfl]

theorem one_refuse (hs : ∀ c ∈ s.head?, p c = false) : one p s = refuse := by
  cases s with
  | nil => rfl
  | cons c s => simp [one, hs c rfl]

theorem blanksOff_cons (hc : isBlank c = false) : blanksOff (c :: s) = c :: s := by
  simp [blanksOff, hc]

theorem blanksOff_eq_self (hs : ∀ c ∈ s.head?, isBlank c = false) : blanksOff s = s := by
  cases s with
  | nil => rfl
  | cons c s => exact blanksOff_cons (hs c rfl)

@[simp] theorem blanksOff_space : blanksOff (' ' :: s) = blanksOff s := rfl

theorem length_blanksOff_le : (blanksOff s).length ≤ s.length :=
  (List.dropWhile_sublist _).length_le

end Reading

namespace Nom

variable [Nom] {α : Type} {p : Parser α} {q : Char → Bool} {a : α} {s w : List Char}

theorem tag_front (t s : List Char) : Nom.tag t (t ++ s) = ok (s, t) := by
  rw [tag_eq, if_pos (by simp), List.drop_left]

theorem tag_refuse {t : List Char} (h : t.isPrefixOf s = false) : Nom.tag t s = refuse := by
  rw [tag_eq, h]
  rfl

theorem recognize_front (h : p (w ++ s) = ok (s, a)) : recognize p (w ++ s) = ok (s, w) := by
  rw [recognize_eq, h, ok_bind]
  simp

theorem recognize_refuse (h : p s = refuse) : recognize p s = refuse := by
  rw [recognize_eq, h]
  rfl

theorem preceded_ok {β : Type} {q : Parser β} {r : List Char} (h : p s = ok (r, a)) :
    preceded p q s = q r := by
  rw [preceded_eq, h]
  rfl

theorem preceded_refuse {β : Type} {q : Parser β} (h : p s = refuse) :
    preceded p q s = refuse := by
  rw [preceded_eq, h]
  rfl

theorem alt_of_refuse {q : Parser α} {ps : List (Parser α)} (h : p s = refuse) :
    alt (p :: q :: ps) s = alt (q :: ps) s := by
  rw [alt_cons, h]
  rfl

theorem alt_of_ok {ps : List (Parser α)} {r : List Char} (h : p s = ok (r, a)) :
    alt (p :: ps) s = ok (r, a) := by
  cases ps with
  | nil => rw [alt_singleton, h]
  | cons q ps => rw [alt_cons, h]; rfl

/-- A choice all of whose parsers refuse. -/
theorem alt_refuse : ∀ (p : Parser α) (ps : List (Parser α)),
    (∀ q ∈ p :: ps, q s = refuse) → alt (p :: ps) s = refuse
  | p, [], h => by rw [alt_singleton]; exact h p (by simp)
  | p, q :: ps, h => by
    rw [alt_of_refuse (h p (by simp))]
    exact alt_refuse q ps fun r hr => h r (by simp [hr])

theorem many0_one (q : Char → Bool) : ∀ s : List Char,
    many0 (one q) s = ok (s.dropWhile q, s.takeWhile q)
  | [] => many0_refuse _ _ rfl
  | c :: s => by
    by_cases hc : q c
    · have hone : one q (c :: s) = ok (s, c) := by simp [one, hc]
      rw [many0_step _ _ _ _ hone (by simp), many0_one q s]
      simp [hc, ok_bind]
    · have hone : one q (c :: s) = refuse := by simp [one, hc]
      rw [many0_refuse _ _ hone]
      simp [hc]

theorem recognize_many1_one (q : Char → Bool) : recognize (many1 (one q)) = run1 q := by
  funext s
  cases s with
  | nil => exact recognize_refuse (by rw [many1_eq]; rfl)
  | cons c s =>
    by_cases hc : q c
    · have hone : one q (c :: s) = ok (s, c) := by simp [one, hc]
      have hsplit : c :: s = (c :: s.takeWhile q) ++ s.dropWhile q := by simp
      rw [hsplit, recognize_front (a := c :: s.takeWhile q), ← hsplit]
      · simp [run1, hc]
      · rw [← hsplit, many1_eq, hone, ok_bind, many0_one, ok_bind]
    · have hone : one q (c :: s) = refuse := by simp [one, hc]
      rw [recognize_refuse (by rw [many1_eq, hone]; rfl)]
      simp [run1, hc]

end Nom

section Yields

variable {α β γ : Type} {n : ℕ} {P : List Char → α → Prop} {Q : List Char → β → Prop}

/-- On short texts a parser meets no fault and hands on an end of the text with a value that a
relation allows. -/
def Yields (n : ℕ) (p : Parser α) (P : List Char → α → Prop) : Prop :=
  ∀ s, s.length < n → (p s).Holds fun r => r.1 <:+ s ∧ P s r.2

/-- A relation that longer texts inherit from their ends. -/
def Inherited (P : List Char → α → Prop) : Prop := ∀ s t a, s <:+ t → P s a → P t a

/-- A parser that never succeeds without reading. -/
def Consumes (p : Parser α) : Prop := ∀ s r, p s = ok r → r.1.length < s.length

theorem inherited_true : Inherited fun (_ : List Char) (_ : α) => True := fun _ _ _ _ _ => trivial

theorem Yields.mono {p : Parser α} (h : Yields n p P) {P' : List Char → α → Prop}
    (hP : ∀ s a, P s a → P' s a) : Yields n p P' := by
  intro s hs
  exact (h s hs).mono fun r hr => ⟨hr.1, hP s r.2 hr.2⟩

theorem yields_run1 (p : Char → Bool) :
    Yields n (run1 p) fun s w => w ≠ [] ∧ w <:+: s ∧ ∀ c ∈ w, p c := by
  intro s _
  by_cases h : s.takeWhile p = []
  · simp [run1, h]
  · simp only [run1, if_neg h, holds_ok]
    refine ⟨List.dropWhile_suffix p, h, (List.takeWhile_prefix p).isInfix, ?_⟩
    exact fun c hc => List.mem_takeWhile_imp hc

theorem yields_one (p : Char → Bool) : Yields n (one p) fun _ _ => True := by
  intro s _
  cases s with
  | nil => simp [one]
  | cons c s =>
    by_cases h : p c
    · simp only [one, if_pos h, holds_ok]
      exact ⟨List.suffix_cons c s, trivial⟩
    · simp [one, h]

theorem consumes_one (p : Char → Bool) : Consumes (one p) := by
  intro s r h
  cases s with
  | nil => cases h
  | cons c s =>
    by_cases hp : p c
    · simp only [one, if_pos hp, ok.injEq] at h
      simp [← h]
    · simp [one, hp] at h

/-- What follows a parser works on an end of its text. -/
theorem Yields.andThen {p : Parser α} {s : List Char} {T : β → Prop} {f : List Char × α → Parse β}
    (hp : Yields n p P) (hs : s.length < n)
    (hf : ∀ r, r.1 <:+ s → P s r.2 → (f r).Holds T) : (p s >>= f).Holds T := by
  rw [holds_bind]
  apply (hp s hs).mono
  intro r hr
  exact hf r hr.1 hr.2

end Yields

namespace Nom

variable [Nom] {α β γ : Type} {n : ℕ} {P : List Char → α → Prop} {Q : List Char → β → Prop}
  {R : List Char → γ → Prop} {p : Parser α} {q : Parser β}

theorem yields_tag (t : List Char) : Yields n (tag t) fun _ _ => True := by
  intro s _
  rw [tag_eq]
  split
  · exact ⟨List.drop_suffix _ _, trivial⟩
  · exact trivial

theorem consumes_tag {t : List Char} (ht : t ≠ []) : Consumes (tag t) := by
  intro s r h
  rw [tag_eq] at h
  split at h
  · rename_i hpre
    obtain ⟨u, rfl⟩ := List.isPrefixOf_iff_prefix.mp hpre
    have hpos := List.length_pos_iff.mpr ht
    cases h
    simp only [List.drop_left, List.length_append]
    omega
  · cases h

theorem yields_char (c : Char) : Yields n (char c) fun _ _ => True := by
  rw [char_eq]
  exact yields_one _

theorem consumes_char (c : Char) : Consumes (char c) := by
  rw [char_eq]
  exact consumes_one _

theorem yields_multispace0 : Yields n multispace0 fun _ _ => True := by
  intro s _
  rw [multispace0_eq]
  exact ⟨List.dropWhile_suffix _, trivial⟩

theorem yields_digit1 : Yields n digit1 fun s w => w ≠ [] ∧ w <:+: s ∧ ∀ c ∈ w, c.isDigit := by
  rw [digit1_eq]
  exact yields_run1 _

/-- The outcome of a choice is that of one of its parsers. -/
theorem yields_alt : ∀ (p : Parser α) (ps : List (Parser α)), (∀ q ∈ p :: ps, Yields n q P) →
    Yields n (alt (p :: ps)) P
  | p, [], h => by
    intro s hs
    rw [alt_singleton]
    exact h p (by simp) s hs
  | p, q :: ps, h => by
    intro s hs
    have hp := h p (by simp) s hs
    have hrest := yields_alt q ps (fun r hr => h r (List.mem_cons_of_mem p hr)) s hs
    rw [alt_cons]
    cases hps : p s with
    | ok r => rw [hps] at hp; exact hp
    | refuse => exact hrest
    | fault e => rw [hps] at hp; exact hp

theorem consumes_alt : ∀ (p : Parser α) (ps : List (Parser α)), (∀ q ∈ p :: ps, Consumes q) →
    Consumes (alt (p :: ps))
  | p, [], h => by
    intro s r hr
    rw [alt_singleton] at hr
    exact h p (by simp) s r hr
  | p, q :: ps, h => by
    intro s r hr
    rw [alt_cons] at hr
    cases hps : p s with
    | ok t =>
      rw [hps] at hr
      exact h p (by simp) s r (hps.trans hr)
    | refuse =>
      rw [hps] at hr
      exact consumes_alt q ps (fun r hr => h r (List.mem_cons_of_mem p hr)) s r hr
    | fault e =>
      rw [hps] at hr
      cases hr

theorem yields_map {f : α → β} (hp : Yields n p P) (hf : ∀ s a, P s a → Q s (f a)) :
    Yields n (map p f) Q := by
  intro s hs
  rw [map_eq]
  exact hp.andThen hs fun r hr hP => holds_ok.mpr ⟨hr, hf s r.2 hP⟩

theorem yields_value (b : β) (hp : Yields n p P) : Yields n (value b p) fun _ _ => True := by
  intro s hs
  rw [value_eq]
  exact hp.andThen hs fun r hr _ => holds_ok.mpr ⟨hr, trivial⟩

theorem yields_recognize (hp : Yields n p P) : Yields n (recognize p) fun _ _ => True := by
  intro s hs
  rw [recognize_eq]
  exact hp.andThen hs fun r hr _ => holds_ok.mpr ⟨hr, trivial⟩

theorem yields_preceded (hp : Yields n p P) (hq : Yields n q Q) (hQ : Inherited Q) :
    Yields n (preceded p q) Q := by
  intro s hs
  rw [preceded_eq]
  apply hp.andThen hs
  intro r hr _
  exact (hq r.1 (hr.length_le.trans_lt hs)).mono fun t ht => ⟨ht.1.trans hr, hQ _ _ _ hr ht.2⟩

/-- A parser that reads something leaves a shorter text to the next one. -/
theorem yields_preceded_succ (hp : Yields (n + 1) p P) (hc : Consumes p) (hq : Yields n q Q)
    (hQ : Inherited Q) : Yields (n + 1) (preceded p q) Q := by
  intro s hs
  rw [preceded_eq]
  cases hps : p s with
  | ok r =>
    have hr := hp s hs
    rw [hps] at hr
    have hlt := hc s r hps
    apply (hq r.1 (by omega)).mono
    exact fun t ht => ⟨ht.1.trans hr.1, hQ _ _ _ hr.1 ht.2⟩
  | refuse => exact trivial
  | fault e =>
    have hr := hp s hs
    rw [hps] at hr
    exact hr

theorem yields_delimited {t : Parser γ} (hp : Yields n p P) (hq : Yields n q Q)
    (ht : Yields n t R) (hQ : Inherited Q) : Yields n (delimited p q t) Q := by
  intro s hs
  rw [delimited_eq]
  apply hp.andThen hs
  intro r hr _
  have hrs := hr.length_le.trans_lt hs
  apply hq.andThen hrs
  intro b hb hQb
  apply ht.andThen (hb.length_le.trans_lt hrs)
  intro e he _
  exact holds_ok.mpr ⟨he.trans (hb.trans hr), hQ _ _ _ hr hQb⟩

/-- Behind an opening parser that reads something, the text is shorter. -/
theorem yields_delimited_succ {t : Parser γ} (hp : Yields (n + 1) p P) (hc : Consumes p)
    (hq : Yields n q Q) (ht : Yields n t R) (hQ : Inherited Q) :
    Yields (n + 1) (delimited p q t) Q := by
  have hinner : Yields n (delimited (fun s => ok (s, ())) q t) Q := by
    apply yields_delimited (P := fun _ _ => True) _ hq ht hQ
    exact fun s _ => ⟨List.suffix_rfl, trivial⟩
  have heq : delimited p q t = preceded p (delimited (fun s => ok (s, ())) q t) := by
    funext s
    simp only [delimited_eq, preceded_eq, ok_bind]
  rw [heq]
  exact yields_preceded_succ hp hc hinner hQ

theorem yields_tuple (hp : Yields n p P) (hq : Yields n q Q) :
    Yields n (tuple p q) fun _ _ => True := by
  intro s hs
  rw [tuple_eq]
  apply hp.andThen hs
  intro r hr _
  apply hq.andThen (hr.length_le.trans_lt hs)
  intro t ht _
  exact holds_ok.mpr ⟨ht.trans hr, trivial⟩

theorem yields_many0 (hp : Yields n p P) (hP : Inherited P) :
    Yields n (many0 p) fun s l => ∀ a ∈ l, P s a := by
  intro s hs
  induction hk : s.length using Nat.strong_induction_on generalizing s with
  | _ k ih =>
    cases hps : p s with
    | refuse =>
      rw [many0_refuse p s hps]
      exact ⟨List.suffix_rfl, by simp⟩
    | fault e =>
      have hr := hp s hs
      rw [hps] at hr
      exact hr.elim
    | ok r =>
      have hr := hp s hs
      rw [hps] at hr
      rcases hr.1.length_le.lt_or_eq with hlt | heq
      · rw [many0_step p s r.1 r.2 hps hlt, holds_bind]
        apply (ih r.1.length (by omega) r.1 (by omega) rfl).mono
        intro q hq
        refine ⟨hq.1.trans hr.1, ?_⟩
        intro a ha
        rcases List.mem_cons.mp ha with rfl | ha
        · exact hr.2
        · exact hP _ _ _ hr.1 (hq.2 a ha)
      · rw [many0_stuck p s r.1 r.2 hps heq]
        exact trivial

theorem yields_many1 (hp : Yields n p P) (hP : Inherited P) :
    Yields n (many1 p) fun s l => ∀ a ∈ l, P s a := by
  intro s hs
  rw [many1_eq]
  apply hp.andThen hs
  intro r hr hPr
  apply (yields_many0 hp hP).andThen (hr.length_le.trans_lt hs)
  intro q hq hall
  apply holds_ok.mpr
  constructor
  · exact hq.trans hr
  · intro a ha
    rcases List.mem_cons.mp ha with rfl | ha
    · exact hPr
    · exact hP _ _ _ hr (hall a ha)

end Nom

section Chains

variable [Nom] {α : Type} {first step : Parser α} {join : α → α → α} {s t u : List Char} {a b : α}

/-- Operands joined to the left, as long as there is a step to a next one. -/
def chainl (first step : Parser α) (join : α → α → α) : Parser α := fun s => do
  let (s, a) ← first s
  let (s, rest) ← Nom.many0 step s
  return (s, rest.foldl join a)

/-- A chain has read a value between two places, and goes on from the second. -/
def Collects (first step : Parser α) (join : α → α → α) (s t : List Char) (a : α) : Prop :=
  ∃ u b items, first s = ok (u, b) ∧ items.foldl join b = a ∧
    ∀ r l, Nom.many0 step t = ok (r, l) → Nom.many0 step u = ok (r, items ++ l)

theorem Collects.one (h : first s = ok (t, a)) : Collects first step join s t a :=
  ⟨t, a, [], h, rfl, fun _ _ hm => hm⟩

theorem Collects.more (h : Collects first step join s t a) (hb : step t = ok (u, b))
    (hlt : u.length < t.length) : Collects first step join s u (join a b) := by
  obtain ⟨v, c, items, hf, hj, hm⟩ := h
  refine ⟨v, c, items ++ [b], hf, by simp [hj], ?_⟩
  intro r l hl
  have hstep : Nom.many0 step t = ok (r, b :: l) := by
    rw [Nom.many0_step step t u b hb hlt, hl]
    rfl
  simpa using hm r (b :: l) hstep

/-- A chain ends where no step is possible. -/
theorem Collects.chainl (h : Collects first step join s t a) (hstop : step t = refuse) :
    chainl first step join s = ok (t, a) := by
  obtain ⟨u, b, items, hf, hj, hm⟩ := h
  have hend : Nom.many0 step u = ok (t, items) := by
    simpa using hm t [] (Nom.many0_refuse step t hstop)
  simp only [Library.chainl, hf, ok_bind, hend]
  exact congrArg (fun x => ok (t, x)) hj

/-- A chain whose first operand was read yields what its operands yield. -/
theorem chainl_from {P : List Char → α → Prop} {n : ℕ} (h : first s = ok (t, a)) (ht : t <:+ u)
    (hu : u.length < n) (ha : P u a) (hstep : Yields n step P) (hP : Inherited P)
    (hjoin : ∀ a b, P u a → P u b → P u (join a b)) :
    (chainl first step join s).Holds fun r => r.1 <:+ u ∧ P u r.2 := by
  simp only [Library.chainl, h, ok_bind, holds_bind]
  apply (Nom.yields_many0 hstep hP t (ht.length_le.trans_lt hu)).mono
  rintro ⟨r, rest⟩ ⟨hr, hrest⟩
  refine ⟨hr.trans ht, ?_⟩
  simp only at hrest ⊢
  have hfold : ∀ (l : List α) (b : α), P u b → (∀ c ∈ l, P t c) → P u (l.foldl join b) := by
    intro l
    induction l with
    | nil => intro b hb _; exact hb
    | cons c l ih =>
      intro b hb hl
      apply ih
      · exact hjoin b c hb (hP t u c ht (hl c (by simp)))
      · exact fun d hd => hl d (List.mem_cons_of_mem c hd)
  exact hfold rest a ha hrest

theorem yields_chainl {P : List Char → α → Prop} {n : ℕ} (hfirst : Yields n first P)
    (hstep : Yields n step P) (hP : Inherited P)
    (hjoin : ∀ s a b, P s a → P s b → P s (join a b)) : Yields n (chainl first step join) P := by
  intro s hs
  cases hfs : first s with
  | ok r =>
    have hr := hfirst s hs
    rw [hfs] at hr
    exact chainl_from hfs hr.1 hs hr.2 hstep hP (hjoin s)
  | refuse => simp [Library.chainl, hfs, refuse_bind]
  | fault e =>
    have hr := hfirst s hs
    rw [hfs] at hr
    exact hr.elim

end Chains

end Library

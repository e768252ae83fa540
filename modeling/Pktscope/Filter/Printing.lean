import Pktscope.Filter.Grammar

/-! # Printed filters

A filter is printed with a space between tokens and with the parentheses that
the precedence of its operators asks for. Parsing the text gives the filter
back.
-/

namespace Pktscope

open Library

/-- The fields that the evaluator knows. -/
def knownFields : List FieldPath :=
  [⟨["ip", "src"]⟩, ⟨["ip", "dst"]⟩, ⟨["tcp", "srcport"]⟩, ⟨["tcp", "dstport"]⟩, ⟨["tcp", "port"]⟩,
    ⟨["udp", "srcport"]⟩, ⟨["udp", "dstport"]⟩, ⟨["udp", "port"]⟩, ⟨["dns", "qname"]⟩,
    ⟨["tls", "sni"]⟩, ⟨["icmp", "type"]⟩, ⟨["icmp", "code"]⟩, ⟨["arp", "sender", "ip"]⟩,
    ⟨["arp", "target", "ip"]⟩]

theorem plain_of_known : ∀ f ∈ knownFields, f.Plain := by decide

namespace FilterExpr

/-- Known fields, and values and patterns whose text is one word. -/
def Printable : FilterExpr → Prop
  | protocolPresent _ => True
  | comparison f _ v => f ∈ knownFields ∧ v.Plain
  | contains f w => f ∈ knownFields ∧ IsWord w
  | and a b => a.Printable ∧ b.Printable
  | or a b => a.Printable ∧ b.Printable
  | not e => e.Printable

instance decidablePrintable : (e : FilterExpr) → Decidable e.Printable
  | protocolPresent _ => isTrue trivial
  | comparison f _ v => inferInstanceAs (Decidable (f ∈ knownFields ∧ v.Plain))
  | contains f w => inferInstanceAs (Decidable (f ∈ knownFields ∧ IsWord w))
  | and a b => @instDecidableAnd _ _ (decidablePrintable a) (decidablePrintable b)
  | or a b => @instDecidableAnd _ _ (decidablePrintable a) (decidablePrintable b)
  | not e => decidablePrintable e

/-- `or` binds least and `not` most. -/
def precedence : FilterExpr → ℕ
  | or _ _ => 0
  | and _ _ => 1
  | _ => 2

/-- The tokens of an operand, in parentheses if it binds less than its place asks for. -/
def operand (least : ℕ) (e : FilterExpr) (tokens : List String) : List String :=
  if e.precedence < least then "(" :: tokens ++ [")"] else tokens

/-- The tokens of an expression; the choice says which operators are spelled as symbols. -/
def tokens (symbol : List Bool → Bool) : List Bool → FilterExpr → List String
  | _, protocolPresent p => [p.text]
  | _, comparison f op v => [f.asStr, op.text, v.text]
  | _, contains f w => [f.asStr, "contains", w]
  | path, and a b => operand 1 a (tokens symbol (false :: path) a) ++
      (if symbol path then "&&" else "and") :: operand 2 b (tokens symbol (true :: path) b)
  | path, or a b => operand 0 a (tokens symbol (false :: path) a) ++
      (if symbol path then "||" else "or") :: operand 1 b (tokens symbol (true :: path) b)
  | path, not e => (if symbol path then "!" else "not") ::
      operand 2 e (tokens symbol (true :: path) e)

def print (symbol : List Bool → Bool) (e : FilterExpr) : String :=
  " ".intercalate (e.tokens symbol [])

end FilterExpr

namespace FilterGrammar

open FilterExpr

section Print

variable {e : FilterExpr} {x : List Char} {k m : ℕ}

def levelAt : ℕ → Level
  | 0 => .or
  | 1 => .and
  | _ => .term

theorem Spells.lift (h : Spells (levelAt m) x e) (hk : k ≤ m) : Spells (levelAt k) x e := by
  match k, m with
  | 0, 0 => exact h
  | 0, 1 => exact .conj h
  | 0, _ + 2 => exact .conj (.term h)
  | 1, 1 => exact h
  | 1, _ + 2 => exact .term h
  | _ + 2, _ + 2 => exact h

/-- The text of a list of tokens. -/
def joined (ts : List String) : List Char := (" ".intercalate ts).toList

theorem joined_append {xs ys : List String} (hx : xs ≠ []) (hy : ys ≠ []) :
    joined (xs ++ ys) = spaced (joined xs) (joined ys) := by
  simp [joined, spaced, String.intercalate_append_of_ne_nil hx hy]

theorem joined_singleton (t : String) : joined [t] = t.toList := by
  simp [joined]

theorem joined_cons (t : String) {ys : List String} (hy : ys ≠ []) :
    joined (t :: ys) = spaced t.toList (joined ys) := by
  rw [← List.singleton_append, joined_append (by simp) hy, joined_singleton]

theorem operand_ne_nil {ts : List String} (hts : ts ≠ []) : operand k e ts ≠ [] := by
  unfold operand
  split
  · simp
  · exact hts

theorem tokens_ne_nil (symbol : List Bool → Bool) (path : List Bool) (e : FilterExpr) :
    e.tokens symbol path ≠ [] := by
  cases e <;> simp [tokens]

theorem spells_operand {ts : List String} (h : Spells (levelAt e.precedence) (joined ts) e)
    (hts : ts ≠ []) (hk : k ≤ 2) : Spells (levelAt k) (joined (operand k e ts)) e := by
  unfold operand
  split
  · rw [List.cons_append, joined_cons _ (by simp), joined_append hts (by simp), joined_singleton]
    have hparens : Spells (levelAt 2) _ e := .parens (h.lift (Nat.zero_le _))
    exact hparens.lift hk
  · exact h.lift (by omega)

/-- A printed expression is a text of the grammar, at the level of its operator. -/
theorem spells_tokens (symbol : List Bool → Bool) (he : e.Printable) : ∀ path : List Bool,
    Spells (levelAt e.precedence) (joined (e.tokens symbol path)) e := by
  induction e with
  | protocolPresent p =>
    intro path
    simp only [tokens, joined_singleton]
    exact .atom (.protocol p)
  | comparison f op v =>
    intro path
    rw [tokens, joined_cons _ (by simp), joined_cons _ (by simp), joined_singleton]
    exact .atom (.comparison op (plain_of_known f he.1) he.2)
  | contains f w =>
    intro path
    rw [tokens, joined_cons _ (by simp), joined_cons _ (by simp), joined_singleton]
    exact .atom (.contains (plain_of_known f he.1) he.2)
  | and a b iha ihb =>
    intro path
    have ha := tokens_ne_nil symbol (false :: path) a
    have hb := tokens_ne_nil symbol (true :: path) b
    rw [tokens, joined_append (operand_ne_nil ha) (by simp), joined_cons _ (operand_ne_nil hb)]
    apply Spells.and
    · split <;> simp
    · exact spells_operand (k := 1) (iha he.1 _) ha (by omega)
    · exact spells_operand (k := 2) (ihb he.2 _) hb (by omega)
  | or a b iha ihb =>
    intro path
    have ha := tokens_ne_nil symbol (false :: path) a
    have hb := tokens_ne_nil symbol (true :: path) b
    rw [tokens, joined_append (operand_ne_nil ha) (by simp), joined_cons _ (operand_ne_nil hb)]
    apply Spells.or
    · split <;> simp
    · exact spells_operand (k := 0) (iha he.1 _) ha (by omega)
    · exact spells_operand (k := 1) (ihb he.2 _) hb (by omega)
  | not e ih =>
    intro path
    have hts := tokens_ne_nil symbol (true :: path) e
    rw [tokens, joined_cons _ (operand_ne_nil hts)]
    apply Spells.not
    · split <;> simp
    · exact spells_operand (k := 2) (ih he _) hts (by omega)

end Print

end FilterGrammar

/-- Parsing undoes printing, whichever way every operator is spelled. -/
theorem parseFilter_print [Nom] (symbol : List Bool → Bool) {e : FilterExpr} (he : e.Printable) :
    parseFilter (e.print symbol) = .ok e := by
  have hspells := FilterGrammar.spells_tokens symbol he []
  exact FilterGrammar.Spells.parseFilter (hspells.lift (Nat.zero_le _))

def negatedFilter : FilterExpr :=
  .and (.not (.or (.protocolPresent .ip) (.contains ⟨["dns", "qname"]⟩ "andor")))
    (.or (.comparison ⟨["tcp", "port"]⟩ .ne (.integer 443))
      (.comparison ⟨["ip", "src"]⟩ .eq (.ipAddr (.ofOctets 10 0 0 1))))

example : negatedFilter.print (fun path => path.length = 1) =
    "! ( ip or dns.qname contains andor ) and ( tcp.port != 443 || ip.src == 10.0.0.1 )" := by
  decide

theorem parseFilter_print_negated :
    @parseFilter Nom.documented (negatedFilter.print fun path => path.length = 1) =
      .ok negatedFilter :=
  @parseFilter_print Nom.documented _ negatedFilter (by decide)

end Pktscope

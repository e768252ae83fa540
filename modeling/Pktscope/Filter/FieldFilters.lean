import Pktscope.Filter.Grammar
import Pktscope.Filter.Printing
import Pktscope.Filter.Written

/-! # Filters for the value of a field

A filter that compares a field with the displayed text of a value holds of the
packets with that value when the parser reads the text back as the value. It
reads no address of sixteen octets, and no text that begins with a number.
-/

namespace Pktscope

open Library Parse

inductive FieldKind where
  | address
  | octets
  | number (bits : ℕ)
  | text
  deriving DecidableEq

/-- The fields with a single value in a packet, and the kind of their values. -/
def extractable : List (FieldPath × FieldKind) :=
  [(⟨["ip", "src"]⟩, .address), (⟨["ip", "dst"]⟩, .address),
    (⟨["tcp", "srcport"]⟩, .number 16), (⟨["tcp", "dstport"]⟩, .number 16),
    (⟨["udp", "srcport"]⟩, .number 16), (⟨["udp", "dstport"]⟩, .number 16),
    (⟨["icmp", "type"]⟩, .number 8), (⟨["icmp", "code"]⟩, .number 8),
    (⟨["arp", "sender", "ip"]⟩, .octets), (⟨["arp", "target", "ip"]⟩, .octets),
    (⟨["dns", "qname"]⟩, .text), (⟨["tls", "sni"]⟩, .text)]

/-- The values of a kind. -/
def FieldKind.Has : FieldKind → FilterValue → Prop
  | address, .ipAddr _ => True
  | octets, .ipAddr (.v4 _) => True
  | number bits, .integer n => 0 ≤ n ∧ n < 2 ^ bits
  | text, .str _ => True
  | _, _ => False

section Kinds

variable {k : FieldKind}

theorem FieldKind.has_integer {n : ℤ} (h : k.Has (.integer n)) :
    ∃ bits, k = .number bits ∧ 0 ≤ n ∧ n < 2 ^ bits := by
  cases k with
  | number bits => exact ⟨bits, rfl, h⟩
  | _ => exact h.elim

theorem FieldKind.has_v6 {a : BitVec 128} (h : k.Has (.ipAddr (.v6 a))) : k = .address := by
  cases k with
  | address => rfl
  | _ => exact h.elim

theorem FieldKind.has_str {s : String} (h : k.Has (.str s)) : k = .text := by
  cases k with
  | text => rfl
  | _ => exact h.elim

end Kinds

/-- The values that the parser reads back from their text: every number, addresses of four
octets, and texts that do not begin with a number. -/
def FilterValue.ReadsBack : FilterValue → Prop
  | integer _ => True
  | ipAddr (.v4 _) => True
  | ipAddr (.v6 _) => False
  | str s => s ≠ "" ∧ parseI64 (s.toList.takeWhile Char.isDigit) = none

def FieldKind.bits : FieldKind → ℕ
  | number bits => bits
  | _ => 0

theorem bits_le : ∀ p ∈ extractable, p.2.bits ≤ 16 := by decide

theorem plain_of_extractable : ∀ p ∈ extractable, p.1.Plain ∧ p.1.asStr ≠ "tcp.port" ∧
    p.1.asStr ≠ "udp.port" ∧ ')' ∉ p.1.asStr.toList := by
  decide

namespace FilterGrammar

theorem not_dot_takeWhile (s : List Char) : '.' ∉ s.takeWhile Char.isDigit :=
  fun h => absurd (List.mem_takeWhile_imp h) (by decide)

theorem parseI64_of_parseV4 {d x : List Char} (hd : '.' ∉ d) {a : UInt32}
    (h : parseV4 (d ++ '.' :: x) = some a) : ∃ m, parseI64 d = some m := by
  rw [parseV4, List.splitOn_append_cons_self_of_not_mem hd] at h
  have hoctet : ∃ m, parseOctet d = some m := by
    cases ho : parseOctet d with
    | some m => exact ⟨m, rfl⟩
    | none =>
      split at h
      · rename_i hl
        obtain ⟨rfl, -⟩ := List.cons.inj hl
        simp [ho] at h
      · cases h
  obtain ⟨m, hm⟩ := hoctet
  rw [parseOctet] at hm
  split at hm
  · cases hm
  · obtain ⟨hp, hlt⟩ := Option.filter_eq_some_iff.mp hm
    have hlt' : m < 256 := by simpa using hlt
    refine ⟨m, ?_⟩
    rw [parseI64, hp]
    simp only [Option.filter_some, decide_eq_true_eq]
    exact if_pos (by omega)

theorem comparison_toList (f : FieldPath) (x : String) :
    (f.asStr ++ " == " ++ x).toList =
      spaced f.asStr.toList (spaced (CompareOp.text .eq).toList x.toList) := by
  simp [spaced, CompareOp.text]

theorem trimmed_comparison {f : FieldPath} {x : String} (hf : f.Plain) (hx : Trimmed x.toList) :
    Trimmed (spaced f.asStr.toList (spaced (CompareOp.text .eq).toList x.toList)) :=
  (plain_field_trimmed hf).spaced ((trimmed_token _ (by simp [CompareOp.text])).spaced hx)

variable [Nom] {s r : List Char} {v : FilterValue}

/-- An address begins with a number, and is read up to a later place. -/
theorem ipAddrValue_inv (h : ipAddrValue s = ok (r, v)) : ∃ a m, v = .ipAddr (.v4 a) ∧
    parseI64 (s.takeWhile Char.isDigit) = some m ∧ r <:+ s ∧ r.length < s.length := by
  have hdigits : Yields (s.length + 1) Nom.digit1 fun _ _ => True :=
    Nom.yields_digit1.mono fun _ _ _ => trivial
  have hrest := Nom.yields_tuple hdigits (Nom.yields_tuple (Nom.yields_char '.')
    (Nom.yields_tuple hdigits (Nom.yields_tuple (Nom.yields_char '.') hdigits)))
  have hsplit := List.takeWhile_append_dropWhile (p := Char.isDigit) (l := s)
  unfold ipAddrValue at h
  generalize Nom.tuple Nom.digit1 (Nom.tuple (Nom.char '.') (Nom.tuple Nom.digit1
    (Nom.tuple (Nom.char '.') Nom.digit1))) = rest at h hrest
  have hrun : Nom.digit1 s = run1 Char.isDigit s := congrFun Nom.digit1_eq s
  by_cases hd : s.takeWhile Char.isDigit = []
  · rw [run1, if_pos hd] at hrun
    simp [Nom.recognize_eq, Nom.tuple_eq, hrun, refuse_bind] at h
  rw [run1, if_neg hd] at hrun
  cases ht : s.dropWhile Char.isDigit with
  | nil =>
    have hdot : Nom.char '.' [] = refuse := by rw [Nom.char_eq]; rfl
    simp [Nom.recognize_eq, Nom.tuple_eq, hrun, ht, hdot, ok_bind, refuse_bind] at h
  | cons c t =>
    by_cases hc : c = '.'
    · subst hc
      rw [ht] at hsplit
      have hdot := not_dot_takeWhile s
      generalize s.takeWhile Char.isDigit = d at *
      have hlen : s.length = d.length + (t.length + 1) := by
        rw [← hsplit, List.length_append, List.length_cons]
      have htail := hrest t (by omega)
      simp only [Nom.recognize_eq, Nom.tuple_eq, hrun, ht, char_dot, ok_bind] at h
      cases hq : rest t with
      | refuse => simp [hq, refuse_bind] at h
      | fault e => rw [hq] at htail; exact htail.elim
      | ok q =>
        rw [hq] at htail
        obtain ⟨x, hx⟩ := htail.1
        -- the recognised text goes up to what the last parser has left
        have hs : s = (d ++ '.' :: x) ++ q.1 := by
          rw [List.append_assoc, List.cons_append, hx, hsplit]
        have htake : s.take (s.length - q.1.length) = d ++ '.' :: x := by
          rw [hs, List.length_append, Nat.add_sub_cancel, List.take_left]
        simp only [hq, ok_bind, htake] at h
        cases hv : parseV4 (d ++ '.' :: x) with
        | none => simp [hv] at h
        | some a =>
          obtain ⟨m, hm⟩ := parseI64_of_parseV4 hdot hv
          simp only [hv] at h
          cases h
          refine ⟨a, m, rfl, hm, ?_, ?_⟩
          · exact htail.1.trans ((List.suffix_cons '.' t).trans ⟨_, hsplit⟩)
          · have := htail.1.length_le
            omega
    · have hdot : Nom.char '.' (c :: t) = refuse := by
        rw [Nom.char_eq]
        simp [one, hc]
      simp [Nom.recognize_eq, Nom.tuple_eq, hrun, ht, hdot, ok_bind, refuse_bind] at h

theorem filterValue_number {m : ℕ} (h : parseI64 (s.takeWhile Char.isDigit) = some m) :
    ∃ r v, filterValue s = ok (r, v) ∧ (∀ t, v.WrittenIn t) ∧ r <:+ s ∧ r.length < s.length := by
  have hne : s.takeWhile Char.isDigit ≠ [] := by
    intro hnil
    rw [hnil] at h
    cases h
  have hip := yields_ipAddrValue (n := s.length + 1) s (by omega)
  cases hv : ipAddrValue s with
  | ok q =>
    obtain ⟨a, -, ha, -, hsuf, hlen⟩ := ipAddrValue_inv hv
    refine ⟨q.1, q.2, Nom.alt_of_ok hv, ?_, hsuf, hlen⟩
    intro t
    rw [ha]
    trivial
  | fault e =>
    rw [hv] at hip
    exact hip.elim
  | refuse =>
    have hint : integerValue s = ok (s.dropWhile Char.isDigit, .integer m) := by
      simp only [integerValue, Nom.digit1_eq, run1, if_neg hne, ok_bind, h]
      rfl
    refine ⟨_, _, (Nom.alt_of_refuse hv).trans (Nom.alt_of_ok hint), fun _ => trivial,
      List.dropWhile_suffix _, ?_⟩
    have hsplit := congrArg List.length
      (List.takeWhile_append_dropWhile (p := Char.isDigit) (l := s))
    have hpos := List.length_pos_iff.mpr hne
    rw [List.length_append] at hsplit
    omega

theorem filterValue_text_of_none (hne : s ≠ []) (hs : ∀ c ∈ s, endsWord c = false)
    (h : parseI64 (s.takeWhile Char.isDigit) = none) :
    filterValue s = ok ([], .str (String.ofList s)) := by
  have hip : ipAddrValue s = refuse := by
    have hy := yields_ipAddrValue (n := s.length + 1) s (by omega)
    cases hv : ipAddrValue s with
    | ok q =>
      obtain ⟨a, m, -, hm, -⟩ := ipAddrValue_inv hv
      rw [h] at hm
      cases hm
    | fault e =>
      rw [hv] at hy
      exact hy.elim
    | refuse => rfl
  have hint : integerValue s = refuse := by
    simp only [integerValue, Nom.digit1_eq, run1]
    split
    · rfl
    · simp only [ok_bind, h]
  have hword := word_front (s := []) hne hs (by simp)
  rw [List.append_nil] at hword
  have hstr : stringValue s = ok ([], .str (String.ofList s)) := by
    simp only [stringValue, hword, ok_bind]
    rfl
  exact (Nom.alt_of_refuse hip).trans ((Nom.alt_of_refuse hint).trans (Nom.alt_of_ok hstr))

section Whole

variable {f : FieldPath} {x : String} {e : FilterExpr}

theorem unary_comparison (hf : f.Plain) (hx : Trimmed x.toList)
    (hv : filterValue x.toList = ok (r, v)) (n : ℕ) :
    unary (n + 1) (spaced f.asStr.toList (spaced (CompareOp.text .eq).toList x.toList)) =
      ok (blanksOff r, .comparison f .eq v) := by
  have hblank := hx.blanksOff []
  rw [List.append_nil] at hblank
  have hatom := atom_comparison (expr (unary n)) hf .eq hblank hv
  have hunary := unary_of_atom (named_field hf _) open_nil n (e := .comparison f .eq v)
    (r := blanksOff r) (by rw [List.append_nil]; exact hatom)
  rwa [List.append_nil] at hunary

theorem parseFilter_comparison (hf : f.Plain) (hx : Trimmed x.toList)
    (hv : filterValue x.toList = ok ([], v)) :
    parseFilter (f.asStr ++ " == " ++ x) = .ok (.comparison f .eq v) := by
  have htrim := trimmed_comparison hf hx
  have hunary := unary_comparison hf hx hv
  have hexpr : ∀ n, expr (unary (n + 1))
      (spaced f.asStr.toList (spaced (CompareOp.text .eq).toList x.toList)) =
        ok ([], .comparison f .eq v) := by
    intro n
    have hand : andTerm (unary (n + 1))
        (spaced f.asStr.toList (spaced (CompareOp.text .eq).toList x.toList)) =
          ok ([], .comparison f .eq v) :=
      Collects.chainl (Collects.one (hunary n)) (andStep_refuse (.inl rfl))
    exact Collects.chainl (Collects.one hand) (orStep_refuse (by simp))
  obtain ⟨⟨c, l, hl, -⟩, -⟩ := htrim
  simp only [parseFilter, comparison_toList, (trimmed_comparison hf hx).trim, hexpr]
  simp [hl]

/-- When the value ends early, the filter names only what is written behind it. -/
theorem written_behind (hf : f.Plain) (hx : Trimmed x.toList)
    (hv : filterValue x.toList = ok (r, v)) (hr : r <:+ x.toList) (hw : ∀ t, v.WrittenIn t)
    (he : parseFilter (f.asStr ++ " == " ++ x) = .ok e) : e.WrittenIn (blanksOff r) := by
  have hunary := unary_comparison hf hx hv
  simp only [parseFilter, comparison_toList, (trimmed_comparison hf hx).trim] at he
  generalize htext : spaced f.asStr.toList (spaced (CompareOp.text .eq).toList x.toList) = text
    at he hunary
  have hlen : (blanksOff r).length < text.length + 1 := by
    have h1 := length_blanksOff_le (s := r)
    have h2 := hr.length_le
    have h3 := congrArg List.length htext
    simp only [spaced, List.length_append, List.length_cons] at h3
    omega
  have hand : (andTerm (unary (text.length + 1)) text).Holds fun q =>
      q.1 <:+ blanksOff r ∧ q.2.WrittenIn (blanksOff r) :=
    chainl_from (P := FilterExpr.WrittenIn) (hunary text.length) List.suffix_rfl hlen (hw _)
      (Nom.yields_preceded (yields_either "&&".toList "and".toList) (yields_unary _)
        written_inherited) written_inherited fun _ _ ha hb => ⟨ha, hb⟩
  cases ha : andTerm (unary (text.length + 1)) text with
  | refuse =>
    have hexpr : expr (unary (text.length + 1)) text = refuse := by
      simp only [expr, chainl, ha, refuse_bind]
    simp [hexpr] at he
    split at he <;> cases he
  | fault err => rw [ha] at hand; exact hand.elim
  | ok q =>
    rw [ha] at hand
    have hor : (expr (unary (text.length + 1)) text).Holds fun q =>
        q.1 <:+ blanksOff r ∧ q.2.WrittenIn (blanksOff r) :=
      chainl_from (P := FilterExpr.WrittenIn) ha hand.1 hlen hand.2
        (Nom.yields_preceded (yields_either "||".toList "or".toList)
          (yields_andTerm (yields_unary (text.length + 1))) written_inherited)
        written_inherited fun _ _ ha hb => ⟨ha, hb⟩
    split at he
    · cases he
    · split at he
      · rename_i hok
        rw [hok] at hor
        split at he
        · cases he
          exact hor.2
        · cases he
      · cases he
      · cases he

end Whole

end FilterGrammar

section Packets

/-- A packet with one layer. -/
def packetOf (l : Layer) : DecodedPacket :=
  ⟨0, 0, 0, [], [l], ⟨"", "", "", 0, "", .other⟩, none, false⟩

def ipv6Layer (src dst : BitVec 128) : Layer := .ipv6 ⟨6, 0, 0, 0, 59, 64, src, dst, (0, 40)⟩

def questionLayer (qname : String) : Layer := .dns ⟨0, false, 0, [⟨qname, 1, 1⟩], [], [], [], (0, 0)⟩

def helloLayer (sni : String) : Layer :=
  .tlsClientHello ⟨some sni, [], [], [], [], [], [], [], 0x303, none, none, (0, 0)⟩

theorem twins_of_layers {path : String} {a b : FilterValue} {k l : Layer}
    (hproto : ∀ p, hasProtocol p [k] = hasProtocol p [l])
    (hport : ∀ op v t, matchPortEither [k] op v t = matchPortEither [l] op v t)
    (hk : layerField path k = some (some a)) (hl : layerField path l = some (some b))
    (hothers : ∀ other, other ≠ path → layerField other k = layerField other l) :
    Twins path a b (packetOf k) (packetOf l) where
  protocols := hproto
  ports := hport
  left f hf := by simp [extractField, packetOf, hf, hk]
  right f hf := by simp [extractField, packetOf, hf, hl]
  others f hf := by simp [extractField, packetOf, hothers _ hf]

theorem twins_text {f : FieldPath} (hf : (f, .text) ∈ extractable) (s t : String) :
    ∃ p q, Twins f.asStr (.str s) (.str t) p q := by
  have hpath : f.asStr = "dns.qname" ∨ f.asStr = "tls.sni" := by
    have h : ∀ p ∈ extractable, p.2 = .text → p.1.asStr = "dns.qname" ∨ p.1.asStr = "tls.sni" := by
      decide
    exact h _ hf rfl
  rcases hpath with hpath | hpath <;> rw [hpath]
  · refine ⟨_, _, twins_of_layers (k := questionLayer s) (l := questionLayer t) ?_ ?_ rfl rfl ?_⟩
    · intro p; cases p <;> rfl
    · intro op v t; cases t <;> rfl
    · intro other ho; simp [questionLayer, layerField, ho]
  · refine ⟨_, _, twins_of_layers (k := helloLayer s) (l := helloLayer t) ?_ ?_ rfl rfl ?_⟩
    · intro p; cases p <;> rfl
    · intro op v t; cases t <;> rfl
    · intro other ho; simp [helloLayer, layerField, ho]

theorem twins_address {f : FieldPath} (hf : (f, .address) ∈ extractable) (a b : BitVec 128) :
    ∃ p q, Twins f.asStr (.ipAddr (.v6 a)) (.ipAddr (.v6 b)) p q := by
  have hpath : f.asStr = "ip.src" ∨ f.asStr = "ip.dst" := by
    have h : ∀ p ∈ extractable, p.2 = .address → p.1.asStr = "ip.src" ∨ p.1.asStr = "ip.dst" := by
      decide
    exact h _ hf rfl
  rcases hpath with hpath | hpath <;> rw [hpath]
  · refine ⟨_, _, twins_of_layers (k := ipv6Layer a 0) (l := ipv6Layer b 0) ?_ ?_ rfl rfl ?_⟩
    · intro p; cases p <;> rfl
    · intro op v t; cases t <;> rfl
    · intro other ho; simp [ipv6Layer, layerField, ho]
  · refine ⟨_, _, twins_of_layers (k := ipv6Layer 0 a) (l := ipv6Layer 0 b) ?_ ?_ rfl rfl ?_⟩
    · intro p; cases p <;> rfl
    · intro op v t; cases t <;> rfl
    · intro other ho; simp [ipv6Layer, layerField, ho]

theorem names_of_exact {path : FieldPath} {a b : FilterValue} {p q : DecodedPacket}
    (h : Twins path.asStr a b p q) (hab : a ≠ b) {e : FilterExpr}
    (hexact : ∀ pkt : DecodedPacket, evalFilter pkt e = true ↔
      extractField path pkt.layers = some a) :
    ¬ e.Forall (fun v => a = v ↔ b = v) fun w => a.hasPattern w = b.hasPattern w := by
  intro he
  have hp : evalFilter p e = true := (hexact p).mpr (h.left path rfl)
  rw [evalFilter_twins h he, hexact, h.right path rfl] at hp
  exact hab (Option.some.inj hp).symm

theorem forall_of_written {u : List Char} {w : String} (hu : ')' ∉ u) {e : FilterExpr}
    (he : e.WrittenIn u) (hw : ∀ x : String, x.toList ≠ [] → x.toList <:+: u → w ≠ x) :
    e.Forall (fun v => .str w = v ↔ .str (w ++ ")") = v)
      fun p => (FilterValue.str w).hasPattern p = (FilterValue.str (w ++ ")")).hasPattern p := by
  apply he.mono
  · intro v hv
    match v, hv with
    | .integer _, _ => simp
    | .ipAddr _, _ => simp
    | .str x, hx =>
      constructor
      · intro h
        exact absurd (FilterValue.str.inj h) (hw x hx.1 hx.2)
      · intro h
        have hmem : ')' ∈ x.toList := by
          rw [← FilterValue.str.inj h]
          simp
        exact absurd (hx.2.subset hmem) hu
  · intro p hp
    have hnot : ')' ∉ p.toList := fun h => hu (hp.2.subset h)
    simp only [FilterValue.hasPattern, String.toList_append]
    rw [Bool.eq_iff_iff, containsText_iff, containsText_iff, show ")".toList = [')'] from rfl,
      List.infix_concat_iff]
    constructor
    · exact .inr
    · rintro (h | h)
      · rcases List.suffix_concat_iff.mp h with hnil | ⟨t, ht, -⟩
        · exact absurd hnil hp.1
        · exact absurd (ht ▸ by simp) hnot
      · exact h

end Packets

theorem mem_of_mem_trim {c : Char} {cs : List Char} (h : c ∈ trim cs) : c ∈ cs := by
  rw [trim, List.mem_reverse] at h
  have h' := (List.dropWhile_suffix _).subset h
  rw [List.mem_reverse] at h'
  exact (List.dropWhile_suffix _).subset h'

section Exact

variable [Nom] {f : FieldPath} {k : FieldKind} {v : FilterValue}

/-- The filter of a value holds of exactly the packets with that value. -/
def Exact (f : FieldPath) (v : FilterValue) : Prop :=
  ∃ e, parseFilter (f.asStr ++ " == " ++ v.text) = .ok e ∧
    ∀ pkt : DecodedPacket, evalFilter pkt e = true ↔ extractField f pkt.layers = some v

theorem exact_of_read (hf : (f, k) ∈ extractable) (htrim : FilterGrammar.Trimmed v.text.toList)
    (hv : FilterGrammar.filterValue v.text.toList = ok ([], v)) : Exact f v := by
  obtain ⟨hplain, htcp, hudp, -⟩ := plain_of_extractable _ hf
  refine ⟨_, FilterGrammar.parseFilter_comparison hplain htrim hv, ?_⟩
  intro pkt
  simp only [evalFilter, if_neg htcp, if_neg hudp]
  cases extractField f pkt.layers with
  | none => simp
  | some w => simp [compareValues]

theorem exact_of_readsBack (hf : (f, k) ∈ extractable) (hv : k.Has v)
    (hclean : ∀ c ∈ v.text.toList, isWhite c = false ∧ c ≠ ')') (hread : v.ReadsBack) :
    Exact f v := by
  have plain (h : v.Plain) : Exact f v := by
    apply exact_of_read hf (FilterGrammar.plain_trimmed h)
    have htext := FilterGrammar.filterValue_text h FilterGrammar.open_nil
    rwa [List.append_nil] at htext
  cases v with
  | integer n =>
    obtain ⟨bits, rfl, hpos, hlt⟩ := FieldKind.has_integer hv
    have hle : 2 ^ bits ≤ 2 ^ 16 := Nat.pow_le_pow_right (by omega) (bits_le _ hf)
    have hlt' : n < ((2 ^ bits : ℕ) : ℤ) := by exact_mod_cast hlt
    exact plain ⟨hpos, by omega⟩
  | ipAddr a =>
    cases a with
    | v4 a => exact plain trivial
    | v6 a => exact hread.elim
  | str w =>
    obtain ⟨hne, hnone⟩ := hread
    have hword : IsWord w := ⟨hne, hclean⟩
    apply exact_of_read (v := .str w) hf (FilterGrammar.isWord_trimmed hword)
    have hlist : w.toList ≠ [] := by simpa using hne
    have htext := FilterGrammar.filterValue_text_of_none hlist
      (fun c hc => FilterGrammar.endsWord_of_isWhite_ne (hclean c hc).1 (hclean c hc).2) hnone
    rwa [String.ofList_toList] at htext

theorem readsBack_of_exact (hf : (f, k) ∈ extractable) (hv : k.Has v)
    (hclean : ∀ c ∈ v.text.toList, isWhite c = false ∧ c ≠ ')') (h : Exact f v) :
    v.ReadsBack := by
  obtain ⟨e, he, hexact⟩ := h
  obtain ⟨hplain, -, -, hparen⟩ := plain_of_extractable _ hf
  cases v with
  | integer _ => trivial
  | ipAddr a =>
    cases a with
    | v4 _ => trivial
    | v6 a =>
      obtain rfl := FieldKind.has_v6 hv
      obtain ⟨p, q, htwins⟩ := twins_address hf a (a + 1)
      have hne : (FilterValue.ipAddr (.v6 a)) ≠ .ipAddr (.v6 (a + 1)) := by simp
      apply names_of_exact htwins hne hexact
      apply (parseFilter_written he).mono
      · rintro v hv
        match v, hv with
        | .integer _, _ => simp
        | .ipAddr (.v4 _), _ => simp
        | .str _, _ => simp
      · exact fun _ _ => rfl
  | str w =>
    obtain rfl := FieldKind.has_str hv
    obtain ⟨p, q, htwins⟩ := twins_text hf w (w ++ ")")
    have hne : (FilterValue.str w) ≠ .str (w ++ ")") := by
      intro h
      have := congrArg (fun v => v.text.toList.length) h
      simp [FilterValue.text] at this
    have hnames := names_of_exact htwins hne hexact
    have hparen' : ')' ∉ w.toList := fun h => (hclean ')' h).2 rfl
    by_contra hread
    apply hnames
    by_cases hempty : w = ""
    · apply forall_of_written _ (parseFilter_written he)
      · rintro x hx - rfl
        exact hx (by simp [hempty])
      · intro h
        have hmem := mem_of_mem_trim h
        rw [FilterGrammar.comparison_toList] at hmem
        simp only [spaced, CompareOp.text, FilterValue.text, List.mem_append,
          List.mem_cons] at hmem
        rcases hmem with h | h | h | h | h
        · exact hparen h
        · cases h
        · simp at h
        · cases h
        · exact hparen' h
    · have hword : IsWord w := ⟨hempty, hclean⟩
      cases hm : parseI64 (w.toList.takeWhile Char.isDigit) with
      | none => exact absurd ⟨hempty, hm⟩ hread
      | some m =>
        obtain ⟨r, v, hv, hwritten, hr, hlt⟩ := FilterGrammar.filterValue_number hm
        have hle := length_blanksOff_le (s := r)
        have hsuf : blanksOff r <:+ w.toList := (List.dropWhile_suffix _).trans hr
        apply forall_of_written _
          (FilterGrammar.written_behind hplain (FilterGrammar.isWord_trimmed hword) hv hr hwritten he)
        · rintro x - hx rfl
          have := hx.length_le
          omega
        · exact fun h => hparen' (hsuf.subset h)

end Exact

/-- The filter of a field with the text of a value holds of exactly the packets with that value if
and only if the parser reads the text back. -/
theorem fieldFilter_iff [Nom] {f : FieldPath} {k : FieldKind} (hf : (f, k) ∈ extractable)
    {v : FilterValue} (hv : k.Has v) (hclean : ∀ c ∈ v.text.toList, isWhite c = false ∧ c ≠ ')') :
    (∃ e, parseFilter (f.asStr ++ " == " ++ v.text) = .ok e ∧
      ∀ pkt : DecodedPacket, evalFilter pkt e = true ↔ extractField f pkt.layers = some v) ↔
        v.ReadsBack :=
  ⟨readsBack_of_exact hf hv hclean, exact_of_readsBack hf hv hclean⟩

theorem fieldFilter_iff_host :
    (∃ e, @parseFilter Nom.documented "dns.qname == mail.example.org" = .ok e ∧
      ∀ pkt : DecodedPacket, evalFilter pkt e = true ↔
        extractField ⟨["dns", "qname"]⟩ pkt.layers = some (.str "mail.example.org")) ↔
          (FilterValue.str "mail.example.org").ReadsBack :=
  @fieldFilter_iff Nom.documented ⟨["dns", "qname"]⟩ .text (by decide) (.str "mail.example.org")
    trivial (show IsWord "mail.example.org" by decide).2

/-- The filter of a host name that begins with a digit is refused. -/
theorem fieldFilter_digit : ¬∀ (_ : Nom) (f : FieldPath) (k : FieldKind) (v : FilterValue),
    (f, k) ∈ extractable → k.Has v → (∀ c ∈ v.text.toList, isWhite c = false ∧ c ≠ ')') →
      ∃ e, parseFilter (f.asStr ++ " == " ++ v.text) = .ok e ∧
        ∀ pkt : DecodedPacket, evalFilter pkt e = true ↔
          extractField f pkt.layers = some v := by
  intro h
  obtain ⟨e, he, -⟩ := h Nom.documented ⟨["dns", "qname"]⟩ .text (.str "3com.com") (by decide)
    trivial (show IsWord "3com.com" by decide).2
  have hrefused : @parseFilter Nom.documented "dns.qname == 3com.com" =
      .error (.trailing "com.com") := by decide
  have hsame : "dns.qname == 3com.com" = FieldPath.asStr ⟨["dns", "qname"]⟩ ++ " == " ++
      (FilterValue.str "3com.com").text := by decide
  rw [hsame, he] at hrefused
  cases hrefused

end Pktscope

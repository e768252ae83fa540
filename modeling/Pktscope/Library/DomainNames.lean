import Mathlib.Algebra.Order.BigOperators.Group.List
import Pktscope.Library.Spans

/-! # Domain names on the wire

A name is written as labels behind their lengths, and ends with a zero byte or with
a pointer to where the rest of it is written (RFC 1035).
-/

namespace Library

/-- A name as it is written. A pointer gives an offset from the start of the message, and the name
that is written there. -/
inductive NameForm where
  | root
  | label (text : List UInt8) (rest : NameForm)
  | pointer (offset : ℕ) (name : NameForm)
  deriving DecidableEq

namespace NameForm

def bytes : NameForm → List UInt8
  | root => [0]
  | label text rest => vec8 text ++ rest.bytes
  | pointer offset _ => toBe16 (UInt16.ofNat (0xc000 + offset))

/-- The labels of the name, wherever they are written. -/
def labels : NameForm → List (List UInt8)
  | root => []
  | label text rest => text :: rest.labels
  | pointer _ name => name.labels

/-- The pointers on the way to the end of the name. -/
def pointers : NameForm → ℕ
  | root => 0
  | label _ rest => rest.pointers
  | pointer _ name => name.pointers + 1

/-- A name without pointers. -/
def ofLabels : List (List UInt8) → NameForm
  | [] => root
  | text :: rest => label text (ofLabels rest)

/-- The name written in full. -/
def full (w : NameForm) : NameForm := ofLabels w.labels

/-- How many bytes the name takes when it is written in full. -/
def wireLength (w : NameForm) : ℕ := (w.labels.map (·.length + 1)).sum + 1

/-- A name stands at a place of a message that starts at `base`. The length byte of a label has not
both of its top bits set. -/
def Written (data : List UInt8) (base : ℕ) : NameForm → ℕ → Prop
  | root, pos => StandsAt data pos [0]
  | label text rest, pos =>
    text ≠ [] ∧ text.length < 192 ∧ StandsAt data pos (vec8 text) ∧
      rest.Written data base (pos + (text.length + 1))
  | pointer offset name, pos =>
    offset < 2 ^ 14 ∧ StandsAt data pos (toBe16 (UInt16.ofNat (0xc000 + offset))) ∧
      name.Written data base (base + offset)

instance decidableWritten (data : List UInt8) (base : ℕ) :
    (w : NameForm) → (pos : ℕ) → Decidable (w.Written data base pos)
  | root, pos => inferInstanceAs (Decidable (StandsAt data pos [0]))
  | label text rest, pos =>
    have := decidableWritten data base rest (pos + (text.length + 1))
    inferInstanceAs (Decidable (_ ∧ _ ∧ _ ∧ _))
  | pointer offset name, _ =>
    have := decidableWritten data base name (base + offset)
    inferInstanceAs (Decidable (_ ∧ _ ∧ _))

/-- Every pointer of a name at a place leads to a place in front of it. -/
def Backward : NameForm → ℕ → Prop
  | root, _ => True
  | label text rest, pos => rest.Backward (pos + (text.length + 1))
  | pointer offset name, pos => offset < pos ∧ name.Backward offset

instance decidableBackward : (w : NameForm) → (pos : ℕ) → Decidable (w.Backward pos)
  | root, _ => inferInstanceAs (Decidable True)
  | label text rest, pos => decidableBackward rest (pos + (text.length + 1))
  | pointer offset name, _ =>
    have := decidableBackward name offset
    inferInstanceAs (Decidable (_ ∧ _))

/-- No pointer leads to a name without labels. -/
def AvoidsRoot : NameForm → Prop
  | root => True
  | label _ rest => rest.AvoidsRoot
  | pointer _ name => name.labels ≠ [] ∧ name.AvoidsRoot

instance decidableAvoidsRoot : (w : NameForm) → Decidable w.AvoidsRoot
  | root => inferInstanceAs (Decidable True)
  | label _ rest => decidableAvoidsRoot rest
  | pointer _ name =>
    have := decidableAvoidsRoot name
    inferInstanceAs (Decidable (_ ∧ _))

/-- The last label is followed by a pointer. It leads to a name without labels then. -/
def Dangling : NameForm → Prop
  | root => False
  | label _ rest => (rest ≠ root ∧ rest.labels = []) ∨ rest.Dangling
  | pointer _ name => name.Dangling

instance decidableDangling : (w : NameForm) → Decidable w.Dangling
  | root => inferInstanceAs (Decidable False)
  | label _ rest =>
    have := decidableDangling rest
    inferInstanceAs (Decidable ((_ ∧ _) ∨ _))
  | pointer _ name => decidableDangling name

theorem not_dangling_of_labels_eq_nil {w : NameForm} (h : w.labels = []) : ¬w.Dangling := by
  induction w with
  | root => exact id
  | label text rest _ => cases h
  | pointer offset name ih => exact ih h

theorem AvoidsRoot.not_dangling {w : NameForm} (h : w.AvoidsRoot) : ¬w.Dangling := by
  induction w with
  | root => exact id
  | label text rest ih =>
    rintro (⟨hne, hnil⟩ | hrest)
    · cases rest with
      | root => exact hne rfl
      | label => cases hnil
      | pointer => exact h.1 hnil
    · exact ih h hrest
  | pointer offset name ih => exact ih h.2

@[simp] theorem labels_ofLabels (l : List (List UInt8)) : (ofLabels l).labels = l := by
  induction l with
  | nil => rfl
  | cons text l ih => rw [ofLabels, labels, ih]

@[simp] theorem pointers_ofLabels (l : List (List UInt8)) : (ofLabels l).pointers = 0 := by
  induction l with
  | nil => rfl
  | cons text l ih => rw [ofLabels, pointers, ih]

@[simp] theorem labels_full (w : NameForm) : w.full.labels = w.labels := labels_ofLabels _

@[simp] theorem pointers_full (w : NameForm) : w.full.pointers = 0 := pointers_ofLabels _

theorem length_bytes_ofLabels (l : List (List UInt8)) :
    (ofLabels l).bytes.length = (l.map (·.length + 1)).sum + 1 := by
  induction l with
  | nil => rfl
  | cons text l ih =>
    simp only [ofLabels, bytes, List.length_append, length_vec8, ih, List.map_cons, List.sum_cons]
    omega

theorem length_bytes_full (w : NameForm) : w.full.bytes.length = w.wireLength :=
  length_bytes_ofLabels _

theorem length_bytes_pos (w : NameForm) : 0 < w.bytes.length := by
  cases w with
  | root => exact Nat.one_pos
  | label text rest =>
    rw [bytes, List.length_append, length_vec8]
    omega
  | pointer offset name => exact Nat.two_pos

section Written

variable {data : List UInt8} {base pos : ℕ}

theorem Written.standsAt {w : NameForm} (h : w.Written data base pos) :
    StandsAt data pos w.bytes := by
  induction w generalizing pos with
  | root => exact h
  | label text rest ih =>
    obtain ⟨-, -, hlabel, hrest⟩ := h
    exact standsAt_append.mpr ⟨hlabel, ih hrest⟩
  | pointer offset name _ => exact h.2.1

theorem Written.le {w : NameForm} (h : w.Written data base pos) :
    pos + w.bytes.length ≤ data.length := h.standsAt.le

/-- The byte that tells how a name goes on. -/
def lead : NameForm → ℕ
  | root => 0
  | label text _ => text.length
  | pointer offset _ => 192 + offset / 256

theorem Written.lead_eq {w : NameForm} (h : w.Written data base pos) :
    (peek data pos).toNat = w.lead := by
  cases w with
  | root => rw [StandsAt.peek h, lead, UInt8.toNat_zero]
  | label text rest =>
    have hshort := h.2.1
    rw [h.2.2.1.peek, lead, UInt8.toNat_ofNat', Nat.mod_eq_of_lt (by omega)]
  | pointer offset name =>
    have hfits := h.1
    rw [h.2.1.peek, lead, UInt8.toNat_ofNat', UInt16.toNat_ofNat', Nat.mod_eq_of_lt (by omega),
      Nat.mod_eq_of_lt (by omega)]
    omega

/-- At most one name stands at a place. -/
theorem Written.unique {w w' : NameForm} (h : w.Written data base pos)
    (h' : w'.Written data base pos) : w = w' := by
  induction w generalizing w' pos with
  | root =>
    have hlead : w'.lead = 0 := h'.lead_eq.symm.trans h.lead_eq
    cases w' with
    | root => rfl
    | label text' rest' => exact absurd (List.eq_nil_of_length_eq_zero hlead) h'.1
    | pointer offset' name' =>
      rw [lead] at hlead
      omega
  | label text rest ih =>
    have hlead : w'.lead = text.length := h'.lead_eq.symm.trans h.lead_eq
    obtain ⟨hne, hshort, hlabel, hrest⟩ := h
    cases w' with
    | root => exact absurd (List.eq_nil_of_length_eq_zero hlead.symm) hne
    | label text' rest' =>
      obtain ⟨-, -, hlabel', hrest'⟩ := h'
      rw [lead] at hlead
      have htext : text = text' := hlabel.tail.unique hlabel'.tail hlead.symm
      rw [hlead] at hrest'
      rw [htext, ih hrest hrest']
    | pointer offset' name' =>
      rw [lead] at hlead
      omega
  | pointer offset name ih =>
    have hlead : w'.lead = 192 + offset / 256 := h'.lead_eq.symm.trans h.lead_eq
    obtain ⟨hfits, hbytes, hname⟩ := h
    cases w' with
    | root =>
      rw [lead] at hlead
      omega
    | label text' rest' =>
      have hshort' := h'.2.1
      rw [lead] at hlead
      omega
    | pointer offset' name' =>
      obtain ⟨hfits', hbytes', hname'⟩ := h'
      have hlow := congrArg UInt8.toNat (hbytes.tail.peek.symm.trans hbytes'.tail.peek)
      simp only [UInt16.toNat_ofNat', UInt8.toNat_ofNat'] at hlow
      rw [lead] at hlead
      have hoffset : offset = offset' := by omega
      rw [← hoffset] at hname' ⊢
      rw [ih hname hname']

theorem Written.extend {w : NameForm} (h : w.Written data base pos) (before after : List UInt8) :
    w.Written (before ++ (data ++ after)) (before.length + base) (before.length + pos) := by
  induction w generalizing pos with
  | root => exact StandsAt.extend h before after
  | label text rest ih =>
    obtain ⟨hne, hshort, hlabel, hrest⟩ := h
    refine ⟨hne, hshort, hlabel.extend before after, ?_⟩
    rw [Nat.add_assoc]
    exact ih hrest
  | pointer offset name ih =>
    obtain ⟨hfits, hbytes, hname⟩ := h
    refine ⟨hfits, hbytes.extend before after, ?_⟩
    rw [Nat.add_assoc]
    exact ih hname

theorem written_shift (front : List UInt8) {w : NameForm} :
    w.Written (front ++ data) (front.length + base) (front.length + pos) ↔
      w.Written data base pos := by
  induction w generalizing pos with
  | root => exact standsAt_shift front
  | label text rest ih =>
    rw [Written, Written, standsAt_shift, Nat.add_assoc, ih]
  | pointer offset name ih =>
    rw [Written, Written, standsAt_shift, Nat.add_assoc, ih]

theorem Written.append {w : NameForm} (h : w.Written data base pos) (after : List UInt8) :
    w.Written (data ++ after) base pos := by
  have hextend := h.extend [] after
  rwa [List.nil_append, List.length_nil, Nat.zero_add, Nat.zero_add] at hextend

/-- A name without pointers is written wherever its bytes stand. -/
theorem written_ofLabels {l : List (List UInt8)} (hl : ∀ text ∈ l, text ≠ [] ∧ text.length < 192)
    (h : StandsAt data pos (ofLabels l).bytes) : (ofLabels l).Written data base pos := by
  induction l generalizing pos with
  | nil => exact h
  | cons text l ih =>
    obtain ⟨hne, hshort⟩ := hl text List.mem_cons_self
    obtain ⟨hlabel, hrest⟩ := standsAt_append.mp h
    exact ⟨hne, hshort, hlabel, ih (fun t ht => hl t (List.mem_cons_of_mem _ ht)) hrest⟩

theorem backward_ofLabels (l : List (List UInt8)) : (ofLabels l).Backward pos := by
  induction l generalizing pos with
  | nil => trivial
  | cons text l ih => exact ih

/-- Every stretch between two pointers fits into the data. -/
theorem Written.wireLength_le {w : NameForm} (h : w.Written data base pos) :
    w.wireLength ≤ (w.pointers + 1) * data.length := by
  have hstretch : w.wireLength ≤ w.pointers * data.length + w.bytes.length := by
    induction w generalizing pos with
    | root => exact Nat.le_add_left 1 _
    | label text rest ih =>
      have hrest := ih h.2.2.2
      simp only [wireLength, labels, List.map_cons, List.sum_cons, pointers, bytes,
        List.length_append, length_vec8] at hrest ⊢
      omega
    | pointer offset name ih =>
      have hname := ih h.2.2
      have hle := h.2.2.le
      have hmul : (name.pointers + 1) * data.length = name.pointers * data.length + data.length :=
        Nat.succ_mul _ _
      simp only [wireLength, labels, pointers, bytes, length_toBe16] at hname ⊢
      omega
  have hle := h.le
  rw [Nat.succ_mul]
  omega

theorem Written.label_lt {w : NameForm} (h : w.Written data base pos) :
    ∀ text ∈ w.labels, text ≠ [] ∧ text.length < 192 := by
  induction w generalizing pos with
  | root => intro text ht; cases ht
  | label text rest ih =>
    obtain ⟨hne, hshort, -, hrest⟩ := h
    intro t ht
    rcases List.mem_cons.mp ht with rfl | ht
    · exact ⟨hne, hshort⟩
    · exact ih hrest t ht
  | pointer offset name ih => exact ih h.2.2

end Written

end NameForm

end Library

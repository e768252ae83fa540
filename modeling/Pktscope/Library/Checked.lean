import Mathlib.Algebra.GroupWithZero.Nat
import Mathlib.Data.List.Basic
import Pktscope.Library.Slice

/-! # Checked computations

Indices, slices and machine integers are checked when a program runs. A
computation ends with a value, refuses its input, or stops at a fault; the
weakest precondition of a computation asks that it meets no fault.
-/

namespace Library

/-- What stops a program. Running out of calls or of rounds stands for not ending at all. -/
inductive Fault where
  | index
  | underflow
  | overflow
  | calls
  | rounds
  deriving DecidableEq

/-- The outcome of a computation that may refuse its input. -/
inductive Parse (α : Type) where
  | ok (a : α)
  | refuse
  | fault (f : Fault)
  deriving DecidableEq

namespace Parse

variable {α β : Type}

def andThen (x : Parse α) (f : α → Parse β) : Parse β :=
  match x with
  | ok a => f a
  | refuse => refuse
  | fault e => fault e

instance : Monad Parse where
  pure := ok
  bind := andThen

instance : LawfulMonad Parse :=
  LawfulMonad.mk' Parse (fun x => by cases x <;> rfl) (fun _ _ => rfl)
    (fun x _ _ => by cases x <;> rfl)

theorem ok_bind (a : α) (f : α → Parse β) : (ok a >>= f) = f a := rfl

theorem refuse_bind (f : α → Parse β) : (refuse >>= f) = refuse := rfl

theorem bind_eq_ok {x : Parse α} {f : α → Parse β} {b : β} :
    (x >>= f) = ok b ↔ ∃ a, x = ok a ∧ f a = ok b := by
  constructor
  · intro h
    cases x with
    | ok a => exact ⟨a, rfl, h⟩
    | refuse => cases h
    | fault e => cases h
  · rintro ⟨a, rfl, h⟩
    exact h

/-- The outcome with the place where it ends moved. -/
def moved (n : ℕ) (x : Parse (α × ℕ)) : Parse (α × ℕ) := x >>= fun r => ok (r.1, n + r.2)

/-- The value that an optional one has, or a refusal. -/
def ofOption : Option α → Parse α
  | some a => ok a
  | none => refuse

theorem ofOption_bind (o : Option α) (f : α → Option β) :
    (ofOption o >>= fun a => ofOption (f a)) = ofOption (o >>= f) := by
  cases o <;> rfl

theorem mapM_eq_ofOption {g : α → Parse β} {f : α → Option β} {l : List α}
    (h : ∀ a ∈ l, g a = ofOption (f a)) : l.mapM g = ofOption (l.mapM f) := by
  induction l with
  | nil => rfl
  | cons a l ih =>
    rw [List.mapM_cons, List.mapM_cons, h a List.mem_cons_self,
      ih fun b hb => h b (List.mem_cons_of_mem a hb)]
    cases f a with
    | none => rfl
    | some b => cases l.mapM f <;> rfl

/-- The outcome of a computation whose refusal is handled. -/
def attempt : Parse α → Parse (Option α)
  | ok a => ok (some a)
  | refuse => ok none
  | fault e => fault e

end Parse

open Parse

section Machine

variable {α : Type}

/-- The sum of two 64-bit sizes. -/
def addUsize (a b : ℕ) : Parse ℕ := if a + b < 2 ^ 64 then ok (a + b) else fault .overflow

def subUsize (a b : ℕ) : Parse ℕ := if b ≤ a then ok (a - b) else fault .underflow

def checkedSub (a b : ℕ) : Parse ℕ := if b ≤ a then ok (a - b) else refuse

def index (data : List α) (i : ℕ) : Parse α :=
  match data[i]? with
  | some x => ok x
  | none => fault .index

def sliceAt (data : List α) (a b : ℕ) : Parse (List α) :=
  if a ≤ b ∧ b ≤ data.length then ok (slice data a b) else fault .index

/-- A slice that is refused when it does not fit. -/
def getSlice (data : List α) (a b : ℕ) : Parse (List α) :=
  if a ≤ b ∧ b ≤ data.length then ok (slice data a b) else refuse

end Machine

namespace Parse

section Holds

variable {α β : Type} {x : Parse α} {P Q : α → Prop}

/-- The computation meets no fault, and its value, if there is one, has a property. -/
def Holds (x : Parse α) (P : α → Prop) : Prop :=
  match x with
  | ok a => P a
  | refuse => True
  | fault _ => False

@[simp] theorem holds_ok {a : α} : Holds (ok a) P ↔ P a := Iff.rfl

@[simp] theorem holds_pure {a : α} : Holds (pure a) P ↔ P a := Iff.rfl

@[simp] theorem holds_refuse : Holds refuse P ↔ True := Iff.rfl

@[simp] theorem holds_bind {f : α → Parse β} {R : β → Prop} :
    Holds (x >>= f) R ↔ Holds x fun a => Holds (f a) R := by
  cases x <;> rfl

theorem Holds.mono (h : Holds x P) (hpq : ∀ a, P a → Q a) : Holds x Q := by
  cases x with
  | ok a => exact hpq a h
  | refuse => exact h
  | fault e => exact h

/-- A part of a computation with what is known of its value. -/
theorem Holds.bind {f : α → Parse β} {R : β → Prop} (h : Holds x P)
    (hf : ∀ a, P a → Holds (f a) R) : Holds (x >>= f) R := holds_bind.mpr (h.mono hf)

theorem Holds.attempt (h : Holds x P) : Holds x.attempt fun o => ∀ a ∈ o, P a := by
  cases x with
  | ok a =>
    rintro b hb
    cases hb
    exact h
  | refuse => rintro b hb; cases hb
  | fault e => exact h

theorem holds_ite {c : Prop} [Decidable c] {y : Parse α} (ht : c → Holds x P)
    (he : ¬c → Holds y P) : Holds (if c then x else y) P := by
  by_cases hc : c
  · rw [if_pos hc]
    exact ht hc
  · rw [if_neg hc]
    exact he hc

theorem holds_ofOption {o : Option α} (h : ∀ a ∈ o, P a) : Holds (ofOption o) P := by
  cases o with
  | none => trivial
  | some a => exact h a rfl

/-- A property of the values that a choice can give. -/
theorem forall_mem_ite {c : Prop} [Decidable c] {a : α} {o : Option α} (ha : c → P a)
    (ho : ∀ b ∈ o, P b) : ∀ b ∈ (if c then some a else o), P b := by
  intro b hb
  by_cases hc : c
  · rw [if_pos hc] at hb
    cases hb
    exact ha hc
  · rw [if_neg hc] at hb
    exact ho b hb

theorem forall_mem_ite_three {c d e : Prop} [Decidable c] [Decidable d] [Decidable e] {x y z : α}
    (hx : P x) (hy : P y) (hz : P z) :
    ∀ b ∈ (if c then some x else if d then some y else if e then some z else none), P b :=
  forall_mem_ite (fun _ => hx) (forall_mem_ite (fun _ => hy) (forall_mem_ite (fun _ => hz) nofun))

theorem Holds.not_fault (h : Holds x P) (f : Fault) : x ≠ fault f := by
  rintro rfl
  exact h

end Holds

section Returns

variable {α β : Type} {x : Parse α} {P : α → Prop}

/-- The computation gives a value that has a property. -/
def Returns (x : Parse α) (P : α → Prop) : Prop := ∃ a, x = ok a ∧ P a

theorem returns_ok {a : α} (h : P a) : Returns (ok a) P := ⟨a, rfl, h⟩

theorem Returns.bind {f : α → Parse β} {R : β → Prop} (h : Returns x P)
    (hf : ∀ a, P a → Returns (f a) R) : Returns (x >>= f) R := by
  obtain ⟨a, rfl, ha⟩ := h
  exact hf a ha

theorem Holds.returns_attempt (h : Holds x P) : Returns x.attempt fun o => ∀ a ∈ o, P a := by
  cases x with
  | ok a =>
    refine returns_ok fun b hb => ?_
    cases hb
    exact h
  | refuse => exact returns_ok nofun
  | fault e => exact h.elim

/-- A computation that meets no fault returns unless it refuses. -/
theorem Holds.returns (h : Holds x P) (hr : x ≠ refuse) : Returns x P := by
  cases x with
  | ok a => exact returns_ok h
  | refuse => exact absurd rfl hr
  | fault e => exact h.elim

/-- A computation that meets no fault refuses when no value could have its property. -/
theorem Holds.refused (h : Holds x P) (hP : ∀ a, ¬P a) : x = refuse := by
  cases x with
  | ok a => exact absurd h (hP a)
  | refuse => rfl
  | fault e => exact h.elim

theorem returns_ite {c : Prop} [Decidable c] {y : Parse α} (ht : c → Returns x P)
    (he : ¬c → Returns y P) : Returns (if c then x else y) P := by
  by_cases hc : c
  · rw [if_pos hc]
    exact ht hc
  · rw [if_neg hc]
    exact he hc

end Returns

section Yields

variable {α β : Type} {x : Parse α} {P : α → Prop}

/-- The value of the computation, if there is one, has a property. -/
def Yields (x : Parse α) (P : α → Prop) : Prop := ∀ a, x = ok a → P a

theorem yields_ok {a : α} (h : P a) : Yields (ok a) P := by
  rintro _ ⟨⟩
  exact h

theorem yields_refuse : Yields refuse P := nofun

theorem Yields.any (x : Parse α) : Yields x fun _ => True := fun _ _ => trivial

theorem Yields.bind {f : α → Parse β} {R : β → Prop} (h : Yields x P)
    (hf : ∀ a, P a → Yields (f a) R) : Yields (x >>= f) R := by
  cases x with
  | ok a => exact hf a (h a rfl)
  | refuse => exact nofun
  | fault e => exact nofun

theorem yields_ite {c : Prop} [Decidable c] {y : Parse α} (ht : c → Yields x P)
    (he : ¬c → Yields y P) : Yields (if c then x else y) P := by
  by_cases hc : c
  · rw [if_pos hc]
    exact ht hc
  · rw [if_neg hc]
    exact he hc

theorem Yields.attempt (h : Yields x P) : Yields x.attempt fun o => ∀ a ∈ o, P a := by
  cases x with
  | ok a =>
    rintro _ ⟨⟩ _ ⟨⟩
    exact h a rfl
  | refuse => rintro _ ⟨⟩ _ ⟨⟩
  | fault e => exact nofun

theorem Holds.of_yields {Q : α → Prop} (h : Holds x Q) (hy : Yields x P) : Holds x P := by
  cases x with
  | ok a => exact hy a rfl
  | refuse => trivial
  | fault e => exact h

end Yields

section Accepts

variable {α β : Type} {x : Parse α}

/-- The computation never refuses its input. -/
def Accepts (x : Parse α) : Prop := x ≠ refuse

theorem accepts_ok (a : α) : Accepts (ok a) := nofun

theorem accepts_fault (e : Fault) : Accepts (fault e : Parse α) := nofun

theorem Accepts.bind {f : α → Parse β} (h : Accepts x) (hf : ∀ a, Accepts (f a)) :
    Accepts (x >>= f) := by
  cases x with
  | ok a => exact hf a
  | refuse => exact absurd rfl h
  | fault e => exact accepts_fault e

theorem accepts_ite {c : Prop} [Decidable c] {y : Parse α} (hx : Accepts x) (hy : Accepts y) :
    Accepts (if c then x else y) := by
  split
  · exact hx
  · exact hy

theorem accepts_addUsize (a b : ℕ) : Accepts (addUsize a b) :=
  accepts_ite (accepts_ok _) (accepts_fault _)

theorem accepts_subUsize (a b : ℕ) : Accepts (subUsize a b) :=
  accepts_ite (accepts_ok _) (accepts_fault _)

theorem accepts_index (data : List α) (i : ℕ) : Accepts (index data i) := by
  unfold index
  split
  · exact accepts_ok _
  · exact accepts_fault _

theorem accepts_sliceAt (data : List α) (a b : ℕ) : Accepts (sliceAt data a b) :=
  accepts_ite (accepts_ok _) (accepts_fault _)

end Accepts

section Refines

variable {α α' β β' : Type} {x : Parse α} {x' : Parse α'} {R : α → α' → Prop}

/-- Whenever the one computation gives a value, the other gives a related one. -/
def Refines (R : α → α' → Prop) (x : Parse α) (x' : Parse α') : Prop :=
  ∀ a, x = ok a → ∃ a', x' = ok a' ∧ R a a'

theorem refines_ok {a : α} {a' : α'} (h : R a a') : Refines R (ok a) (ok a') := by
  rintro _ ⟨⟩
  exact ⟨a', rfl, h⟩

theorem Refines.refl (x : Parse α) : Refines Eq x x := fun a h => ⟨a, h, rfl⟩

theorem Refines.bind {f : α → Parse β} {f' : α' → Parse β'} {S : β → β' → Prop}
    (h : Refines R x x') (hf : ∀ a a', R a a' → Refines S (f a) (f' a')) :
    Refines S (x >>= f) (x' >>= f') := by
  cases x with
  | ok a =>
    obtain ⟨a', rfl, ha⟩ := h a rfl
    exact hf a a' ha
  | refuse => exact nofun
  | fault e => exact nofun

/-- Both computations begin with the same part. -/
theorem Refines.bind_eq {x x' : Parse α} {f : α → Parse β} {f' : α → Parse β'}
    {S : β → β' → Prop} (h : Refines Eq x x') (hf : ∀ a, Refines S (f a) (f' a)) :
    Refines S (x >>= f) (x' >>= f') := by
  refine h.bind fun a a' ha => ?_
  cases ha
  exact hf a

/-- A check that the other computation passes whenever the one does. -/
theorem refines_guard {c c' : Prop} [Decidable c] [Decidable c'] (hc : c' → c)
    (h : ¬c → Refines R x x') :
    Refines R (if c then refuse else x) (if c' then refuse else x') := by
  by_cases hn : c
  · rw [if_pos hn]
    exact nofun
  · rw [if_neg hn, if_neg fun h' => hn (hc h')]
    exact h hn

theorem refines_ite {c : Prop} [Decidable c] {y : Parse α} {y' : Parse α'} (hx : Refines R x x')
    (hy : Refines R y y') : Refines R (if c then x else y) (if c then x' else y') := by
  by_cases hc : c
  · rw [if_pos hc, if_pos hc]
    exact hx
  · rw [if_neg hc, if_neg hc]
    exact hy

end Refines

section Rules

variable {α : Type} {data : List α} {a b i : ℕ}

theorem holds_addUsize {P : ℕ → Prop} (h : a + b < 2 ^ 64) : Holds (addUsize a b) P ↔ P (a + b) := by
  rw [addUsize, if_pos h, holds_ok]

theorem holds_subUsize {P : ℕ → Prop} (h : b ≤ a) : Holds (subUsize a b) P ↔ P (a - b) := by
  rw [subUsize, if_pos h, holds_ok]

theorem holds_checkedSub {P : ℕ → Prop} (h : b ≤ a → P (a - b)) : Holds (checkedSub a b) P :=
  holds_ite h fun _ => trivial

theorem holds_index {P : α → Prop} (h : i < data.length) (hP : ∀ x, data[i]? = some x → P x) :
    Holds (index data i) P := by
  unfold index
  rw [List.getElem?_eq_getElem h] at hP ⊢
  exact hP _ rfl

theorem holds_sliceAt {P : List α → Prop} (hab : a ≤ b) (hb : b ≤ data.length) :
    Holds (sliceAt data a b) P ↔ P (slice data a b) := by
  rw [sliceAt, if_pos ⟨hab, hb⟩, holds_ok]

theorem holds_getSlice {P : List α → Prop} (h : a ≤ b → b ≤ data.length → P (slice data a b)) :
    Holds (getSlice data a b) P :=
  holds_ite (fun hab => h hab.1 hab.2) fun _ => trivial

end Rules

end Parse

end Library

import Mathlib.Tactic.Common
import Mathlib.Order.Defs.PartialOrder

/-! # Programs of atomic statements

A program is a finite tree of statements over a store. Each statement commits
on its own, so a run that is cut short leaves the effect of the statements
before the cut. `Holds` is the weakest precondition with a crash condition: the
first predicate holds at every point where the program may be cut, the second
one of its result.
-/

namespace Library

/-- A statement updates the store by `post` and goes on with what it read. -/
inductive Prog (σ α : Type) where
  | ret (a : α)
  | stmt (post : σ → σ) (next : σ → Prog σ α)

namespace Prog

variable {σ α β γ : Type}

protected def bind (p : Prog σ α) (f : α → Prog σ β) : Prog σ β :=
  match p with
  | ret a => f a
  | stmt post next => stmt post fun s => (next s).bind f

instance : Monad (Prog σ) where
  pure := ret
  bind := Prog.bind

theorem bind_ret (p : Prog σ α) : p.bind ret = p := by
  induction p with
  | ret a => rfl
  | stmt post next ih => simp only [Prog.bind, ih]

protected theorem bind_assoc (p : Prog σ α) (f : α → Prog σ β) (g : β → Prog σ γ) :
    (p.bind f).bind g = p.bind fun a => (f a).bind g := by
  induction p with
  | ret a => rfl
  | stmt post next ih => simp only [Prog.bind, ih]

instance : LawfulMonad (Prog σ) :=
  LawfulMonad.mk' _ (fun p => bind_ret p) (fun _ _ => rfl) Prog.bind_assoc

/-- One statement that reads the store and writes it back changed. -/
def exec (read : σ → α) (write : σ → σ) : Prog σ α := stmt write fun s => ret (read s)

/-- One statement that only reads. -/
def query (read : σ → α) : Prog σ α := exec read id

/-- One statement that only writes. -/
def write (post : σ → σ) : Prog σ Unit := exec (fun _ => ()) post

/-- The run of a program whose statements all succeed. -/
def run : Prog σ α → σ → α × σ
  | ret a, s => (a, s)
  | stmt post next, s => (next s).run (post s)

/-- The run in which statement number `n` fails, or the whole run if there are fewer. -/
def cut : Prog σ α → ℕ → σ → Option α × σ
  | ret a, _, s => (some a, s)
  | stmt _ _, 0, s => (none, s)
  | stmt post next, n + 1, s => (next s).cut n (post s)

/-- The number of statements of the run without failure. -/
def steps : Prog σ α → σ → ℕ
  | ret _, _ => 0
  | stmt post next, s => (next s).steps (post s) + 1

/-- A run with an optional failing statement. -/
def attempt (p : Prog σ α) : Option ℕ → σ → Option α × σ
  | none, s => (some (p.run s).1, (p.run s).2)
  | some n, s => p.cut n s

@[simp] theorem run_pure (a : α) (s : σ) : (pure a : Prog σ α).run s = (a, s) := rfl

@[simp] theorem run_exec (read : σ → α) (post : σ → σ) (s : σ) :
    (exec read post).run s = (read s, post s) := rfl

@[simp] theorem run_query (read : σ → α) (s : σ) : (query read).run s = (read s, s) := rfl

@[simp] theorem run_write (post : σ → σ) (s : σ) : (write post).run s = ((), post s) := rfl

@[simp] theorem steps_pure (a : α) (s : σ) : (pure a : Prog σ α).steps s = 0 := rfl

@[simp] theorem steps_exec (read : σ → α) (post : σ → σ) (s : σ) :
    (exec read post).steps s = 1 := rfl

@[simp] theorem steps_query (read : σ → α) (s : σ) : (query read).steps s = 1 := rfl

@[simp] theorem steps_write (post : σ → σ) (s : σ) : (write post).steps s = 1 := rfl

@[simp] theorem run_bind (p : Prog σ α) (f : α → Prog σ β) (s : σ) :
    (p >>= f).run s = (f (p.run s).1).run (p.run s).2 := by
  change (p.bind f).run s = _
  induction p generalizing s with
  | ret a => rfl
  | stmt post next ih => simp only [Prog.bind, run, ih]

@[simp] theorem steps_bind (p : Prog σ α) (f : α → Prog σ β) (s : σ) :
    (p >>= f).steps s = p.steps s + (f (p.run s).1).steps (p.run s).2 := by
  change (p.bind f).steps s = _
  induction p generalizing s with
  | ret a => simp [Prog.bind, steps, run]
  | stmt post next ih => simp only [Prog.bind, steps, run, ih]; omega

@[simp] theorem run_map (f : α → β) (p : Prog σ α) (s : σ) :
    (f <$> p).run s = (f (p.run s).1, (p.run s).2) := by
  rw [map_eq_pure_bind, run_bind, run_pure]

@[simp] theorem steps_map (f : α → β) (p : Prog σ α) (s : σ) : (f <$> p).steps s = p.steps s := by
  rw [map_eq_pure_bind, steps_bind, steps_pure, Nat.add_zero]

theorem cut_of_steps_le (p : Prog σ α) {n : ℕ} {s : σ} (h : p.steps s ≤ n) :
    p.cut n s = (some (p.run s).1, (p.run s).2) := by
  induction p generalizing n s with
  | ret a => rfl
  | stmt post next ih =>
    cases n with
    | zero => simp [steps] at h
    | succ n => exact ih s (by simpa [steps] using h)

/-- A failure in the first part leaves the second part undone. -/
theorem cut_bind_of_lt (p : Prog σ α) (f : α → Prog σ β) {n : ℕ} {s : σ} (h : n < p.steps s) :
    (p >>= f).cut n s = (none, (p.cut n s).2) := by
  change (p.bind f).cut n s = _
  induction p generalizing n s with
  | ret a => simp [steps] at h
  | stmt post next ih =>
    cases n with
    | zero => rfl
    | succ n => exact ih s (by simpa [steps] using h)

theorem cut_of_lt_steps (p : Prog σ α) {n : ℕ} {s : σ} (h : n < p.steps s) :
    (p.cut n s).1 = none := by
  have hcut := p.cut_bind_of_lt pure h
  rw [bind_pure] at hcut
  exact congrArg Prod.fst hcut

/-- A failure in the second part finds the first part done. -/
theorem cut_bind_of_le (p : Prog σ α) (f : α → Prog σ β) {n : ℕ} {s : σ} (h : p.steps s ≤ n) :
    (p >>= f).cut n s = (f (p.run s).1).cut (n - p.steps s) (p.run s).2 := by
  change (p.bind f).cut n s = _
  induction p generalizing n s with
  | ret a => rfl
  | stmt post next ih =>
    cases n with
    | zero => simp [steps] at h
    | succ n =>
      simp only [Prog.bind, cut, steps, run, Nat.add_sub_add_right]
      exact ih s (by simpa [steps] using h)

@[simp] theorem cut_pure (a : α) (n : ℕ) (s : σ) : (pure a : Prog σ α).cut n s = (some a, s) := rfl

@[simp] theorem cut_zero_exec (read : σ → α) (post : σ → σ) (s : σ) :
    (exec read post).cut 0 s = (none, s) := rfl

@[simp] theorem cut_zero_query (read : σ → α) (s : σ) : (query read).cut 0 s = (none, s) := rfl

@[simp] theorem cut_zero_write (post : σ → σ) (s : σ) : (write post).cut 0 s = (none, s) := rfl

theorem cut_bind (p : Prog σ α) (f : α → Prog σ β) (n : ℕ) (s : σ) :
    (p >>= f).cut n s = if n < p.steps s then (none, (p.cut n s).2)
      else (f (p.run s).1).cut (n - p.steps s) (p.run s).2 := by
  split_ifs with h
  · exact p.cut_bind_of_lt f h
  · exact p.cut_bind_of_le f (Nat.le_of_not_lt h)

theorem attempt_none (p : Prog σ α) (s : σ) : p.attempt none s = p.cut (p.steps s) s :=
  (p.cut_of_steps_le (Nat.le_refl _)).symm

theorem attempt_some_of_steps_le (p : Prog σ α) {n : ℕ} {s : σ} (h : p.steps s ≤ n) :
    p.attempt (some n) s = p.attempt none s := p.cut_of_steps_le h

/-- An attempt that returns a value has run every statement. -/
theorem attempt_eq_run {p : Prog σ α} {fault : Option ℕ} {s : σ} {a : α}
    (h : (p.attempt fault s).1 = some a) : a = (p.run s).1 ∧ (p.attempt fault s).2 = (p.run s).2 := by
  cases fault with
  | none => exact ⟨(Option.some.inj h).symm, rfl⟩
  | some n =>
    rcases Nat.lt_or_ge n (p.steps s) with hlt | hge
    · have hn : (p.attempt (some n) s).1 = none := p.cut_of_lt_steps hlt
      rw [hn] at h
      cases h
    · rw [p.attempt_some_of_steps_le hge] at h ⊢
      exact ⟨(Option.some.inj h).symm, rfl⟩

theorem attempt_bind_eq_some {p : Prog σ α} {f : α → Prog σ β} {fault : Option ℕ} {s : σ} {b : β}
    (h : ((p >>= f).attempt fault s).1 = some b) : (p.attempt fault s).1 = some (p.run s).1 := by
  cases fault with
  | none => rfl
  | some n =>
    change ((p >>= f).cut n s).1 = some b at h
    change (p.cut n s).1 = _
    rw [cut_bind] at h
    split_ifs at h with hn
    rw [p.cut_of_steps_le (Nat.le_of_not_lt hn)]

/-- `C` holds wherever the program may be cut and `Q` of its result. -/
def Holds (C : σ → Prop) (Q : α → σ → Prop) : Prog σ α → σ → Prop
  | ret a, s => C s ∧ Q a s
  | stmt post next, s => C s ∧ (next s).Holds C Q (post s)

variable {C : σ → Prop} {Q : α → σ → Prop}

theorem Holds.mono {C' : σ → Prop} {Q' : α → σ → Prop} {p : Prog σ α} {s : σ}
    (h : p.Holds C Q s) (hc : ∀ t, C t → C' t) (hq : ∀ a t, Q a t → Q' a t) :
    p.Holds C' Q' s := by
  induction p generalizing s with
  | ret a => exact ⟨hc _ h.1, hq _ _ h.2⟩
  | stmt post next ih => exact ⟨hc _ h.1, ih s h.2⟩

/-- The rule of conjunction. -/
theorem Holds.and {C' : σ → Prop} {Q' : α → σ → Prop} {p : Prog σ α} {s : σ} (h : p.Holds C Q s)
    (h' : p.Holds C' Q' s) :
    p.Holds (fun t => C t ∧ C' t) (fun a t => Q a t ∧ Q' a t) s := by
  induction p generalizing s with
  | ret a => exact ⟨⟨h.1, h'.1⟩, h.2, h'.2⟩
  | stmt post next ih => exact ⟨⟨h.1, h'.1⟩, ih s h.2 h'.2⟩

theorem Holds.start {p : Prog σ α} {s : σ} (h : p.Holds C Q s) : C s := by
  cases p <;> exact h.1

@[simp] theorem holds_pure (a : α) (s : σ) :
    (pure a : Prog σ α).Holds C Q s ↔ C s ∧ Q a s := Iff.rfl

@[simp] theorem holds_exec (read : σ → α) (post : σ → σ) (s : σ) :
    (exec read post).Holds C Q s ↔ C s ∧ C (post s) ∧ Q (read s) (post s) := Iff.rfl

@[simp] theorem holds_query (read : σ → α) (s : σ) :
    (query read).Holds C Q s ↔ C s ∧ C s ∧ Q (read s) s := Iff.rfl

@[simp] theorem holds_write (post : σ → σ) (s : σ) {Q : Unit → σ → Prop} :
    (write post).Holds C Q s ↔ C s ∧ C (post s) ∧ Q () (post s) := Iff.rfl

/-- The rule of sequential composition. -/
theorem holds_bind {Q : β → σ → Prop} (p : Prog σ α) (f : α → Prog σ β) (s : σ) :
    (p >>= f).Holds C Q s ↔ p.Holds C (fun a => (f a).Holds C Q) s := by
  change (p.bind f).Holds C Q s ↔ _
  induction p generalizing s with
  | ret a => exact ⟨fun h => ⟨h.start, h⟩, fun h => h.2⟩
  | stmt post next ih => simp only [Prog.bind, Holds, ih]

theorem holds_map {Q : β → σ → Prop} (f : α → β) (p : Prog σ α) (s : σ) :
    (f <$> p).Holds C Q s ↔ p.Holds C (fun a => Q (f a)) s := by
  rw [map_eq_pure_bind, holds_bind]
  constructor
  · exact fun h => h.mono (fun _ => id) fun _ _ hq => hq.2
  · intro h
    induction p generalizing s with
    | ret a => exact ⟨h.1, h.1, h.2⟩
    | stmt post next ih => exact ⟨h.1, ih s _ h.2⟩

theorem Holds.run {p : Prog σ α} {s : σ} (h : p.Holds C Q s) :
    C (p.run s).2 ∧ Q (p.run s).1 (p.run s).2 := by
  induction p generalizing s with
  | ret a => exact h
  | stmt post next ih => exact ih s h.2

theorem Holds.cut {p : Prog σ α} {s : σ} (h : p.Holds C Q s) (n : ℕ) : C (p.cut n s).2 := by
  induction p generalizing n s with
  | ret a => exact h.1
  | stmt post next ih =>
    cases n with
    | zero => exact h.1
    | succ n => exact ih s h.2 n

theorem Holds.attempt {p : Prog σ α} {s : σ} (h : p.Holds C Q s) (fault : Option ℕ) :
    C (p.attempt fault s).2 := by
  cases fault with
  | none => exact h.run.1
  | some n => exact h.cut n

/-- Every statement of the program, wherever it runs, moves the store along `R`. -/
def Within (R : σ → σ → Prop) : Prog σ α → Prop
  | ret _ => True
  | stmt post next => ∀ s, R s (post s) ∧ (next s).Within R

variable {R : σ → σ → Prop}

@[simp] theorem within_pure (a : α) : (pure a : Prog σ α).Within R := trivial

theorem within_bind {p : Prog σ α} {f : α → Prog σ β} (hp : p.Within R)
    (hf : ∀ a, (f a).Within R) : (p >>= f).Within R := by
  change (p.bind f).Within R
  induction p with
  | ret a => exact hf a
  | stmt post next ih => exact fun s => ⟨(hp s).1, ih s (hp s).2⟩

theorem within_exec {read : σ → α} {post : σ → σ} (h : ∀ s, R s (post s)) :
    (exec read post).Within R := fun s => ⟨h s, trivial⟩

theorem within_query [Std.Refl R] (read : σ → α) : (query read).Within R :=
  within_exec fun s => refl_of R s

theorem Within.mono {R' : σ → σ → Prop} {p : Prog σ α} (h : p.Within R)
    (hr : ∀ s t, R s t → R' s t) : p.Within R' := by
  induction p with
  | ret a => trivial
  | stmt post next ih => exact fun s => ⟨hr _ _ (h s).1, ih s (h s).2⟩

/-- A preorder that every statement follows relates the start to every cut and the end. -/
theorem Within.holds [Std.Refl R] [IsTrans σ R] {p : Prog σ α} (h : p.Within R) (s : σ) :
    p.Holds (R s) (fun _ => R s) s := by
  suffices H : ∀ t, R s t → p.Holds (R s) (fun _ => R s) t from H s (refl_of R s)
  induction p with
  | ret a => exact fun t ht => ⟨ht, ht⟩
  | stmt post next ih => exact fun t ht => ⟨ht, ih t (h t).2 _ (trans_of R ht (h t).1)⟩

section Keeps

variable {f : σ → γ}

/-- No statement of the program changes `f`. -/
def Keeps (f : σ → γ) (p : Prog σ α) : Prop := p.Within fun s t => f t = f s

@[simp] theorem keeps_pure (a : α) : Keeps f (pure a : Prog σ α) := trivial

theorem keeps_exec {read : σ → α} {post : σ → σ} (h : ∀ s, f (post s) = f s) :
    Keeps f (exec read post) := within_exec h

@[simp] theorem keeps_query (read : σ → α) : Keeps f (query read) := keeps_exec fun _ => rfl

theorem keeps_write {post : σ → σ} (h : ∀ s, f (post s) = f s) : Keeps f (write post) :=
  keeps_exec h

theorem keeps_bind {p : Prog σ α} {g : α → Prog σ β} (hp : Keeps f p)
    (hg : ∀ a, Keeps f (g a)) : Keeps f (p >>= g) := within_bind hp hg

theorem Keeps.comp {δ : Type} {p : Prog σ α} (h : Keeps f p) (g : γ → δ) :
    Keeps (fun s => g (f s)) p := Within.mono h fun _ _ => congrArg g

theorem Keeps.holds {p : Prog σ α} (h : Keeps f p) (s : σ) :
    p.Holds (fun t => f t = f s) (fun _ t => f t = f s) s := by
  suffices H : ∀ t, f t = f s → p.Holds (fun t => f t = f s) (fun _ t => f t = f s) t from H s rfl
  induction p with
  | ret a => exact fun t ht => ⟨ht, ht⟩
  | stmt post next ih => exact fun t ht => ⟨ht, ih t (h t).2 _ ((h t).1.trans ht)⟩

theorem Keeps.run {p : Prog σ α} (h : Keeps f p) (s : σ) : f (p.run s).2 = f s := (h.holds s).run.1

theorem Keeps.attempt {p : Prog σ α} (h : Keeps f p) (fault : Option ℕ) (s : σ) :
    f (p.attempt fault s).2 = f s := (h.holds s).attempt fault

theorem cut_bind_keeps {p : Prog σ α} {g : α → Prog σ β} (hg : ∀ a, Keeps f (g a)) (n : ℕ)
    (s : σ) : f ((p >>= g).cut n s).2 = f (p.cut n s).2 := by
  rcases Nat.lt_or_ge n (p.steps s) with hlt | hge
  · rw [cut_bind_of_lt _ _ hlt]
  · rw [cut_bind_of_le _ _ hge, p.cut_of_steps_le hge]
    exact (hg _).attempt (some _) _

theorem attempt_bind_keeps {p : Prog σ α} {g : α → Prog σ β} (hg : ∀ a, Keeps f (g a))
    (fault : Option ℕ) (s : σ) : f ((p >>= g).attempt fault s).2 = f (p.attempt fault s).2 := by
  cases fault with
  | none =>
    change f ((p >>= g).run s).2 = f (p.run s).2
    rw [run_bind]
    exact (hg _).run _
  | some n => exact cut_bind_keeps hg n s

/-- No attempt of the program that fails changes `f`. -/
def Quiet (f : σ → γ) (p : Prog σ α) : Prop :=
  ∀ fault s, (p.attempt fault s).1 = none → f (p.attempt fault s).2 = f s

/-- Only the last part of a quiet program changes `f`. -/
theorem quiet_bind {p : Prog σ α} {g : α → Prog σ β} (hp : Keeps f p) (hg : ∀ a, Quiet f (g a)) :
    Quiet f (p >>= g) := by
  rintro (- | n) s h
  · cases h
  · change ((p >>= g).cut n s).1 = none at h
    change f ((p >>= g).cut n s).2 = f s
    rw [cut_bind] at h ⊢
    split_ifs at h ⊢ with hn
    · exact hp.attempt (some n) s
    · exact (hg _ (some _) _ h).trans (hp.run s)

theorem Quiet.bind_pure {p : Prog σ α} (hp : Quiet f p) (g : α → β) :
    Quiet f (p >>= fun a => pure (g a)) := by
  rintro (- | n) s h
  · cases h
  · change ((p >>= fun a => pure (g a)).cut n s).1 = none at h
    change f ((p >>= fun a => pure (g a)).cut n s).2 = f s
    rw [cut_bind] at h ⊢
    split_ifs at h ⊢ with hn
    · exact hp (some n) s (p.cut_of_lt_steps hn)
    · cases h

end Keeps

end Prog

end Library

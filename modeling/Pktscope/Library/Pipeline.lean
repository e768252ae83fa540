import Mathlib.Data.List.Forall2
import Pktscope.Library.Prog

/-! # Pipelines

A pipeline runs stages one after the other and collects what they report. If no
stage changes what another one looks at, the report of the whole is the reports
that the stages make of the store before it, and after a cut only the stage
that was cut can look at something new.
-/

namespace Library

open Prog

variable {σ α β γ : Type}

/-- A program that reports, with its report as a function of the store before it. -/
structure Stage (σ α β : Type) where
  prog : Prog σ (List α)
  view : σ → List β

namespace Stage

/-- The stages in order, with their reports joined. -/
def runAll : List (Stage σ α β) → Prog σ (List α)
  | [] => pure []
  | p :: ps => do
    let a ← p.prog
    let b ← runAll ps
    return a ++ b

/-- The stage reports what its view says, up to `g`. -/
def Sound (g : α → β) (p : Stage σ α β) : Prop := ∀ s, (p.prog.run s).1.map g = p.view s

variable {ps pre post : List (Stage σ α β)} {f : σ → γ}

theorem runAll_append (pre post : List (Stage σ α β)) :
    runAll (pre ++ post) = do
      let a ← runAll pre
      let b ← runAll post
      return a ++ b := by
  induction pre with
  | nil => simp [runAll]
  | cons p pre ih =>
    simp only [List.cons_append, runAll, ih, bind_assoc, pure_bind, List.append_assoc]

theorem within_runAll {R : σ → σ → Prop} (h : ∀ p ∈ ps, p.prog.Within R) :
    (runAll ps).Within R := by
  induction ps with
  | nil => trivial
  | cons p ps ih =>
    exact within_bind (h p List.mem_cons_self) fun _ =>
      within_bind (ih fun q hq => h q (List.mem_cons_of_mem _ hq)) fun _ => trivial

theorem keeps_runAll (h : ∀ p ∈ ps, Keeps f p.prog) : Keeps f (runAll ps) := within_runAll h

/-- What every stage preserves holds wherever the pipeline is cut. -/
theorem holds_runAll {J : σ → Prop}
    (h : ∀ p ∈ ps, ∀ s, J s → p.prog.Holds J (fun _ => J) s) {s : σ} (hs : J s) :
    (runAll ps).Holds J (fun _ => J) s := by
  induction ps generalizing s with
  | nil => exact ⟨hs, hs⟩
  | cons p ps ih =>
    rw [runAll, holds_bind]
    refine (h p List.mem_cons_self s hs).mono (fun _ => id) fun _ t ht => ?_
    rw [holds_bind]
    exact (ih (fun q hq => h q (List.mem_cons_of_mem _ hq)) ht).mono (fun _ => id)
      fun _ _ hu => ⟨hu, hu⟩

theorem run_runAll {g : α → β} (hs : ∀ p ∈ ps, p.Sound g)
    (hk : ps.Pairwise fun p q => Keeps q.view p.prog) (s : σ) :
    ((runAll ps).run s).1.map g = ps.flatMap fun p => p.view s := by
  induction ps generalizing s with
  | nil => rfl
  | cons p ps ih =>
    obtain ⟨hp, hk⟩ := List.pairwise_cons.mp hk
    have hview : (ps.flatMap fun q => q.view (p.prog.run s).2) = ps.flatMap fun q => q.view s :=
      List.flatMap_congr fun q hq => (hp q hq).run s
    simp only [runAll, run_bind, run_pure, List.map_append, List.flatMap_cons]
    rw [hs p List.mem_cons_self s, ih (fun q hq => hs q (List.mem_cons_of_mem _ hq)) hk, hview]

theorem run_runAll_append (s : σ) :
    ((runAll (pre ++ post)).run s).2 = ((runAll post).run ((runAll pre).run s).2).2 := by
  rw [runAll_append]
  simp only [run_bind, run_pure]

theorem view_run {p : Stage σ α β} (hpost : ∀ q ∈ post, Keeps f q.prog) (s : σ) :
    f ((runAll (pre ++ p :: post)).run s).2 = f (p.prog.run ((runAll pre).run s).2).2 := by
  rw [run_runAll_append]
  simp only [runAll, run_bind, run_pure]
  exact (keeps_runAll hpost).run _

/-- What a stage sees after a cut, if all other stages leave its view alone. -/
theorem view_cut {p : Stage σ α β} (hpre : ∀ q ∈ pre, Keeps f q.prog)
    (hpost : ∀ q ∈ post, Keeps f q.prog) (n : ℕ) (s : σ) :
    f ((runAll (pre ++ p :: post)).cut n s).2 =
      if n < (runAll pre).steps s then f s
      else f (p.prog.cut (n - (runAll pre).steps s) ((runAll pre).run s).2).2 := by
  rw [runAll_append]
  split_ifs with hn
  · rw [cut_bind_of_lt _ _ hn]
    exact (keeps_runAll hpre).attempt (some n) s
  · rw [cut_bind_of_le _ _ (Nat.le_of_not_lt hn)]
    generalize ((runAll pre).run s).2 = t
    generalize ((runAll pre).run s).1 = a
    generalize n - (runAll pre).steps s = m
    rw [runAll, bind_assoc]
    rcases Nat.lt_or_ge m (p.prog.steps t) with hm | hm
    · rw [cut_bind_of_lt _ _ hm]
    · rw [cut_bind_of_le _ _ hm, p.prog.cut_of_steps_le hm]
      refine Keeps.attempt (f := f) ?_ (some _) _
      exact keeps_bind (keeps_bind (keeps_runAll hpost) fun _ => trivial) fun _ => trivial

section Reports

variable {κ : Type} [DecidableEq κ] {ks : List κ} {c : β → κ}

theorem filter_flatMap (hks : ks.Nodup) {r : κ → List β} (hr : ∀ k, ∀ b ∈ r k, c b = k) {k : κ}
    (hk : k ∈ ks) : (ks.flatMap r).filter (fun b => decide (c b = k)) = r k := by
  have own : (r k).filter (fun b => decide (c b = k)) = r k :=
    List.filter_eq_self.mpr fun b hb => decide_eq_true (hr k b hb)
  have other {j : κ} (hj : j ≠ k) : (r j).filter (fun b => decide (c b = k)) = [] :=
    List.filter_eq_nil_iff.mpr fun b hb h => hj ((hr j b hb).symm.trans (of_decide_eq_true h))
  induction ks with
  | nil => cases hk
  | cons j ks ih =>
    obtain ⟨hj, hks⟩ := List.nodup_cons.mp hks
    rw [List.flatMap_cons, List.filter_append]
    rcases List.mem_cons.mp hk with rfl | hk
    · have hrest : (ks.flatMap r).filter (fun b => decide (c b = k)) = [] := by
        refine List.filter_eq_nil_iff.mpr fun b hb h => ?_
        obtain ⟨i, hi, hbi⟩ := List.mem_flatMap.mp hb
        exact hj ((hr i b hbi).symm.trans (of_decide_eq_true h) ▸ hi)
      rw [own, hrest, List.append_nil]
    · have hne : j ≠ k := fun he => hj (he ▸ hk)
      rw [other hne, List.nil_append, ih hks hk]

omit [DecidableEq κ] in
theorem countP_flatMap_le (hks : ks.Nodup) {r : κ → List β} {q : β → Bool} (k₀ : κ)
    (hq : ∀ k, ∀ b ∈ r k, q b = true → k = k₀) : (ks.flatMap r).countP q ≤ (r k₀).length := by
  have other {k : κ} (hk : k ≠ k₀) : (r k).countP q = 0 :=
    List.countP_eq_zero.mpr fun b hb hqb => hk (hq k b hb hqb)
  induction ks with
  | nil => exact Nat.zero_le _
  | cons k ks ih =>
    obtain ⟨hk, hks⟩ := List.nodup_cons.mp hks
    rw [List.flatMap_cons, List.countP_append]
    by_cases he : k = k₀
    · subst he
      have hrest : (ks.flatMap r).countP q = 0 := by
        refine List.countP_eq_zero.mpr fun b hb hqb => ?_
        obtain ⟨j, hj, hbj⟩ := List.mem_flatMap.mp hb
        exact hk (hq j b hbj hqb ▸ hj)
      rw [hrest, Nat.add_zero]
      exact List.countP_le_length
    · rw [other he, Nat.zero_add]
      exact ih hks

theorem flatMap_inj (hks : ks.Nodup) {r r' : κ → List β} (hr : ∀ k, ∀ b ∈ r k, c b = k)
    (hr' : ∀ k, ∀ b ∈ r' k, c b = k) :
    ks.flatMap r = ks.flatMap r' ↔ ∀ k ∈ ks, r k = r' k := by
  constructor
  · intro h k hk
    rw [← filter_flatMap hks hr hk, h, filter_flatMap hks hr' hk]
  · exact fun h => List.flatMap_congr h

end Reports

section Chain

/-- A stage that is handed the reports so far only adds to them. -/
def Appends (p : List α → Prog σ (List α)) : Prop := ∀ out, p out = (out ++ ·) <$> p []

/-- Stages that hand their reports on. -/
def chain : List (List α → Prog σ (List α)) → List α → Prog σ (List α)
  | [], out => pure out
  | p :: ps, out => p out >>= chain ps

theorem appends_pure : Appends (fun out => (pure out : Prog σ (List α))) := by
  intro out
  simp

theorem appends_bind {q : Prog σ γ} {r : γ → List α → Prog σ (List α)}
    (hr : ∀ a, Appends (r a)) : Appends fun out => q >>= fun a => r a out := by
  intro out
  simp only [map_bind]
  exact congrArg _ (funext fun a => hr a out)

theorem appends_ite {c : Prop} [Decidable c] {p q : List α → Prog σ (List α)} (hp : Appends p)
    (hq : Appends q) : Appends fun out => if c then p out else q out := by
  by_cases h : c
  · simpa only [if_pos h] using hp
  · simpa only [if_neg h] using hq

theorem chain_eq {ps : List (List α → Prog σ (List α))} {stages : List (Stage σ α β)}
    (h : List.Forall₂ (fun p q => Appends p ∧ p [] = q.prog) ps stages) (out : List α) :
    chain ps out = (out ++ ·) <$> runAll stages := by
  induction h generalizing out with
  | nil => simp [chain, runAll]
  | cons hp _ ih =>
    rw [chain, hp.1 out, hp.2]
    simp only [runAll, ih, map_eq_pure_bind, bind_assoc, pure_bind, List.append_assoc]

end Chain

end Stage

end Library

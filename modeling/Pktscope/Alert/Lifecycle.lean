import Pktscope.Alert.Baseline

/-! # The learning window

The lifecycle of the baseline as three phases, and the statements of
`ensureStarted` as moves between them. The phases say what an interrupted start
leaves behind: a start that is cut after its first write and before its last
one learns with no end.
-/

namespace Pktscope

open Library Library.Prog Store

/-- Where the lifecycle stands; `learning none` has no end in the store. -/
inductive Phase where
  | unstarted
  | learning (ends : Option ℤ)
  | active
  deriving DecidableEq

namespace Phase

/-- The phase once a start has gone through. -/
def begin (ends : ℤ) : Phase → Phase
  | unstarted => learning (some ends)
  | p => p

/-- The phase once a window that has elapsed is promoted. -/
def settle (now : ℤ) : Phase → Phase
  | learning (some ends) => if ends ≤ now then active else learning (some ends)
  | p => p

def toState : Phase → BaselineState
  | active => .active
  | _ => .learning

@[simp] theorem settle_active (now : ℤ) : settle now active = active := rfl

@[simp] theorem settle_stuck (now : ℤ) : settle now (learning none) = learning none := rfl

end Phase

/-- A call of `ensureStarted`, with the statement at which it is cut short. -/
structure StartCall (F : Type) where
  cfg : AlertConfig F
  nowMs : ℤ
  inRange : I64.InRange nowMs
  fault : Option ℕ

namespace Baseline

variable {F : Type}

/-- The phase that the store is in. -/
def phase (s : Store F) : Phase :=
  match s.metaRows.lookup "baseline_state" with
  | none => .unstarted
  | some text =>
    match readBaselineState (some text) with
    | .active => .active
    | .learning => .learning (readI64 (s.metaRows.lookup "learning_ends_ms"))

/-- No end is stored before the lifecycle has a state. -/
def Clean (s : Store F) : Prop :=
  s.metaRows.lookup "baseline_state" = none → s.metaRows.lookup "learning_ends_ms" = none

theorem phase_congr {s t : Store F} (h : t.metaRows = s.metaRows) : phase t = phase s := by
  unfold phase
  rw [h]

theorem clean_congr {s t : Store F} (h : t.metaRows = s.metaRows) : Clean t ↔ Clean s := by
  unfold Clean
  rw [h]

theorem phase_of_none {s : Store F} (h : s.metaRows.lookup "baseline_state" = none) :
    phase s = .unstarted := by
  simp [phase, h]

theorem phase_of_some {s : Store F} {text : String}
    (h : s.metaRows.lookup "baseline_state" = some text) :
    phase s = if text = "active" then .active
      else .learning (readI64 (s.metaRows.lookup "learning_ends_ms")) := by
  unfold phase
  rw [h]
  by_cases ht : text = "active" <;> simp [readBaselineState, ht]

theorem toState_phase (s : Store F) :
    readBaselineState (s.metaRows.lookup "baseline_state") = (phase s).toState := by
  cases h : s.metaRows.lookup "baseline_state" with
  | none => simp [phase_of_none h, readBaselineState, Phase.toState]
  | some text =>
    rw [phase_of_some h]
    by_cases ht : text = "active" <;> simp [readBaselineState, ht, Phase.toState]

theorem Clean.of_some {s : Store F} {text : String}
    (h : s.metaRows.lookup "baseline_state" = some text) : Clean s :=
  fun hn => by rw [h] at hn; cases hn

section Start

variable (cfg : AlertConfig F) (nowMs : ℤ) {s : Store F}

/-- The store after the first and the second write of a start. -/
def stateSet (s : Store F) : Store F :=
  { s with metaRows := s.metaRows.insert "baseline_state" "learning" }

def startedSet (s : Store F) : Store F :=
  { s with
    metaRows := (stateSet s).metaRows.insert "learning_started_ms" (toString nowMs) }

/-- The store after a whole start. -/
def begun (s : Store F) : Store F :=
  { s with
    metaRows := (startedSet nowMs s).metaRows.insert "learning_ends_ms"
      (toString (endsAt cfg nowMs)) }

theorem startLearning_of_some {text : String}
    (h : s.metaRows.lookup "baseline_state" = some text) :
    (startLearning cfg nowMs).run s = ((), s) ∧ (startLearning cfg nowMs).steps s = 1 := by
  simp [startLearning, metaGet, h]

theorem startLearning_of_none (h : s.metaRows.lookup "baseline_state" = none) :
    (startLearning cfg nowMs).run s = ((), begun cfg nowMs s) ∧
      (startLearning cfg nowMs).steps s = 4 := by
  simp [startLearning, metaGet, metaSet, h, begun, startedSet, stateSet]

theorem cut_startLearning_of_none (h : s.metaRows.lookup "baseline_state" = none) {n : ℕ}
    (hn : n < 4) :
    ((startLearning cfg nowMs).cut n s).2 =
      if n ≤ 1 then s else if n = 2 then stateSet s else startedSet nowMs s := by
  rcases n with _ | _ | _ | _ | n
  · simp [startLearning, metaGet, cut_bind]
  · simp [startLearning, metaGet, metaSet, h, cut_bind]
  · simp [startLearning, metaGet, metaSet, h, cut_bind, stateSet]
  · simp [startLearning, metaGet, metaSet, h, cut_bind, stateSet, startedSet]
  · omega

theorem state_stateSet (s : Store F) :
    (stateSet s).metaRows.lookup "baseline_state" = some "learning" :=
  AList.lookup_insert _

theorem state_startedSet (s : Store F) :
    (startedSet nowMs s).metaRows.lookup "baseline_state" = some "learning" := by
  rw [startedSet, AList.lookup_insert_ne (by decide), state_stateSet]

theorem state_begun (s : Store F) :
    (begun cfg nowMs s).metaRows.lookup "baseline_state" = some "learning" := by
  rw [begun, AList.lookup_insert_ne (by decide), state_startedSet]

theorem phase_begun (s : Store F) :
    phase (begun cfg nowMs s) = .learning (some (endsAt cfg nowMs)) := by
  have hr : I64.InRange (endsAt cfg nowMs) := I64.saturatingAdd_inRange _ _
  rw [phase_of_some (state_begun cfg nowMs s), if_neg (by decide), begun, AList.lookup_insert,
    readI64_toString hr]

theorem phase_stateSet (hc : s.metaRows.lookup "learning_ends_ms" = none) :
    phase (stateSet s) = .learning none := by
  rw [phase_of_some (state_stateSet s), if_neg (by decide), stateSet,
    AList.lookup_insert_ne (by decide), hc]
  rfl

theorem phase_startedSet (hc : s.metaRows.lookup "learning_ends_ms" = none) :
    phase (startedSet nowMs s) = .learning none := by
  rw [phase_of_some (state_startedSet nowMs s), if_neg (by decide), startedSet,
    AList.lookup_insert_ne (by decide), stateSet, AList.lookup_insert_ne (by decide), hc]
  rfl

end Start

section Promote

variable (nowMs : ℤ) {s : Store F}

/-- The store after the promotion. -/
def activated (s : Store F) : Store F :=
  { s with metaRows := s.metaRows.insert "baseline_state" "active" }

theorem phase_activated (s : Store F) : phase (activated s) = .active := by
  rw [phase_of_some (AList.lookup_insert _), if_pos rfl]

theorem clean_activated (s : Store F) : Clean (activated s) :=
  .of_some (AList.lookup_insert _)

theorem ends_of_phase (hc : Clean s) (h : (phase s).toState = .learning) :
    phase s = .unstarted ∧ readI64 (s.metaRows.lookup "learning_ends_ms") = none ∨
      phase s = .learning (readI64 (s.metaRows.lookup "learning_ends_ms")) := by
  cases hs : s.metaRows.lookup "baseline_state" with
  | none => exact Or.inl ⟨phase_of_none hs, by rw [hc hs]; rfl⟩
  | some text =>
    rw [phase_of_some hs] at h ⊢
    split_ifs at h ⊢ with ht
    · cases h
    · exact Or.inr rfl

/-- Before or after the promotion of `s`. -/
def Settling (s t : Store F) : Prop :=
  Clean t ∧ (phase t = phase s ∨ phase t = (phase s).settle nowMs)

def Settled (s t : Store F) : Prop := Clean t ∧ phase t = (phase s).settle nowMs

theorem Settled.settling {s t : Store F} (h : Settled nowMs s t) : Settling nowMs s t :=
  ⟨h.1, Or.inr h.2⟩

/-- The promotion is cut before its write, or not at all. -/
theorem promote_holds (hc : Clean s) :
    (promote nowMs).Holds (Settling nowMs s) (fun _ => Settled nowMs s) s := by
  have same : Settling nowMs s s := ⟨hc, Or.inl rfl⟩
  have done : (phase s).settle nowMs = phase s → Settled nowMs s s := fun h => ⟨hc, h.symm⟩
  simp only [promote, baselineState, metaGetI64, metaGet, metaSet, bind_pure_comp, holds_bind,
    holds_map, holds_query, same, toState_phase, true_and]
  cases hst : (phase s).toState with
  | active =>
    have hp : phase s = .active := by
      cases hp : phase s <;> rw [hp] at hst <;> first | rfl | cases hst
    exact ⟨same, done (by rw [hp]; rfl)⟩
  | learning =>
    simp only [holds_bind, holds_map, holds_query, same, true_and]
    rcases ends_of_phase hc hst with ⟨hp, he⟩ | hp
    · rw [he]
      exact ⟨same, done (by rw [hp]; rfl)⟩
    · cases he : readI64 (s.metaRows.lookup "learning_ends_ms") with
      | none =>
        rw [he] at hp
        exact ⟨same, done (by rw [hp]; rfl)⟩
      | some ends =>
        rw [he] at hp
        by_cases hn : nowMs ≥ ends
        · have ha : Settled nowMs s (activated s) :=
            ⟨clean_activated s, by rw [phase_activated, hp, Phase.settle, if_pos hn]⟩
          simp only [if_pos hn, holds_write, same, true_and]
          exact ⟨ha.settling, ha⟩
        · simp only [if_neg hn, holds_pure, same, true_and]
          exact done (by rw [hp, Phase.settle, if_neg hn])

theorem settle_holds (hc : Clean s) :
    (promote nowMs >>= fun _ => baselineState).Holds (Settling nowMs s)
      (fun st t => st = ((phase s).settle nowMs).toState ∧ Settled nowMs s t) s := by
  rw [holds_bind]
  refine (promote_holds nowMs hc).mono (fun _ => id) fun _ t ht => ?_
  simp only [baselineState, metaGet, bind_pure_comp, holds_map, holds_query, ht.settling,
    true_and]
  exact ⟨by rw [toState_phase, ht.2], ht⟩

end Promote

section EnsureStarted

variable (cfg : AlertConfig F) (nowMs : ℤ) {s : Store F}

theorem ensureStarted_eq :
    ensureStarted cfg nowMs =
      startLearning cfg nowMs >>= fun _ => promote nowMs >>= fun _ => baselineState := rfl

/-- The phase after a call without failure. -/
def after (p : Phase) : Phase := (p.begin (endsAt cfg nowMs)).settle nowMs

theorem begin_of_some {text : String} (h : s.metaRows.lookup "baseline_state" = some text)
    (ends : ℤ) : (phase s).begin ends = phase s := by
  rw [phase_of_some h]
  split_ifs <;> rfl

theorem after_ne_unstarted (p : Phase) : after cfg nowMs p ≠ .unstarted := by
  have settle_learning : ∀ ends : ℤ, (Phase.learning (some ends)).settle nowMs ≠ .unstarted := by
    intro ends h
    rw [Phase.settle] at h
    split_ifs at h
  rcases p with _ | (_ | ends) | _
  · exact settle_learning _
  · exact fun h => nomatch h
  · exact settle_learning ends
  · exact fun h => nomatch h

/-- What `ensureStarted` does to the phase when no statement fails. -/
theorem run_ensureStarted (hc : Clean s) :
    ((ensureStarted cfg nowMs).run s).1 = (after cfg nowMs (phase s)).toState ∧
      Clean ((ensureStarted cfg nowMs).run s).2 ∧
      phase ((ensureStarted cfg nowMs).run s).2 = after cfg nowMs (phase s) := by
  rw [ensureStarted_eq, run_bind, after]
  cases h : s.metaRows.lookup "baseline_state" with
  | none =>
    rw [(startLearning_of_none cfg nowMs h).1, phase_of_none h]
    have hb := (settle_holds nowMs (.of_some (state_begun cfg nowMs s))).run.2
    rwa [Settled, phase_begun] at hb
  | some text =>
    rw [(startLearning_of_some cfg nowMs h).1, begin_of_some h]
    exact (settle_holds nowMs hc).run.2

/-- What a cut call leaves, unless it is cut between the first and the last write of a start. -/
theorem cut_ensureStarted (hc : Clean s) {n : ℕ}
    (hn : s.metaRows.lookup "baseline_state" = none → n ≠ 2 ∧ n ≠ 3) :
    let t := ((ensureStarted cfg nowMs).cut n s).2
    Clean t ∧ (phase t = phase s ∨ phase t = (phase s).begin (endsAt cfg nowMs) ∨
      phase t = after cfg nowMs (phase s)) := by
  rw [ensureStarted_eq, after]
  cases h : s.metaRows.lookup "baseline_state" with
  | none =>
    have hs := startLearning_of_none cfg nowMs h
    rcases Nat.lt_or_ge n 4 with hlt | hge
    · have hle : n ≤ 1 := by have := hn h; omega
      rw [cut_bind_of_lt _ _ (by rw [hs.2]; exact hlt), cut_startLearning_of_none cfg nowMs h hlt,
        if_pos hle]
      exact ⟨hc, Or.inl rfl⟩
    · rw [cut_bind_of_le _ _ (by rw [hs.2]; exact hge), hs.1, phase_of_none h]
      have hb := (settle_holds nowMs (.of_some (state_begun cfg nowMs s))).cut (n - 4)
      rw [Settling, phase_begun] at hb
      rw [hs.2]
      exact ⟨hb.1, Or.inr hb.2⟩
  | some text =>
    have hs := startLearning_of_some cfg nowMs h
    rw [begin_of_some h]
    rcases Nat.eq_zero_or_pos n with rfl | hpos
    · rw [cut_bind_of_lt _ _ (by rw [hs.2]; exact Nat.one_pos)]
      refine ⟨?_, Or.inl ?_⟩ <;> simp [startLearning, metaGet, cut_bind, hc]
    · rw [cut_bind_of_le _ _ (by rw [hs.2]; exact hpos), hs.1]
      have hb := (settle_holds nowMs hc).cut (n - 1)
      rw [hs.2]
      exact ⟨hb.1, Or.inr hb.2⟩

/-- A start that is cut between its first and its last write learns with no end. -/
theorem cut_torn (hc : Clean s) (h : s.metaRows.lookup "baseline_state" = none) {n : ℕ}
    (hn : n = 2 ∨ n = 3) :
    let t := ((ensureStarted cfg nowMs).cut n s).2
    Clean t ∧ phase t = .learning none := by
  have hs := startLearning_of_none cfg nowMs h
  have hlt : n < 4 := by omega
  rw [ensureStarted_eq, cut_bind_of_lt _ _ (by rw [hs.2]; exact hlt),
    cut_startLearning_of_none cfg nowMs h hlt]
  rcases hn with rfl | rfl
  · exact ⟨.of_some (state_stateSet s), phase_stateSet (hc h)⟩
  · exact ⟨.of_some (state_startedSet nowMs s), phase_startedSet nowMs (hc h)⟩

end EnsureStarted

end Baseline

namespace StartCall

variable {F : Type} (c : StartCall F) (s : Store F)

def attempt : Option BaselineState × Store F :=
  (Baseline.ensureStarted c.cfg c.nowMs).attempt c.fault s

/-- The end of the window that the call opens if it starts the lifecycle. -/
def ends : ℤ := Baseline.endsAt c.cfg c.nowMs

/-- The call finds no lifecycle and is cut between its first and its last write. -/
def Torn : Prop :=
  s.metaRows.lookup "baseline_state" = none ∧ (c.fault = some 2 ∨ c.fault = some 3)

end StartCall

namespace Baseline

variable {F : Type}

/-- The store after some calls, each of them cut or not. -/
def runCalls (s : Store F) (calls : List (StartCall F)) : Store F :=
  calls.foldl (fun s c => (c.attempt s).2) s

/-- No call of a run is torn. -/
def TornFree : Store F → List (StartCall F) → Prop
  | _, [] => True
  | s, c :: calls => ¬ c.Torn s ∧ TornFree (c.attempt s).2 calls

/-- From `bound` on, the next call that succeeds finds the baseline active. -/
def ActiveFrom (bound : ℤ) (s : Store F) : Prop :=
  ∀ c : StartCall F, bound ≤ c.nowMs → ∀ st, (c.attempt s).1 = some st → st = .active

/-- A store without a lifecycle, such as an empty one. -/
def Fresh (s : Store F) : Prop :=
  s.metaRows.lookup "baseline_state" = none ∧ s.metaRows.lookup "learning_ends_ms" = none

theorem fresh_openNew : Fresh (Store.openNew : Store F) := ⟨rfl, rfl⟩

/-- The phases without a torn start: a window that is open is the one of an earlier call. -/
def Timed (calls : List (StartCall F)) (p : Phase) : Prop :=
  p = .unstarted ∨ p = .active ∨ ∃ c ∈ calls, p = .learning (some c.ends)

section Step

variable {c : StartCall F} {s : Store F} {calls : List (StartCall F)}

theorem Timed.mono {calls' : List (StartCall F)} {p : Phase} (h : Timed calls p)
    (hc : calls ⊆ calls') : Timed calls' p := by
  rcases h with h | h | ⟨c, hm, h⟩
  · exact Or.inl h
  · exact Or.inr (Or.inl h)
  · exact Or.inr (Or.inr ⟨c, hc hm, h⟩)

theorem Timed.begin {p : Phase} (h : Timed calls p) (hc : c ∈ calls) :
    Timed calls (p.begin c.ends) := by
  cases p with
  | unstarted => exact Or.inr (Or.inr ⟨c, hc, rfl⟩)
  | learning ends => exact h
  | active => exact h

theorem Timed.settle {p : Phase} (h : Timed calls p) (now : ℤ) : Timed calls (p.settle now) := by
  rcases h with rfl | rfl | ⟨c, hc, rfl⟩
  · exact Or.inl rfl
  · exact Or.inr (Or.inl rfl)
  · rw [Phase.settle]
    split_ifs
    · exact Or.inr (Or.inl rfl)
    · exact Or.inr (Or.inr ⟨c, hc, rfl⟩)

theorem attempt_timed (hc : Clean s) (ht : ¬ c.Torn s) (h : Timed calls (phase s))
    (hm : c ∈ calls) : Clean (c.attempt s).2 ∧ Timed calls (phase (c.attempt s).2) := by
  unfold StartCall.attempt
  cases hf : c.fault with
  | none =>
    obtain ⟨-, hc', hp⟩ := run_ensureStarted c.cfg c.nowMs hc
    refine ⟨hc', ?_⟩
    rw [attempt, hp]
    exact (h.begin hm).settle c.nowMs
  | some n =>
    have hn : s.metaRows.lookup "baseline_state" = none → n ≠ 2 ∧ n ≠ 3 := by
      intro hs
      rw [StartCall.Torn, hf] at ht
      exact ⟨fun h2 => ht ⟨hs, Or.inl (by rw [h2])⟩, fun h3 => ht ⟨hs, Or.inr (by rw [h3])⟩⟩
    obtain ⟨hc', hp⟩ := cut_ensureStarted c.cfg c.nowMs hc hn
    refine ⟨hc', ?_⟩
    rw [attempt]
    rcases hp with hp | hp | hp
    · rw [hp]; exact h
    · rw [hp]; exact h.begin hm
    · rw [hp]; exact (h.begin hm).settle c.nowMs

theorem attempt_torn (hc : Clean s) (ht : c.Torn s) :
    Clean (c.attempt s).2 ∧ phase (c.attempt s).2 = .learning none := by
  obtain ⟨hs, hf | hf⟩ := ht
  · rw [StartCall.attempt, hf]
    exact cut_torn c.cfg c.nowMs hc hs (Or.inl rfl)
  · rw [StartCall.attempt, hf]
    exact cut_torn c.cfg c.nowMs hc hs (Or.inr rfl)

theorem attempt_stuck (hc : Clean s) (h : phase s = .learning none) :
    Clean (c.attempt s).2 ∧ phase (c.attempt s).2 = .learning none := by
  have hs : s.metaRows.lookup "baseline_state" ≠ none := by
    intro hn
    rw [phase_of_none hn] at h
    cases h
  unfold StartCall.attempt
  cases hf : c.fault with
  | none =>
    obtain ⟨-, hc', hp⟩ := run_ensureStarted c.cfg c.nowMs hc
    rw [h] at hp
    exact ⟨hc', hp⟩
  | some n =>
    obtain ⟨hc', hp⟩ := cut_ensureStarted c.cfg c.nowMs hc (n := n) fun hn => absurd hn hs
    refine ⟨hc', ?_⟩
    rw [h] at hp
    rcases hp with hp | hp | hp <;> exact hp

end Step

section Run

variable {s : Store F} {calls : List (StartCall F)}

theorem runCalls_cons (c : StartCall F) :
    runCalls s (c :: calls) = runCalls (c.attempt s).2 calls := rfl

theorem runCalls_timed {before : List (StartCall F)} (hc : Clean s) (h : Timed before (phase s))
    (ht : TornFree s calls) :
    Clean (runCalls s calls) ∧ Timed (before ++ calls) (phase (runCalls s calls)) := by
  induction calls generalizing s before with
  | nil => exact ⟨hc, h.mono (List.subset_append_left _ _)⟩
  | cons c calls ih =>
    have hm : c ∈ before ++ [c] := by simp
    obtain ⟨hc', h'⟩ := attempt_timed hc ht.1 (h.mono (List.subset_append_left _ _)) hm
    have hr := ih hc' h' ht.2
    rwa [List.append_assoc] at hr

theorem runCalls_stuck (hc : Clean s) (h : phase s = .learning none) :
    Clean (runCalls s calls) ∧ phase (runCalls s calls) = .learning none := by
  induction calls generalizing s with
  | nil => exact ⟨hc, h⟩
  | cons c calls ih =>
    obtain ⟨hc', h'⟩ := attempt_stuck (c := c) hc h
    exact ih hc' h'

theorem runCalls_torn {before : List (StartCall F)} (hc : Clean s) (h : Timed before (phase s))
    (ht : ¬ TornFree s calls) :
    Clean (runCalls s calls) ∧ phase (runCalls s calls) = .learning none := by
  induction calls generalizing s before with
  | nil => exact absurd trivial ht
  | cons c calls ih =>
    by_cases hcs : c.Torn s
    · obtain ⟨hc', h'⟩ := attempt_torn hc hcs
      rw [runCalls_cons]
      exact runCalls_stuck hc' h'
    · have hm : c ∈ before ++ [c] := by simp
      obtain ⟨hc', h'⟩ := attempt_timed hc hcs (h.mono (List.subset_append_left _ _)) hm
      exact ih hc' h' fun hf => ht ⟨hcs, hf⟩

theorem Fresh.clean (h : Fresh s) : Clean s := fun _ => h.2

theorem Fresh.timed (h : Fresh s) : Timed ([] : List (StartCall F)) (phase s) :=
  Or.inl (phase_of_none h.1)

end Run

section Bound

variable {s : Store F} {bound : ℤ}

theorem state_of_attempt {c : StartCall F} {st : BaselineState} (hc : Clean s)
    (h : (c.attempt s).1 = some st) : st = (after c.cfg c.nowMs (phase s)).toState := by
  rw [(attempt_eq_run h).1, (run_ensureStarted c.cfg c.nowMs hc).1]

theorem activeFrom_of_learning {ends : ℤ} (hc : Clean s) (h : phase s = .learning (some ends)) :
    ActiveFrom ends s := by
  intro c hle st hst
  have hs : after c.cfg c.nowMs (.learning (some ends)) = .active := if_pos hle
  rw [state_of_attempt hc hst, h, hs]
  rfl

theorem activeFrom_of_active (hc : Clean s) (h : phase s = .active) : ActiveFrom bound s := by
  intro c _ st hst
  rw [state_of_attempt hc hst, h]
  rfl

theorem activeFrom_of_unstarted (hc : Clean s) (h : phase s = .unstarted) :
    ActiveFrom I64.maxValue s := by
  intro c hle st hst
  have he : endsAt c.cfg c.nowMs ≤ c.nowMs := le_trans (I64.saturatingAdd_inRange _ _).2 hle
  rw [state_of_attempt hc hst, h, after, Phase.begin, Phase.settle, if_pos he]
  rfl

theorem not_activeFrom_of_stuck [F64 F] (hc : Clean s) (h : phase s = .learning none)
    (hb : I64.InRange bound) : ¬ ActiveFrom bound s := by
  intro ha
  let c : StartCall F := ⟨.default, bound, hb, none⟩
  have hst := ha c le_rfl _ rfl
  rw [(run_ensureStarted c.cfg c.nowMs hc).1, h] at hst
  cases hst

theorem Timed.activeFrom {calls : List (StartCall F)} (hc : Clean s) (h : Timed calls (phase s)) :
    ∃ bound, I64.InRange bound ∧ ActiveFrom bound s := by
  rcases h with h | h | ⟨c, -, h⟩
  · exact ⟨I64.maxValue, by decide, activeFrom_of_unstarted hc h⟩
  · exact ⟨I64.maxValue, by decide, activeFrom_of_active hc h⟩
  · exact ⟨c.ends, I64.saturatingAdd_inRange _ _, activeFrom_of_learning hc h⟩

end Bound

/-- A run of cut and uncut calls reaches a bound for the active state exactly when no call
is torn, and then the next call that succeeds makes it the end of an opened window. -/
theorem activeFrom_iff_tornFree [F64 F] {s : Store F} (h : Fresh s)
    (calls : List (StartCall F)) :
    ((∃ bound, I64.InRange bound ∧ ActiveFrom bound (runCalls s calls)) ↔ TornFree s calls) ∧
      (TornFree s calls → ∀ c : StartCall F, c.fault = none →
        ∃ c' ∈ calls ++ [c], ActiveFrom c'.ends (runCalls s (calls ++ [c]))) := by
  refine ⟨⟨?_, ?_⟩, ?_⟩
  · rintro ⟨bound, hb, ha⟩
    by_contra ht
    obtain ⟨hc, hp⟩ := runCalls_torn h.clean h.timed ht
    exact not_activeFrom_of_stuck hc hp hb ha
  · intro ht
    obtain ⟨hc, hp⟩ := runCalls_timed h.clean h.timed ht
    exact hp.activeFrom hc
  · intro ht c hf
    obtain ⟨hc, hp⟩ := runCalls_timed h.clean h.timed ht
    have hrun : runCalls s (calls ++ [c]) = (c.attempt (runCalls s calls)).2 := by
      simp [runCalls]
    have hnt : ¬ c.Torn (runCalls s calls) := by
      rintro ⟨-, h2 | h3⟩
      · rw [hf] at h2; cases h2
      · rw [hf] at h3; cases h3
    have hm : c ∈ calls ++ [c] := by simp
    obtain ⟨hc', hp'⟩ := attempt_timed hc hnt (hp.mono (List.subset_append_left _ _)) hm
    rw [hrun]
    rcases hp' with hu | ha | ⟨c', hm', hl⟩
    · -- A call without failure leaves a lifecycle.
      rw [StartCall.attempt, hf, attempt, (run_ensureStarted c.cfg c.nowMs hc).2.2] at hu
      exact absurd hu (after_ne_unstarted _ _ _)
    · exact ⟨c, hm, activeFrom_of_active hc' ha⟩
    · exact ⟨c', hm', activeFrom_of_learning hc' hl⟩

/-- A call on a new store, cut after its first write. -/
def tornCall : StartCall ℚ := ⟨.default, 0, by decide, some 2⟩

theorem activeFrom_iff_tornFree_openNew :
    ((∃ bound, I64.InRange bound ∧ ActiveFrom bound (runCalls openNew [tornCall])) ↔
        TornFree openNew [tornCall]) ∧
      (TornFree openNew [tornCall] → ∀ c : StartCall ℚ, c.fault = none →
        ∃ c' ∈ [tornCall] ++ [c], ActiveFrom c'.ends (runCalls openNew ([tornCall] ++ [c]))) :=
  activeFrom_iff_tornFree fresh_openNew [tornCall]

/-- No bound is left by the torn call. -/
theorem not_activeFrom_tornCall :
    ¬ ∃ bound, I64.InRange bound ∧ ActiveFrom bound (runCalls openNew [tornCall]) := by
  rintro ⟨bound, hb, ha⟩
  have ht : tornCall.Torn openNew := ⟨rfl, Or.inl rfl⟩
  obtain ⟨hc, hp⟩ := attempt_torn (fresh_openNew (F := ℚ)).clean ht
  exact not_activeFrom_of_stuck hc hp hb ha

end Baseline

end Pktscope

import Pktscope.Alert.Lifecycle
import Pktscope.Alert.Storage

/-! # The learning window is silent

The first event of a store opens the learning window. Until an event reaches the
end of the window no evaluation reports or stores an alert, and from that event
on the baseline is active for good, whatever the order of the timestamps, the
later configurations and the sweeps.
-/

namespace Pktscope.AlertEngine

open Library Library.Prog Library.Stage Store Baseline

variable {F : Type} [F64 F]

/-- The first event, with the configuration of its engine. -/
def firstEvent (ops : List (StoreOp F)) : Option (AlertConfig F × FlowEvent) :=
  ops.findSome? StoreOp.event?

/-- The end of the window that an event opens. -/
def windowEnd (first : AlertConfig F × FlowEvent) : ℤ := endsAt first.1 first.2.ts

/-- An event has reached the end of a window. -/
def elapsed (ends : ℤ) (ops : List (StoreOp F)) : Bool :=
  ops.any fun op => op.event?.any fun e => decide (ends ≤ e.2.ts)

/-- The phase that some operations lead to. -/
def phaseAfter (ops : List (StoreOp F)) : Phase :=
  match firstEvent ops with
  | none => .unstarted
  | some first =>
    if elapsed (windowEnd first) ops then .active else .learning (some (windowEnd first))

section Phase

omit [F64 F]

theorem windowEnd_eq (cfg : AlertConfig F) (ev : FlowEvent)
    (hw : I64.InRange ((cfg.learningWindow / 1000000 : ℕ) : ℤ))
    (hsum : I64.InRange (ev.ts + (cfg.learningWindow / 1000000 : ℕ))) :
    windowEnd (cfg, ev) = ev.ts + (cfg.learningWindow / 1000000 : ℕ) := by
  rw [windowEnd, endsAt, Duration.millisI64, I64.wrap_of_inRange hw, I64.saturatingAdd,
    min_eq_right hsum.2, max_eq_right hsum.1]

theorem firstEvent_concat (ops : List (StoreOp F)) (op : StoreOp F) :
    firstEvent (ops ++ [op]) = (firstEvent ops).or op.event? := by
  rw [firstEvent, List.findSome?_append]
  cases h : op.event? <;> simp [h, firstEvent]

theorem elapsed_concat (ends : ℤ) (ops : List (StoreOp F)) (op : StoreOp F) :
    elapsed ends (ops ++ [op]) =
      (elapsed ends ops || op.event?.any fun e => decide (ends ≤ e.2.ts)) := by
  simp [elapsed]

theorem elapsed_of_none {ops : List (StoreOp F)} (h : firstEvent ops = none) (ends : ℤ) :
    elapsed ends ops = false := by
  rw [firstEvent, List.findSome?_eq_none_iff] at h
  rw [elapsed, List.any_eq_false]
  intro op hop
  rw [h op hop]
  exact Bool.false_ne_true

theorem phaseAfter_evaluate (ops : List (StoreOp F)) (cfg : AlertConfig F) (ev : FlowEvent) :
    phaseAfter (ops ++ [.evaluate cfg ev]) = after cfg ev.ts (phaseAfter ops) := by
  unfold phaseAfter after
  rw [firstEvent_concat]
  cases h : firstEvent ops with
  | none =>
    simp only [Option.none_or, StoreOp.event?, elapsed_concat, elapsed_of_none h, Bool.false_or,
      Option.any_some, decide_eq_true_eq]
    rfl
  | some first =>
    simp only [Option.some_or, elapsed_concat, StoreOp.event?, Option.any_some, Bool.or_eq_true,
      decide_eq_true_eq]
    by_cases he : elapsed (windowEnd first) ops = true
    · simp only [he, true_or, if_true]
      rfl
    · rw [Bool.not_eq_true] at he
      simp only [he, Bool.false_eq_true, false_or, if_false]
      rfl

theorem phaseAfter_sweep (ops : List (StoreOp F)) (beforeMs : ℤ) :
    phaseAfter (ops ++ [.sweep beforeMs]) = phaseAfter ops := by
  unfold phaseAfter
  rw [firstEvent_concat]
  cases firstEvent ops <;> simp [StoreOp.event?, elapsed_concat]

end Phase

section Evaluation

variable (cfg : AlertConfig F) (ev : FlowEvent) (s : Store F)

theorem metaRows_evaluateFull :
    ((evaluateFull cfg ev).run s).2.metaRows = ((ensureStarted cfg ev.ts).run s).2.metaRows := by
  unfold evaluateFull
  rw [run_bind]
  refine Keeps.run (f := Store.metaRows) ?_ _
  refine keeps_bind (upsertDestination_keeps (fun _ _ => rfl) _ _ _ _) fun destId => ?_
  refine keeps_bind (recordObserved_keeps fun _ _ => rfl) fun _ => ?_
  cases ev.proc with
  | none => trivial
  | some p =>
    refine keeps_bind (upsertProcess_keeps (fun _ _ => rfl) _ _ _) fun up => ?_
    refine keeps_bind (signals_keeps (fun k => ?_) fun _ _ => rfl) fun _ => trivial
    cases k with
    | egress => trivial
    | identity => exact ⟨fun _ _ => rfl, fun _ _ => rfl⟩
    | dest => exact ⟨fun _ _ => rfl, fun _ _ => rfl⟩
    | _ => exact fun _ _ => rfl

/-- An evaluation before the baseline is active reports nothing. -/
theorem verdict_of_learning (h : activeAt cfg ev s = false) : verdict cfg ev s = [] := by
  unfold verdict
  cases ev.proc with
  | none => rfl
  | some p =>
    refine List.flatMap_eq_nil_iff.mpr fun k _ => ?_
    have hsub : (subjectOf cfg ev s p).active = false := h
    cases k with
    | egress => simp [Verdict.of, Verdict.egress, hsub]
    | identity =>
      simp only [Verdict.of, Verdict.identity, Verdict.identityFrom, hsub]
      split <;> rfl
    | dest => simp [Verdict.of, Verdict.dest, hsub]
    | country =>
      simp only [Verdict.of, Verdict.country, hsub, Bool.and_false, Bool.false_and]
      split <;> rfl
    | network =>
      simp only [Verdict.of, Verdict.network, hsub, Bool.and_false, Bool.false_and]
      split <;> rfl
    | volume =>
      simp only [Verdict.of, Verdict.volume, Verdict.volumeFrom, hsub, Bool.false_and]
      split <;> rfl

end Evaluation

section Run

theorem phase_storeAfter (ops : List (StoreOp F)) :
    Clean (storeAfter ops) ∧ phase (storeAfter ops) = phaseAfter ops := by
  induction ops using List.reverseRecOn with
  | nil => exact ⟨fresh_openNew.clean, phase_of_none rfl⟩
  | append_singleton ops op ih =>
    rw [storeAfter_concat]
    cases op with
    | evaluate cfg ev =>
      obtain ⟨-, hclean, hphase⟩ := run_ensureStarted cfg ev.ts ih.1
      have hmeta := metaRows_evaluateFull cfg ev (storeAfter ops)
      exact ⟨(clean_congr hmeta).mpr hclean, by
        rw [StoreOp.apply, phase_congr hmeta, hphase, ih.2, phaseAfter_evaluate]⟩
    | sweep beforeMs =>
      have hmeta : ((deleteOlderThan beforeMs).run (storeAfter ops)).2.metaRows =
          (storeAfter ops).metaRows := by
        simp only [deleteOlderThan, run_bind, run_write]
      exact ⟨(clean_congr hmeta).mpr ih.1, by
        rw [StoreOp.apply, phase_congr hmeta, ih.2, phaseAfter_sweep]⟩

theorem state_evaluate (ops : List (StoreOp F)) (cfg : AlertConfig F) (ev : FlowEvent) :
    ((ensureStarted cfg ev.ts).run (storeAfter ops)).1 =
      (phaseAfter (ops ++ [.evaluate cfg ev])).toState := by
  obtain ⟨hclean, hphase⟩ := phase_storeAfter ops
  rw [(run_ensureStarted cfg ev.ts hclean).1, hphase, phaseAfter_evaluate]

theorem state_baseline (ops : List (StoreOp F)) :
    ((baselineState : StoreM F BaselineState).run (storeAfter ops)).1 =
      (phaseAfter ops).toState := by
  rw [← (phase_storeAfter ops).2, ← toState_phase]
  simp [baselineState, metaGet]

omit [F64 F] in
theorem firstEvent_of_initial {pre ops : List (StoreOp F)} (h : pre <+: ops)
    {first : AlertConfig F × FlowEvent} (hpre : firstEvent pre = some first) :
    firstEvent ops = some first := by
  obtain ⟨rest, rfl⟩ := h
  rw [firstEvent, List.findSome?_append, ← firstEvent, hpre]
  rfl

omit [F64 F] in
theorem phaseAfter_prefix {pre ops : List (StoreOp F)} (h : pre <+: ops)
    {first : AlertConfig F × FlowEvent} (hfirst : firstEvent ops = some first)
    (hsome : (firstEvent pre).isSome) : phaseAfter pre =
      if elapsed (windowEnd first) pre then .active else .learning (some (windowEnd first)) := by
  obtain ⟨first', hpre⟩ := Option.isSome_iff_exists.mp hsome
  rw [firstEvent_of_initial h hpre, Option.some.injEq] at hfirst
  rw [phaseAfter, hpre, hfirst]

omit [F64 F] in
theorem firstEvent_isSome_of_elapsed {ends : ℤ} {ops : List (StoreOp F)}
    (h : elapsed ends ops = true) : (firstEvent ops).isSome := by
  cases hf : firstEvent ops with
  | some first => rfl
  | none =>
    rw [elapsed_of_none hf] at h
    cases h

theorem silent_of_learning {ops : List (StoreOp F)} {cfg : AlertConfig F} {ev : FlowEvent}
    (h : (phaseAfter (ops ++ [.evaluate cfg ev])).toState = .learning) :
    (StoreOp.evaluate cfg ev).fired (storeAfter ops) = [] ∧
      (StoreOp.evaluate cfg ev).filed (storeAfter ops) = [] := by
  have hact : activeAt cfg ev (storeAfter ops) = false := by
    rw [activeAt, state_evaluate, h]
    rfl
  have hverdict := verdict_of_learning cfg ev (storeAfter ops) hact
  have hfired := run_evaluateFull cfg ev (storeAfter ops)
  have hfiled := filed_evaluate cfg ev (storeAfter ops)
  rw [hverdict] at hfired hfiled
  exact ⟨List.map_eq_nil_iff.mp hfired, List.map_eq_nil_iff.mp hfiled⟩

/-- No alert is returned or stored before an event reaches the end of the window that the first
event opened, and from that event on every state of the baseline is active. The end of the window
is `t₀ + w` where that fits into 64 bits. -/
theorem silent_until_elapsed {ops : List (StoreOp F)} {cfg₀ : AlertConfig F} {ev₀ : FlowEvent}
    (hfirst : firstEvent ops = some (cfg₀, ev₀)) :
    (∀ before cfg ev after, ops = before ++ .evaluate cfg ev :: after →
      if elapsed (endsAt cfg₀ ev₀.ts) (before ++ [.evaluate cfg ev]) then
        ((ensureStarted cfg ev.ts).run (storeAfter before)).1 = .active
      else (StoreOp.evaluate cfg ev).fired (storeAfter before) = [] ∧
        (StoreOp.evaluate cfg ev).filed (storeAfter before) = []) ∧
    (∀ pre, pre <+: ops → elapsed (endsAt cfg₀ ev₀.ts) pre = true →
      ((baselineState : StoreM F BaselineState).run (storeAfter pre)).1 = .active) ∧
    (I64.InRange ((cfg₀.learningWindow / 1000000 : ℕ) : ℤ) →
      I64.InRange (ev₀.ts + (cfg₀.learningWindow / 1000000 : ℕ)) →
      endsAt cfg₀ ev₀.ts = ev₀.ts + (cfg₀.learningWindow / 1000000 : ℕ)) := by
  refine ⟨fun before cfg ev after hops => ?_, fun pre hpre he => ?_, windowEnd_eq cfg₀ ev₀⟩
  · have hpre : before ++ [.evaluate cfg ev] <+: ops := by
      refine ⟨after, ?_⟩
      rw [hops, List.append_assoc]
      rfl
    have hsome : (firstEvent (before ++ [.evaluate cfg ev])).isSome := by
      rw [firstEvent_concat, Option.isSome_or]
      exact Bool.or_true _
    have hphase := phaseAfter_prefix hpre hfirst hsome
    rw [windowEnd] at hphase
    split_ifs with he
    · rw [state_evaluate, hphase, if_pos he]
      rfl
    · rw [if_neg he] at hphase
      exact silent_of_learning (by rw [hphase]; rfl)
  · have hphase := phaseAfter_prefix hpre hfirst (firstEvent_isSome_of_elapsed he)
    rw [windowEnd, if_pos he] at hphase
    rw [state_baseline, hphase]
    rfl

end Run

section Samples

/-- An event of a process at a time. -/
def sampleEvent (ts : ℤ) : FlowEvent := serverEvent ts true

/-- A process is seen in the window, and another engine sees it after the window. -/
def windowOps : List (StoreOp ℚ) :=
  [.evaluate .demo (sampleEvent 0), .sweep 10, .evaluate .default (sampleEvent 4999),
    .evaluate .default (sampleEvent 5000), .evaluate .default (sampleEvent 1)]

theorem silent_until_elapsed_sample :
    (StoreOp.evaluate .default (sampleEvent 4999)).fired (storeAfter (windowOps.take 2)) = [] ∧
      (StoreOp.evaluate .default (sampleEvent 4999)).filed (storeAfter (windowOps.take 2)) = [] ∧
      ((ensureStarted .default 1).run (storeAfter (windowOps.take 4))).1 = .active := by
  have h : firstEvent windowOps = some (.demo, sampleEvent 0) := rfl
  obtain ⟨hev, -⟩ := silent_until_elapsed h
  have hearly := hev (windowOps.take 2) .default (sampleEvent 4999) (windowOps.drop 3) rfl
  have hlate := hev (windowOps.take 4) .default (sampleEvent 1) [] rfl
  rw [if_neg (by decide)] at hearly
  rw [if_pos (by decide)] at hlate
  exact ⟨hearly.1, hearly.2, hlate⟩

/-- At the last timestamp of all, a window of five seconds is over as soon as it begins. -/
theorem alert_inside_window :
    I64.InRange (sampleEvent I64.maxValue).ts ∧
      firstEvent [StoreOp.evaluate .demo (sampleEvent I64.maxValue)] =
        some ((.demo : AlertConfig ℚ), sampleEvent I64.maxValue) ∧
      (sampleEvent I64.maxValue).ts <
        (sampleEvent I64.maxValue).ts + ((.demo : AlertConfig ℚ).learningWindow / 1000000 : ℕ) ∧
      (StoreOp.evaluate (.demo : AlertConfig ℚ) (sampleEvent I64.maxValue)).fired openNew ≠ [] := by
  refine ⟨by decide, rfl, by decide, ?_⟩
  rw [← List.length_pos_iff_ne_nil]
  decide

end Samples

end Pktscope.AlertEngine

import Pktscope.Library.Folds
import Pktscope.Monitor.Lifetime

/-! # The process of a history row

The bookkeeping of a flow takes the process of every evaluation that succeeds,
also when it found none. The history row has the process of the last one, which
is the last known process only if that evaluation found it.
-/

namespace Pktscope.Worker

open Library Library.Prog AlertEngine

variable {F : Type}

/-- The process that a turn attributes its flow to. -/
def attribution (t : Turn F) : Option ℕ := t.outcome.bind EvalOutcome.processId

/-- The turns of a life whose evaluation did not fail. -/
def evaluatedTurns (life : List (Turn F)) : List (Turn F) := life.filter fun t => t.outcome.isSome

/-- The process of the last successful attribution. -/
def lastAttribution (life : List (Turn F)) : Option ℕ := (life.filterMap attribution).getLast?

/-- The socket lookup answered for the last packet that was evaluated, or for none of them. -/
def AttributedToEnd (life : List (Turn F)) : Prop :=
  (∀ t ∈ (evaluatedTurns life).getLast?, t.visit.proc.isSome) ∨
    ∀ t ∈ evaluatedTurns life, t.visit.proc = none

theorem lastAttribution_eq (life : List (Turn F)) :
    lastAttribution life = ((evaluatedTurns life).filterMap attribution).getLast? := by
  rw [lastAttribution, evaluatedTurns, List.filterMap_filter]
  congr 1
  refine List.filterMap_congr fun t _ => ?_
  cases h : t.outcome <;> simp [attribution, h]

section Rows

theorem processId_entryOf (life : List (Turn F)) :
    (entryOf life).bind (fun e => e.1.processId) =
      (evaluatedTurns life).getLast?.bind attribution := by
  induction life using List.reverseRecOn with
  | nil => rfl
  | append_singleton life t ih =>
    rw [entryOf, sessionFold_concat, ← entryOf, evaluatedTurns, List.filter_append,
      ← evaluatedTurns]
    cases ho : t.outcome with
    | some o => simp [Turn.note, noteOutcome, attribution, ho]
    | none =>
      simp only [Option.bind_some, Turn.note, ho, noteOutcome, List.filter_cons, Option.isSome_none,
        Bool.false_eq_true, if_false, List.filter_nil, List.append_nil, ← ih]
      cases entryOf life <;> rfl

theorem attribution_isSome {ctx : WorkerCtx F} {t : Turn F} (ht : Formed ctx t)
    (h : t.outcome.isSome) : (attribution t).isSome = t.visit.proc.isSome := by
  obtain ⟨o, ho⟩ := Option.isSome_iff_exists.mp h
  rw [attribution, ho, Option.bind_some]
  exact ht.attributed o ho

theorem attributedToEnd_iff {ctx : WorkerCtx F} {life : List (Turn F)}
    (hlife : ∀ t ∈ life, Formed ctx t) :
    AttributedToEnd life ↔ (∀ t ∈ (evaluatedTurns life).getLast?, (attribution t).isSome) ∨
      ∀ t ∈ evaluatedTurns life, attribution t = none := by
  have hsome : ∀ t ∈ evaluatedTurns life, (attribution t).isSome = t.visit.proc.isSome := by
    intro t ht
    obtain ⟨hm, ho⟩ := List.mem_filter.mp ht
    exact attribution_isSome (hlife t hm) ho
  refine or_congr (forall₂_congr fun t ht => ?_) (forall₂_congr fun t ht => ?_)
  · rw [hsome t (List.mem_of_getLast? ht)]
  · rw [← Option.not_isSome_iff_eq_none, ← Option.not_isSome_iff_eq_none, hsome t ht]

/-- The history row of a flow keeps its last attribution exactly when no packet behind it, up to
the closing one, was evaluated without finding a process. -/
theorem row_keeps_attribution_iff [F64 F] {ctx : WorkerCtx F} {store : Store F} {inputs : List Recv}
    {i : Recv} {t : Turn F} (ht : turnOf ctx (steps ctx (start ctx store) inputs) i = some t)
    (hc : t.closed = true) (hf : t.insertFails = false) :
    let w := steps ctx (start ctx store) inputs
    let life := lifetime t.key (history ctx (start ctx store) inputs) ++ [t]
    ∃ row, (step ctx w i).store.connections = w.store.connections ++ [row] ∧
      ((∀ p, lastAttribution life = some p → row.processId = some p) ↔ AttributedToEnd life) := by
  intro w life
  have hw : Tidy ctx w := tidy_steps (tidy_start ctx store) inputs
  have hlife : ∀ u ∈ life, Formed ctx u := by
    intro u hu
    rcases List.mem_append.mp hu with hu | hu
    · exact formed_history (start ctx store) inputs u (mem_lifetime hu).1
    · rw [List.mem_singleton.mp hu]
      exact formed_turnOf ht
  have hentry : entryOf life = some (t.note (w.entry t.key)) := by
    rw [entryOf, sessionFold_concat, ← entryOf, ← entry_steps]
  have hconn := (step_of_some hw ht).connections
  rw [hc, hf] at hconn
  refine ⟨_, hconn, ?_⟩
  have hrow : (rowAt ctx w t).processId = (evaluatedTurns life).getLast?.bind attribution := by
    rw [← processId_entryOf, hentry]
    rfl
  rw [attributedToEnd_iff hlife, ← last_carries_iff, lastAttribution_eq]
  dsimp only
  rw [hrow]

end Rows

section Reset

/-- A client whose socket is found when it connects. -/
def connectInputs : List Recv :=
  [.packet (tcpPacket 0 60 0x0a000002 40000 0x0a000009 443 { sampleFlags with syn := true })
    (sampleEnv (some ⟨7, "app", some "/usr/bin/app"⟩))]

/-- The reset of the connection, when the socket is gone. -/
def resetInput : Recv :=
  .packet (tcpPacket 1000000 60 0x0a000002 40000 0x0a000009 443 { sampleFlags with rst := true })
    (sampleEnv none)

/-- The worker when the reset arrives. -/
def connected : Worker ℚ := steps (sampleCtx ∅) (start (sampleCtx ∅) Store.openNew) connectInputs

theorem row_keeps_attribution_iff_reset :
    ∃ t, turnOf (sampleCtx ∅) connected resetInput = some t ∧
      let life := lifetime t.key (history (sampleCtx ∅) (start (sampleCtx ∅) Store.openNew)
        connectInputs) ++ [t]
      ∃ row, (step (sampleCtx ∅) connected resetInput).store.connections =
          connected.store.connections ++ [row] ∧
        ((∀ p, lastAttribution life = some p → row.processId = some p) ↔ AttributedToEnd life) :=
  ⟨_, rfl, row_keeps_attribution_iff rfl (by decide) rfl⟩

/-- The failed lookup of the reset erases the process of the connection. -/
theorem reset_loses_attribution :
    ∃ t, turnOf (sampleCtx ∅) connected resetInput = some t ∧ t.closed = true ∧
      t.insertFails = false ∧
      lastAttribution (lifetime t.key (history (sampleCtx ∅) (start (sampleCtx ∅) Store.openNew)
        connectInputs) ++ [t]) = some 1 ∧
      (step (sampleCtx ∅) connected resetInput).store.connections.map ConnectionRow.processId =
        [none] :=
  ⟨_, rfl, by decide, rfl, by decide, by decide⟩

end Reset

end Pktscope.Worker

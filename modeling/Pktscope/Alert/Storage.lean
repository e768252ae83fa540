import Pktscope.Alert.Recall

/-! # What an evaluation stores

The rows that an evaluation adds to the alert table are those of the alerts that
it returns, in their order. A store that goes through evaluations and sweeps has
a log of all alerts that were ever stored.
-/

namespace Pktscope.AlertEngine

open Library Library.Prog Library.Stage Store

variable {F : Type}

/-- The row of an alert, but for its number. -/
def fileOf (a : Alert F) : AlertRow F where
  id := 0
  kind := a.kind.asDb
  severity := a.severity.asDb
  tsMs := a.ts
  processId := a.processId
  destId := a.destId
  dedupKey := a.dedupKey
  title := a.title
  detailJson := a.detail

def unnumbered (r : AlertRow F) : AlertRow F := { r with id := 0 }

/-- The program stores the alerts that it reports, and no others. -/
def Files (q : StoreM F (List (Alert F))) : Prop :=
  ∀ s, (q.run s).2.alerts.map unnumbered = s.alerts.map unnumbered ++ (q.run s).1.map fileOf

section Stages

variable {cfg : AlertConfig F} {ev : FlowEvent} {sub : Subject}

theorem files_nil : Files (pure [] : StoreM F (List (Alert F))) := fun _ => (List.append_nil _).symm

theorem files_emit (cfg : AlertConfig F) (a : Alert F) : Files (emit cfg [] a) := by
  intro s
  unfold emit insertAlert
  simp only [run_bind, run_query]
  by_cases h : inCooldown (s.lastAlertTs a.dedupKey) a.ts (cooldownMs cfg) = true
  · simp [h]
  · simp [h, unnumbered, fileOf, alertRow]

theorem files_emit_if (a : Alert F) (c : Bool) :
    Files (if c = true then emit cfg [] a else pure []) := by
  cases c with
  | false => exact files_nil
  | true => exact files_emit cfg a

theorem files_bind {α : Type} {p : StoreM F α} {q : α → StoreM F (List (Alert F))}
    (hp : Keeps Store.alerts p) (hq : ∀ a, Files (q a)) : Files (p >>= q) := by
  intro s
  rw [run_bind, hq _ (p.run s).2, hp.run s]

theorem files_runAll {β : Type} {ps : List (Stage (Store F) (Alert F) β)}
    (h : ∀ p ∈ ps, Files p.prog) : Files (runAll ps) := by
  induction ps with
  | nil => exact files_nil
  | cons p ps ih =>
    intro s
    have hp := h p List.mem_cons_self s
    have hps := ih (fun q hq => h q (List.mem_cons_of_mem _ hq)) (p.prog.run s).2
    simp only [runAll, run_bind, run_pure, List.map_append]
    rw [hps, hp, List.append_assoc]

theorem stageProg_files [F64 F] (wasNew : Bool) (k : Signal) :
    Files (stageProg cfg ev sub wasNew k) := by
  cases k with
  | egress => exact files_emit_if _ _
  | identity =>
    rw [stageProg, identityChange]
    cases ev.identity with
    | none => exact files_nil
    | some ident =>
      refine files_bind (keeps_query _) fun base => files_bind ?_ fun _ => ?_
      · exact recordIdentity_keeps (fun _ _ => rfl) (fun _ _ => rfl) _ _
      · cases base with
        | none => exact files_nil
        | some base => exact files_emit_if _ _
  | dest =>
    refine files_bind (keeps_exec fun _ => rfl) fun _ => files_bind ?_ fun _ => files_emit_if _ _
    exact touchPair_keeps (fun _ _ => rfl) _ _ _
  | country =>
    rw [stageProg, newCountry]
    cases ev.geo.country with
    | none => exact files_nil
    | some cc => exact files_bind (keeps_exec fun _ => rfl) fun _ => files_emit_if _ _
  | network =>
    rw [stageProg, newAsn]
    cases ev.geo.asn with
    | none => exact files_nil
    | some asn => exact files_bind (keeps_exec fun _ => rfl) fun _ => files_emit_if _ _
  | volume =>
    refine files_bind (Baseline.updateVolume_keeps _ _ (fun _ _ => rfl) _ _) fun sample => ?_
    cases sample with
    | none => exact files_nil
    | some sample => exact files_emit_if _ _

theorem signals_files [F64 F] (wasNew : Bool) : Files (signals cfg ev sub wasNew) := by
  rw [signals_eq]
  refine files_runAll fun q hq => ?_
  obtain ⟨k, -, rfl⟩ := List.mem_map.mp hq
  exact stageProg_files wasNew k

theorem alerts_prepare (cfg : AlertConfig F) (ev : FlowEvent) : Keeps Store.alerts (prepare cfg ev) :=
  prepare_keeps cfg ev (fun _ _ => rfl) (fun _ _ => rfl) fun _ _ => rfl

/-- An evaluation stores exactly the alerts that it returns. -/
theorem alerts_evaluateFull [F64 F] (cfg : AlertConfig F) (ev : FlowEvent) (s : Store F) :
    ((evaluateFull cfg ev).run s).2.alerts.map unnumbered =
      s.alerts.map unnumbered ++ (verdict cfg ev s).map fileOf := by
  have hid : fileOf ∘ withoutId = (fileOf : Alert F → AlertRow F) := rfl
  rw [← run_evaluateFull, List.map_map, hid]
  cases hp : ev.proc with
  | none =>
    rw [evaluateFull_of_none cfg ev hp]
    simp only [run_bind, run_pure, List.map_nil, List.append_nil, (alerts_prepare cfg ev).run]
  | some p =>
    have hsetup : Keeps Store.alerts (setup cfg ev p) :=
      setup_keeps cfg ev p (fun _ _ => rfl) (fun _ _ => rfl) (fun _ _ => rfl) fun _ _ => rfl
    rw [evaluateFull_of_proc cfg ev hp]
    simp only [run_bind, run_pure]
    rw [signals_files, hsetup.run]

end Stages

section Runs

/-- An evaluation, of whatever engine, or a retention sweep. -/
inductive StoreOp (F : Type) where
  | evaluate (cfg : AlertConfig F) (ev : FlowEvent)
  | sweep (beforeMs : ℤ)

namespace StoreOp

def event? : StoreOp F → Option (AlertConfig F × FlowEvent)
  | evaluate cfg ev => some (cfg, ev)
  | sweep _ => none

variable [F64 F]

/-- The store after an operation that succeeds. -/
def apply (s : Store F) : StoreOp F → Store F
  | evaluate cfg ev => ((evaluateFull cfg ev).run s).2
  | sweep beforeMs => ((deleteOlderThan beforeMs).run s).2

/-- The alerts that an operation returns. -/
def fired (s : Store F) : StoreOp F → List (Alert F)
  | evaluate cfg ev => ((evaluateFull cfg ev).run s).1.alerts
  | sweep _ => []

/-- The rows that an operation adds to the alert table. -/
def filed (s : Store F) : StoreOp F → List (AlertRow F)
  | evaluate cfg ev => ((evaluateFull cfg ev).run s).2.alerts.drop s.alerts.length
  | sweep _ => []

end StoreOp

variable [F64 F]

/-- The store after some operations on a new one. -/
def storeAfter (ops : List (StoreOp F)) : Store F := ops.foldl StoreOp.apply openNew

/-- All rows that some operations ever added to the alert table, also those swept since. -/
def filedFrom (s : Store F) : List (StoreOp F) → List (AlertRow F)
  | [] => []
  | op :: ops => op.filed s ++ filedFrom (op.apply s) ops

def everFiled (ops : List (StoreOp F)) : List (AlertRow F) := filedFrom openNew ops

theorem storeAfter_concat (ops : List (StoreOp F)) (op : StoreOp F) :
    storeAfter (ops ++ [op]) = op.apply (storeAfter ops) := List.foldl_concat ..

theorem everFiled_concat (ops : List (StoreOp F)) (op : StoreOp F) :
    everFiled (ops ++ [op]) = everFiled ops ++ op.filed (storeAfter ops) := by
  unfold everFiled storeAfter
  generalize (openNew : Store F) = s
  induction ops generalizing s with
  | nil => simp [filedFrom]
  | cons op' ops ih => simp only [List.cons_append, filedFrom, ih, List.append_assoc, List.foldl_cons]

/-- The rows that an evaluation adds are those of its verdict. -/
theorem filed_evaluate (cfg : AlertConfig F) (ev : FlowEvent) (s : Store F) :
    ((StoreOp.evaluate cfg ev).filed s).map unnumbered = (verdict cfg ev s).map fileOf := by
  rw [StoreOp.filed, List.map_drop, alerts_evaluateFull]
  exact List.drop_left' (List.length_map _)

theorem reached_storeAfter (ops : List (StoreOp F)) : Reached (storeAfter ops) := by
  induction ops using List.reverseRecOn with
  | nil => exact .openNew
  | append_singleton ops op ih =>
    rw [storeAfter_concat]
    cases op with
    | evaluate cfg ev => exact ih.evaluated cfg ev none
    | sweep beforeMs => exact ih.swept beforeMs none

end Runs

end Pktscope.AlertEngine

import Pktscope.Alert.Storage
import Pktscope.Store.Reads

/-! # The alert list is the log of the alerts

An alert is stored under the number that its evaluation returns, and is read back
as it was returned, except that its detail goes through its text. What the server
lists as recent alerts are the newest ones of those that were fired and not swept
since.
-/

namespace Pktscope.AlertEngine

open Library Library.Prog Library.Stage Store

variable {F : Type}

/-- The alert that a row was written for. -/
def writtenAlert (r : AlertRow F) : Alert F := alertOfRow r r.detailJson

/-- The program adds the alerts that it reports to the stored ones. -/
def Logs (q : StoreM F (List (Alert F))) : Prop :=
  ∀ s, (q.run s).2.alerts.map writtenAlert = s.alerts.map writtenAlert ++ (q.run s).1

/-- A program that ends in at most one alert and stores no other. -/
inductive Emits (cfg : AlertConfig F) : StoreM F (List (Alert F)) → Prop
  | none : Emits cfg (pure [])
  | alert (a : Alert F) : Emits cfg (emit cfg [] a)
  | bind {α : Type} {p : StoreM F α} {q : α → StoreM F (List (Alert F))}
      (hp : Keeps Store.alerts p) (hq : ∀ a, Emits cfg (q a)) : Emits cfg (p >>= q)

section Stages

variable {cfg : AlertConfig F} {ev : FlowEvent} {sub : Subject}

theorem writtenAlert_alertRow (s : Store F) (a : Alert F) :
    writtenAlert (s.alertRow a) = { a with id := some (Sql.nextRowid AlertRow.id s.alerts) } := by
  simp [writtenAlert, alertOfRow, alertRow]

theorem logs_nil : Logs (pure [] : StoreM F (List (Alert F))) := fun _ => (List.append_nil _).symm

theorem logs_emit (cfg : AlertConfig F) (a : Alert F) : Logs (emit cfg [] a) := by
  intro s
  unfold emit insertAlert
  simp only [run_bind, run_query]
  by_cases h : inCooldown (s.lastAlertTs a.dedupKey) a.ts (cooldownMs cfg) = true
  · simp [h]
  · simp [h, writtenAlert_alertRow]

theorem Emits.logs {q : StoreM F (List (Alert F))} (h : Emits cfg q) : Logs q := by
  induction h with
  | none => exact logs_nil
  | alert a => exact logs_emit cfg a
  | @bind α p q hp _ ih =>
    intro s
    rw [run_bind, ih _ (p.run s).2, hp.run s]

theorem emits_if (a : Alert F) (c : Bool) :
    Emits cfg (if c = true then emit cfg [] a else pure []) := by
  cases c with
  | false => exact .none
  | true => exact .alert a

theorem stageProg_emits [F64 F] (wasNew : Bool) (k : Signal) :
    Emits cfg (stageProg cfg ev sub wasNew k) := by
  cases k with
  | egress => exact emits_if _ _
  | identity =>
    rw [stageProg, identityChange]
    cases ev.identity with
    | none => exact .none
    | some ident =>
      refine .bind (keeps_query _) fun base => .bind ?_ fun _ => ?_
      · exact recordIdentity_keeps (fun _ _ => rfl) (fun _ _ => rfl) _ _
      · cases base with
        | none => exact .none
        | some base => exact emits_if _ _
  | dest =>
    refine .bind (keeps_exec fun _ => rfl) fun _ => .bind ?_ fun _ => emits_if _ _
    exact touchPair_keeps (fun _ _ => rfl) _ _ _
  | country =>
    rw [stageProg, newCountry]
    cases ev.geo.country with
    | none => exact .none
    | some cc => exact .bind (keeps_exec fun _ => rfl) fun _ => emits_if _ _
  | network =>
    rw [stageProg, newAsn]
    cases ev.geo.asn with
    | none => exact .none
    | some asn => exact .bind (keeps_exec fun _ => rfl) fun _ => emits_if _ _
  | volume =>
    refine .bind (Baseline.updateVolume_keeps _ _ (fun _ _ => rfl) _ _) fun sample => ?_
    cases sample with
    | none => exact .none
    | some sample => exact emits_if _ _

theorem logs_runAll {β : Type} {ps : List (Library.Stage (Store F) (Alert F) β)}
    (h : ∀ p ∈ ps, Logs p.prog) : Logs (runAll ps) := by
  induction ps with
  | nil => exact logs_nil
  | cons p ps ih =>
    intro s
    have hp := h p List.mem_cons_self s
    have hps := ih (fun q hq => h q (List.mem_cons_of_mem _ hq)) (p.prog.run s).2
    simp only [runAll, run_bind, run_pure]
    rw [hps, hp, List.append_assoc]

theorem signals_logs [F64 F] (wasNew : Bool) : Logs (signals cfg ev sub wasNew) := by
  rw [signals_eq]
  refine logs_runAll fun q hq => ?_
  obtain ⟨k, -, rfl⟩ := List.mem_map.mp hq
  exact (stageProg_emits wasNew k).logs

/-- An evaluation that succeeds returns exactly the alerts that it adds to the stored ones. -/
theorem evaluateFull_logs [F64 F] (cfg : AlertConfig F) (ev : FlowEvent) (s : Store F) :
    ((evaluateFull cfg ev).run s).2.alerts.map writtenAlert =
      s.alerts.map writtenAlert ++ ((evaluateFull cfg ev).run s).1.alerts := by
  cases hp : ev.proc with
  | none =>
    rw [evaluateFull_of_none cfg ev hp]
    simp only [run_bind, run_pure, List.append_nil, (alerts_prepare cfg ev).run]
  | some p =>
    have hsetup : Keeps Store.alerts (setup cfg ev p) :=
      setup_keeps cfg ev p (fun _ _ => rfl) (fun _ _ => rfl) (fun _ _ => rfl) fun _ _ => rfl
    rw [evaluateFull_of_proc cfg ev hp]
    simp only [run_bind, run_pure]
    rw [signals_logs, hsetup.run]

end Stages

section Runs

variable [F64 F]

/-- The alerts after an operation: those that it fires come last, those that it sweeps are gone. -/
def StoreOp.relog (s : Store F) (log : List (Alert F)) : StoreOp F → List (Alert F)
  | evaluate cfg ev => log ++ (evaluate cfg ev).fired s
  | sweep beforeMs => log.filter fun a => !decide (a.ts < beforeMs)

/-- The alerts that were fired and not swept since, in the order in which they were fired. -/
def firedSoFar (ops : List (StoreOp F)) : List (Alert F) :=
  (ops.foldl (fun (st : Store F × List (Alert F)) op => (op.apply st.1, op.relog st.1 st.2))
    (openNew, [])).2

theorem firedSoFar_concat (ops : List (StoreOp F)) (op : StoreOp F) :
    firedSoFar (ops ++ [op]) = op.relog (storeAfter ops) (firedSoFar ops) := by
  have hfst : ∀ (ops : List (StoreOp F)) (st : Store F × List (Alert F)),
      (ops.foldl (fun st op => (op.apply st.1, op.relog st.1 st.2)) st).1 =
        ops.foldl StoreOp.apply st.1 := by
    intro ops
    induction ops with
    | nil => exact fun _ => rfl
    | cons op ops ih => exact fun st => ih _
  rw [firedSoFar, List.foldl_append, List.foldl_cons, List.foldl_nil, hfst]
  rfl

omit [F64 F] in
theorem written_sweep (beforeMs : ℤ) (s : Store F) :
    ((deleteOlderThan beforeMs).run s).2.alerts.map writtenAlert =
      (s.alerts.map writtenAlert).filter fun a => !decide (a.ts < beforeMs) := by
  simp only [deleteOlderThan, run_bind, run_write, List.filter_map]
  rfl

theorem written_storeAfter (ops : List (StoreOp F)) :
    (storeAfter ops).alerts.map writtenAlert = firedSoFar ops := by
  induction ops using List.reverseRecOn with
  | nil => rfl
  | append_singleton ops op ih =>
    rw [storeAfter_concat, firedSoFar_concat, ← ih]
    cases op with
    | evaluate cfg ev => exact evaluateFull_logs cfg ev _
    | sweep beforeMs => exact written_sweep beforeMs _

section Details

mutual

/-- A value with every float in it replaced. -/
def mapFloat (f : F → F) : Json F → Json F
  | .float x => .float (f x)
  | .obj fields => .obj (mapFields f fields)
  | j => j

def mapFields (f : F → F) : List (String × Json F) → List (String × Json F)
  | [] => []
  | (k, v) :: rest => (k, mapFloat f v) :: mapFields f rest

end

/-- An alert with the floats of its detail replaced. -/
def reread (f : F → F) (a : Alert F) : Alert F := { a with detail := mapFloat f a.detail }

/-- The text of a value is read as the value, except that floats are read as the parser reads them. -/
def ReadsBack [SerdeJson F] (f : F → F) (j : Json F) : Prop :=
  SerdeJson.fromText (SerdeJson.toText j) = some (mapFloat f j)

end Details

theorem mapM_eq_some {α β : Type} {f : α → Option β} {g : α → β} {l : List α}
    (h : ∀ a ∈ l, f a = some (g a)) : l.mapM f = some (l.map g) := by
  induction l with
  | nil => rfl
  | cons a l ih =>
    rw [List.mapM_cons, h a List.mem_cons_self, ih fun b hb => h b (List.mem_cons_of_mem a hb)]
    rfl

omit [F64 F] in
theorem parseAlertRow_of_readsBack [SerdeJson F] {f : F → F} {r : AlertRow F}
    (h : ReadsBack f r.detailJson) : parseAlertRow r = some (reread f (writtenAlert r)) := by
  rw [parseAlertRow, h]
  rfl

/-- The learning window passes, and the server calls out. -/
def serverOps : List (StoreOp ℚ) :=
  [.evaluate .demo { serverEvent 0 false with proc := none },
    .evaluate .demo (serverEvent 5000 true)]

def serverEgressDetail : Json ℚ :=
  .obj [("dest", .str "10.0.0.9"), ("exe", .str "/usr/bin/srv"), ("pid", .num 7)]

def serverDestDetail : Json ℚ :=
  .obj [("exe", .str "/usr/bin/srv"), ("ip", .str "10.0.0.9"), ("label", .str "10.0.0.9"),
    ("pid", .num 7)]

def serverEgressText : String :=
  "\x7b\"dest\":\"10.0.0.9\",\"exe\":\"/usr/bin/srv\",\"pid\":7\x7d"

def serverDestText : String :=
  "\x7b\"exe\":\"/usr/bin/srv\",\"ip\":\"10.0.0.9\",\"label\":\"10.0.0.9\",\"pid\":7\x7d"

/-- The texts of the two details, and what is read from them. -/
abbrev serverJson : SerdeJson ℚ where
  toText
    | .obj [_, _, _] => serverEgressText
    | _ => serverDestText
  fromText t :=
    if t = serverEgressText then some serverEgressDetail
    else if t = serverDestText then some serverDestDetail
    else none

theorem details_serverOps :
    (firedSoFar serverOps).map Alert.detail = [serverEgressDetail, serverDestDetail] := rfl

end Runs

end Pktscope.AlertEngine

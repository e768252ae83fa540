import Pktscope.Alert.Verdict

/-! # The counter of a pair

Every attributed evaluation that gets past its write to the pairs adds one to
the counter of its process and destination, and no other one touches a counter.
-/

namespace Pktscope

open Library Library.Prog Library.Sql

variable {F : Type}

/-- The unique columns of a pair. -/
def PairRow.key (r : PairRow) : ℕ × ℕ := (r.processId, r.destId)

def PairRow.countUp (ts : ℤ) (r : PairRow) : PairRow :=
  { r with lastSeenMs := ts, connCount := r.connCount + 1 }

namespace Store

/-- The counter of a process and a destination. -/
def connCount (s : Store F) (pair : ℕ × ℕ) : ℕ :=
  ((select PairRow.key pair s.pairs).map PairRow.connCount).getD 0

/-- Row ids tell the pairs apart. -/
def DistinctPairs (s : Store F) : Prop := ∀ r ∈ s.pairs, ∀ r' ∈ s.pairs, r.id = r'.id → r = r'

section Touch

variable {s t : Store F} {pid destId : ℕ}

theorem connCount_congr (h : t.pairs = s.pairs) (pair : ℕ × ℕ) :
    t.connCount pair = s.connCount pair := by rw [connCount, connCount, h]

theorem DistinctPairs.congr (h : t.pairs = s.pairs) (hs : DistinctPairs s) : DistinctPairs t := by
  rw [DistinctPairs, h]
  exact hs

theorem quiet_touchPair (pid destId : ℕ) (ts : ℤ) :
    Quiet Store.pairs (touchPair pid destId ts : StoreM F PairUpsert) := by
  refine quiet_bind (keeps_query _) fun found => ?_
  cases found with
  | some id =>
    rintro (- | - | n) s h
    · cases h
    · rfl
    · cases h
  | none =>
    rintro (- | - | n) s h
    · cases h
    · rfl
    · cases h

theorem touchPair_of_some {r : PairRow} (hr : select PairRow.key (pid, destId) s.pairs = some r)
    (ts : ℤ) :
    ((touchPair pid destId ts).run s).2.pairs =
      update PairRow.id r.id (PairRow.countUp ts) s.pairs := by
  have hsel : select (fun r : PairRow => (r.processId, r.destId)) (pid, destId) s.pairs = some r := hr
  simp only [touchPair, run_bind, run_query, hsel, Option.map_some, run_write, run_pure]
  rfl

theorem touchPair_of_none (hr : select PairRow.key (pid, destId) s.pairs = none) (ts : ℤ) :
    ((touchPair pid destId ts).run s).2.pairs =
      s.pairs ++ [⟨nextRowid PairRow.id s.pairs, pid, destId, ts, ts, 1⟩] := by
  have hsel : select (fun r : PairRow => (r.processId, r.destId)) (pid, destId) s.pairs = none := hr
  simp only [touchPair, run_bind, run_query, hsel, Option.map_none, run_exec, run_pure]

theorem distinctPairs_touchPair (hs : DistinctPairs s) (pid destId : ℕ) (ts : ℤ) :
    DistinctPairs ((touchPair pid destId ts).run s).2 := by
  intro r hr r' hr' hid
  cases hsel : select PairRow.key (pid, destId) s.pairs with
  | some found =>
    rw [touchPair_of_some hsel] at hr hr'
    obtain ⟨a, ha, rfl⟩ := mem_update hr
    obtain ⟨b, hb, rfl⟩ := mem_update hr'
    have hab : a = b := by
      apply hs a ha b hb
      split_ifs at hid <;> exact hid
    rw [hab]
  | none =>
    rw [touchPair_of_none hsel] at hr hr'
    rcases List.mem_append.mp hr with hr | hr <;> rcases List.mem_append.mp hr' with hr' | hr'
    · exact hs r hr r' hr' hid
    · rw [List.mem_singleton.mp hr'] at hid
      exact absurd hid (lt_nextRowid PairRow.id hr).ne
    · rw [List.mem_singleton.mp hr] at hid
      exact absurd hid.symm (lt_nextRowid PairRow.id hr').ne
    · rw [List.mem_singleton.mp hr, List.mem_singleton.mp hr']

theorem connCount_touchPair (hs : DistinctPairs s) (pid destId : ℕ) (ts : ℤ) (pair : ℕ × ℕ) :
    ((touchPair pid destId ts).run s).2.connCount pair =
      s.connCount pair + if (pid, destId) = pair then 1 else 0 := by
  unfold connCount
  cases hsel : select PairRow.key (pid, destId) s.pairs with
  | some found =>
    have hkeep : ∀ r, PairRow.key (PairRow.countUp ts r) = PairRow.key r := fun _ => rfl
    rw [touchPair_of_some hsel, select_update hkeep]
    split_ifs with hp
    · rw [← hp, hsel]
      simp [PairRow.countUp]
    · cases hq : select PairRow.key pair s.pairs with
      | none => rfl
      | some r =>
        have hne : r.id ≠ found.id := fun hid => hp <| by
          rw [← key_of_select hsel, ← key_of_select hq,
            hs r (mem_of_select hq) found (mem_of_select hsel) hid]
        simp [hne]
  | none =>
    have hkey : PairRow.key ⟨nextRowid PairRow.id s.pairs, pid, destId, ts, ts, 1⟩ =
      (pid, destId) := rfl
    rw [touchPair_of_none hsel, select_append, hkey]
    split_ifs with hp
    · rw [← hp, hsel]
      rfl
    · rw [Option.or_none]
      rfl

end Touch

end Store

namespace AlertEngine

open Store

/-- The evaluation up to the write of its pair. -/
def touchPart (cfg : AlertConfig F) (ev : FlowEvent) (p : SocketProc) :
    StoreM F (Subject × List (Alert F) × Bool) := do
  let (sub, wasNew) ← setup cfg ev p
  let out ← newProcessEgress cfg ev sub wasNew []
  let out ← identityChange cfg ev sub out
  let labelNew ← noteLabel sub.pidRow ev.stableLabel ev.ts
  let _ ← touchPair sub.pidRow sub.destId ev.ts
  return (sub, out, labelNew)

/-- The pair that an attempt counts up, if it gets that far. -/
def touches (cfg : AlertConfig F) (ev : FlowEvent) (fault : Option ℕ) (s : Store F) :
    Option (ℕ × ℕ) :=
  ev.proc.bind fun p =>
    ((touchPart cfg ev p).attempt fault s).1.map fun x => (x.1.pidRow, x.1.destId)

section Evaluate

variable {cfg : AlertConfig F} {ev : FlowEvent} {p : SocketProc} {s : Store F}

theorem quiet_touchPart : Quiet Store.pairs (touchPart cfg ev p) := by
  refine quiet_bind (setup_keeps cfg ev p (fun _ _ => rfl) (fun _ _ => rfl) (fun _ _ => rfl)
    fun _ _ => rfl) fun x => ?_
  refine quiet_bind (newProcessEgress_keeps (fun _ => rfl) _) fun out => ?_
  refine quiet_bind (identityChange_keeps (fun _ _ => rfl) (fun _ _ => rfl) fun _ _ _ => rfl)
    fun out => ?_
  refine quiet_bind (keeps_exec fun _ => rfl) fun labelNew => ?_
  exact (quiet_touchPair _ _ _).bind_pure _

/-- What is left of the evaluation after the write of its pair. -/
def afterTouch [F64 F] (cfg : AlertConfig F) (ev : FlowEvent)
    (x : Subject × List (Alert F) × Bool) : StoreM F (EvalOutcome F) := do
  let (sub, out, labelNew) := x
  let out ← (if sub.active && labelNew && ev.outbound then emit cfg out (destAlert ev sub)
    else pure out)
  let out ← newCountry cfg ev sub out
  let out ← newAsn cfg ev sub out
  let alerts ← volumeSpike cfg ev sub out
  return { alerts, processId := some sub.pidRow, destId := sub.destId }

/-- What the first part has found and left behind, if nothing fails. -/
theorem run_touchPart (cfg : AlertConfig F) (ev : FlowEvent) (p : SocketProc) (s : Store F) :
    ((touchPart cfg ev p).run s).1.1 = subjectOf cfg ev s p ∧
      ∃ t : Store F, t.pairs = s.pairs ∧ ((touchPart cfg ev p).run s).2 =
        ((touchPair (subjectOf cfg ev s p).pidRow (subjectOf cfg ev s p).destId ev.ts).run t).2 := by
  have hsetup := setup_keeps (f := Store.pairs) cfg ev p (fun _ _ => rfl) (fun _ _ => rfl)
    (fun _ _ => rfl) fun _ _ => rfl
  simp only [touchPart, run_bind, run_pure, run_setup]
  refine ⟨trivial, _, ?_, rfl⟩
  have hlabel (label : String) : Keeps Store.pairs
      (noteLabel (subjectOf cfg ev s p).pidRow label ev.ts : StoreM F Bool) :=
    keeps_exec fun _ => rfl
  have hidentity (out : List (Alert F)) : Keeps Store.pairs
      (identityChange cfg ev (subjectOf cfg ev s p) out) :=
    identityChange_keeps (fun _ _ => rfl) (fun _ _ => rfl) fun _ _ _ => rfl
  have hegress (wasNew : Bool) : Keeps Store.pairs
      (newProcessEgress cfg ev (subjectOf cfg ev s p) wasNew []) :=
    newProcessEgress_keeps (fun _ => rfl) _
  rw [(hlabel _).run, (hidentity _).run, (hegress _).run, hsetup.run]

variable [F64 F]

theorem evaluateFull_eq_touchPart (h : ev.proc = some p) :
    evaluateFull cfg ev = touchPart cfg ev p >>= afterTouch cfg ev := by
  rw [evaluateFull_of_proc cfg ev h]
  unfold touchPart afterTouch signals newProcessDest
  simp only [bind_assoc, pure_bind]

theorem afterTouch_keeps (x : Subject × List (Alert F) × Bool) :
    Keeps Store.pairs (afterTouch cfg ev x) := by
  unfold afterTouch
  refine keeps_bind ?_ fun out => ?_
  · split
    · exact emit_keeps (fun _ => rfl) _ _
    · trivial
  · refine keeps_bind (newCountry_keeps (fun _ _ => rfl) fun _ _ => rfl) fun out => ?_
    refine keeps_bind (newAsn_keeps (fun _ _ => rfl) fun _ _ => rfl) fun out => ?_
    exact keeps_bind (volumeSpike_keeps (fun _ _ => rfl) fun _ _ => rfl) fun _ => trivial

theorem run_afterTouch (cfg : AlertConfig F) (ev : FlowEvent) (s : Store F)
    (x : Subject × List (Alert F) × Bool) :
    ((afterTouch cfg ev x).run s).1.processId = some x.1.pidRow ∧
      ((afterTouch cfg ev x).run s).1.destId = x.1.destId := by
  simp only [afterTouch, run_bind, run_pure, and_self]

theorem touches_of_outcome {fault : Option ℕ} {o : EvalOutcome F}
    (ho : ((evaluateFull cfg ev).attempt fault s).1 = some o) :
    touches cfg ev fault s = o.processId.map (·, o.destId) := by
  rw [touches]
  cases hp : ev.proc with
  | none =>
    rw [(attempt_eq_run ho).1, evaluateFull_of_none cfg ev hp]
    simp only [run_bind, run_pure]
    rfl
  | some p =>
    rw [evaluateFull_eq_touchPart hp] at ho
    obtain ⟨hpid, hdest⟩ := run_afterTouch cfg ev ((touchPart cfg ev p).run s).2
      ((touchPart cfg ev p).run s).1
    rw [Option.bind_some, attempt_bind_eq_some ho, (attempt_eq_run ho).1, run_bind, hpid, hdest]
    rfl

/-- The counters after an attempt. -/
theorem connCount_attempt (cfg : AlertConfig F) (ev : FlowEvent) (hs : DistinctPairs s)
    (fault : Option ℕ) :
    DistinctPairs ((evaluateFull cfg ev).attempt fault s).2 ∧
      ∀ pair, ((evaluateFull cfg ev).attempt fault s).2.connCount pair =
        s.connCount pair + if touches cfg ev fault s = some pair then 1 else 0 := by
  cases hp : ev.proc with
  | none =>
    have hkeep : Keeps Store.pairs (evaluateFull cfg ev) := by
      rw [evaluateFull_of_none cfg ev hp]
      exact keeps_bind (prepare_keeps cfg ev (fun _ _ => rfl) (fun _ _ => rfl) fun _ _ => rfl)
        fun _ => trivial
    have hpairs := hkeep.attempt fault s
    refine ⟨hs.congr hpairs, fun pair => ?_⟩
    rw [connCount_congr hpairs, touches, hp]
    rfl
  | some p =>
    have hpairs : ((evaluateFull cfg ev).attempt fault s).2.pairs =
        ((touchPart cfg ev p).attempt fault s).2.pairs := by
      rw [evaluateFull_eq_touchPart hp]
      exact attempt_bind_keeps (f := Store.pairs) afterTouch_keeps fault s
    rw [touches, hp, Option.bind_some]
    cases hx : ((touchPart cfg ev p).attempt fault s).1 with
    | none =>
      rw [quiet_touchPart fault s hx] at hpairs
      refine ⟨hs.congr hpairs, fun pair => ?_⟩
      rw [connCount_congr hpairs]
      rfl
    | some x =>
      obtain ⟨hrun, hstore⟩ := attempt_eq_run hx
      obtain ⟨hsub, t, ht, htouch⟩ := run_touchPart cfg ev p s
      rw [hstore, htouch] at hpairs
      have hdist := distinctPairs_touchPair (hs.congr ht) (subjectOf cfg ev s p).pidRow
        (subjectOf cfg ev s p).destId ev.ts
      refine ⟨hdist.congr hpairs, fun pair => ?_⟩
      rw [connCount_congr hpairs, connCount_touchPair (hs.congr ht), connCount_congr ht, hrun,
        Option.map_some, hsub]
      simp only [Option.some.injEq]

end Evaluate

end AlertEngine

end Pktscope

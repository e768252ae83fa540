import Pktscope.Alert.IdentityWatch
import Pktscope.Alert.Lifecycle

/-! # Evaluating an event again

What a failed evaluation leaves for the next evaluation of the same event. A
failure before the process is recorded costs nothing unless it tears the start
of the learning window. After that point, a signal whose record is committed is
judged against its own record.
-/

namespace Pktscope.AlertEngine

open Library Library.Prog Library.Sql Library.Stage Store Baseline

variable {F : Type}

section Window

variable (cfg : AlertConfig F) (ev : FlowEvent) {s t : Store F}

/-- A failure tears the start of the learning window, after its first write and before its
last one. -/
def TornStart (s : Store F) (n : ℕ) : Prop :=
  s.metaRows.lookup "baseline_state" = none ∧ (n = 2 ∨ n = 3)

theorem activeAt_eq (hc : Clean s) :
    activeAt cfg ev s = decide ((after cfg ev.ts (phase s)).toState = .active) := by
  rw [activeAt, (run_ensureStarted cfg ev.ts hc).1]

theorem settle_settle (p : Phase) (now : ℤ) : (p.settle now).settle now = p.settle now := by
  rcases p with _ | (_ | ends) | _
  · rfl
  · rfl
  · by_cases h : ends ≤ now <;> simp [Phase.settle, h]
  · rfl

theorem begin_of_ne_unstarted {p : Phase} (h : p ≠ .unstarted) (ends : ℤ) : p.begin ends = p := by
  cases p <;> first | rfl | exact absurd rfl h

theorem after_begin (p : Phase) (now : ℤ) :
    after cfg now (p.begin (endsAt cfg now)) = after cfg now p := by
  cases p <;> rfl

theorem after_after (p : Phase) (now : ℤ) :
    after cfg now (after cfg now p) = after cfg now p := by
  have h := after_ne_unstarted cfg now p
  rw [after, begin_of_ne_unstarted h, after, settle_settle]

theorem activeAt_cut_ensureStarted (hc : Clean s) {n : ℕ} (hn : ¬ TornStart s n) :
    activeAt cfg ev ((ensureStarted cfg ev.ts).cut n s).2 = activeAt cfg ev s := by
  obtain ⟨hct, hph⟩ := cut_ensureStarted cfg ev.ts hc (n := n) fun h =>
    ⟨fun h2 => hn ⟨h, Or.inl h2⟩, fun h3 => hn ⟨h, Or.inr h3⟩⟩
  rw [activeAt_eq cfg ev hct, activeAt_eq cfg ev hc]
  rcases hph with hph | hph | hph
  · rw [hph]
  · rw [hph, after_begin]
  · rw [hph, after_after]

theorem activeAt_torn (hc : Clean s) {n : ℕ} (hn : TornStart s n) :
    activeAt cfg ev ((ensureStarted cfg ev.ts).cut n s).2 = false := by
  obtain ⟨hct, hph⟩ := cut_torn cfg ev.ts hc hn.1 hn.2
  rw [activeAt_eq cfg ev hct, hph]
  rfl

end Window

section Setup

variable (cfg : AlertConfig F) (ev : FlowEvent) (p : SocketProc) {s : Store F} {n : ℕ}

/-- The destination keeps its id from the first attempt to the next. -/
theorem upsertDestination_destId (s : Store F) :
    (upsertDestination ev.destIp ev.name ev.geo ev.ts).Holds (fun t => destIdOf ev t = destIdOf ev s)
      (fun _ t => destIdOf ev t = destIdOf ev s) s := by
  unfold upsertDestination
  simp only [holds_bind, holds_query, true_and]
  cases h : select DestRow.ip ev.destIp.display s.destinations with
  | some r =>
    have ht (g : DestRow → DestRow) (hip : ∀ r, (g r).ip = r.ip) (hid : ∀ r, (g r).id = r.id) :
        destIdOf ev { s with destinations := update DestRow.id r.id g s.destinations } =
          destIdOf ev s := by
      simp only [destIdOf, select_update hip, h, Option.map_some, if_true, hid, Option.getD_some]
    simp only [Option.map_some, holds_bind, holds_write, holds_pure, true_and]
    exact ⟨ht _ (fun _ => rfl) fun _ => rfl, ht _ (fun _ => rfl) fun _ => rfl,
      ht _ (fun _ => rfl) fun _ => rfl⟩
  | none =>
    simp only [Option.map_none, holds_exec, true_and]
    rw [destIdOf, destIdOf, select_append, h]
    simp

theorem prepare_destId (s : Store F) :
    (prepare cfg ev).Holds (fun t => destIdOf ev t = destIdOf ev s)
      (fun _ t => destIdOf ev t = destIdOf ev s) s := by
  have hk : Keeps (destIdOf ev) (ensureStarted cfg ev.ts : StoreM F _) :=
    ensureStarted_keeps cfg ev.ts fun _ _ => rfl
  have ho : Keeps (destIdOf ev) (recordObserved ev : StoreM F _) :=
    recordObserved_keeps fun _ _ => rfl
  unfold prepare
  rw [holds_bind]
  refine (hk.holds s).mono (fun _ => id) fun _ t ht => ?_
  rw [holds_bind]
  refine (upsertDestination_destId ev t).mono (fun _ hu => hu.trans ht) fun _ u hu => ?_
  rw [holds_bind]
  exact (ho.holds u).mono (fun _ hv => hv.trans (hu.trans ht)) fun _ _ hv =>
    ⟨hv.trans (hu.trans ht), hv.trans (hu.trans ht)⟩

theorem metaRows_cut_prepare (s : Store F) (n : ℕ) :
    ((prepare cfg ev).cut n s).2.metaRows = ((ensureStarted cfg ev.ts).cut n s).2.metaRows := by
  have hd (s : Store F) (r : BaselineState) :
      Keeps Store.metaRows (do
        let destId ← upsertDestination ev.destIp ev.name ev.geo ev.ts
        recordObserved ev
        return (r, destId) : StoreM F (BaselineState × ℕ)) :=
    keeps_bind (upsertDestination_keeps (fun _ _ => rfl) _ _ _ _) fun _ =>
      keeps_bind (recordObserved_keeps fun _ _ => rfl) fun _ => trivial
  exact cut_bind_keeps (f := Store.metaRows) (hd s) n s

theorem activeAt_congr {s t : Store F} (hs : Clean s) (h : t.metaRows = s.metaRows) :
    activeAt cfg ev t = activeAt cfg ev s := by
  have ht : Clean t := by rwa [Clean, h]
  rw [activeAt_eq cfg ev hs, activeAt_eq cfg ev ht, phase_congr h]

theorem clean_cut_ensureStarted (hc : Clean s) :
    Clean ((ensureStarted cfg ev.ts).cut n s).2 := by
  by_cases hn : TornStart s n
  · exact (cut_torn cfg ev.ts hc hn.1 hn.2).1
  · exact (cut_ensureStarted cfg ev.ts hc fun h =>
      ⟨fun h2 => hn ⟨h, Or.inl h2⟩, fun h3 => hn ⟨h, Or.inr h3⟩⟩).1

theorem activeAt_cut_prepare (hc : Clean s) (hn : ¬ TornStart s n) :
    activeAt cfg ev ((prepare cfg ev).cut n s).2 = activeAt cfg ev s := by
  rw [activeAt_congr cfg ev (clean_cut_ensureStarted cfg ev hc) (metaRows_cut_prepare cfg ev s n),
    activeAt_cut_ensureStarted cfg ev hc hn]

theorem activeAt_cut_torn (hc : Clean s) (hn : TornStart s n) :
    activeAt cfg ev ((prepare cfg ev).cut n s).2 = false := by
  rw [activeAt_congr cfg ev (clean_cut_ensureStarted cfg ev hc) (metaRows_cut_prepare cfg ev s n),
    activeAt_torn cfg ev hc hn]

theorem cut_upsertProcess {exe name : String} {ts : ℤ}
    (hn : n < (upsertProcess exe name ts).steps s) :
    ((upsertProcess exe name ts).cut n s).2 = s := by
  unfold upsertProcess at hn ⊢
  rw [steps_bind, steps_query, run_query] at hn
  rw [cut_bind, steps_query, run_query]
  by_cases h0 : n < 1
  · rw [if_pos h0, Nat.lt_one_iff.mp h0, cut_zero_query]
  · rw [if_neg h0]
    cases h : select ProcessRow.exePath exe s.processes <;>
      simp only [h, Option.map_some, Option.map_none, steps_bind, steps_write, steps_exec,
        steps_pure] at hn <;>
      obtain rfl : n = 1 := by omega
    · rfl
    · rfl

theorem cut_setup (hn : n < (setup cfg ev p).steps s) :
    ((setup cfg ev p).cut n s).2 = ((prepare cfg ev).cut n s).2 := by
  unfold setup at hn ⊢
  rcases Nat.lt_or_ge n ((prepare cfg ev).steps s) with hlt | hge
  · rw [cut_bind_of_lt _ _ hlt]
  · rw [steps_bind, steps_bind, steps_pure, Nat.add_zero] at hn
    rw [cut_bind_of_le _ _ hge, (prepare cfg ev).cut_of_steps_le hge,
      cut_bind_of_lt _ _ (by omega)]
    exact cut_upsertProcess (by omega)

end Setup

section Judgement

variable [F64 F] {cfg : AlertConfig F} {ev : FlowEvent} {sub : Subject} {s t : Store F}

theorem verdict_of_inactive (h : sub.active = false) (wasNew : Bool) (s : Store F) (k : Signal) :
    Verdict.of cfg ev sub wasNew s k = [] := by
  rcases Verdict.of_cases cfg ev sub s wasNew k with hnil | ⟨c, a, hcalls, hof⟩
  · exact hnil
  · have hc : c = false := by cases hcalls <;> simp [h]
    rw [hof, hc]
    rfl

/-- A failure of the preparation costs nothing, unless it tears the start of the window. -/
theorem verdict_cut_prepare (hc : Clean s) {p : SocketProc} (hp : ev.proc = some p) {n : ℕ} :
    verdict cfg ev ((prepare cfg ev).cut n s).2 = verdict cfg ev s ↔
      (TornStart s n → verdict cfg ev s = []) := by
  have keep {β : Type} {f : Store F → β} (hm : ∀ s x, f { s with metaRows := x } = f s)
      (hd : ∀ s x, f { s with destinations := x } = f s)
      (hn : ∀ s x, f { s with names := x } = f s) : f ((prepare cfg ev).cut n s).2 = f s :=
    (prepare_keeps cfg ev hm hd hn).attempt (some n) s
  by_cases hn : TornStart s n
  · have hnil : verdict cfg ev ((prepare cfg ev).cut n s).2 = [] := by
      rw [verdict, hp]
      refine List.flatMap_eq_nil_iff.mpr fun k _ => verdict_of_inactive ?_ _ _ _
      exact activeAt_cut_torn cfg ev hc hn
    rw [hnil, eq_comm]
    exact ⟨fun h _ => h, fun h => h hn⟩
  · refine iff_of_true ?_ fun h => absurd h hn
    have hsub : subjectOf cfg ev ((prepare cfg ev).cut n s).2 p = subjectOf cfg ev s p := by
      unfold subjectOf
      rw [activeAt_cut_prepare cfg ev hc hn, (prepare_destId cfg ev s).cut n,
        keep (f := fun s => pidRowOf s p.exe) (fun _ _ => rfl) (fun _ _ => rfl) fun _ _ => rfl]
    rw [verdict, verdict, hp]
    refine List.flatMap_congr fun k _ => ?_
    rw [hsub, keep (f := fun s => (findProcess s p.exe).isNone) (fun _ _ => rfl) (fun _ _ => rfl)
      fun _ _ => rfl]
    refine keep (f := fun u => Verdict.of cfg ev (subjectOf cfg ev s p) _ u k) ?_ ?_ ?_ <;>
      intro s x <;> cases k <;> rfl

end Judgement

section Stored

variable {cfg : AlertConfig F} {s t : Store F}

/-- The store once some alerts are in it. -/
def stored (s : Store F) (alerts : List (Alert F)) : Store F :=
  alerts.foldl (fun s a => { s with alerts := s.alerts ++ [s.alertRow a] }) s

/-- The times of the alerts with one key. -/
def alertTimes (s : Store F) (key : String) : List ℤ :=
  (s.alerts.filter fun a => decide (a.dedupKey = key)).map AlertRow.tsMs

theorem fire_of_alertTimes {a : Alert F} (h : alertTimes t a.dedupKey = alertTimes s a.dedupKey) :
    fire cfg t a = fire cfg s a := by
  unfold fire lastAlertTs
  rw [← alertTimes, ← alertTimes, h]

theorem alertTimes_alertRow (s : Store F) (a : Alert F) (key : String) :
    alertTimes { s with alerts := s.alerts ++ [s.alertRow a] } key =
      alertTimes s key ++ if a.dedupKey = key then [a.ts] else [] := by
  unfold alertTimes
  rw [List.filter_append, List.map_append]
  by_cases h : a.dedupKey = key <;> simp [alertRow, h]

theorem alertTimes_stored {key : String} (h : alertTimes t key = alertTimes s key)
    (alerts : List (Alert F)) : alertTimes (stored t alerts) key = alertTimes (stored s alerts) key := by
  induction alerts generalizing s t with
  | nil => exact h
  | cons a alerts ih =>
    refine ih ?_
    rw [alertTimes_alertRow, alertTimes_alertRow, h]

theorem cut_emit (cfg : AlertConfig F) (a : Alert F) (i : ℕ) (s : Store F) :
    ((emit cfg [] a).cut i s).2 = if i < 2 then s else stored s (fire cfg s a) := by
  unfold emit insertAlert fire
  by_cases h : inCooldown (s.lastAlertTs a.dedupKey) a.ts (cooldownMs cfg) = true
  · rw [if_pos h, stored, List.foldl_nil, ite_self]
    rcases i with _ | i
    · rfl
    · rw [cut_of_steps_le] <;> simp [h]
  · rw [if_neg h, stored, List.foldl_cons, List.foldl_nil]
    rcases i with _ | _ | i
    · rfl
    · rw [bind_assoc, cut_bind_of_le _ _ (by rw [steps_query]), run_query, if_neg h]
      rfl
    · rw [if_neg (by omega), cut_of_steps_le] <;> simp [h]

theorem cut_emit_if (cfg : AlertConfig F) (a : Alert F) (c : Bool) (i : ℕ) (s : Store F) :
    ((if c = true then emit cfg [] a else pure [] : StoreM F (List (Alert F))).cut i s).2 =
      if i < 2 then s else stored s (if c = true then fire cfg s a else []) := by
  cases c with
  | true => exact cut_emit cfg a i s
  | false => simp [stored]

end Stored

section Again

variable (cfg : AlertConfig F) (ev : FlowEvent) (sub : Subject)

/-- The number of statements in a signal's stage up to the one that commits its record. -/
def recordAt : Signal → ℕ
  | .egress => 0
  | .identity => 4
  | .volume => 2
  | _ => 1

/-- A recorded identity as the store keeps it: the row that had its value before, if any. -/
def ownIdentity (s : Store F) (ident : BinaryIdentity) : BinaryIdentity :=
  (keptRow s sub.pidRow ident ev.ts).toIdentity sub.proc.exe

/-- The identity judged against itself, its alert stored if the stage came to its end. -/
def againIdentity (s : Store F) (i : ℕ) : List (Alert F) :=
  Verdict.identityFrom cfg ev sub (if i < 6 then s else stored s (Verdict.identity cfg ev sub s))
    (ev.identity.map (ownIdentity ev sub s))

/-- A signal judged once more, after its own record and at statement `i` of its stage: nothing
is new any more, an identity is compared with itself, and the bytes are counted twice. -/
def again [F64 F] (s : Store F) (i : ℕ) : Signal → List (Alert F)
  | .identity => againIdentity cfg ev sub s i
  | .volume =>
    Verdict.volumeFrom cfg ev sub s
      (some (accumulate cfg (s.volumes.lookup sub.pidRow) ev.bytesUp ev.ts).1)
  | _ => []

end Again

section Stages

variable {cfg : AlertConfig F} {ev : FlowEvent} {sub : Subject} {s t : Store F} {i : ℕ}

theorem identityFrom_congr
    (h : ∀ key, signalOf key = some .identity → alertTimes t key = alertTimes s key)
    (found : Option BinaryIdentity) :
    Verdict.identityFrom cfg ev sub t found = Verdict.identityFrom cfg ev sub s found := by
  unfold Verdict.identityFrom
  split
  · rw [fire_of_alertTimes (h _ (signalOf_identityAlert ev sub _ _))]
  · rfl

theorem identityFrom_path (s : Store F) (r : IdentityRow) (path path' : String) :
    Verdict.identityFrom cfg ev sub s (some (r.toIdentity path)) =
      Verdict.identityFrom cfg ev sub s (some (r.toIdentity path')) := by
  unfold Verdict.identityFrom
  cases ev.identity <;> rfl

theorem findIdentity_inserted (hl : Linked s) (pid : ℕ) (ident : BinaryIdentity) (ts : ℤ) (q : ℕ) :
    findIdentity { s with identities := (recorded s pid ident ts).identities } q =
      findIdentity s q := by
  simp only [findIdentity]
  cases h : select ProcessRow.id q s.processes with
  | none => rfl
  | some r =>
    simp only [Option.bind_eq_bind, Option.bind_some]
    cases hj : r.curIdentityId with
    | none => rfl
    | some j =>
      obtain ⟨i, hi, rfl⟩ := hl.cur r (mem_of_select h) j hj
      have hi' := (hl.recorded pid ident ts).distinct.select_id (subset_insertOrIgnore hi)
      simp only [Option.bind_some, hl.distinct.select_id hi, hi']

theorem cut_identityChange_early (cfg : AlertConfig F) (sub : Subject) {ident : BinaryIdentity}
    (hi : ev.identity = some ident) (hlt : i < 4) (s : Store F) :
    ((identityChange cfg ev sub []).cut i s).2 = s ∨
      ((identityChange cfg ev sub []).cut i s).2 =
        { s with identities := (recorded s sub.pidRow ident ev.ts).identities } := by
  unfold identityChange
  rw [hi]
  rcases i with _ | _ | _ | _ | i
  · exact Or.inl rfl
  · exact Or.inl rfl
  · exact Or.inr rfl
  · exact Or.inr rfl
  · omega

theorem cut_judge {ident : BinaryIdentity} (hi : ev.identity = some ident)
    (base : Option BinaryIdentity) (i : ℕ) (s : Store F) :
    ((match base with
      | none => pure []
      | some base =>
        if sub.active && ev.outbound && base.changedSince ident cfg.flagSignedUpdates then
          emit cfg [] (identityAlert ev sub base ident)
        else pure [] : StoreM F (List (Alert F))).cut i s).2 =
      if i < 2 then s else stored s (Verdict.identityFrom cfg ev sub s base) := by
  unfold Verdict.identityFrom
  rw [hi]
  cases base with
  | none => simp [stored]
  | some base => exact cut_emit_if cfg _ _ i s

theorem cut_identityChange_recorded (cfg : AlertConfig F) (sub : Subject)
    {ident : BinaryIdentity} (hi : ev.identity = some ident) (i : ℕ) (s : Store F) :
    ((identityChange cfg ev sub []).cut (i + 4) s).2 =
      if i < 2 then recorded s sub.pidRow ident ev.ts
      else stored (recorded s sub.pidRow ident ev.ts) (Verdict.identity cfg ev sub s) := by
  have hjudge : Verdict.identityFrom cfg ev sub (recorded s sub.pidRow ident ev.ts)
      (findIdentity s sub.pidRow) = Verdict.identity cfg ev sub s := identityFrom_congr (fun _ _ => rfl) _
  rw [← hjudge]
  unfold identityChange
  rw [hi]
  exact cut_judge hi _ i _

theorem tables_stored (s : Store F) (alerts : List (Alert F)) :
    identityTables (stored s alerts) = identityTables s := by
  induction alerts generalizing s with
  | nil => rfl
  | cons a alerts ih => exact ih _

/-- Once its record is there, the identity is judged against itself. -/
theorem cut_identityChange (hl : Linked s) {r : ProcessRow}
    (hr : select ProcessRow.id sub.pidRow s.processes = some r) (i : ℕ) :
    Verdict.identity cfg ev sub ((identityChange cfg ev sub []).cut i s).2 =
      if i < 4 then Verdict.identity cfg ev sub s else againIdentity cfg ev sub s i := by
  cases hi : ev.identity with
  | none => simp [Verdict.identity, Verdict.identityFrom, againIdentity, hi]
  | some ident =>
    rcases Nat.lt_or_ge i 4 with hlt | hge
    · rw [if_pos hlt]
      rcases cut_identityChange_early cfg sub hi hlt s with h | h
      · rw [h]
      · rw [h, Verdict.identity, findIdentity_inserted hl]
        exact identityFrom_congr (fun _ _ => rfl) _
    · obtain ⟨j, rfl⟩ := Nat.exists_eq_add_of_le' hge
      have hcut := cut_identityChange_recorded cfg sub hi j s
      generalize ((identityChange cfg ev sub []).cut (j + 4) s).2 = t at hcut
      have htables : identityTables t = identityTables (recorded s sub.pidRow ident ev.ts) := by
        rw [hcut]
        split
        · rfl
        · exact tables_stored _ _
      have htimes (key : String) : alertTimes t key =
          alertTimes (if j + 4 < 6 then s else stored s (Verdict.identity cfg ev sub s)) key := by
        rw [hcut]
        by_cases hj : j < 2
        · rw [if_pos hj, if_pos (by omega)]
          rfl
        · rw [if_neg hj, if_neg (by omega)]
          exact alertTimes_stored (s := s) (t := recorded s sub.pidRow ident ev.ts) rfl _
      rw [if_neg (by omega), Verdict.identity, findIdentity_congr htables,
        findIdentity_recorded_self hl.distinct hr, againIdentity, hi, Option.map_some, ownIdentity,
        identityFrom_path _ (keptRow s sub.pidRow ident ev.ts) sub.proc.exe r.exePath]
      exact identityFrom_congr (fun key _ => htimes key) _

theorem emit_if_keeps {β : Type} {f : Store F → β} (ha : ∀ s x, f { s with alerts := x } = f s)
    (c : Bool) (a : Alert F) :
    Keeps f (if c = true then emit cfg [] a else pure [] : StoreM F (List (Alert F))) := by
  cases c with
  | false => trivial
  | true => exact emit_keeps (fun _ => ha _ _) _ _

theorem cut_newProcessDest (i : ℕ) (s : Store F) :
    Verdict.dest cfg ev sub ((newProcessDest cfg ev sub []).cut i s).2 =
      if i < 1 then Verdict.dest cfg ev sub s else [] := by
  rcases i with _ | i
  · rfl
  · have hlabels : ((newProcessDest cfg ev sub []).cut (i + 1) s).2.labels =
        ((noteLabel sub.pidRow ev.stableLabel ev.ts).run s).2.labels := by
      refine cut_bind_keeps (f := Store.labels) (fun _ => ?_) (i + 1) s
      exact keeps_bind (touchPair_keeps (fun _ _ => rfl) _ _ _) fun _ =>
        emit_if_keeps (fun _ _ => rfl) _ _
    have hhas : ((newProcessDest cfg ev sub []).cut (i + 1) s).2.hasLabel sub.pidRow ev.stableLabel =
        true := by
      rw [hasLabel, hlabels]
      exact (select_insertOrIgnore _ _ _ _).mpr (Or.inr rfl)
    rw [Verdict.dest, hhas]
    simp

theorem cut_newCountry (i : ℕ) (s : Store F) :
    Verdict.country cfg ev sub ((newCountry cfg ev sub []).cut i s).2 =
      if i < 1 then Verdict.country cfg ev sub s else [] := by
  unfold newCountry Verdict.country
  cases ev.geo.country with
  | none => simp
  | some cc =>
    rcases i with _ | i
    · rfl
    · dsimp only
      rw [hasCountry, cut_bind_keeps (f := Store.countries) fun _ => emit_if_keeps (fun _ _ => rfl) _ _]
      have hhas : (select CountryRow.key (sub.pidRow, cc)
          ((noteCountry sub.pidRow cc ev.ts).cut (i + 1) s).2.countries).isSome = true :=
        (select_insertOrIgnore _ _ _ _).mpr (Or.inr rfl)
      simp [hhas]

theorem cut_newAsn (i : ℕ) (s : Store F) :
    Verdict.network cfg ev sub ((newAsn cfg ev sub []).cut i s).2 =
      if i < 1 then Verdict.network cfg ev sub s else [] := by
  unfold newAsn Verdict.network
  cases ev.geo.asn with
  | none => simp
  | some asn =>
    rcases i with _ | i
    · rfl
    · dsimp only
      rw [hasAsn, cut_bind_keeps (f := Store.asns) fun _ => emit_if_keeps (fun _ _ => rfl) _ _]
      have hhas : (select AsnRow.key (sub.pidRow, asn)
          ((noteAsn sub.pidRow asn ev.geo.asOrg ev.ts).cut (i + 1) s).2.asns).isSome = true :=
        (select_insertOrIgnore _ _ _ _).mpr (Or.inr rfl)
      simp [hhas]

theorem steps_emit_le (cfg : AlertConfig F) (a : Alert F) (s : Store F) :
    (emit cfg [] a).steps s ≤ 2 := by
  unfold emit insertAlert
  by_cases h : inCooldown (s.lastAlertTs a.dedupKey) a.ts (cooldownMs cfg) = true <;> simp [h]

/-- The part of the last stage after its record. -/
def volumeJudge [F64 F] (cfg : AlertConfig F) (ev : FlowEvent) (sub : Subject)
    (sample : Option (VolumeSample F)) : StoreM F (List (Alert F)) :=
  match sample with
  | none => pure []
  | some sample =>
    if sub.active && isSpike cfg sample then emit cfg [] (volumeAlert ev sub sample) else pure []

theorem cut_volumeJudge [F64 F] {sample : Option (VolumeSample F)}
    (hi : i < (volumeJudge cfg ev sub sample).steps s) :
    ((volumeJudge cfg ev sub sample).cut i s).2 = s := by
  unfold volumeJudge at hi ⊢
  cases sample with
  | none => rfl
  | some sample =>
    dsimp only at hi ⊢
    split at hi
    · rw [if_pos ‹_›, cut_emit, if_pos (hi.trans_le (steps_emit_le _ _ _))]
    · rw [if_neg ‹_›]
      rfl

theorem cut_volumeSpike [F64 F] (hi : i < (volumeSpike cfg ev sub []).steps s) :
    Verdict.volume cfg ev sub ((volumeSpike cfg ev sub []).cut i s).2 =
      if i < 2 then Verdict.volume cfg ev sub s else again cfg ev sub s i .volume := by
  rcases i with _ | _ | i
  · rfl
  · rfl
  · let next := accumulate cfg (s.volumes.lookup sub.pidRow) ev.bytesUp ev.ts
    let t : Store F := { s with volumes := s.volumes.insert sub.pidRow next.1 }
    have hlt : i < (volumeJudge cfg ev sub next.2).steps t := Nat.lt_of_add_lt_add_right hi
    have hcut : ((volumeSpike cfg ev sub []).cut (i + 2) s).2 = t :=
      (cut_volumeJudge hlt : ((volumeJudge cfg ev sub next.2).cut i t).2 = t)
    have hlookup : t.volumes.lookup sub.pidRow = some next.1 := AList.lookup_insert _
    rw [hcut, if_neg (by omega), Verdict.volume, hlookup]
    rfl

theorem againIdentity_congr (hi : t.identities = s.identities)
    (hv : Verdict.identity cfg ev sub t = Verdict.identity cfg ev sub s)
    (ha : ∀ key, signalOf key = some .identity → alertTimes t key = alertTimes s key) :
    againIdentity cfg ev sub t i = againIdentity cfg ev sub s i := by
  have hown : ownIdentity ev sub t = ownIdentity ev sub s := by
    funext ident
    simp only [ownIdentity, keptRow, identityRow, hi]
  unfold againIdentity
  rw [hv, hown]
  refine identityFrom_congr (fun key hk => ?_) _
  split
  · exact ha key hk
  · exact alertTimes_stored (ha key hk) _

theorem ignores_again [F64 F] {alert : Alert F} {k : Signal}
    (h : signalOf alert.dedupKey ≠ some k) :
    Ignores (fun s => again cfg ev sub s i k) alert := by
  intro s
  cases k with
  | identity =>
    refine againIdentity_congr rfl (ignores_identityFrom h (findIdentity s sub.pidRow) s)
      fun key hk => ?_
    have hne : alert.dedupKey ≠ key := fun he => h (he ▸ hk)
    rw [alertTimes_alertRow, if_neg hne, List.append_nil]
  | volume => exact ignores_volumeFrom cfg ev sub h _ s
  | _ => rfl

/-- What a signal would be judged by is left alone by the other stages. -/
theorem again_keeps [F64 F] {wasNew : Bool} {j k : Signal} (h : j ≠ k) :
    Keeps (fun s => again cfg ev sub s i k) (stageProg cfg ev sub wasNew j) := by
  refine stageProg_keeps ?_ fun alert ha => ignores_again fun hk =>
    h (Option.some.inj (ha.symm.trans hk))
  by_cases hk : k = .identity
  · subst hk
    cases j with
    | egress => trivial
    | identity => exact absurd rfl h
    | dest =>
      exact ⟨fun _ _ => againIdentity_congr rfl rfl fun _ _ => rfl,
        fun _ _ => againIdentity_congr rfl rfl fun _ _ => rfl⟩
    | _ => exact fun _ _ => againIdentity_congr rfl rfl fun _ _ => rfl
  · cases k <;> cases j <;> first
      | exact absurd rfl h
      | exact absurd rfl hk
      | exact trivial
      | exact fun _ _ => rfl
      | exact ⟨fun _ _ => rfl, fun _ _ => rfl⟩

theorem cut_stageProg [F64 F] (cfg : AlertConfig F) (ev : FlowEvent) (wasNew : Bool) {k : Signal}
    (hk : k ≠ .egress) (hl : Linked s) (hr : ∃ r ∈ s.processes, r.id = sub.pidRow)
    (hi : k = .volume → i < (volumeSpike cfg ev sub []).steps s) :
    Verdict.of cfg ev sub false ((stageProg cfg ev sub wasNew k).cut i s).2 k =
      if i < recordAt k then Verdict.of cfg ev sub false s k else again cfg ev sub s i k := by
  cases k with
  | egress => exact absurd rfl hk
  | identity =>
    obtain ⟨r, hr⟩ := Option.isSome_iff_exists.mp (select_isSome.mpr hr)
    exact cut_identityChange hl hr i
  | dest => exact cut_newProcessDest i s
  | country => exact cut_newCountry i s
  | network => exact cut_newAsn i s
  | volume => exact cut_volumeSpike (hi rfl)

end Stages

section Pipeline

variable [F64 F] {cfg : AlertConfig F} {ev : FlowEvent} {sub : Subject} {wasNew : Bool}
  {s : Store F} {n : ℕ}

/-- The signals whose stages come before. -/
def earlier (k : Signal) : List Signal := Signal.all.takeWhile fun j => decide (j ≠ k)

def later (k : Signal) : List Signal := (Signal.all.dropWhile fun j => decide (j ≠ k)).tail

theorem all_eq (k : Signal) : Signal.all = earlier k ++ k :: later k := by
  cases k <;> rfl

theorem ne_of_mem_earlier {j k : Signal} (h : j ∈ earlier k) : j ≠ k := by
  revert j
  cases k <;> decide

theorem ne_of_mem_later {j k : Signal} (h : j ∈ later k) : j ≠ k := by
  revert j
  cases k <;> decide

/-- The statements of the stages before a signal's own. -/
def stepsBefore (cfg : AlertConfig F) (ev : FlowEvent) (sub : Subject) (wasNew : Bool) (s : Store F)
    (k : Signal) : ℕ := (runAll ((earlier k).map (stage cfg ev sub wasNew))).steps s

theorem signals_split (k : Signal) :
    signals cfg ev sub wasNew = runAll ((earlier k).map (stage cfg ev sub wasNew) ++
      stage cfg ev sub wasNew k :: (later k).map (stage cfg ev sub wasNew)) := by
  rw [signals_eq, all_eq k, List.map_append, List.map_cons]

theorem of_wasNew {k : Signal} (hk : k ≠ .egress) (wasNew wasNew' : Bool) (s : Store F) :
    Verdict.of cfg ev sub wasNew s k = Verdict.of cfg ev sub wasNew' s k := by
  cases k <;> first | rfl | exact absurd rfl hk

theorem keeps_stages {β : Type} {f : Store F → β} {k : Signal}
    (h : ∀ j, j ≠ k → Keeps f (stageProg cfg ev sub wasNew j)) {js : List Signal}
    (hj : ∀ j ∈ js, j ≠ k) : ∀ q ∈ js.map (stage cfg ev sub wasNew), Keeps f q.prog := by
  intro q hq
  obtain ⟨j, hjs, rfl⟩ := List.mem_map.mp hq
  exact h j (hj j hjs)

theorem run_earlier {β : Type} {f : Store F → β} {k : Signal}
    (h : ∀ j, j ≠ k → Keeps f (stageProg cfg ev sub wasNew j)) :
    f ((runAll ((earlier k).map (stage cfg ev sub wasNew))).run s).2 = f s :=
  (keeps_runAll (keeps_stages h fun _ => ne_of_mem_earlier)).run s

theorem before_stage (cfg : AlertConfig F) (ev : FlowEvent) (wasNew : Bool) (hl : Linked s)
    (hr : ∃ r ∈ s.processes, r.id = sub.pidRow) (js : List Signal) :
    let t := ((runAll (js.map (stage cfg ev sub wasNew))).run s).2
    Linked t ∧ ∃ r ∈ t.processes, r.id = sub.pidRow := by
  constructor
  · refine (holds_runAll (fun q hq v hv => ?_) hl).run.1
    obtain ⟨k, -, rfl⟩ := List.mem_map.mp hq
    exact stage_linked hv k
  · have hk : Keeps procKeys (runAll (js.map (stage cfg ev sub wasNew))) := by
      refine keeps_runAll fun q hq => ?_
      obtain ⟨k, -, rfl⟩ := List.mem_map.mp hq
      exact stageProg_keeps (blind_procKeys _ k) fun _ _ _ => rfl
    rw [exists_row_iff] at hr ⊢
    rwa [hk.run s]

theorem lt_steps_volume (hn : n < (signals cfg ev sub wasNew).steps s)
    (hge : stepsBefore cfg ev sub wasNew s .volume ≤ n) :
    n - stepsBefore cfg ev sub wasNew s .volume < (volumeSpike cfg ev sub []).steps
      ((runAll ((earlier .volume).map (stage cfg ev sub wasNew))).run s).2 := by
  have hlater : later .volume = [] := rfl
  rw [signals_split .volume, hlater, List.map_nil, runAll_append] at hn
  simp only [runAll, steps_bind, steps_pure, run_bind, run_pure, Nat.add_zero] at hn
  rw [← stepsBefore] at hn
  have hs : (stage cfg ev sub wasNew .volume).prog = volumeSpike cfg ev sub [] := rfl
  rw [hs] at hn
  omega

/-- What the next evaluation finds of a signal, for each point where the detectors are cut. -/
theorem verdict_cut_signals (hl : Linked s) (hr : ∃ r ∈ s.processes, r.id = sub.pidRow)
    (hn : n < (signals cfg ev sub wasNew).steps s) (k : Signal) :
    Verdict.of cfg ev sub false ((signals cfg ev sub wasNew).cut n s).2 k =
      if n < stepsBefore cfg ev sub wasNew s k + recordAt k then Verdict.of cfg ev sub wasNew s k
      else again cfg ev sub s (n - stepsBefore cfg ev sub wasNew s k) k := by
  by_cases hk : k = .egress
  · subst hk
    simp [Verdict.of, Verdict.egress, again, stepsBefore, earlier, Signal.all, runAll, recordAt]
  have hview (j : Signal) (hj : j ≠ k) : Keeps (fun s => Verdict.of cfg ev sub false s k)
      (stageProg cfg ev sub wasNew j) := by
    rw [show (fun s => Verdict.of cfg ev sub false s k) = (stage cfg ev sub wasNew k).view from
      funext fun s => of_wasNew hk _ _ s]
    exact stage_keeps hj.symm
  have hcut := view_cut (p := stage cfg ev sub wasNew k)
    (keeps_stages hview fun j => ne_of_mem_earlier) (keeps_stages hview fun j => ne_of_mem_later) n s
  rw [← signals_split, ← stepsBefore] at hcut
  rw [hcut]
  rcases Nat.lt_or_ge n (stepsBefore cfg ev sub wasNew s k) with hlt | hge
  · rw [if_pos hlt, if_pos (by omega), of_wasNew hk]
  · obtain ⟨hlu, hru⟩ := before_stage cfg ev wasNew hl hr (earlier k)
    have hlast (hv : k = .volume) : n - stepsBefore cfg ev sub wasNew s k <
        (volumeSpike cfg ev sub []).steps
          ((runAll ((earlier k).map (stage cfg ev sub wasNew))).run s).2 := by
      subst hv
      exact lt_steps_volume hn hge
    have hiff : n < stepsBefore cfg ev sub wasNew s k + recordAt k ↔
        n - stepsBefore cfg ev sub wasNew s k < recordAt k := by omega
    simp only [hiff, of_wasNew hk wasNew false s, if_neg (Nat.not_lt.mpr hge)]
    have hstage := cut_stageProg cfg ev wasNew hk hlu hru hlast
    generalize n - stepsBefore cfg ev sub wasNew s k = i at hstage ⊢
    have hof : Verdict.of cfg ev sub false _ k = Verdict.of cfg ev sub false s k :=
      run_earlier hview
    have hagain : again cfg ev sub ((runAll ((earlier k).map (stage cfg ev sub wasNew))).run s).2 i k =
        again cfg ev sub s i k :=
      run_earlier (f := fun s => again cfg ev sub s i k) fun j hj => again_keeps hj
    rw [hof, hagain] at hstage
    exact hstage

end Pipeline

section Retry

variable [F64 F] {cfg : AlertConfig F} {ev : FlowEvent} {p : SocketProc} {s : Store F} {n : ℕ}

theorem cut_evaluateFull_of_lt (hp : ev.proc = some p) (hn : n < (setup cfg ev p).steps s) :
    ((evaluateFull cfg ev).cut n s).2 = ((prepare cfg ev).cut n s).2 := by
  rw [evaluateFull_of_proc cfg ev hp, cut_bind_of_lt _ _ hn, cut_setup cfg ev p hn]

theorem cut_evaluateFull_of_le (hp : ev.proc = some p) (hge : (setup cfg ev p).steps s ≤ n) :
    ((evaluateFull cfg ev).cut n s).2 =
      ((signals cfg ev (subjectOf cfg ev s p) (findProcess s p.exe).isNone).cut
        (n - (setup cfg ev p).steps s) ((setup cfg ev p).run s).2).2 := by
  rw [evaluateFull_of_proc cfg ev hp, cut_bind_of_le _ _ hge, run_setup]
  refine cut_bind_keeps (f := id) (fun _ => ?_) _ _
  exact keeps_pure _

theorem lt_steps_signals (hp : ev.proc = some p) (hn : n < (evaluateFull cfg ev).steps s)
    (hge : (setup cfg ev p).steps s ≤ n) :
    n - (setup cfg ev p).steps s <
      (signals cfg ev (subjectOf cfg ev s p) (findProcess s p.exe).isNone).steps
        ((setup cfg ev p).run s).2 := by
  rw [evaluateFull_of_proc cfg ev hp, steps_bind, run_setup] at hn
  simp only [steps_bind, steps_pure, Nat.add_zero] at hn
  omega

omit [F64 F] in
theorem TornStart.lt_steps (h : TornStart s n) (cfg : AlertConfig F) (ev : FlowEvent) :
    n < (prepare cfg ev).steps s := by
  have hstart := (startLearning_of_none cfg ev.ts h.1).2
  have hn := h.2
  rw [prepare, ensureStarted_eq]
  simp only [steps_bind, hstart]
  omega

omit [F64 F] in
theorem steps_prepare_le (cfg : AlertConfig F) (ev : FlowEvent) (p : SocketProc) (s : Store F) :
    (prepare cfg ev).steps s ≤ (setup cfg ev p).steps s := by
  rw [setup, steps_bind]
  omega

omit [F64 F] in
theorem activeAt_run_prepare (hc : Clean s) :
    activeAt cfg ev ((prepare cfg ev).run s).2 = activeAt cfg ev s := by
  have hcut := congrArg Prod.snd ((prepare cfg ev).cut_of_steps_le (s := s) le_rfl)
  rw [← hcut]
  exact activeAt_cut_prepare cfg ev hc fun h => (h.lt_steps cfg ev).false

omit [F64 F] in
theorem clean_run_prepare (hc : Clean s) : Clean ((prepare cfg ev).run s).2 := by
  have hcut := congrArg Prod.snd ((prepare cfg ev).cut_of_steps_le (s := s) le_rfl)
  rw [Clean, ← hcut, metaRows_cut_prepare]
  exact clean_cut_ensureStarted cfg ev hc

theorem signals_keeps_tables (cfg : AlertConfig F) (ev : FlowEvent) (sub : Subject)
    (wasNew : Bool) :
    Keeps (fun s : Store F => (s.metaRows, s.destinations)) (signals cfg ev sub wasNew) := by
  refine signals_keeps (fun k => ?_) fun _ _ => rfl
  cases k with
  | egress => trivial
  | identity => exact ⟨fun _ _ => rfl, fun _ _ => rfl⟩
  | dest => exact ⟨fun _ _ => rfl, fun _ _ => rfl⟩
  | _ => exact fun _ _ => rfl

theorem tables_after_prepare (cfg : AlertConfig F) (ev : FlowEvent) (p : SocketProc)
    (sub : Subject) (wasNew : Bool) (m : ℕ) (s : Store F) :
    let t := ((signals cfg ev sub wasNew).cut m ((setup cfg ev p).run s).2).2
    t.metaRows = ((prepare cfg ev).run s).2.metaRows ∧
      t.destinations = ((prepare cfg ev).run s).2.destinations := by
  intro t
  let f := fun s : Store F => (s.metaRows, s.destinations)
  have hup : Keeps f (upsertProcess p.exe p.name ev.ts : StoreM F _) :=
    upsertProcess_keeps (fun _ _ => rfl) _ _ _
  have ht : f t = f ((prepare cfg ev).run s).2 := by
    refine ((signals_keeps_tables cfg ev sub wasNew).attempt (some m) _).trans ?_
    simp only [setup, run_bind, run_pure]
    exact hup.run _
  exact Prod.mk.inj ht

/-- Once the process has its row, the next evaluation has the same subject. -/
theorem subjectOf_cut_signals (cfg : AlertConfig F) (ev : FlowEvent) (p : SocketProc)
    (hc : Clean s) (sub : Subject) (wasNew : Bool) (m : ℕ) :
    let t := ((signals cfg ev sub wasNew).cut m ((setup cfg ev p).run s).2).2
    subjectOf cfg ev t p = subjectOf cfg ev s p ∧ (findProcess t p.exe).isNone = false := by
  obtain ⟨hmeta, hdest⟩ := tables_after_prepare cfg ev p sub wasNew m s
  intro t
  have hdest' : destIdOf ev t = destIdOf ev s := by
    rw [← (prepare_destId cfg ev s).run.1, destIdOf, hdest, destIdOf]
  have hid : idOf t p.exe = some (pidRowOf s p.exe) := by
    have hk : procKeys t = procKeys ((setup cfg ev p).run s).2 :=
      (procKeys_signals wasNew).attempt (some m) _
    rw [idOf_eq, hk, ← idOf_eq, (records_setup cfg ev p s).1, if_pos rfl]
  constructor
  · rw [subjectOf, activeAt_congr cfg ev (clean_run_prepare hc) hmeta, activeAt_run_prepare hc,
      pidRowOf_of_some hid, hdest']
    rfl
  · have hsome : (findProcess t p.exe).isSome := by rw [← idOf_isSome, hid, Option.isSome_some]
    rw [← Option.not_isSome, hsome, Bool.not_true]

theorem again_setup (sub : Subject) (i : ℕ) (k : Signal) :
    again cfg ev sub ((setup cfg ev p).run s).2 i k = again cfg ev sub s i k := by
  cases k with
  | identity =>
    have ht : Keeps (fun s : Store F => (s.identities, s.alerts)) (setup cfg ev p) :=
      setup_keeps cfg ev p (fun _ _ => rfl) (fun _ _ => rfl) (fun _ _ => rfl) fun _ _ => rfl
    obtain ⟨hi, ha⟩ := Prod.mk.inj (ht.run s)
    exact againIdentity_congr hi (verdict_setup cfg ev p s sub false .identity)
      fun key _ => by rw [alertTimes, ha, ← alertTimes]
  | volume =>
    exact (setup_keeps (f := fun s => again cfg ev sub s i .volume) cfg ev p (fun _ _ => rfl)
      (fun _ _ => rfl) (fun _ _ => rfl) fun _ _ => rfl).run s
  | _ => rfl

/-- The number of statements of an evaluation before a signal's stage. -/
def position (cfg : AlertConfig F) (ev : FlowEvent) (p : SocketProc) (s : Store F) (k : Signal) : ℕ :=
  (setup cfg ev p).steps s +
    stepsBefore cfg ev (subjectOf cfg ev s p) (findProcess s p.exe).isNone
      ((setup cfg ev p).run s).2 k

/-- A failure loses no alert: it does not tear the start of the window while something is to be
reported, and each signal whose record is committed is judged again as it was. -/
def RetrySafe (cfg : AlertConfig F) (ev : FlowEvent) (s : Store F) (n : ℕ) : Prop :=
  ∀ p ∈ ev.proc, (TornStart s n → verdict cfg ev s = []) ∧
    ∀ k, position cfg ev p s k + recordAt k ≤ n →
      again cfg ev (subjectOf cfg ev s p) s (n - position cfg ev p s k) k =
        Verdict.of cfg ev (subjectOf cfg ev s p) (findProcess s p.exe).isNone s k

/-- What the next evaluation finds of a signal after a failure of the detectors. -/
theorem verdict_cut_evaluateFull (hl : Linked s) (hc : Clean s) (hp : ev.proc = some p)
    (hn : n < (evaluateFull cfg ev).steps s) (hge : (setup cfg ev p).steps s ≤ n) (k : Signal) :
    let t := ((evaluateFull cfg ev).cut n s).2
    Verdict.of cfg ev (subjectOf cfg ev t p) (findProcess t p.exe).isNone t k =
      if n < position cfg ev p s k + recordAt k then
        Verdict.of cfg ev (subjectOf cfg ev s p) (findProcess s p.exe).isNone s k
      else again cfg ev (subjectOf cfg ev s p) s (n - position cfg ev p s k) k := by
  have hrow : ∃ r ∈ ((setup cfg ev p).run s).2.processes, r.id = pidRowOf s p.exe := by
    obtain ⟨r, hr, hid, -⟩ := exists_row_of_idOf
      (((records_setup cfg ev p s).1 p.exe).trans (if_pos rfl))
    exact ⟨r, hr, hid⟩
  obtain ⟨hsub, hnew⟩ := subjectOf_cut_signals cfg ev p hc (subjectOf cfg ev s p)
    (findProcess s p.exe).isNone (n - (setup cfg ev p).steps s)
  have hcut := verdict_cut_signals (setup_linked hl).run.1 hrow (lt_steps_signals hp hn hge) k
  have hiff : n - (setup cfg ev p).steps s < stepsBefore cfg ev (subjectOf cfg ev s p)
        (findProcess s p.exe).isNone ((setup cfg ev p).run s).2 k + recordAt k ↔
      n < position cfg ev p s k + recordAt k := by
    rw [position]
    omega
  rw [again_setup, verdict_setup, Nat.sub_sub, ← position] at hcut
  simp only [hiff] at hcut
  rw [cut_evaluateFull_of_le hp hge]
  intro t
  rw [hsub, hnew]
  exact hcut

theorem signalOf_getD {sub : Subject} {wasNew : Bool} (t : Store F) (k : Signal) :
    ∀ a ∈ Verdict.of cfg ev sub wasNew t k, (signalOf a.dedupKey).getD .egress = k := by
  intro a ha
  rw [signalOf_of_mem_verdict ha, Option.getD_some]

/-- Evaluating the event again reports the same alerts exactly when the failure was safe. -/
theorem retried_iff_retrySafe (hl : Linked s) (hc : Clean s)
    (hn : n < (evaluateFull cfg ev).steps s) :
    ((evaluateFull cfg ev).run ((evaluateFull cfg ev).cut n s).2).1.alerts.map withoutId =
        ((evaluateFull cfg ev).run s).1.alerts.map withoutId ↔
      RetrySafe cfg ev s n := by
  rw [run_evaluateFull, run_evaluateFull]
  cases hp : ev.proc with
  | none =>
    refine iff_of_true ?_ fun p h => ?_
    · rw [verdict, verdict, hp]
    · rw [hp] at h
      cases h
  | some p =>
    have hsafe : RetrySafe cfg ev s n ↔ (TornStart s n → verdict cfg ev s = []) ∧
        ∀ k, position cfg ev p s k + recordAt k ≤ n →
          again cfg ev (subjectOf cfg ev s p) s (n - position cfg ev p s k) k =
            Verdict.of cfg ev (subjectOf cfg ev s p) (findProcess s p.exe).isNone s k := by
      rw [RetrySafe, hp]
      exact ⟨fun h => h p rfl, fun h q hq => Option.some.inj hq ▸ h⟩
    rw [hsafe]
    rcases Nat.lt_or_ge n ((setup cfg ev p).steps s) with hlt | hge
    · rw [cut_evaluateFull_of_lt hp hlt, verdict_cut_prepare hc hp]
      refine ⟨fun h => ⟨h, fun k hk => ?_⟩, fun h => h.1⟩
      rw [position] at hk
      omega
    · have htorn : ¬ TornStart s n := fun h => by
        have hpre := h.lt_steps cfg ev
        have hle := steps_prepare_le cfg ev p s
        omega
      rw [verdict, verdict, hp, flatMap_inj (by decide) (signalOf_getD _) (signalOf_getD _)]
      simp only [verdict_cut_evaluateFull hl hc hp hn hge]
      constructor
      · refine fun h => ⟨fun h => absurd h htorn, fun k hk => ?_⟩
        have hk' := h k (Signal.mem_all k)
        rwa [if_neg (Nat.not_lt.mpr hk)] at hk'
      · rintro ⟨-, h⟩ k -
        split
        · rfl
        · exact h k (by omega)

end Retry

section Reachable

variable [F64 F]

theorem metaRows_cut_evaluateFull (cfg : AlertConfig F) (ev : FlowEvent) (n : ℕ) (s : Store F) :
    ((evaluateFull cfg ev).cut n s).2.metaRows =
      ((ensureStarted cfg ev.ts).cut n s).2.metaRows := by
  refine cut_bind_keeps (f := Store.metaRows) (fun st => ?_) n s
  refine keeps_bind (upsertDestination_keeps (fun _ _ => rfl) _ _ _ _) fun destId =>
    keeps_bind (recordObserved_keeps fun _ _ => rfl) fun _ => ?_
  cases ev.proc with
  | none => exact keeps_pure _
  | some p =>
    exact keeps_bind (upsertProcess_keeps (fun _ _ => rfl) _ _ _) fun up =>
      keeps_bind ((signals_keeps_tables cfg ev _ up.wasNew).comp Prod.fst) fun _ => keeps_pure _

theorem clean_attempt {s : Store F} (hc : Clean s) (c : EvalCall F) : Clean (c.attempt s).2 := by
  have hcut (n : ℕ) : Clean ((evaluateFull c.cfg c.ev).cut n s).2 := by
    rw [Clean, metaRows_cut_evaluateFull]
    exact clean_cut_ensureStarted c.cfg c.ev hc
  rw [EvalCall.attempt]
  cases c.fault with
  | none => exact attempt_none (evaluateFull c.cfg c.ev) s ▸ hcut _
  | some n => exact hcut n

theorem linked_clean_runEvals (calls : List (EvalCall F)) :
    Linked (runEvals (openNew : Store F) calls) ∧ Clean (runEvals (openNew : Store F) calls) := by
  suffices h : ∀ s : Store F, Linked s ∧ Clean s →
      Linked (runEvals s calls) ∧ Clean (runEvals s calls) from
    h openNew ⟨identified_openNew.linked, fun _ => rfl⟩
  induction calls with
  | nil => exact fun s hs => hs
  | cons c calls ih =>
    exact fun s hs => ih _ ⟨(evaluateFull_linked hs.1).attempt c.fault, clean_attempt hs.2 c⟩

end Reachable

section Lost

/-- A store in its learning window. -/
def idleCalls : List (EvalCall ℚ) := [⟨.demo, { serverEvent 0 false with proc := none }, none⟩]

theorem retried_iff_retrySafe_idle :
    ((evaluateFull .demo (serverEvent 5001 true)).run ((evaluateFull .demo (serverEvent 5001 true)).cut
          12 (runEvals openNew idleCalls)).2).1.alerts.map withoutId =
        ((evaluateFull .demo (serverEvent 5001 true)).run
          (runEvals openNew idleCalls)).1.alerts.map withoutId ↔
      RetrySafe .demo (serverEvent 5001 true) (runEvals openNew idleCalls) 12 :=
  retried_iff_retrySafe (linked_clean_runEvals idleCalls).1 (linked_clean_runEvals idleCalls).2
    (by decide)

/-- A failure after the label is written loses both alerts of the first contact. -/
theorem alerts_lost_idle :
    let run := fun s => ((evaluateFull .demo (serverEvent 5001 true)).run s).1.alerts
    let s : Store ℚ := runEvals openNew idleCalls
    12 < (evaluateFull .demo (serverEvent 5001 true)).steps s ∧
      (run s).map Alert.kind = [.newProcessEgress, .newProcessDest] ∧
      (run ((evaluateFull .demo (serverEvent 5001 true)).cut 12 s).2).map Alert.kind = [] := by
  decide

end Lost

end Pktscope.AlertEngine

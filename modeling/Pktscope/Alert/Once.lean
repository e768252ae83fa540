import Pktscope.Alert.Storage

/-! # Announced once

A first contact is announced at most once in the whole life of a store. Sweeps
take the alert rows away that the cooldown relies on, but not the records of
what a process has been seen with, and only what is not recorded is announced.
-/

namespace Pktscope

/-- A field of an object. -/
def Json.field {F : Type} (name : String) : Json F → Option (Json F)
  | .obj fields => fields.lookup name
  | _ => none

def Json.str? {F : Type} : Json F → Option String
  | .str s => some s
  | _ => none

def Json.num? {F : Type} : Json F → Option ℕ
  | .num n => some n
  | _ => none

theorem lookup_perm {α : Type} {l l' : List (String × α)} (h : l.Perm l')
    (hl : (l.map Prod.fst).Nodup) (name : String) : l.lookup name = l'.lookup name := by
  induction h with
  | nil => rfl
  | cons e _ ih => rw [List.lookup_cons, List.lookup_cons, ih (List.nodup_cons.mp hl).2]
  | swap e e' l =>
    obtain ⟨k, v⟩ := e
    obtain ⟨k', v'⟩ := e'
    have hne : k' ≠ k := by
      rintro rfl
      exact (List.nodup_cons.mp hl).1 List.mem_cons_self
    by_cases he : name = k
    · have hfirst : (name == k') = false := beq_false_of_ne (he ▸ hne.symm)
      simp only [List.lookup_cons, hfirst]
    · have hsecond : (name == k) = false := beq_false_of_ne he
      simp only [List.lookup_cons, hsecond]
  | trans h _ ih ih' => rw [ih hl, ih' ((h.map Prod.fst).nodup_iff.mp hl)]

theorem Json.field_object {F : Type} {fields : List (String × Json F)}
    (h : (fields.map Prod.fst).Nodup) (name : String) :
    (Json.object fields).field name = fields.lookup name :=
  (lookup_perm (List.perm_insertionSort _ _).symm h name).symm

namespace AlertEngine

open Library Library.Prog Library.Stage Store

variable {F : Type}

/-- The first contact that a row of the alert table is about. -/
def subjectOfRow (r : AlertRow F) : Option Novelty := do
  let exe ← (r.detailJson.field "exe").bind Json.str?
  match ← AlertKind.fromDb r.kind with
  | .newProcessEgress => return .process exe
  | .newProcessDest => return .label exe (← (r.detailJson.field "label").bind Json.str?)
  | .newGeo =>
    match (r.detailJson.field "country").bind Json.str? with
    | some country => return .country exe country
    | none => return .network exe (← (r.detailJson.field "asn").bind Json.num?)
  | _ => none

/-- The kinds of alert that are about a first contact. -/
def contactKinds : List String :=
  [AlertKind.newProcessEgress.asDb, AlertKind.newProcessDest.asDb, AlertKind.newGeo.asDb]

def isAbout (x : Novelty) (r : AlertRow F) : Bool := decide (subjectOfRow r = some x)

section Evaluation

variable [F64 F] {cfg : AlertConfig F} {ev : FlowEvent} {p : SocketProc} {s : Store F}

omit [F64 F] in
theorem length_fire_if (a : Alert F) (c : Bool) :
    (if c = true then fire cfg s a else []).length ≤ 1 := by
  unfold fire
  split_ifs <;> simp

theorem length_verdict_of (sub : Subject) (wasNew : Bool) (k : Signal) :
    (Verdict.of cfg ev sub wasNew s k).length ≤ 1 := by
  rcases Verdict.of_cases cfg ev sub s wasNew k with hnil | ⟨c, a, -, hof⟩
  · rw [hnil]
    exact Nat.zero_le _
  · rw [hof]
    exact length_fire_if a c

omit [F64 F] in
/-- What an alert is about can be told whichever way its detail is sorted. -/
theorem subjectOfRow_fileOf {sub : Subject} {kind : AlertKind} {severity : Severity}
    {key title : String} {detail : List (String × Json F)}
    (h : ("pid" :: "exe" :: detail.map Prod.fst).Nodup) :
    subjectOfRow (fileOf (alertOf ev sub kind severity key title detail)) =
      subjectOfRow { fileOf (alertOf ev sub kind severity key title detail) with
        detailJson := .obj (("pid", .num sub.proc.pid) :: ("exe", .str sub.proc.exe) :: detail) } := by
  have hnodup : ((("pid", Json.num sub.proc.pid) :: ("exe", .str sub.proc.exe) :: detail).map
      Prod.fst).Nodup := h
  have hfield (name : String) :
      (fileOf (alertOf ev sub kind severity key title detail)).detailJson.field name =
        (Json.obj (("pid", .num sub.proc.pid) :: ("exe", .str sub.proc.exe) :: detail)).field name :=
    Json.field_object hnodup name
  simp only [subjectOfRow, hfield]

/-- What a reported alert is about: nothing that the claims of first contact know, or a novelty of
the event that the store does not know, reported by its own signal in the active state. -/
theorem subject_of_mem_verdict (hs : Coherent s) (hp : ev.proc = some p) {k : Signal} {a : Alert F}
    (h : a ∈ Verdict.of cfg ev (subjectOf cfg ev s p) (findProcess s p.exe).isNone s k) :
    (subjectOfRow (fileOf a) = none ∧ (fileOf a).kind ∉ contactKinds) ∨
      ∃ x ∈ novelties ev, subjectOfRow (fileOf a) = some x ∧ k = (x.entry 0).signal ∧
        knows s x = false ∧ activeAt cfg ev s = true := by
  have hsub : (subjectOf cfg ev s p).active = activeAt cfg ev s := rfl
  obtain ⟨c, hcalls, hc⟩ := Verdict.calls_of_mem h
  cases hcalls with
  | egress =>
    simp only [Bool.and_eq_true, hsub] at hc
    refine Or.inr ⟨.process p.exe, (mem_novelties hp).mpr (Or.inl rfl), subjectOfRow_fileOf (by simp),
      rfl, ?_, hc.1.1⟩
    rw [hs.knows_eq, Novelty.entry, Entry.present, ← Option.not_isNone, hc.1.2]
    rfl
  | identity =>
    exact Or.inl ⟨subjectOfRow_fileOf (by simp), by simp [fileOf, identityAlert, alertOf, contactKinds, AlertKind.asDb]⟩
  | dest =>
    simp only [Bool.and_eq_true, hsub] at hc
    refine Or.inr ⟨.label p.exe ev.stableLabel, (mem_novelties hp).mpr (Or.inr (Or.inl rfl)),
      subjectOfRow_fileOf (by simp), rfl, ?_, hc.1.1⟩
    rw [hs.knows_eq]
    simpa [subjectOf, Novelty.entry, Entry.present, Novelty.exe] using hc.1.2
  | @country cc hcc =>
    simp only [Bool.and_eq_true, hsub] at hc
    refine Or.inr ⟨.country p.exe cc, (mem_novelties hp).mpr (Or.inr (Or.inr (Or.inl ⟨cc, hcc, rfl⟩))),
      subjectOfRow_fileOf (by simp), rfl, ?_, hc.1.2⟩
    rw [hs.knows_eq]
    simpa [subjectOf, Novelty.entry, Entry.present, Novelty.exe] using hc.1.1
  | @network asn hasn =>
    simp only [Bool.and_eq_true, hsub] at hc
    refine Or.inr ⟨.network p.exe asn,
      (mem_novelties hp).mpr (Or.inr (Or.inr (Or.inr ⟨asn, hasn, rfl⟩))),
      subjectOfRow_fileOf (by simp), rfl, ?_, hc.1.2⟩
    rw [hs.knows_eq]
    simpa [subjectOf, Novelty.entry, Entry.present, Novelty.exe] using hc.1.1
  | volume =>
    exact Or.inl ⟨subjectOfRow_fileOf (by simp), by simp [fileOf, volumeAlert, alertOf, contactKinds, AlertKind.asDb]⟩

/-- The event brings a novelty that the store does not know, in the active state. -/
def Brings (cfg : AlertConfig F) (ev : FlowEvent) (s : Store F) (x : Novelty) : Prop :=
  x ∈ novelties ev ∧ knows s x = false ∧ activeAt cfg ev s = true

theorem brings_of_mem (hs : Coherent s) {a : Alert F} (h : a ∈ verdict cfg ev s) {x : Novelty}
    (hx : subjectOfRow (fileOf a) = some x) : Brings cfg ev s x := by
  cases hp : ev.proc with
  | none =>
    rw [verdict, hp] at h
    cases h
  | some p =>
    rw [verdict, hp] at h
    obtain ⟨k, -, hk⟩ := List.mem_flatMap.mp h
    rcases subject_of_mem_verdict hs hp hk with ⟨hn, -⟩ | ⟨y, hy, hsub, -, hknow, hact⟩
    · rw [hx] at hn
      cases hn
    · obtain rfl := Option.some.inj (hsub.symm.trans hx)
      exact ⟨hy, hknow, hact⟩

theorem subject_isSome_of_mem (hs : Coherent s) {a : Alert F} (h : a ∈ verdict cfg ev s)
    (hkind : (fileOf a).kind ∈ contactKinds) : (subjectOfRow (fileOf a)).isSome := by
  cases hp : ev.proc with
  | none =>
    rw [verdict, hp] at h
    cases h
  | some p =>
    rw [verdict, hp] at h
    obtain ⟨k, -, hk⟩ := List.mem_flatMap.mp h
    rcases subject_of_mem_verdict hs hp hk with ⟨-, hn⟩ | ⟨y, -, hsub, -⟩
    · exact absurd hkind hn
    · rw [hsub]
      rfl

theorem countP_verdict_le (hs : Coherent s) (x : Novelty) :
    ((verdict cfg ev s).map fileOf).countP (isAbout x) ≤ 1 := by
  rw [List.countP_map, verdict]
  cases hp : ev.proc with
  | none => exact Nat.zero_le _
  | some p =>
    refine (countP_flatMap_le (by decide) (x.entry 0).signal fun k a ha hx => ?_).trans
      (length_verdict_of _ _ _)
    have hx' : subjectOfRow (fileOf a) = some x := of_decide_eq_true hx
    rcases subject_of_mem_verdict hs hp ha with ⟨hn, -⟩ | ⟨y, -, hsub, hk, -⟩
    · rw [hx'] at hn
      cases hn
    · obtain rfl := Option.some.inj (hsub.symm.trans hx')
      exact hk

end Evaluation

section Runs

variable [F64 F] {ops : List (StoreOp F)} {cfg : AlertConfig F} {ev : FlowEvent} {s : Store F}

/-- How many alerts about a subject were ever stored. -/
def timesStored (ops : List (StoreOp F)) (x : Novelty) : ℕ := (everFiled ops).countP (isAbout x)

/-- How many alerts about a subject an operation stores. -/
def storedBy (s : Store F) (op : StoreOp F) (x : Novelty) : ℕ := (op.filed s).countP (isAbout x)

theorem timesStored_concat (ops : List (StoreOp F)) (op : StoreOp F) (x : Novelty) :
    timesStored (ops ++ [op]) x = timesStored ops x + storedBy (storeAfter ops) op x := by
  rw [timesStored, everFiled_concat, List.countP_append]
  rfl

theorem storedBy_evaluate (s : Store F) (x : Novelty) :
    storedBy s (.evaluate cfg ev) x = ((verdict cfg ev s).map fileOf).countP (isAbout x) := by
  have hid : isAbout x ∘ unnumbered = (isAbout x : AlertRow F → Bool) := rfl
  rw [← filed_evaluate, List.countP_map, hid]
  rfl

theorem storedBy_eq_zero (hs : Coherent s) {x : Novelty} (h : ¬ Brings cfg ev s x) :
    storedBy s (.evaluate cfg ev) x = 0 := by
  rw [storedBy_evaluate, List.countP_eq_zero]
  intro r hr hx
  obtain ⟨a, ha, rfl⟩ := List.mem_map.mp hr
  exact h (brings_of_mem hs ha (of_decide_eq_true hx))

theorem knows_sweep (beforeMs : ℤ) (s : Store F) (x : Novelty) :
    knows ((StoreOp.sweep beforeMs).apply s) x = knows s x := by
  simp only [StoreOp.apply, deleteOlderThan, run_bind, run_write]
  rfl

theorem knows_storeAfter (ops : List (StoreOp F)) (x : Novelty) :
    knows (storeAfter ops) x = true ↔ ∃ op ∈ ops, ∃ e ∈ op.event?, x ∈ novelties e.2 := by
  induction ops using List.reverseRecOn with
  | nil => simp [storeAfter, knows, findProcess, openNew]
  | append_singleton ops op ih =>
    have hs : Coherent (storeAfter ops) := (reached_storeAfter ops).coherent
    rw [storeAfter_concat]
    cases op with
    | evaluate cfg ev =>
      rw [StoreOp.apply, knows_evaluateFull hs, ih]
      simp [or_and_right, exists_or, StoreOp.event?]
    | sweep beforeMs =>
      rw [knows_sweep, ih]
      simp [or_and_right, exists_or, StoreOp.event?]

theorem storedBy_of_knows (hs : Coherent s) (op : StoreOp F) {x : Novelty} (hx : knows s x = true) :
    storedBy s op x = 0 := by
  cases op with
  | evaluate cfg ev => exact storedBy_eq_zero hs fun h => nomatch h.2.1.symm.trans hx
  | sweep beforeMs => rfl

theorem timesStored_le (ops : List (StoreOp F)) (x : Novelty) :
    timesStored ops x ≤ if knows (storeAfter ops) x then 1 else 0 := by
  induction ops using List.reverseRecOn with
  | nil => exact Nat.zero_le _
  | append_singleton ops op ih =>
    have hs : Coherent (storeAfter ops) := (reached_storeAfter ops).coherent
    rw [timesStored_concat]
    by_cases hx : knows (storeAfter ops) x = true
    · have hstill : knows (storeAfter (ops ++ [op])) x = true := by
        obtain ⟨o, ho, he⟩ := (knows_storeAfter ops x).mp hx
        exact (knows_storeAfter _ x).mpr ⟨o, List.mem_append_left _ ho, he⟩
      rw [if_pos hx] at ih
      rw [storedBy_of_knows hs op hx, if_pos hstill]
      exact ih
    · rw [if_neg hx] at ih
      have hzero := Nat.le_zero.mp ih
      rw [hzero, Nat.zero_add, storeAfter_concat]
      cases op with
      | sweep beforeMs => exact Nat.zero_le _
      | evaluate cfg ev =>
        by_cases hb : Brings cfg ev (storeAfter ops) x
        · have hnow : knows ((StoreOp.evaluate cfg ev).apply (storeAfter ops)) x = true :=
            (knows_evaluateFull hs x).mpr (Or.inr hb.1)
          rw [if_pos hnow, storedBy_evaluate]
          exact countP_verdict_le hs x
        · rw [storedBy_eq_zero hs hb]
          exact Nat.zero_le _

theorem timesStored_append {x : Novelty} (hx : knows (storeAfter ops) x = true)
    (more : List (StoreOp F)) : timesStored (ops ++ more) x = timesStored ops x := by
  induction more using List.reverseRecOn with
  | nil => rw [List.append_nil]
  | append_singleton more op ih =>
    have hknown : knows (storeAfter (ops ++ more)) x = true := by
      obtain ⟨o, ho, he⟩ := (knows_storeAfter ops x).mp hx
      exact (knows_storeAfter _ x).mpr ⟨o, List.mem_append_left _ ho, he⟩
    rw [← List.append_assoc, timesStored_concat, ih,
      storedBy_of_knows (reached_storeAfter _).coherent op hknown, Nat.add_zero]

theorem subject_isSome_of_everFiled (ops : List (StoreOp F)) :
    ∀ r ∈ everFiled ops, r.kind ∈ contactKinds → (subjectOfRow r).isSome := by
  induction ops using List.reverseRecOn with
  | nil => exact fun r hr => nomatch hr
  | append_singleton ops op ih =>
    intro r hr hkind
    rw [everFiled_concat] at hr
    rcases List.mem_append.mp hr with hr | hr
    · exact ih r hr hkind
    · cases op with
      | sweep beforeMs => cases hr
      | evaluate cfg ev =>
        have hmem : unnumbered r ∈ (verdict cfg ev (storeAfter ops)).map fileOf := by
          rw [← filed_evaluate]
          exact List.mem_map_of_mem hr
        obtain ⟨a, ha, he⟩ := List.mem_map.mp hmem
        have hk : (fileOf a).kind ∈ contactKinds := by
          rw [he]
          exact hkind
        have hsome := subject_isSome_of_mem (reached_storeAfter ops).coherent ha hk
        rw [he] at hsome
        exact hsome

/-- In the whole life of a store each executable is announced at most once, and so is each of its
labels, countries and networks; a subject whose first event came in the learning state never is. -/
theorem announced_at_most_once (ops : List (StoreOp F)) :
    (∀ x, timesStored ops x ≤ 1) ∧
    (∀ r ∈ everFiled ops, r.kind ∈ contactKinds → (subjectOfRow r).isSome) ∧
    ∀ before cfg ev after x, ops = before ++ .evaluate cfg ev :: after → x ∈ novelties ev →
      (∀ op ∈ before, ∀ e ∈ op.event?, x ∉ novelties e.2) →
      ((Baseline.ensureStarted cfg ev.ts).run (storeAfter before)).1 = .learning →
      timesStored ops x = 0 := by
  refine ⟨fun x => ?_, subject_isSome_of_everFiled ops, ?_⟩
  · refine (timesStored_le ops x).trans ?_
    split_ifs <;> simp
  · rintro before cfg ev after x rfl hx hfirst hlearn
    have hs : Coherent (storeAfter before) := (reached_storeAfter before).coherent
    have hnew : ¬ knows (storeAfter before) x = true := fun h => by
      obtain ⟨op, hop, e, he, hxe⟩ := (knows_storeAfter before x).mp h
      exact hfirst op hop e he hxe
    have hzero := timesStored_le before x
    rw [if_neg hnew] at hzero
    have hact : ¬ Brings cfg ev (storeAfter before) x := fun h => by
      have ha := of_decide_eq_true h.2.2
      rw [hlearn] at ha
      cases ha
    have hknown : knows (storeAfter (before ++ [.evaluate cfg ev])) x = true := by
      rw [storeAfter_concat]
      exact (knows_evaluateFull hs x).mpr (Or.inr hx)
    rw [List.append_cons, timesStored_append hknown, timesStored_concat, storedBy_eq_zero hs hact,
      Nat.le_zero.mp hzero]

/-- A process is seen in the learning window and again after it, with a sweep in between. -/
def onceOps : List (StoreOp ℚ) :=
  [.evaluate .demo (serverEvent 0 true), .sweep 10, .evaluate .demo (serverEvent 5000 true)]

theorem announced_at_most_once_sample : timesStored onceOps (.process "/usr/bin/srv") = 0 :=
  (announced_at_most_once onceOps).2.2 [] .demo (serverEvent 0 true) (onceOps.drop 1)
    (.process "/usr/bin/srv") rfl (by decide) (fun _ h => nomatch h) (by decide)

end Runs

end AlertEngine

end Pktscope

import Pktscope.Inspector.State

/-! # What the worker shares with the server

The live table and the broadcast stream are all that the server sees of the
worker. Every change of the table is followed by its event, and the stream is
then a log from which the table can be rebuilt at any moment.
-/

namespace Pktscope

open Library

/-- The live table, and the events broadcast so far. -/
structure Shared (F : Type) where
  live : LiveState
  bus : List (Event F)

/-- One access of the worker to what it shares. -/
inductive Act (F : Type) where
  | put (k : FlowKey) (dto : ConnectionDto)
  | drop (k : FlowKey)
  | send (ev : Event F)

variable {F : Type}

def Act.isSend : Act F → Bool
  | .send _ => true
  | _ => false

def Shared.act (s : Shared F) : Act F → Shared F
  | .put k dto => { s with live := s.live.insert k dto }
  | .drop k => { s with live := s.live.erase k }
  | .send ev => { s with bus := s.bus ++ [ev] }

def Shared.acts (s : Shared F) (acts : List (Act F)) : Shared F := acts.foldl Shared.act s

/-- The table that the events of a log stand for. -/
def mirror (log : List (Event F)) : ℕ → Option ConnectionDto :=
  replay (fun _ => none) (writesOf log)

/-- The byte counts of a connection, later on. -/
def Grows (d d' : ConnectionDto) : Prop := d.bytesUp ≤ d'.bytesUp ∧ d.bytesDown ≤ d'.bytesDown

/-- What an event allows to come after it: byte counts that do not decrease, and nothing about a
flow that is closed. -/
def Follows : Event F → Event F → Prop
  | .flow d, .flow d' => d.id = d'.id → Grows d d'
  | .closed id, ev => ev.flowId? ≠ some id
  | _, _ => True

/-- A connection of a key continues the one that is live, or has an id that no event had. -/
def Continues (s : Shared F) (k : FlowKey) (dto : ConnectionDto) : Prop :=
  match s.live.lookup k with
  | some d => d.id = dto.id ∧ Grows d dto
  | none => ∀ ev ∈ s.bus, ev.flowId? ≠ some dto.id

/-- Every change of the live table is followed by its event. -/
inductive Publishes : Shared F → List (Act F) → Prop
  | nil (s : Shared F) : Publishes s []
  | note {s : Shared F} {ev : Event F} {acts : List (Act F)} (hev : ev.flowId? = none)
      (h : Publishes (s.act (.send ev)) acts) : Publishes s (.send ev :: acts)
  | put {s : Shared F} {k : FlowKey} {dto : ConnectionDto} {acts : List (Act F)}
      (hk : Continues s k dto) (h : Publishes ((s.act (.put k dto)).act (.send (.flow dto))) acts) :
      Publishes s (.put k dto :: .send (.flow dto) :: acts)
  | drop {s : Shared F} {k : FlowKey} {d : ConnectionDto} {acts : List (Act F)}
      (hk : s.live.lookup k = some d)
      (h : Publishes ((s.act (.drop k)).act (.send (.closed d.id))) acts) :
      Publishes s (.drop k :: .send (.closed d.id) :: acts)

/-- The worker owes no event for its last change of the live table. -/
def Settled (acts : List (Act F)) : Prop := ∀ a ∈ acts.getLast?, a.isSend = true

/-- The log is faithful to the live table. -/
structure Announced (s : Shared F) : Prop where
  distinct : DistinctIds s.live
  shown : Shows (mirror s.bus) s.live
  ordered : s.bus.Pairwise Follows
  gone : ∀ id, .closed id ∈ s.bus → ∀ k d, s.live.lookup k = some d → d.id ≠ id
  grown : ∀ d, .flow d ∈ s.bus → ∀ k d', s.live.lookup k = some d' → d.id = d'.id → Grows d d'

section Basics

theorem Grows.refl (d : ConnectionDto) : Grows d d := ⟨le_refl _, le_refl _⟩

theorem Grows.trans {d d' d'' : ConnectionDto} (h : Grows d d') (h' : Grows d' d'') : Grows d d'' :=
  ⟨h.1.trans h'.1, h.2.trans h'.2⟩

theorem mirror_append (log log' : List (Event F)) :
    mirror (log ++ log') = replay (mirror log) (writesOf log') := by
  rw [mirror, writesOf_append, replay_append]
  rfl

theorem mirror_flow (log : List (Event F)) (dto : ConnectionDto) :
    mirror (log ++ [.flow dto]) = Function.update (mirror log) dto.id (some dto) := mirror_append ..

theorem mirror_closed (log : List (Event F)) (id : ℕ) :
    mirror (log ++ [.closed id]) = Function.update (mirror log) id none := mirror_append ..

theorem mirror_note (log : List (Event F)) {ev : Event F} (hev : ev.flowId? = none) :
    mirror (log ++ [ev]) = mirror log := by
  rw [mirror_append]
  cases ev with
  | flow dto => cases hev
  | closed id => cases hev
  | alert a => rfl
  | heartbeat ts => rfl

theorem mem_of_mirror {log : List (Event F)} {id : ℕ} (h : mirror log id ≠ none) :
    ∃ ev ∈ log, ev.flowId? = some id := by
  by_contra hne
  push Not at hne
  rw [mirror, replay_apply, lastWrite_eq_none.mpr (forall_writesOf_ne.mpr hne)] at h
  exact h rfl

theorem Shared.acts_cons (s : Shared F) (a : Act F) (acts : List (Act F)) :
    s.acts (a :: acts) = (s.act a).acts acts := rfl

theorem Shared.acts_append (s : Shared F) (acts acts' : List (Act F)) :
    s.acts (acts ++ acts') = (s.acts acts).acts acts' := List.foldl_append

theorem bus_prefix_act (s : Shared F) (a : Act F) : s.bus <+: (s.act a).bus := by
  cases a with
  | put k dto => exact List.prefix_rfl
  | drop k => exact List.prefix_rfl
  | send ev => exact List.prefix_append _ _

theorem bus_prefix_acts (s : Shared F) (acts : List (Act F)) : s.bus <+: (s.acts acts).bus := by
  induction acts generalizing s with
  | nil => exact List.prefix_rfl
  | cons a acts ih => exact (bus_prefix_act s a).trans (ih (s.act a))

theorem settled_nil : Settled ([] : List (Act F)) := fun _ h => nomatch h

theorem Settled.tail {a : Act F} {acts : List (Act F)} (h : Settled (a :: acts)) : Settled acts := by
  intro b hb
  refine h b ?_
  rw [Option.mem_def, List.getLast?_cons, hb]
  rfl

end Basics

section Step

variable {s : Shared F} {k : FlowKey}

theorem announced_start : Announced (⟨∅, []⟩ : Shared F) where
  distinct k k' d d' h := by cases h
  shown id dto := by simp [mirror, writesOf, replay, LiveState.Has]
  ordered := .nil
  gone id h := nomatch h
  grown d h := nomatch h

theorem Announced.mem_bus (hs : Announced s) {d : ConnectionDto} (hk : s.live.lookup k = some d) :
    ∃ ev ∈ s.bus, ev.flowId? = some d.id := by
  refine mem_of_mirror ?_
  rw [(hs.shown d.id d).mpr ⟨rfl, k, hk⟩]
  exact Option.some_ne_none d

theorem announced_note (hs : Announced s) {ev : Event F} (hev : ev.flowId? = none) :
    Announced (s.act (.send ev)) where
  distinct := hs.distinct
  shown := by
    change Shows (mirror (s.bus ++ [ev])) s.live
    rw [mirror_note s.bus hev]
    exact hs.shown
  ordered := by
    refine List.pairwise_append.mpr ⟨hs.ordered, List.pairwise_singleton .., fun a _ b hb => ?_⟩
    obtain rfl := List.mem_singleton.mp hb
    cases a with
    | flow d =>
      cases b with
      | flow d' => cases hev
      | _ => trivial
    | closed id => exact fun h => nomatch hev.symm.trans h
    | alert a => trivial
    | heartbeat ts => trivial
  gone id hid := by
    refine hs.gone id ?_
    rcases List.mem_append.mp hid with h | h
    · exact h
    · rw [← List.mem_singleton.mp h] at hev
      cases hev
  grown d hd := by
    refine hs.grown d ?_
    rcases List.mem_append.mp hd with h | h
    · exact h
    · rw [← List.mem_singleton.mp h] at hev
      cases hev

section Put

variable {dto : ConnectionDto} (hs : Announced s) (hk : Continues s k dto)
include hs hk

/-- No other live flow has the id of one that continues. -/
theorem Continues.others {k' : FlowKey} {d : ConnectionDto} (hne : k' ≠ k)
    (h : s.live.lookup k' = some d) : d.id ≠ dto.id := by
  intro hid
  unfold Continues at hk
  split at hk
  · exact hne (hs.distinct k' k _ _ h ‹_› (hid.trans hk.1.symm))
  · obtain ⟨ev, hev, he⟩ := hs.mem_bus h
    exact hk ev hev (hid ▸ he)

theorem Continues.not_closed : .closed dto.id ∉ s.bus := by
  intro hmem
  unfold Continues at hk
  split at hk
  · exact hs.gone dto.id hmem k _ ‹_› hk.1
  · exact hk _ hmem rfl

theorem Continues.grows {d : ConnectionDto} (hd : .flow d ∈ s.bus) (hid : d.id = dto.id) :
    Grows d dto := by
  unfold Continues at hk
  split at hk
  · exact (hs.grown d hd k _ ‹_› (hid.trans hk.1.symm)).trans hk.2
  · exact absurd (congrArg some hid) (hk _ hd)

theorem distinct_put : DistinctIds (s.live.insert k dto) := by
  intro k₁ k₂ d₁ d₂ h₁ h₂ hid
  by_cases hk₁ : k₁ = k <;> by_cases hk₂ : k₂ = k
  · rw [hk₁, hk₂]
  · subst hk₁
    rw [AList.lookup_insert] at h₁
    cases h₁
    rw [AList.lookup_insert_ne hk₂] at h₂
    exact absurd hid.symm (hk.others hs hk₂ h₂)
  · subst hk₂
    rw [AList.lookup_insert] at h₂
    cases h₂
    rw [AList.lookup_insert_ne hk₁] at h₁
    exact absurd hid (hk.others hs hk₁ h₁)
  · rw [AList.lookup_insert_ne hk₁] at h₁
    rw [AList.lookup_insert_ne hk₂] at h₂
    exact hs.distinct k₁ k₂ d₁ d₂ h₁ h₂ hid

theorem shown_put : Shows (mirror (s.bus ++ [.flow dto])) (s.live.insert k dto) := by
  intro id d
  rw [mirror_flow, Function.update_apply]
  split_ifs with hid
  · subst hid
    constructor
    · rintro ⟨⟩
      exact ⟨rfl, k, AList.lookup_insert _⟩
    · rintro ⟨hd, k', hk'⟩
      by_cases hne : k' = k
      · subst hne
        rwa [AList.lookup_insert] at hk'
      · rw [AList.lookup_insert_ne hne] at hk'
        exact absurd hd (hk.others hs hne hk')
  · rw [hs.shown id d]
    refine and_congr_right fun hd => exists_congr fun k' => ?_
    by_cases hne : k' = k
    · subst hne
      rw [AList.lookup_insert]
      refine iff_of_false (fun h => ?_) fun h => ?_
      · unfold Continues at hk
        rw [h] at hk
        exact hid (hd.symm.trans hk.1)
      · cases h
        exact hid hd.symm
    · rw [AList.lookup_insert_ne hne]

theorem announced_put : Announced ((s.act (.put k dto)).act (.send (.flow dto))) where
  distinct := distinct_put hs hk
  shown := shown_put hs hk
  ordered := by
    refine List.pairwise_append.mpr ⟨hs.ordered, List.pairwise_singleton .., fun a ha b hb => ?_⟩
    obtain rfl := List.mem_singleton.mp hb
    cases a with
    | flow d => exact hk.grows hs ha
    | closed id =>
      rintro ⟨⟩
      exact hk.not_closed hs ha
    | alert a => trivial
    | heartbeat ts => trivial
  gone id hid k' d h := by
    have hmem : .closed id ∈ s.bus := by simpa [Shared.act] using hid
    by_cases hne : k' = k
    · subst hne
      rw [Shared.act, Shared.act, AList.lookup_insert] at h
      cases h
      rintro rfl
      exact hk.not_closed hs hmem
    · rw [Shared.act, Shared.act, AList.lookup_insert_ne hne] at h
      exact hs.gone id hmem k' d h
  grown d hd k' d' h hid := by
    have hmem : .flow d ∈ s.bus ∨ d = dto := by simpa [Shared.act] using hd
    by_cases hne : k' = k
    · subst hne
      rw [Shared.act, Shared.act, AList.lookup_insert] at h
      cases h
      rcases hmem with hmem | rfl
      · exact hk.grows hs hmem hid
      · exact Grows.refl d
    · rw [Shared.act, Shared.act, AList.lookup_insert_ne hne] at h
      rcases hmem with hmem | rfl
      · exact hs.grown d hmem k' d' h hid
      · exact absurd hid.symm (hk.others hs hne h)

end Put

section Drop

variable {d : ConnectionDto} (hs : Announced s) (hk : s.live.lookup k = some d)
include hs

theorem distinct_drop (k : FlowKey) : DistinctIds (s.live.erase k) := by
  intro k₁ k₂ d₁ d₂ h₁ h₂ hid
  have hne (k' : FlowKey) (d' : ConnectionDto) (h : (s.live.erase k).lookup k' = some d') :
      s.live.lookup k' = some d' := by
    by_cases he : k' = k
    · rw [he, AList.lookup_erase] at h
      cases h
    · rwa [AList.lookup_erase_ne he] at h
  exact hs.distinct k₁ k₂ d₁ d₂ (hne k₁ d₁ h₁) (hne k₂ d₂ h₂) hid

include hk

theorem lookup_drop {k' : FlowKey} {d' : ConnectionDto} :
    (s.live.erase k).lookup k' = some d' ↔ s.live.lookup k' = some d' ∧ d'.id ≠ d.id := by
  by_cases he : k' = k
  · subst he
    rw [AList.lookup_erase, hk]
    refine iff_of_false (fun h => nomatch h) ?_
    rintro ⟨⟨⟩, h⟩
    exact h rfl
  · rw [AList.lookup_erase_ne he]
    exact ⟨fun h => ⟨h, fun hid => he (hs.distinct k' k d' d h hk hid)⟩, And.left⟩

theorem shown_drop : Shows (mirror (s.bus ++ [.closed d.id])) (s.live.erase k) := by
  intro id d'
  rw [mirror_closed, Function.update_apply]
  simp only [LiveState.Has, lookup_drop hs hk]
  split_ifs with hid
  · refine iff_of_false (fun h => nomatch h) ?_
    rintro ⟨h, k', -, hne⟩
    exact hne (h.trans hid)
  · rw [hs.shown id d']
    refine and_congr_right fun hd => exists_congr fun k' => ?_
    exact ⟨fun h => ⟨h, fun he => hid (hd.symm.trans he)⟩, And.left⟩

theorem announced_drop : Announced ((s.act (.drop k)).act (.send (.closed d.id))) where
  distinct := distinct_drop hs k
  shown := shown_drop hs hk
  ordered := by
    refine List.pairwise_append.mpr ⟨hs.ordered, List.pairwise_singleton .., fun a ha b hb => ?_⟩
    obtain rfl := List.mem_singleton.mp hb
    cases a with
    | flow d => trivial
    | closed id =>
      rintro ⟨⟩
      exact hs.gone d.id ha k d hk rfl
    | alert a => trivial
    | heartbeat ts => trivial
  gone id hid k' d' h := by
    have hmem : .closed id ∈ s.bus ∨ id = d.id := by simpa [Shared.act] using hid
    obtain ⟨hl, hne⟩ := (lookup_drop hs hk).mp h
    rcases hmem with hmem | rfl
    · exact hs.gone id hmem k' d' hl
    · exact hne
  grown d₁ hd k' d' h := by
    have hmem : .flow d₁ ∈ s.bus := by simpa [Shared.act] using hd
    exact hs.grown d₁ hmem k' d' ((lookup_drop hs hk).mp h).1

end Drop

end Step

section Run

variable {s : Shared F} {acts acts' : List (Act F)}

theorem Publishes.append (h : Publishes s acts) (h' : Publishes (s.acts acts) acts') :
    Publishes s (acts ++ acts') := by
  induction h with
  | nil s => exact h'
  | note hev _ ih => exact .note hev (ih h')
  | put hk _ ih => exact .put hk (ih h')
  | drop hk _ ih => exact .drop hk (ih h')

/-- The log is faithful after every complete run of accesses. -/
theorem Publishes.announced (h : Publishes s acts) (hs : Announced s) : Announced (s.acts acts) := by
  induction h with
  | nil s => exact hs
  | note hev _ ih => exact ih (announced_note hs hev)
  | put hk _ ih => exact ih (announced_put hs hk)
  | drop hk _ ih => exact ih (announced_drop hs hk)

theorem Settled.cons {a : Act F} (ha : a.isSend = true) (h : Settled acts) : Settled (a :: acts) := by
  intro b hb
  rw [Option.mem_def, List.getLast?_cons, Option.some.injEq] at hb
  cases hl : acts.getLast? with
  | none =>
    rw [hl] at hb
    exact hb ▸ ha
  | some c =>
    rw [hl] at hb
    exact hb ▸ h c hl

/-- A complete run owes no event. -/
theorem Publishes.settled (h : Publishes s acts) : Settled acts := by
  induction h with
  | nil s => exact settled_nil
  | note _ _ ih => exact ih.cons rfl
  | put _ _ ih =>
    intro a ha
    exact ih.cons (a := .send _) rfl a (by rwa [List.getLast?_cons_cons] at ha)
  | drop _ _ ih =>
    intro a ha
    exact ih.cons (a := .send _) rfl a (by rwa [List.getLast?_cons_cons] at ha)

/-- A connection is put under an id that is its flow's, or that no event had. -/
theorem Publishes.continues (h : Publishes s acts) {m : ℕ} {k : FlowKey} {dto : ConnectionDto}
    (hm : acts[m]? = some (.put k dto)) : Continues (s.acts (acts.take m)) k dto := by
  induction h generalizing m with
  | nil s => cases hm
  | note hev _ ih =>
    cases m with
    | zero => cases hm
    | succ m => exact ih hm
  | put hk _ ih =>
    match m with
    | 0 =>
      cases hm
      exact hk
    | 1 => cases hm
    | m + 2 => exact ih hm
  | drop hk _ ih =>
    match m with
    | 0 => cases hm
    | 1 => cases hm
    | m + 2 => exact ih hm

/-- The live table at one moment of a run, with the events that are still owed for it. -/
structure Moment (s : Shared F) (acts : List (Act F)) (m : ℕ) (owed : List (Event F)) : Prop where
  distinct : DistinctIds (s.acts (acts.take m)).live
  shown : Shows (mirror ((s.acts (acts.take m)).bus ++ owed)) (s.acts (acts.take m)).live
  settled : Settled (acts.take m) → owed = []
  paid : ∀ n, m ≤ n → Settled (acts.take n) →
    (s.acts (acts.take m)).bus ++ owed <+: (s.acts (acts.take n)).bus

theorem moment_zero (hs : Announced s) (acts : List (Act F)) : Moment s acts 0 [] where
  distinct := hs.distinct
  shown := by
    rw [List.append_nil]
    exact hs.shown
  settled _ := rfl
  paid n _ _ := by
    rw [List.append_nil]
    exact bus_prefix_acts s (acts.take n)

theorem Moment.cons {a : Act F} {m : ℕ} {owed : List (Event F)} (h : Moment (s.act a) acts m owed) :
    Moment s (a :: acts) (m + 1) owed where
  distinct := h.distinct
  shown := h.shown
  settled hs := h.settled hs.tail
  paid n hn hs := by
    obtain ⟨n, rfl⟩ := Nat.exists_eq_add_of_le' (le_trans (Nat.le_add_left 1 m) hn)
    exact h.paid n (Nat.le_of_succ_le_succ hn) hs.tail

theorem moment_owing {a : Act F} {ev : Event F} (ha : a.isSend = false)
    (hnext : Announced ((s.act a).act (.send ev))) :
    Moment s (a :: .send ev :: acts) 1 [ev] where
  distinct := hnext.distinct
  shown := hnext.shown
  settled hs := nomatch (hs a rfl).symm.trans ha
  paid n hn hs := by
    match n with
    | 0 => cases hn
    | 1 => exact nomatch (hs a rfl).symm.trans ha
    | n + 2 => exact bus_prefix_acts ((s.act a).act (.send ev)) (acts.take n)

/-- At every moment the live table is what the events so far, and the one that is owed, stand
for. -/
theorem Publishes.moment (h : Publishes s acts) (hs : Announced s) (m : ℕ) :
    ∃ owed, Moment s acts m owed := by
  induction h generalizing m with
  | nil s =>
    refine ⟨[], ?_⟩
    have hz := moment_zero hs []
    exact ⟨by simpa using hz.distinct, by simpa using hz.shown, fun _ => rfl, by simp⟩
  | note hev _ ih =>
    cases m with
    | zero => exact ⟨[], moment_zero hs _⟩
    | succ m =>
      obtain ⟨owed, ho⟩ := ih (announced_note hs hev) m
      exact ⟨owed, ho.cons⟩
  | @put s k dto acts hk _ ih =>
    match m with
    | 0 => exact ⟨[], moment_zero hs _⟩
    | 1 => exact ⟨_, moment_owing rfl (announced_put hs hk)⟩
    | m + 2 =>
      obtain ⟨owed, ho⟩ := ih (announced_put hs hk) m
      exact ⟨owed, ho.cons.cons⟩
  | @drop s k d acts hk _ ih =>
    match m with
    | 0 => exact ⟨[], moment_zero hs _⟩
    | 1 => exact ⟨_, moment_owing rfl (announced_drop hs hk)⟩
    | m + 2 =>
      obtain ⟨owed, ho⟩ := ih (announced_drop hs hk) m
      exact ⟨owed, ho.cons.cons⟩

theorem mirror_drop {log seen : List (Event F)} {t : ℕ} (hpre : seen <+: log)
    (ht : t ≤ seen.length) : replay (mirror seen) (writesOf (log.drop t)) = mirror log := by
  obtain ⟨rest, rfl⟩ := hpre
  have hdrop : (seen ++ rest).drop t = seen.drop t ++ rest := List.drop_append_of_le_length ht
  have hsplit : mirror (seen ++ rest) =
      replay (mirror (seen.take t)) (writesOf ((seen ++ rest).drop t)) := by
    rw [← mirror_append, hdrop, ← List.append_assoc, List.take_append_drop]
  funext id
  rw [hsplit, replay_eq_iff]
  intro hnone
  rw [← List.take_append_drop t seen, mirror_append, List.take_append_drop, replay_apply,
    lastWrite_eq_none.mpr, Option.getD_none]
  intro w hw
  refine hnone w ?_
  rw [hdrop, writesOf_append]
  exact List.mem_append_left _ hw

theorem Publishes.shows_new (h : Publishes s acts) (hs : Announced s) {n : ℕ}
    (hn : Settled (acts.take n)) :
    Shows ((s.acts (acts.take n)).bus.foldl InspectorApp.apply .new).table
      (s.acts (acts.take n)).live := by
  obtain ⟨owed, ho⟩ := h.moment hs n
  have hshown := ho.shown
  rw [ho.settled hn, List.append_nil] at hshown
  rw [InspectorApp.table_foldl_apply]
  exact hshown

theorem Publishes.shows_snapshot (h : Publishes s acts) (hs : Announced s) {m n t : ℕ} (hmn : m ≤ n)
    (hn : Settled (acts.take n)) (ht : t ≤ (s.acts (acts.take m)).bus.length)
    (app : InspectorApp F) {conns : List ConnectionDto}
    (hconns : conns.Perm (s.acts (acts.take m)).live.snapshot) :
    Shows (((s.acts (acts.take n)).bus.drop t).foldl InspectorApp.apply
      (app.setSnapshot conns)).table (s.acts (acts.take n)).live := by
  obtain ⟨owed, ho⟩ := h.moment hs m
  have hsnap : (app.setSnapshot conns).table = mirror ((s.acts (acts.take m)).bus ++ owed) :=
    (shows_setSnapshot app hconns ho.distinct).unique ho.shown
  have hlog := h.shows_new hs hn
  have hlen : t ≤ ((s.acts (acts.take m)).bus ++ owed).length := by
    rw [List.length_append]
    omega
  rw [InspectorApp.table_foldl_apply] at hlog ⊢
  rw [hsnap, mirror_drop (ho.paid n hmn hn) hlen]
  exact hlog

end Run

end Pktscope

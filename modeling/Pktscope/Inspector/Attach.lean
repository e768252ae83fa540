import Pktscope.Monitor.Stream

/-! # Attaching an inspector

The inspector asks for the live connections, then for the recent alerts, and only
then subscribes, while the worker goes on handling packets. The system is the two
of them with the channel between; a run is any interleaving of their moves.
-/

namespace Pktscope

open Library

/-- The request that the inspector makes next; after the last one it reads the stream. -/
inductive Stage where
  | status
  | connections
  | alerts
  | subscribe
  | streaming
  deriving DecidableEq

def Stage.rank : Stage → ℕ
  | .status => 0
  | .connections => 1
  | .alerts => 2
  | .subscribe => 3
  | .streaming => 4

/-- The events that a subscriber may leave unread before the bus drops new ones. -/
def busCapacity : ℕ := 1024

/-- One move of the worker, of the server or of the inspector. -/
inductive Move (F : Type) where
  /-- The worker receives a packet or a timeout. -/
  | turn (i : Recv)
  /-- The worker makes the next access of its turn. -/
  | access
  | status
  | connections
  | alerts (answer : List (Alert F))
  | subscribe
  /-- The server writes an event of the channel to the socket. -/
  | forward
  /-- The inspector applies an event that it has read. -/
  | apply

/-- The daemon and one inspector. -/
structure System (F : Type) where
  /-- The worker at the end of its turn. -/
  worker : Worker F
  /-- The accesses of the turn that are still to be made. -/
  todo : List (Act F)
  shared : Shared F
  stage : Stage
  /-- The events of the subscription that the server has not written yet. -/
  channel : List (Event F)
  /-- The events written to the socket that the inspector has not applied yet. -/
  inbox : List (Event F)
  app : InspectorApp F

namespace System

variable {F : Type}

/-- The channel after an access: a broadcast goes to a subscriber that has room for it. -/
def offer (s : System F) : Act F → List (Event F)
  | .send ev =>
    if s.stage = .streaming ∧ s.channel.length < busCapacity then s.channel ++ [ev] else s.channel
  | _ => s.channel

variable [F64 F] (ctx : WorkerCtx F)

omit [F64 F] in
/-- A daemon on a store, before its first packet, and an inspector that has just started. -/
def launch (store : Store F) : System F where
  worker := .start ctx store
  todo := []
  shared := (Worker.start ctx store).shared
  stage := .status
  channel := []
  inbox := []
  app := .new

/-- One move, if it is possible. -/
def step (s : System F) : Move F → Option (System F)
  | .turn i =>
    if s.todo.isEmpty then
      some { s with worker := s.worker.step ctx i, todo := s.worker.acts ctx i }
    else none
  | .access =>
    match s.todo with
    | [] => none
    | a :: todo => some { s with todo, shared := s.shared.act a, channel := s.offer a }
  | .status => if s.stage = .status then some { s with stage := .connections } else none
  | .connections =>
    if s.stage = .connections then
      some { s with stage := .alerts, app := s.app.setSnapshot s.shared.live.snapshot }
    else none
  | .alerts answer =>
    if s.stage = .alerts then
      some { s with stage := .subscribe, app := s.app.setRecentAlerts answer }
    else none
  | .subscribe =>
    if s.stage = .subscribe then
      some { s with stage := .streaming, channel := [], inbox := [] }
    else none
  | .forward =>
    match s.stage, s.channel with
    | .streaming, ev :: channel => some { s with channel, inbox := s.inbox ++ [ev] }
    | _, _ => none
  | .apply =>
    match s.stage, s.inbox with
    | .streaming, ev :: inbox => some { s with inbox, app := s.app.apply ev }
    | _, _ => none

/-- A run of moves, if each of them is possible. -/
def run (s : System F) (moves : List (Move F)) : Option (System F) := moves.foldlM (step ctx) s

omit [F64 F] in
/-- The worker has announced all it did, and the inspector has applied all that it was sent. -/
def Quiescent (s : System F) : Prop :=
  s.stage = .streaming ∧ s.todo = [] ∧ s.channel = [] ∧ s.inbox = []

/-- The bus never drops an event for want of room. -/
def NeverFull (s : System F) (moves : List (Move F)) : Prop :=
  ∀ p, p <+: moves → ∀ s', run ctx s p = some s' → s'.channel.length < busCapacity

/-- No change of the live table is lost between the snapshot and the subscription: under each flow
id the table holds the same at both, or a later event makes up for it. -/
def NoneLost (store : Store F) (moves : List (Move F)) : Prop :=
  ∀ before mid after s₁ s₂ s, moves = before ++ .connections :: mid ++ .subscribe :: after →
    run ctx (launch ctx store) before = some s₁ →
    run ctx (launch ctx store) (before ++ .connections :: mid) = some s₂ →
    run ctx (launch ctx store) moves = some s →
    ∀ id, (∃ ev ∈ s.shared.bus.drop s₂.shared.bus.length, ev.flowId? = some id) ∨
      ∀ dto, dto.id = id → (s₁.shared.live.Has dto ↔ s₂.shared.live.Has dto)

section Run

variable {ctx} {s s' : System F} {m : Move F} {moves moves' : List (Move F)}

theorem run_cons : run ctx s (m :: moves) = (step ctx s m).bind fun s' => run ctx s' moves :=
  List.foldlM_cons

theorem run_append :
    run ctx s (moves ++ moves') = (run ctx s moves).bind fun s' => run ctx s' moves' :=
  List.foldlM_append

theorem run_induction {P : System F → Prop} (h : ∀ s m s', P s → step ctx s m = some s' → P s')
    (hs : P s) (hrun : run ctx s moves = some s') : P s' := by
  induction moves generalizing s with
  | nil =>
    cases hrun
    exact hs
  | cons m moves ih =>
    rw [run_cons] at hrun
    obtain ⟨u, hu, hrun⟩ := Option.bind_eq_some_iff.mp hrun
    exact ih (h s m u hs hu) hrun

theorem run_switch {P : System F → Prop} (hs : ¬ P s) (hs' : P s')
    (hrun : run ctx s moves = some s') :
    ∃ before m after u v, moves = before ++ m :: after ∧ run ctx s before = some u ∧
      step ctx u m = some v ∧ run ctx v after = some s' ∧ ¬ P u ∧ P v := by
  induction moves generalizing s with
  | nil =>
    cases hrun
    exact absurd hs' hs
  | cons m moves ih =>
    rw [run_cons] at hrun
    obtain ⟨u, hu, hrun⟩ := Option.bind_eq_some_iff.mp hrun
    by_cases hp : P u
    · exact ⟨[], m, moves, s, u, rfl, rfl, hu, hrun, hs, hp⟩
    · obtain ⟨before, m', after, v, v', rfl, hv, hrest⟩ := ih hp hrun
      refine ⟨m :: before, m', after, v, v', rfl, ?_, hrest⟩
      rw [run_cons, hu]
      exact hv

/-- What each move needs and does. -/
inductive Moved (ctx : WorkerCtx F) (s : System F) : Move F → System F → Prop
  | turn (i : Recv) (h : s.todo = []) :
    Moved ctx s (.turn i) { s with worker := s.worker.step ctx i, todo := s.worker.acts ctx i }
  | access (a : Act F) (todo : List (Act F)) (h : s.todo = a :: todo) :
    Moved ctx s .access { s with todo, shared := s.shared.act a, channel := s.offer a }
  | status (h : s.stage = .status) : Moved ctx s .status { s with stage := .connections }
  | connections (h : s.stage = .connections) :
    Moved ctx s .connections
      { s with stage := .alerts, app := s.app.setSnapshot s.shared.live.snapshot }
  | alerts (answer : List (Alert F)) (h : s.stage = .alerts) :
    Moved ctx s (.alerts answer) { s with stage := .subscribe, app := s.app.setRecentAlerts answer }
  | subscribe (h : s.stage = .subscribe) :
    Moved ctx s .subscribe { s with stage := .streaming, channel := [], inbox := [] }
  | forward (ev : Event F) (channel : List (Event F)) (h : s.stage = .streaming)
      (hc : s.channel = ev :: channel) :
    Moved ctx s .forward { s with channel, inbox := s.inbox ++ [ev] }
  | apply (ev : Event F) (inbox : List (Event F)) (h : s.stage = .streaming)
      (hi : s.inbox = ev :: inbox) :
    Moved ctx s .apply { s with inbox, app := s.app.apply ev }

theorem moved_of_step (h : step ctx s m = some s') : Moved ctx s m s' := by
  cases m with
  | turn i =>
    simp only [step] at h
    split_ifs at h with ht
    cases h
    exact .turn i (List.isEmpty_iff.mp ht)
  | access =>
    simp only [step] at h
    split at h
    · cases h
    · cases h
      exact .access _ _ ‹_›
  | status =>
    simp only [step] at h
    split_ifs at h with hst
    cases h
    exact .status hst
  | connections =>
    simp only [step] at h
    split_ifs at h with hst
    cases h
    exact .connections hst
  | alerts answer =>
    simp only [step] at h
    split_ifs at h with hst
    cases h
    exact .alerts answer hst
  | subscribe =>
    simp only [step] at h
    split_ifs at h with hst
    cases h
    exact .subscribe hst
  | forward =>
    simp only [step] at h
    split at h
    · cases h
      exact .forward _ _ ‹_› ‹_›
    · cases h
  | apply =>
    simp only [step] at h
    split at h
    · cases h
      exact .apply _ _ ‹_› ‹_›
    · cases h

end Run

section Worker

variable {ctx} {store : Store F} {s s' : System F} {m : Move F} {moves : List (Move F)}
  {done : List (Act F)}

/-- The worker has made some of the accesses of its turns so far, and the others are to be made. -/
def Worked (ctx : WorkerCtx F) (store : Store F) (s : System F) (done : List (Act F)) : Prop :=
  ∃ inputs, done ++ s.todo = (Worker.start ctx store).actsOf ctx inputs ∧
    s.worker = Worker.steps ctx (.start ctx store) inputs ∧
    s.shared = (Worker.start ctx store).shared.acts done

omit [F64 F] in
theorem worked_launch [F64 F] (ctx : WorkerCtx F) (store : Store F) :
    Worked ctx store (launch ctx store) [] := ⟨[], rfl, rfl, rfl⟩

theorem worked_step (hs : Worked ctx store s done) (h : Moved ctx s m s') :
    ∃ more, Worked ctx store s' (done ++ more) := by
  obtain ⟨inputs, hacts, hworker, hshared⟩ := hs
  cases h with
  | turn i ht =>
    refine ⟨[], inputs ++ [i], ?_, ?_, ?_⟩
    · rw [ht, List.append_nil] at hacts
      rw [Worker.actsOf_concat, ← hacts, ← hworker, List.append_nil]
    · rw [hworker, Worker.steps, Worker.steps, List.foldl_append]
      rfl
    · rw [List.append_nil]
      exact hshared
  | access a todo ht =>
    refine ⟨[a], inputs, ?_, hworker, ?_⟩
    · rw [← hacts, ht, List.append_assoc]
      rfl
    · rw [Shared.acts_append, ← hshared]
      rfl
  | _ =>
    refine ⟨[], inputs, ?_, hworker, ?_⟩
    · rw [List.append_nil]
      exact hacts
    · rw [List.append_nil]
      exact hshared

theorem worked_run (hs : Worked ctx store s done) (hrun : run ctx s moves = some s') :
    ∃ more, Worked ctx store s' (done ++ more) := by
  refine run_induction (P := fun s => ∃ more, Worked ctx store s (done ++ more)) ?_
    ⟨[], by rwa [List.append_nil]⟩ hrun
  rintro s m s' ⟨more, hs⟩ h
  obtain ⟨more', hs'⟩ := worked_step hs (moved_of_step h)
  exact ⟨more ++ more', by rwa [← List.append_assoc]⟩

end Worker

section Stages

variable {ctx} {s s' : System F} {m : Move F} {moves : List (Move F)}

theorem rank_step (h : Moved ctx s m s') : s.stage.rank ≤ s'.stage.rank := by
  cases h with
  | status h | connections h | alerts _ h | subscribe h => simp [h, Stage.rank]
  | _ => exact le_refl _

theorem rank_run (hrun : run ctx s moves = some s') : s.stage.rank ≤ s'.stage.rank :=
  run_induction (P := fun u => s.stage.rank ≤ u.stage.rank)
    (fun _ _ _ hu h => hu.trans (rank_step (moved_of_step h))) (le_refl _) hrun

theorem Stage.eq_streaming {st : Stage} (h : Stage.streaming.rank ≤ st.rank) : st = .streaming := by
  cases st with
  | streaming => rfl
  | _ => exact absurd h (by decide)

theorem table_step (h : Moved ctx s m s') (hs : Stage.alerts.rank ≤ s.stage.rank)
    (hs' : s'.stage.rank < Stage.streaming.rank) : s'.app.table = s.app.table := by
  cases h with
  | connections h =>
    rw [h] at hs
    exact absurd hs (by decide)
  | apply _ _ h _ =>
    change s.stage.rank < _ at hs'
    rw [h] at hs'
    exact absurd hs' (lt_irrefl _)
  | _ => rfl

theorem table_run (hrun : run ctx s moves = some s') (hs : Stage.alerts.rank ≤ s.stage.rank)
    (hs' : s'.stage.rank < Stage.streaming.rank) : s'.app.table = s.app.table := by
  induction moves generalizing s with
  | nil =>
    cases hrun
    rfl
  | cons m moves ih =>
    rw [run_cons] at hrun
    obtain ⟨u, hu, hrun⟩ := Option.bind_eq_some_iff.mp hrun
    have hm := moved_of_step hu
    rw [ih hrun (hs.trans (rank_step hm)), table_step hm hs ((rank_run hrun).trans_lt hs')]

/-- The events broadcast since position `p` are those that the inspector has applied to a table,
then those that wait for it. -/
def Delivered (p : ℕ) (table : ℕ → Option ConnectionDto) (s : System F) : Prop :=
  ∃ applied, p ≤ s.shared.bus.length ∧ applied ++ s.inbox ++ s.channel = s.shared.bus.drop p ∧
    s.app.table = replay table (writesOf applied)

theorem delivered_step {p : ℕ} {table : ℕ → Option ConnectionDto} (h : Moved ctx s m s')
    (hst : s.stage = .streaming) (hroom : s.channel.length < busCapacity)
    (hs : Delivered p table s) : Delivered p table s' := by
  obtain ⟨applied, hp, hev, htab⟩ := hs
  cases h with
  | turn i h => exact ⟨applied, hp, hev, htab⟩
  | access a todo h =>
    cases a with
    | put k dto => exact ⟨applied, hp, hev, htab⟩
    | drop k => exact ⟨applied, hp, hev, htab⟩
    | send ev =>
      refine ⟨applied, ?_, ?_, htab⟩
      · change p ≤ (s.shared.bus ++ [ev]).length
        rw [List.length_append]
        omega
      · change applied ++ s.inbox ++ s.offer (.send ev) = (s.shared.bus ++ [ev]).drop p
        rw [offer, if_pos ⟨hst, hroom⟩, ← List.append_assoc, hev, List.drop_append_of_le_length hp]
  | status h | connections h | alerts _ h | subscribe h => exact nomatch h.symm.trans hst
  | forward ev channel h hc =>
    refine ⟨applied, hp, ?_, htab⟩
    rw [← hev, hc]
    simp only [List.append_assoc, List.singleton_append]
  | apply ev inbox h hi =>
    refine ⟨applied ++ [ev], hp, ?_, ?_⟩
    · rw [← hev, hi]
      simp only [List.append_assoc, List.cons_append, List.nil_append]
    · rw [InspectorApp.table_apply, htab, ← replay_append, writesOf_append]
      refine congrArg (fun l => replay table (writesOf applied ++ l)) ?_
      unfold writesOf
      rw [List.filterMap_cons, List.filterMap_nil]
      cases ev.write? <;> rfl

theorem NeverFull.cons (h : NeverFull ctx s (m :: moves)) (hm : step ctx s m = some s') :
    NeverFull ctx s' moves := by
  intro p hp u hu
  refine h (m :: p) (List.cons_prefix_cons.mpr ⟨rfl, hp⟩) u ?_
  rw [run_cons, hm]
  exact hu

theorem NeverFull.append {moves' : List (Move F)} (h : NeverFull ctx s (moves ++ moves'))
    (hrun : run ctx s moves = some s') : NeverFull ctx s' moves' := by
  intro p hp u hu
  refine h (moves ++ p) (List.prefix_append_right_inj moves |>.mpr hp) u ?_
  rw [run_append, hrun]
  exact hu

theorem delivered_run {p : ℕ} {table : ℕ → Option ConnectionDto} (hrun : run ctx s moves = some s')
    (hst : s.stage = .streaming) (hroom : NeverFull ctx s moves) (hs : Delivered p table s) :
    Delivered p table s' := by
  induction moves generalizing s with
  | nil =>
    cases hrun
    exact hs
  | cons m moves ih =>
    rw [run_cons] at hrun
    obtain ⟨u, hu, hrun⟩ := Option.bind_eq_some_iff.mp hrun
    have hm := moved_of_step hu
    refine ih hrun (Stage.eq_streaming ?_) (hroom.cons hu) ?_
    · rw [← hst]
      exact rank_step hm
    · exact delivered_step hm hst (hroom [] List.nil_prefix s rfl) hs

theorem attached_split (hs : s.stage = .status) (hs' : s'.stage = .streaming)
    (hrun : run ctx s moves = some s') :
    ∃ before mid after, moves = before ++ .connections :: mid ++ .subscribe :: after := by
  have hne : s.stage ≠ .streaming := by
    rw [hs]
    decide
  obtain ⟨front, m, after, u, v, rfl, hu, hm, -, hnu, hv⟩ :=
    run_switch (P := fun u => u.stage = .streaming) hne hs' hrun
  have hsub : m = .subscribe ∧ u.stage = .subscribe := by
    cases moved_of_step hm with
    | subscribe h => exact ⟨rfl, h⟩
    | status h | connections h | alerts _ h => cases hv
    | _ => exact absurd hv hnu
  have hlow : ¬ Stage.alerts.rank ≤ s.stage.rank := by
    rw [hs]
    decide
  have hhigh : Stage.alerts.rank ≤ u.stage.rank := by
    rw [hsub.2]
    decide
  obtain ⟨before, m', mid, u', v', rfl, -, hm', -, hnu', hv'⟩ :=
    run_switch (P := fun u => Stage.alerts.rank ≤ u.stage.rank) hlow hhigh hu
  have hconn : m' = .connections := by
    cases moved_of_step hm' with
    | connections h => rfl
    | status h => exact absurd hv' (by simp [Stage.rank])
    | alerts _ h | subscribe h =>
      rw [h] at hnu'
      exact absurd hnu' (by decide)
    | _ => exact absurd hv' hnu'
  exact ⟨before, mid, after, by rw [hsub.1, hconn]⟩

end Stages

section Agreement

variable {ctx} {store : Store F} {s₁ s₂ s : System F} {before mid after : List (Move F)}

theorem table_subscribed (h₁ : run ctx (launch ctx store) before = some s₁)
    (h₂ : run ctx (launch ctx store) (before ++ .connections :: mid) = some s₂)
    (hst : s₂.stage = .subscribe) : Shows s₂.app.table s₁.shared.live := by
  rw [run_append, h₁, Option.bind_some, run_cons] at h₂
  obtain ⟨u, hu, hmid⟩ := Option.bind_eq_some_iff.mp h₂
  cases moved_of_step hu with
  | connections h =>
    rw [table_run hmid (le_refl _) (by rw [hst]; decide)]
    obtain ⟨done, inputs, hacts, -, hshared⟩ := worked_run (worked_launch ctx store) h₁
    have hstart := Worker.logged_start ctx store
    obtain ⟨owed, ho⟩ :=
      (Worker.publishes_actsOf hstart inputs).moment hstart.announced ([] ++ done).length
    have hd := ho.distinct
    rw [← hacts, List.take_left, ← hshared] at hd
    exact shows_setSnapshot _ (List.Perm.refl _) hd

omit [F64 F] in
theorem mirror_moment {p q : List (Act F)} (hpub : Publishes (Worker.start ctx store).shared (p ++ q))
    {id : ℕ} (hlater : ∀ ev ∈ ((Worker.start ctx store).shared.acts (p ++ q)).bus.drop
      ((Worker.start ctx store).shared.acts p).bus.length, ev.flowId? ≠ some id) :
    ∃ table, Shows table ((Worker.start ctx store).shared.acts p).live ∧
      table id = mirror ((Worker.start ctx store).shared.acts p).bus id := by
  have hstart := Worker.logged_start ctx store
  obtain ⟨owed, ho⟩ := hpub.moment hstart.announced p.length
  have hshown := ho.shown
  have hpaid := ho.paid (p ++ q).length (by simp) (by
    rw [List.take_length]
    exact hpub.settled)
  rw [List.take_left] at hshown hpaid
  rw [List.take_length] at hpaid
  refine ⟨_, hshown, ?_⟩
  obtain ⟨rest, hrest⟩ := hpaid
  rw [mirror_append, replay_apply, lastWrite_eq_none.mpr, Option.getD_none]
  refine forall_writesOf_ne.mpr fun ev hev => hlater ev ?_
  rw [← hrest, List.append_assoc, List.drop_left]
  exact List.mem_append_left _ hev

/-- The table that an inspector ends with is the live one exactly when no change was lost between
its snapshot and its subscription. -/
theorem agrees_iff (h₁ : run ctx (launch ctx store) before = some s₁)
    (h₂ : run ctx (launch ctx store) (before ++ .connections :: mid) = some s₂)
    (hs : run ctx (launch ctx store) (before ++ .connections :: mid ++ .subscribe :: after) = some s)
    (hroom : NeverFull ctx (launch ctx store) (before ++ .connections :: mid ++ .subscribe :: after))
    (hq : Quiescent s) :
    Shows s.app.table s.shared.live ↔
      ∀ id, (∃ ev ∈ s.shared.bus.drop s₂.shared.bus.length, ev.flowId? = some id) ∨
        ∀ dto, dto.id = id → (s₁.shared.live.Has dto ↔ s₂.shared.live.Has dto) := by
  obtain ⟨-, htodo, hchan, hinbox⟩ := hq
  have hafter := hs
  rw [run_append, h₂, Option.bind_some, run_cons] at hafter
  obtain ⟨u, hu, hafter⟩ := Option.bind_eq_some_iff.mp hafter
  have hm := moved_of_step hu
  cases hm with
  | subscribe hst =>
    have htable := table_subscribed h₁ h₂ hst
    have hfull := (hroom.append h₂).cons hu
    have hstart : Delivered s₂.shared.bus.length s₂.app.table
        { s₂ with stage := .streaming, channel := [], inbox := [] } :=
      ⟨[], le_refl _, by simp, rfl⟩
    obtain ⟨applied, hlen, hev, hend⟩ := delivered_run hafter rfl hfull hstart
    rw [hinbox, hchan, List.append_nil, List.append_nil] at hev
    obtain ⟨done, hw⟩ := worked_run (worked_launch ctx store) h₂
    rw [List.nil_append] at hw
    have hw' : Worked ctx store { s₂ with stage := .streaming, channel := [], inbox := [] } done := hw
    obtain ⟨-, -, -, hshared₂⟩ := hw
    obtain ⟨more, inputs, hacts, -, hshared⟩ := worked_run hw' hafter
    rw [htodo, List.append_nil] at hacts
    have hpub := Worker.publishes_actsOf (Worker.logged_start ctx store) inputs
    rw [← hacts] at hpub
    have hann := hpub.announced (Worker.logged_start ctx store).announced
    have hpre : s₂.shared.bus <+: s.shared.bus := by
      rw [hshared, Shared.acts_append, ← hshared₂]
      exact bus_prefix_acts s₂.shared more
    have hlog : mirror s.shared.bus = replay (mirror s₂.shared.bus) (writesOf applied) := by
      rw [hev, ← mirror_append]
      conv_lhs => rw [← List.take_append_drop s₂.shared.bus.length s.shared.bus,
        ← List.prefix_iff_eq_take.mp hpre]
    rw [← hshared] at hann
    have heq : Shows s.app.table s.shared.live ↔ s.app.table = mirror s.shared.bus :=
      ⟨fun h => h.unique hann.shown, fun h => h ▸ hann.shown⟩
    rw [heq, hend, hlog, funext_iff]
    refine forall_congr' fun id => ?_
    rw [replay_eq_iff, forall_writesOf_ne, hev]
    by_cases hlater : ∃ ev ∈ s.shared.bus.drop s₂.shared.bus.length, ev.flowId? = some id
    · obtain ⟨ev, hmem, hid⟩ := hlater
      exact iff_of_true (fun h => absurd hid (h ev hmem)) (Or.inl ⟨ev, hmem, hid⟩)
    · have hnone : ∀ ev ∈ s.shared.bus.drop s₂.shared.bus.length, ev.flowId? ≠ some id :=
        fun ev hmem hid => hlater ⟨ev, hmem, hid⟩
      rw [hshared, hshared₂] at hnone
      obtain ⟨table, hshown, hid⟩ := mirror_moment hpub hnone
      rw [← hshared₂] at hshown hid
      rw [or_iff_right hlater, ← hid, ← htable.eq_iff hshown id, hshared₂, hshared]
      exact ⟨fun h => h hnone, fun h _ => h⟩

/-- Once all that was sent is applied and the worker is idle, the inspector shows exactly the live
connections if and only if no change was lost between its snapshot and its subscription. -/
theorem attach_agrees_iff {moves : List (Move F)} (hrun : run ctx (launch ctx store) moves = some s)
    (hroom : NeverFull ctx (launch ctx store) moves) (hq : Quiescent s) :
    Shows s.app.table s.shared.live ↔ NoneLost ctx store moves := by
  constructor
  · rintro h before mid after s₁ s₂ s' rfl h₁ h₂ hrun'
    obtain rfl : s' = s := Option.some.inj (hrun'.symm.trans hrun)
    exact (agrees_iff h₁ h₂ hrun hroom hq).mp h
  · intro h
    obtain ⟨before, mid, after, rfl⟩ := attached_split rfl hq.1 hrun
    have hpre := hrun
    rw [run_append] at hpre
    obtain ⟨s₂, h₂, -⟩ := Option.bind_eq_some_iff.mp hpre
    have hfront := h₂
    rw [run_append] at hfront
    obtain ⟨s₁, h₁, -⟩ := Option.bind_eq_some_iff.mp hfront
    exact (agrees_iff h₁ h₂ hrun hroom hq).mpr (h before mid after s₁ s₂ s rfl h₁ h₂ hrun)

theorem length_channel_step {s s' : System F} {m : Move F} (h : Moved ctx s m s') :
    s'.channel.length ≤ s.channel.length + 1 := by
  cases h with
  | access a todo h =>
    change (s.offer a).length ≤ _
    unfold offer
    split
    · split_ifs
      · rw [List.length_append]
        exact le_refl _
      · exact Nat.le_succ _
    · exact Nat.le_succ _
  | subscribe h => exact Nat.zero_le _
  | forward ev channel h hc =>
    change channel.length ≤ _
    rw [hc, List.length_cons]
    omega
  | _ => exact Nat.le_succ _

theorem length_channel_run {s s' : System F} {moves : List (Move F)}
    (hrun : run ctx s moves = some s') : s'.channel.length ≤ s.channel.length + moves.length := by
  induction moves generalizing s with
  | nil =>
    cases hrun
    exact le_refl _
  | cons m moves ih =>
    rw [run_cons] at hrun
    obtain ⟨u, hu, hrun⟩ := Option.bind_eq_some_iff.mp hrun
    have hstep := length_channel_step (moved_of_step hu)
    have hrest := ih hrun
    rw [List.length_cons]
    omega

theorem neverFull_of_short {moves : List (Move F)} (h : moves.length < busCapacity) :
    NeverFull ctx (launch ctx store) moves := by
  intro p hp s' hrun
  have hle := length_channel_run hrun
  have hlen := hp.length_le
  have hstart : (launch ctx store).channel.length = 0 := rfl
  omega

end Agreement

section Loss

/-- A flow is live when the inspector asks for the connections, and reset before it subscribes. -/
def lossMoves : List (Move ℚ) :=
  [.turn Worker.sampleOpen, .access, .access, .status, .connections, .turn Worker.sampleReset, .access,
    .access, .access, .access, .alerts [], .subscribe]

def lossRun : Option (System ℚ) :=
  run (Worker.sampleCtx ∅) (launch (Worker.sampleCtx ∅) Store.openNew) lossMoves

theorem lossRun_isSome : lossRun.isSome = true := by decide

/-- The end of that run. -/
def lossEnd : System ℚ := lossRun.get lossRun_isSome

theorem run_lossMoves :
    run (Worker.sampleCtx ∅) (launch (Worker.sampleCtx ∅) Store.openNew) lossMoves = some lossEnd :=
  (Option.some_get lossRun_isSome).symm

theorem quiescent_lossEnd : Quiescent lossEnd := by
  unfold Quiescent
  decide

/-- The inspector goes on showing a connection that is closed. -/
theorem closed_connection_remains :
    ∃ s, run (Worker.sampleCtx ∅) (launch (Worker.sampleCtx ∅) Store.openNew) lossMoves = some s ∧
      NeverFull (Worker.sampleCtx ∅) (launch (Worker.sampleCtx ∅) Store.openNew) lossMoves ∧
      Quiescent s ∧ s.shared.live.keys = [] ∧ (s.app.table 1).isSome ∧
      ¬ Shows s.app.table s.shared.live := by
  have hlive : lossEnd.shared.live.keys = [] := by decide
  have hshown : (lossEnd.app.table 1).isSome = true := by decide
  refine ⟨lossEnd, run_lossMoves, neverFull_of_short (by decide), quiescent_lossEnd, hlive, hshown,
    fun h => ?_⟩
  obtain ⟨dto, hdto⟩ := Option.isSome_iff_exists.mp hshown
  obtain ⟨-, k, hk⟩ := (h 1 dto).mp hdto
  have hmem : k ∈ lossEnd.shared.live := AList.lookup_isSome.mp (hk ▸ rfl)
  rw [AList.mem_keys, hlive] at hmem
  cases hmem

/-- The condition at the run that loses a change. -/
theorem attach_agrees_iff_loss :
    Shows lossEnd.app.table lossEnd.shared.live ↔
      NoneLost (Worker.sampleCtx ∅) Store.openNew lossMoves :=
  attach_agrees_iff run_lossMoves (neverFull_of_short (by decide)) quiescent_lossEnd

end Loss

end System

end Pktscope

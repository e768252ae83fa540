import Mathlib.Data.List.Sort
import Pktscope.Library.Ordered
import Pktscope.Library.Replay
import Pktscope.Monitor.Correlate

/-! # The state of the inspector

The inspector is a reducer over the events of the daemon. Its connection table,
keyed by flow id, is the replay of the writes that the events stand for.
-/

namespace Pktscope

open Library

def maxAlerts : ℕ := 500

/-- What the inspector keeps of the daemon. -/
structure InspectorApp (F : Type) where
  conns : OrderedMap ℕ ConnectionDto
  alerts : List (Alert F)
  connected : Bool
  disconnectMsg : Option String

/-- The flow that an event is about. -/
def Event.flowId? {F : Type} : Event F → Option ℕ
  | .flow dto => some dto.id
  | .closed id => some id
  | .alert _ => none
  | .heartbeat _ => none

/-- What an event changes in a table keyed by flow id. -/
def Event.write? {F : Type} : Event F → Option (CellWrite ℕ ConnectionDto)
  | .flow dto => some (dto.id, some dto)
  | .closed id => some (id, none)
  | .alert _ => none
  | .heartbeat _ => none

theorem Event.flowId?_eq {F : Type} (ev : Event F) : ev.flowId? = ev.write?.map Prod.fst := by
  cases ev <;> rfl

/-- The writes that some events stand for. -/
def writesOf {F : Type} (events : List (Event F)) : List (CellWrite ℕ ConnectionDto) :=
  events.filterMap Event.write?

theorem writesOf_append {F : Type} (events events' : List (Event F)) :
    writesOf (events ++ events') = writesOf events ++ writesOf events' := List.filterMap_append

/-- No write of the events is to a flow that none of them is about. -/
theorem forall_writesOf_ne {F : Type} {events : List (Event F)} {id : ℕ} :
    (∀ w ∈ writesOf events, w.1 ≠ id) ↔ ∀ ev ∈ events, ev.flowId? ≠ some id := by
  constructor
  · intro h ev hev he
    rw [Event.flowId?_eq, Option.map_eq_some_iff] at he
    obtain ⟨w, hw, hid⟩ := he
    exact h w (List.mem_filterMap.mpr ⟨ev, hev, hw⟩) hid
  · intro h w hw hid
    obtain ⟨ev, hev, he⟩ := List.mem_filterMap.mp hw
    refine h ev hev ?_
    rw [Event.flowId?_eq, he, Option.map_some, hid]

namespace InspectorApp

variable {F : Type}

def new : InspectorApp F where
  conns := .empty
  alerts := []
  connected := true
  disconnectMsg := none

/-- Apply one event of the stream. -/
def apply (app : InspectorApp F) : Event F → InspectorApp F
  | .flow dto => { app with conns := app.conns.insert dto.id dto }
  | .closed id => { app with conns := app.conns.remove id }
  | .alert a => { app with alerts := (a :: app.alerts).take maxAlerts }
  | .heartbeat _ => app

def setSnapshot (app : InspectorApp F) (conns : List ConnectionDto) : InspectorApp F :=
  { app with conns := conns.foldl (fun m c => m.insert c.id c) .empty }

def setRecentAlerts (app : InspectorApp F) (alerts : List (Alert F)) : InspectorApp F :=
  { app with alerts := alerts }

def setDisconnected (app : InspectorApp F) (msg : String) : InspectorApp F :=
  { app with connected := false, disconnectMsg := some msg }

/-- The connection of each flow id. -/
def table (app : InspectorApp F) : ℕ → Option ConnectionDto := app.conns.get?

@[simp] theorem table_new : (new : InspectorApp F).table = fun _ => none := rfl

@[simp] theorem table_setRecentAlerts (app : InspectorApp F) (alerts : List (Alert F)) :
    (app.setRecentAlerts alerts).table = app.table := rfl

theorem table_apply (app : InspectorApp F) (ev : Event F) :
    (app.apply ev).table = replay app.table ev.write?.toList := by
  funext id
  cases ev with
  | flow dto =>
    change (app.conns.insert dto.id dto).get? id = Function.update app.conns.get? dto.id (some dto) id
    rw [OrderedMap.get?_insert, Function.update_apply]
  | closed id' =>
    change (app.conns.remove id').get? id = Function.update app.conns.get? id' none id
    rw [OrderedMap.get?_remove, Function.update_apply]
  | alert a => rfl
  | heartbeat ts => rfl

theorem table_foldl_apply (app : InspectorApp F) (events : List (Event F)) :
    (events.foldl apply app).table = replay app.table (writesOf events) := by
  induction events generalizing app with
  | nil => rfl
  | cons ev events ih =>
    rw [List.foldl_cons, ih, table_apply, ← replay_append]
    refine congrArg _ ?_
    unfold writesOf
    rw [List.filterMap_cons]
    cases ev.write? <;> rfl

theorem table_setSnapshot (app : InspectorApp F) (conns : List ConnectionDto) :
    (app.setSnapshot conns).table =
      replay (fun _ => none) (conns.map fun c => (c.id, some c)) := by
  have h (m : OrderedMap ℕ ConnectionDto) : (conns.foldl (fun m c => m.insert c.id c) m).get? =
      replay m.get? (conns.map fun c => (c.id, some c)) := by
    induction conns generalizing m with
    | nil => rfl
    | cons c conns ih =>
      rw [List.foldl_cons, ih, List.map_cons, replay, replay, List.foldl_cons]
      refine congrArg (fun b => List.foldl _ b _) (funext fun id => ?_)
      rw [OrderedMap.get?_insert, Function.update_apply]
  exact h .empty

end InspectorApp

section Showing

/-- The live connections, one for each flow key. -/
abbrev LiveState := AList fun _ : FlowKey => ConnectionDto

/-- The live connections as the server lists them, the most recently active first. -/
def LiveState.snapshot (live : LiveState) : List ConnectionDto :=
  (live.entries.map fun e => e.2).insertionSort fun a b => b.lastSeenMs ≤ a.lastSeenMs

/-- A connection is live. -/
def LiveState.Has (live : LiveState) (dto : ConnectionDto) : Prop := ∃ k, live.lookup k = some dto

/-- A table keyed by flow id holds the live connections and nothing else. -/
def Shows (table : ℕ → Option ConnectionDto) (live : LiveState) : Prop :=
  ∀ id dto, table id = some dto ↔ dto.id = id ∧ live.Has dto

/-- No two live connections have the same id. -/
def DistinctIds (live : LiveState) : Prop :=
  ∀ k k' d d', live.lookup k = some d → live.lookup k' = some d' → d.id = d'.id → k = k'

variable {table table' : ℕ → Option ConnectionDto} {live : LiveState}

theorem Shows.unique (h : Shows table live) (h' : Shows table' live) : table = table' := by
  funext id
  refine Option.ext fun dto => ?_
  rw [h, h']

theorem Shows.eq_iff {live' : LiveState} (h : Shows table live) (h' : Shows table' live') (id : ℕ) :
    table id = table' id ↔ ∀ dto, dto.id = id → (live.Has dto ↔ live'.Has dto) := by
  constructor
  · intro he dto hid
    have hl := h id dto
    rw [he, h' id dto] at hl
    simpa [hid] using hl.symm
  · intro hh
    refine Option.ext fun dto => ?_
    rw [h, h']
    exact and_congr_right (hh dto)

theorem LiveState.mem_snapshot {dto : ConnectionDto} :
    dto ∈ live.snapshot ↔ live.Has dto := by
  rw [LiveState.snapshot, List.mem_insertionSort, List.mem_map]
  constructor
  · rintro ⟨⟨k, d⟩, he, rfl⟩
    exact ⟨k, AList.mem_lookup_iff.mpr he⟩
  · rintro ⟨k, hk⟩
    exact ⟨⟨k, dto⟩, AList.mem_lookup_iff.mp hk, rfl⟩

theorem replay_map_id {conns : List ConnectionDto} {id : ℕ} {dto : ConnectionDto}
    (h : ∀ c ∈ conns, ∀ c' ∈ conns, c.id = c'.id → c = c') :
    replay (fun _ => none) (conns.map fun c => (c.id, some c)) id = some dto ↔
      dto.id = id ∧ dto ∈ conns := by
  induction conns using List.reverseRecOn with
  | nil => simp [replay]
  | append_singleton conns c ih =>
    have hprev := ih fun a ha b hb => h a (List.mem_append_left _ ha) b (List.mem_append_left _ hb)
    rw [List.map_append, List.map_singleton, replay_concat, Function.update_apply]
    split_ifs with hid
    · constructor
      · rintro ⟨⟩
        exact ⟨hid.symm, by simp⟩
      · rintro ⟨hd, hmem⟩
        rw [h c (by simp) dto hmem (hid.symm.trans hd.symm)]
    · rw [hprev, List.mem_append, List.mem_singleton]
      constructor
      · exact fun hd => ⟨hd.1, Or.inl hd.2⟩
      · rintro ⟨hd, hmem | rfl⟩
        · exact ⟨hd, hmem⟩
        · exact absurd hd.symm hid

/-- A snapshot shows the live connections, in whatever order they are listed. -/
theorem shows_setSnapshot {F : Type} (app : InspectorApp F) {conns : List ConnectionDto}
    (hperm : conns.Perm live.snapshot) (hlive : DistinctIds live) :
    Shows (app.setSnapshot conns).table live := by
  intro id dto
  have hmem {c : ConnectionDto} : c ∈ conns ↔ live.Has c :=
    hperm.mem_iff.trans LiveState.mem_snapshot
  rw [InspectorApp.table_setSnapshot, replay_map_id, hmem]
  intro c hc c' hc' hid
  obtain ⟨k, hk⟩ := hmem.mp hc
  obtain ⟨k', hk'⟩ := hmem.mp hc'
  obtain rfl := hlive k k' c c' hk hk' hid
  exact Option.some.inj (hk.symm.trans hk')

end Showing

end Pktscope

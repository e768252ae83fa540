import Mathlib.Data.List.Flatten
import Pktscope.Library.Runs
import Pktscope.Tui.Keys

/-! # The cursor of the packet list

The cursor is a place in the list. Keys keep it inside the list; arriving
packets move the list under it. It stays on its packet, and inside the list,
through the packets that arrive together exactly when the scroll rule moves it,
or no packet of the list leaves the ring, or its own packet leaves and the list
still reaches it.
-/

namespace Pktscope

open Library

namespace App

variable {R : Type}

section List

/-- The packets of the list. -/
def shown (app : App R) : List DecodedPacket := app.packets.packets.filter app.matchesFilter

variable {app : App R}

theorem matchesFilter_of_none (h : app.activeFilter = none) :
    app.matchesFilter = fun _ => true := by
  ext pkt
  rw [matchesFilter, h]

theorem matchesFilter_of_some {filter : FilterExpr} (h : app.activeFilter = some filter) :
    app.matchesFilter = (evalFilter · filter) := by
  ext pkt
  rw [matchesFilter, h]

theorem visibleCount_eq (h : app.Scanned) : app.visibleCount = app.shown.length := by
  rw [visibleCount, h.indices, shown]
  cases hactive : app.activeFilter with
  | none =>
    rw [matchesFilter_of_none hactive, List.filter_true]
    rfl
  | some filter =>
    rw [matchesFilter_of_some hactive, Option.map_some, ← List.countP_eq_length_filter]
    exact length_positions _ _

theorem visiblePacket_eq (h : app.Scanned) (i : ℕ) : app.visiblePacket i = app.shown[i]? := by
  rw [visiblePacket, h.indices, shown]
  cases hactive : app.activeFilter with
  | none =>
    rw [matchesFilter_of_none hactive, List.filter_true]
    rfl
  | some filter =>
    rw [matchesFilter_of_some hactive]
    exact getElem?_positions _ _ i

/-- The place of the selected packet in the ring. -/
def selectedPlace (app : App R) : Option ℕ :=
  match app.filteredIndices with
  | some indices => indices[app.selected]?
  | none => some app.selected

end List

section Arrivals

variable (app : App R) (pkts : List DecodedPacket)

/-- How many packets leave the ring, oldest first, when some arrive. -/
def overflow : ℕ := app.packets.len + pkts.length - max 1 app.packets.capacity

/-- How many packets of the list leave. -/
def shownLeaving : ℕ := (app.packets.packets.take (app.overflow pkts)).countP app.matchesFilter

/-- How many arriving packets the filter accepts. -/
def shownArriving : ℕ := pkts.countP app.matchesFilter

/-- How many of them are still in the ring when all have arrived. -/
def shownStaying : ℕ :=
  (pkts.drop (app.overflow pkts - app.packets.len)).countP app.matchesFilter

/-- How many packets the list has then. -/
def nextCount : ℕ := app.visibleCount - app.shownLeaving pkts + app.shownStaying pkts

/-- The selected packet leaves the ring. -/
def EvictsSelected : Prop := ∃ i ∈ app.selectedPlace, i < app.overflow pkts

/-- The scroll rule moves the selection to the bottom. -/
def ScrollsToBottom : Prop :=
  let (app, newCount) := pkts.foldl drainPacket (app, 0)
  0 < newCount ∧ 0 < app.visibleCount ∧ app.visibleCount - (newCount + 5) ≤ app.selected

/-- Unless it leaves or the scroll rule moves the selection, the selected packet stays selected. -/
def KeepsCursor : Prop :=
  ∀ p, app.selectedPacket = some p → ¬app.EvictsSelected pkts → ¬app.ScrollsToBottom pkts →
    ∃ q, (app.drainPackets pkts).selectedPacket = some q ∧ q.number = p.number

/-- The list does not move away under the cursor. -/
def CursorStays : Prop :=
  (0 < app.shownArriving pkts ∧ 0 < app.nextCount pkts ∧
      app.nextCount pkts - (app.shownArriving pkts + 5) ≤ app.selected) ∨
    app.shownLeaving pkts = 0 ∨
    app.selected < app.shownLeaving pkts ∧
      (0 < app.shownArriving pkts ∨ app.visibleCount ≤ app.shownLeaving pkts ∨
        app.selected + app.shownLeaving pkts < app.visibleCount)

instance : Decidable (app.CursorStays pkts) := inferInstanceAs (Decidable (_ ∨ _ ∨ _ ∧ _))

end Arrivals

section Drain

variable {app : App R} {pkts : List DecodedPacket}

/-- The state after some arriving packets, before the scroll rule. -/
structure Drained (app : App R) (pkts : List DecodedPacket) (st : App R × ℕ) : Prop where
  scanned : st.1.Scanned
  packets : st.1.packets = { app.packets with
    packets := lastN (max 1 app.packets.capacity) (app.packets.packets ++ pkts) }
  active : st.1.activeFilter = app.activeFilter
  selected : st.1.selected = app.selected
  newCount : st.2 = app.shownArriving pkts

theorem matchesFilter_congr {app' : App R} (h : app'.activeFilter = app.activeFilter) :
    app'.matchesFilter = app.matchesFilter := by
  ext pkt
  rw [matchesFilter, matchesFilter, h]

theorem drainPacket_rest (st : App R × ℕ) (pkt : DecodedPacket) :
    (drainPacket st pkt).1.selected = st.1.selected ∧
      (drainPacket st pkt).2 = st.2 + if st.1.matchesFilter pkt then 1 else 0 := by
  have hmatch : (st.1.count pkt).matchesFilter pkt = st.1.matchesFilter pkt := rfl
  simp only [drainPacket, hmatch]
  cases st.1.matchesFilter pkt <;> exact ⟨rfl, rfl⟩

theorem drained_foldl (h : app.Scanned) (pkts : List DecodedPacket) :
    Drained app pkts (pkts.foldl drainPacket (app, 0)) := by
  induction pkts using List.reverseRecOn with
  | nil =>
    refine ⟨h, ?_, rfl, rfl, rfl⟩
    rw [List.append_nil, lastN_of_le h.fits]
    rfl
  | append_singleton pkts pkt ih =>
    rw [List.foldl_append, List.foldl_cons, List.foldl_nil]
    generalize pkts.foldl drainPacket (app, 0) = st at ih
    obtain ⟨hscanned, hpackets⟩ := scanned_drainPacket ih.scanned pkt
    obtain ⟨hselected, hcount⟩ := drainPacket_rest st pkt
    refine ⟨hscanned, ?_, ?_, ?_, ?_⟩
    · rw [hpackets, ih.packets, ← List.append_assoc]
      dsimp only
      rw [lastN_append]
    · rw [(drainPacket_packets st pkt).2, ih.active]
    · rw [hselected, ih.selected]
    · rw [hcount, ih.newCount, matchesFilter_congr ih.active, shownArriving, shownArriving,
        List.countP_append, List.countP_singleton]

variable {st : App R × ℕ}

/-- The list loses its first packets and gets the arriving ones that stay. -/
theorem Drained.shown (h : Drained app pkts st) : st.1.shown =
    app.shown.drop (app.shownLeaving pkts) ++
      (pkts.drop (app.overflow pkts - app.packets.len)).filter app.matchesFilter := by
  have hlast : lastN (max 1 app.packets.capacity) (app.packets.packets ++ pkts) =
      app.packets.packets.drop (app.overflow pkts) ++
        pkts.drop (app.overflow pkts - app.packets.len) := by
    rw [lastN, List.length_append, List.drop_append]
    rfl
  have hdrop : app.shown.drop (app.shownLeaving pkts) =
      (app.packets.packets.drop (app.overflow pkts)).filter app.matchesFilter := by
    have hsplit := congrArg (List.filter app.matchesFilter)
      (List.take_append_drop (app.overflow pkts) app.packets.packets)
    rw [List.filter_append] at hsplit
    rw [App.shown, ← hsplit, shownLeaving, List.countP_eq_length_filter, List.drop_left]
  rw [App.shown, matchesFilter_congr h.active, h.packets, hdrop]
  dsimp only
  rw [hlast, List.filter_append]

theorem Drained.visibleCount (h : Drained app pkts st) (hs : app.Scanned) :
    st.1.visibleCount = app.nextCount pkts := by
  rw [visibleCount_eq h.scanned, h.shown, nextCount, visibleCount_eq hs, List.length_append,
    List.length_drop, shownStaying, List.countP_eq_length_filter]

theorem shownStaying_le (app : App R) (pkts : List DecodedPacket) :
    app.shownStaying pkts ≤ app.shownArriving pkts :=
  (List.drop_sublist _ pkts).countP_le

theorem shownLeaving_le (pkts : List DecodedPacket) (hs : app.Scanned) :
    app.shownLeaving pkts ≤ app.visibleCount := by
  rw [visibleCount_eq hs, shown, ← List.countP_eq_length_filter]
  exact (List.take_sublist _ app.packets.packets).countP_le

theorem scrollsToBottom_iff (hs : app.Scanned) : app.ScrollsToBottom pkts ↔
    0 < app.shownArriving pkts ∧ 0 < app.nextCount pkts ∧
      app.nextCount pkts - (app.shownArriving pkts + 5) ≤ app.selected := by
  have hd := drained_foldl hs pkts
  rw [ScrollsToBottom]
  dsimp only
  rw [hd.visibleCount hs, hd.newCount, hd.selected]

theorem drainPackets_of_scrolls (h : app.ScrollsToBottom pkts) :
    app.drainPackets pkts =
      { (pkts.foldl drainPacket (app, 0)).1 with
        selected := (pkts.foldl drainPacket (app, 0)).1.visibleCount - 1 } := if_pos h

theorem drainPackets_of_not_scrolls (h : ¬app.ScrollsToBottom pkts) :
    app.drainPackets pkts = (pkts.foldl drainPacket (app, 0)).1 := if_neg h

theorem visibleCount_drainPackets (pkts : List DecodedPacket) (hs : app.Scanned) :
    (app.drainPackets pkts).visibleCount = app.nextCount pkts := by
  have hd := drained_foldl hs pkts
  rw [← hd.visibleCount hs]
  by_cases h : app.ScrollsToBottom pkts
  · rw [drainPackets_of_scrolls h]
    rfl
  · rw [drainPackets_of_not_scrolls h]

theorem selected_of_scrolls (h : app.ScrollsToBottom pkts) :
    (app.drainPackets pkts).selected = (app.drainPackets pkts).visibleCount - 1 := by
  rw [drainPackets_of_scrolls h]
  rfl

theorem evictsSelected_iff (hs : app.Scanned) (hsel : app.selected < app.visibleCount) :
    app.EvictsSelected pkts ↔ app.selected < app.shownLeaving pkts := by
  rw [EvictsSelected, selectedPlace, shownLeaving]
  rw [visibleCount] at hsel
  have hindices := hs.indices
  cases hactive : app.activeFilter with
  | none =>
    rw [hactive, Option.map_none] at hindices
    rw [hindices] at hsel ⊢
    have hlen : app.selected < app.packets.packets.length := hsel
    rw [matchesFilter_of_none hactive, List.countP_true, List.length_take]
    simp only [Option.mem_def, Option.some.injEq, exists_eq_left']
    omega
  | some filter =>
    rw [hactive, Option.map_some] at hindices
    rw [hindices] at hsel ⊢
    rw [matchesFilter_of_some hactive]
    have hplace := List.getElem?_eq_getElem hsel
    rw [← place_lt_iff hplace]
    simp only [hplace, Option.mem_def, Option.some.injEq, exists_eq_left']

end Drain

section Step

variable {app : App R} {pkts : List DecodedPacket}

theorem scanned_drainPackets (hs : app.Scanned) : (app.drainPackets pkts).Scanned := by
  have hd := (drained_foldl hs pkts).scanned
  by_cases h : app.ScrollsToBottom pkts
  · rw [drainPackets_of_scrolls h]
    exact ⟨hd.fits, hd.indices⟩
  · rw [drainPackets_of_not_scrolls h]
    exact hd

theorem packets_drainPackets (hs : app.Scanned) :
    (app.drainPackets pkts).packets.packets =
      lastN (max 1 app.packets.capacity) (app.packets.packets ++ pkts) := by
  have hd := (drained_foldl hs pkts).packets
  by_cases h : app.ScrollsToBottom pkts
  · rw [drainPackets_of_scrolls h]
    exact congrArg PacketRing.packets hd
  · rw [drainPackets_of_not_scrolls h]
    exact congrArg PacketRing.packets hd

theorem selectedPacket_drainPackets (hs : app.Scanned) (h : ¬app.ScrollsToBottom pkts) :
    (app.drainPackets pkts).selected = app.selected ∧
      (app.drainPackets pkts).selectedPacket =
        (app.shown.drop (app.shownLeaving pkts) ++
          (pkts.drop (app.overflow pkts - app.packets.len)).filter app.matchesFilter)[app.selected]? := by
  have hd := drained_foldl hs pkts
  have hselected : (app.drainPackets pkts).selected = app.selected := by
    rw [drainPackets_of_not_scrolls h, hd.selected]
  refine ⟨hselected, ?_⟩
  rw [selectedPacket, hselected, visiblePacket_eq (scanned_drainPackets hs),
    drainPackets_of_not_scrolls h, hd.shown]

theorem inRange_drainPackets (hs : app.Scanned) (hr : app.InRange) (h : app.CursorStays pkts) :
    (app.drainPackets pkts).InRange := by
  have hcount := visibleCount_drainPackets pkts hs
  have hstay := shownStaying_le app pkts
  have hleave := shownLeaving_le pkts hs
  intro hpos
  by_cases hscroll : app.ScrollsToBottom pkts
  · rw [selected_of_scrolls hscroll]
    omega
  · rw [hcount] at hpos ⊢
    rw [(selectedPacket_drainPackets hs hscroll).1]
    rw [scrollsToBottom_iff hs] at hscroll
    rw [InRange] at hr
    rw [CursorStays] at h
    rw [nextCount] at hpos h hscroll ⊢
    omega

theorem keepsCursor_of_stays (hs : app.Scanned) (h : app.CursorStays pkts) :
    app.KeepsCursor pkts := by
  intro p hp hkept hscroll
  have hplace : app.shown[app.selected]? = some p := by
    rw [← visiblePacket_eq hs]
    exact hp
  have hsel : app.selected < app.shown.length := (List.getElem?_eq_some_iff.mp hplace).1
  rw [evictsSelected_iff hs (by rwa [visibleCount_eq hs])] at hkept
  have hnone : app.shownLeaving pkts = 0 := by
    rw [scrollsToBottom_iff hs] at hscroll
    rw [CursorStays] at h
    omega
  refine ⟨p, ?_, rfl⟩
  rw [(selectedPacket_drainPackets hs hscroll).2, hnone, List.drop_zero,
    List.getElem?_append_left hsel, hplace]

/-- With distinct packet numbers, a cursor that keeps its packet and its range stays. -/
theorem stays_of_keepsCursor (hs : app.Scanned) (hr : app.InRange)
    (hnumbers : ((app.packets.packets ++ pkts).map DecodedPacket.number).Nodup)
    (hrange : (app.drainPackets pkts).InRange) (hkeeps : app.KeepsCursor pkts) :
    app.CursorStays pkts := by
  by_contra h
  rw [CursorStays, ← scrollsToBottom_iff hs, not_or, not_or] at h
  obtain ⟨hscroll, hsome, hgone⟩ := h
  have hleave := shownLeaving_le pkts hs
  obtain ⟨hselected, hpacket⟩ := selectedPacket_drainPackets hs hscroll
  have hsel : app.selected < app.visibleCount := hr (by omega)
  by_cases hkept : app.selected < app.shownLeaving pkts
  · -- Nothing new is shown, and the list has become too short.
    have hstay := shownStaying_le app pkts
    rw [InRange, visibleCount_drainPackets _ hs, hselected, nextCount] at hrange
    omega
  · have hlen : app.selected < app.shown.length := by rwa [← visibleCount_eq hs]
    have hplace : app.selectedPacket = some app.shown[app.selected] := by
      rw [selectedPacket, visiblePacket_eq hs]
      exact List.getElem?_eq_getElem hlen
    obtain ⟨q, hq, hnumber⟩ := hkeeps _ hplace ((evictsSelected_iff hs hsel).not.mpr hkept) hscroll
    -- The same number stands at two places of the old list with the new packets behind it.
    have hdistinct : ((app.shown ++ (pkts.drop (app.overflow pkts - app.packets.len)).filter
        app.matchesFilter).map DecodedPacket.number).Nodup :=
      hnumbers.sublist ((List.filter_sublist.append
        (List.filter_sublist.trans (List.drop_sublist _ pkts))).map _)
    rw [hpacket, ← List.drop_append_of_le_length (by rwa [← visibleCount_eq hs]),
      List.getElem?_drop] at hq
    have hsame : app.selected = app.shownLeaving pkts + app.selected := by
      refine (List.getElem?_inj ?_ hdistinct).mp ?_
      · rw [List.length_map, List.length_append]
        omega
      · rw [List.getElem?_map, List.getElem?_map, hq, List.getElem?_append_left hlen,
          List.getElem?_eq_getElem hlen, Option.map_some, Option.map_some, hnumber]
    omega

end Step

end App

/-- What happens in the loop of the capture view: a key is pressed, or packets arrive. -/
inductive UiEvent where
  | key (k : KeyEvent)
  | drain (pkts : List DecodedPacket)

/-- The packets that arrive with an event. -/
def UiEvent.arriving : UiEvent → List DecodedPacket
  | key _ => []
  | drain pkts => pkts

namespace App

section Events

variable {R : Type} [Nom] [RegexEngine R]

def step (app : App R) : UiEvent → Except Stop (App R)
  | .key k => app.handleKeyEvent k
  | .drain pkts => .ok (app.drainPackets pkts)

/-- In every state of a run a packet is selected whenever the list has one, and every drain keeps
the selected packet unless it leaves or the scroll rule moves the selection. -/
structure CursorKept (app : App R) (events : List UiEvent) : Prop where
  inRange : ∀ n ≤ events.length, ∀ app', stateAt step app events n = .ok app' → app'.InRange
  keeps : ∀ n app' pkts, events[n]? = some (.drain pkts) → stateAt step app events n = .ok app' →
    app'.KeepsCursor pkts

/-- At every drain of a run the list does not move away under the cursor. -/
def SteadyDrains (app : App R) (events : List UiEvent) : Prop :=
  ∀ n app' pkts, events[n]? = some (.drain pkts) → stateAt step app events n = .ok app' →
    app'.CursorStays pkts

section Run

variable {app app' : App R} {events : List UiEvent}

omit [RegexEngine R] in
theorem submit_of_enter (h : app.mode = .filterInput) : app.enter = app.submit app.filterInput := by
  rw [submit, ← h]

omit [RegexEngine R] in
theorem submit_cases (app : App R) (input : String) :
    SameList app (app.submit input) ∨
      (app.submit input).packets = app.packets ∧
        (app.submit input).filteredIndices = (app.submit input).activeFilter.map
          (fun filter => positions (evalFilter · filter) (app.submit input).packets.packets) ∧
        (app.submit input).selected = 0 := by
  simp only [submit, enter]
  split
  · exact Or.inr ⟨rfl, rfl, rfl⟩
  · split
    · exact Or.inl ⟨rfl, rfl, rfl, id⟩
    · split
      · rename_i filter _
        have hscan := rebuild_eq
          { app with activeFilter := some filter, filterInput := input, mode := .filterInput }
        exact Or.inr ⟨rfl, hscan, rfl⟩
      · exact Or.inl ⟨rfl, rfl, rfl, id⟩

theorem packets_key {k : KeyEvent} (h : app.step (.key k) = .ok app') :
    app'.packets = app.packets := by
  rcases handleKeyEvent_cases h with hsame | ⟨hmode, henter⟩
  · exact hsame.packets
  · rw [henter, submit_of_enter hmode]
    rcases submit_cases app app.filterInput with hsame | ⟨hpackets, -, -⟩
    · exact hsame.packets
    · exact hpackets

theorem scanned_step {ev : UiEvent} (hs : app.Scanned) (h : app.step ev = .ok app') :
    app'.Scanned := by
  cases ev with
  | key k =>
    rcases handleKeyEvent_cases h with hsame | ⟨hmode, henter⟩
    · exact hsame.scanned hs
    · rw [henter, submit_of_enter hmode]
      rcases submit_cases app app.filterInput with hsame | ⟨hpackets, hindices, -⟩
      · exact hsame.scanned hs
      · exact ⟨hpackets ▸ hs.fits, hindices⟩
  | drain pkts =>
    cases h
    exact scanned_drainPackets hs

theorem inRange_key {k : KeyEvent} (hr : app.InRange) (h : app.step (.key k) = .ok app') :
    app'.InRange := by
  rcases handleKeyEvent_cases h with hsame | ⟨hmode, henter⟩
  · exact hsame.inRange hr
  · rw [henter, submit_of_enter hmode]
    rcases submit_cases app app.filterInput with hsame | ⟨-, -, htop⟩
    · exact hsame.inRange hr
    · intro hpos
      rwa [htop]

theorem suffix_step {ev : UiEvent} {arrived : List DecodedPacket} (hs : app.Scanned)
    (hring : app.packets.packets <:+ arrived) (h : app.step ev = .ok app') :
    app'.packets.packets <:+ arrived ++ ev.arriving := by
  cases ev with
  | key k =>
    rw [packets_key h, UiEvent.arriving, List.append_nil]
    exact hring
  | drain pkts =>
    cases h
    obtain ⟨front, rfl⟩ := hring
    rw [packets_drainPackets hs, UiEvent.arriving, List.append_assoc]
    exact (List.drop_suffix _ _).trans (List.suffix_append _ _)

variable (size : ℕ) (saved : String → Option String) (writer : Option SaveWriter)

theorem scanned_run {n : ℕ} (hn : n ≤ events.length)
    (h : stateAt step (.start size saved writer) events n = .ok app') :
    app'.Scanned ∧ app'.packets.packets <:+ (events.take n).flatMap UiEvent.arriving := by
  refine stateAt_induction (P := fun n app => app.Scanned ∧
    app.packets.packets <:+ (events.take n).flatMap UiEvent.arriving) ?_ ?_ hn h
  · exact ⟨⟨Nat.zero_le _, rfl⟩, List.nil_suffix⟩
  · rintro n ev app app' hev - ⟨hs, hring⟩ hstep
    refine ⟨scanned_step hs hstep, ?_⟩
    rw [List.take_add_one, hev, Option.toList_some, List.flatMap_append, List.flatMap_singleton]
    exact suffix_step hs hring hstep

theorem inRange_run
    (hsteady : SteadyDrains (.start size saved writer : App R) events) {n : ℕ}
    (hn : n ≤ events.length)
    (h : stateAt step (.start size saved writer) events n = .ok app') : app'.InRange := by
  refine stateAt_induction (P := fun _ app => app.InRange) ?_ ?_ hn h
  · intro hpos
    exact absurd hpos (Nat.lt_irrefl 0)
  · intro n ev app app' hev hstate hr hstep
    cases ev with
    | key k => exact inRange_key hr hstep
    | drain pkts =>
      have hle : n ≤ events.length := Nat.le_of_lt (List.getElem?_eq_some_iff.mp hev).1
      obtain ⟨hs, -⟩ := scanned_run size saved writer hle hstate
      cases hstep
      exact inRange_drainPackets hs hr (hsteady n app pkts hev hstate)

end Run

/-- In every run with steady drains the cursor stays in the list and on its packet, and where the
packets have distinct numbers it does so in no other run. -/
theorem cursorKept_run (size : ℕ) (saved : String → Option String) (writer : Option SaveWriter)
    (events : List UiEvent) :
    let start : App R := .start size saved writer
    (SteadyDrains start events → CursorKept start events) ∧
      (((events.flatMap UiEvent.arriving).map DecodedPacket.number).Nodup →
        CursorKept start events → SteadyDrains start events) := by
  intro start
  constructor
  · intro hsteady
    constructor
    · exact fun n hn app' h => inRange_run size saved writer hsteady hn h
    · intro n app' pkts hev h
      have hle : n ≤ events.length := Nat.le_of_lt (List.getElem?_eq_some_iff.mp hev).1
      obtain ⟨hs, -⟩ := scanned_run size saved writer hle h
      exact keepsCursor_of_stays hs (hsteady n app' pkts hev h)
  · intro hnumbers hkept n app' pkts hev h
    have hlt : n < events.length := (List.getElem?_eq_some_iff.mp hev).1
    obtain ⟨hs, hring⟩ := scanned_run size saved writer hlt.le h
    have hnext : stateAt step start events (n + 1) = .ok (app'.drainPackets pkts) := by
      rw [stateAt_succ hev, h]
      rfl
    -- The ring and the packets of the drain are among all that arrive.
    have hsub : (app'.packets.packets ++ pkts).Sublist (events.flatMap UiEvent.arriving) := by
      have htake : (events.take (n + 1)).flatMap UiEvent.arriving =
          (events.take n).flatMap UiEvent.arriving ++ pkts := by
        rw [List.take_add_one, hev, Option.toList_some, List.flatMap_append,
          List.flatMap_singleton]
        rfl
      have hfront := hring.sublist.append (List.Sublist.refl pkts)
      rw [← htake] at hfront
      exact hfront.trans ((List.take_sublist (n + 1) events).flatMap _)
    exact stays_of_keepsCursor hs (hkept.inRange n hlt.le app' h)
      (hnumbers.sublist (hsub.map _)) (hkept.inRange (n + 1) hlt _ hnext) (hkept.keeps n app' pkts hev h)

end Events

section Samples

/-- Expressions without special characters, which stand for themselves. -/
@[reducible] def plainRegex : RegexEngine String where
  new := .ok
  isMatch re text := containsText re.toList text.toList

def numbered (n : ℕ) : DecodedPacket := { packetOf (questionLayer "a") with number := n }

def pressed (code : KeyCode) : UiEvent := .key ⟨code, false⟩

/-- The states of a run of a small ring. -/
def smallRun (size : ℕ) (events : List UiEvent) (n : ℕ) : Except Stop (App String) :=
  @stateAt _ _ _ (@step String Nom.documented plainRegex)
    (.start size (fun _ => none) none) events n

/-- The last packet of a full list is shown, and one more arrives. -/
def followEvents : List UiEvent := [.drain [numbered 1, numbered 2], .drain [numbered 3]]

theorem cursorKept_run_follow :
    @CursorKept String Nom.documented plainRegex (.start 2 (fun _ => none) none) followEvents := by
  refine (@cursorKept_run String Nom.documented plainRegex 2 (fun _ => none) none followEvents).1 ?_
  intro n app' pkts hev h
  match n with
  | 0 =>
    cases hev
    cases h
    decide
  | 1 =>
    cases hev
    cases h
    decide
  | n + 2 => cases hev

/-- The user has scrolled up in a full ring, and one packet arrives. -/
def driftEvents : List UiEvent :=
  [.drain ((List.range 8).map numbered), pressed (.char 'g'), pressed (.char 'j'),
    .drain [numbered 8]]

/-- The list shows two packets, and one arrives that the filter does not show. -/
def emptyEvents : List UiEvent :=
  [pressed (.char '/'), pressed (.char 'd'), pressed (.char 'n'), pressed (.char 's'),
    pressed .enter, .drain [numbered 1, numbered 2], .drain [packetOf (ipv6Layer 0 0)]]

/-- The cursor drifts to the next packet, and it is left behind the end of the list. -/
theorem cursor_drifts :
    ((smallRun 8 driftEvents 3).toOption.map fun app =>
        (app.selected, app.selectedPacket.map DecodedPacket.number,
          app.packets.packets.map DecodedPacket.number)) =
      some (1, some 1, [0, 1, 2, 3, 4, 5, 6, 7]) ∧
    ((smallRun 8 driftEvents 4).toOption.map fun app =>
        (app.selected, app.selectedPacket.map DecodedPacket.number,
          app.packets.packets.map DecodedPacket.number)) =
      some (1, some 2, [1, 2, 3, 4, 5, 6, 7, 8]) ∧
    ((smallRun 2 emptyEvents 7).toOption.map fun app =>
        (app.selected, app.visibleCount)) = some (1, 1) := by
  decide +kernel

end Samples

end App

end Pktscope

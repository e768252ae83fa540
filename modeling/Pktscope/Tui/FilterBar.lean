import Pktscope.Filter.FieldFilters
import Pktscope.Library.Window
import Pktscope.Tui.App

/-! # The filter bar

Packets arrive in a ring of bounded size, and the places of those that the
active filter shows are kept up to date: shifted when a packet leaves the ring
and rebuilt when a filter is submitted. In every run they are the places that
a scan of the ring finds.
-/

namespace Pktscope

open Library

namespace App

variable {R : Type} (app : App R)

/-- The counters and the saved file. -/
def count (pkt : DecodedPacket) : App R :=
  { app with
    totalReceived := app.totalReceived + 1
    tickPkts := app.tickPkts + 1
    tickBytes := app.tickBytes + pkt.wireLen.toNat
    protoCounts := fun p => app.protoCounts p + if p = pkt.summary.protocol then 1 else 0
    pcapWriter := app.pcapWriter.map (·.writePacket pkt) }

def matchesFilter (pkt : DecodedPacket) : Bool :=
  match app.activeFilter with
  | some filter => evalFilter pkt filter
  | none => true

/-- One round of the loop of `drain_packets`, with the number of new matches. -/
def drainPacket (st : App R × ℕ) (pkt : DecodedPacket) : App R × ℕ :=
  let app := st.1.count pkt
  let ringIdx := app.packets.len
  let (packets, evicted) := app.packets.push pkt
  let indices := if evicted.isSome then app.filteredIndices.map shifted else app.filteredIndices
  if app.matchesFilter pkt then
    let actualIdx := if evicted.isSome then min ringIdx (packets.len - 1) else ringIdx
    ({ app with packets := packets, filteredIndices := indices.map (· ++ [actualIdx]) }, st.2 + 1)
  else ({ app with packets := packets, filteredIndices := indices }, st.2)

/-- The selection follows the last packet when it is near the end. -/
def autoScroll (newCount : ℕ) : App R :=
  let count := app.visibleCount
  if 0 < newCount ∧ 0 < count ∧ count - (newCount + 5) ≤ app.selected then
    { app with selected := count - 1 }
  else app

def drainPackets (pkts : List DecodedPacket) : App R :=
  let (app, newCount) := pkts.foldl drainPacket (app, 0)
  app.autoScroll newCount

def rebuildFilterIndices : App R :=
  { app with
    filteredIndices := app.activeFilter.map fun filter =>
      (List.range app.packets.len).filter fun i =>
        match app.packets.get i with
        | some pkt => evalFilter pkt filter
        | none => false }

/-- The text to parse: `:name` recalls a saved filter. -/
def expression : Option String :=
  match app.filterInput.toList with
  | ':' :: name => app.savedFilters (String.ofList name)
  | _ => some app.filterInput

/-- The enter key in the filter bar. -/
def enter [Nom] : App R :=
  if app.filterInput = "" then
    { app with
      activeFilter := none
      filteredIndices := none
      selected := 0
      statusMessage := some .filterCleared
      mode := .normal }
  else match app.expression with
    | none =>
      { app with
        statusMessage := some (.noSavedFilter (String.ofList (app.filterInput.toList.drop 1)))
        mode := .normal }
    | some expr =>
      match parseFilter expr with
      | .ok filter =>
        { rebuildFilterIndices { app with activeFilter := some filter } with
          selected := 0
          statusMessage := some (.filterApplied expr)
          mode := .normal }
      | .error e => { app with statusMessage := some (.filterError e), mode := .normal }

end App

/-- What happens to the capture view: packets arrive, or a text is submitted. -/
inductive UiStep where
  | drain (pkts : List DecodedPacket)
  | submit (input : String)

/-- The packets that arrive in a step. -/
def UiStep.arriving : UiStep → List DecodedPacket
  | drain pkts => pkts
  | submit _ => []

namespace App

section Steps

variable {R : Type} [Nom]

def submit (app : App R) (input : String) : App R :=
  enter { app with filterInput := input, mode := .filterInput }

def uiStep (app : App R) : UiStep → App R
  | .drain pkts => app.drainPackets pkts
  | .submit input => app.submit input

/-- A text asks for a filter, itself or by its saved name; without a text there is to be none. -/
def Accepts (app : App R) (input : String) : Option FilterExpr → Prop
  | none => input = ""
  | some filter =>
    input ≠ "" ∧ ∃ expr, expression { app with filterInput := input } = some expr ∧
      parseFilter expr = .ok filter

/-- An unknown name is submitted, or a text that is no filter. -/
def Rejects (app : App R) (input : String) : Prop :=
  input ≠ "" ∧ ∀ expr filter, expression { app with filterInput := input } = some expr →
    parseFilter expr ≠ .ok filter

end Steps

/-- The ring has the last packets that arrived, and the places are those of a scan. -/
structure Consistent {R : Type} (size : ℕ) (arrived : List DecodedPacket) (app : App R) : Prop where
  capacity : app.packets.capacity = size
  ring : app.packets.packets = lastN size arrived
  indices : app.filteredIndices =
    app.activeFilter.map fun filter => positions (evalFilter · filter) app.packets.packets

variable {R : Type} {size : ℕ} {arrived : List DecodedPacket} {app : App R}

theorem consistent_start (saved : String → Option String) (writer : Option SaveWriter) :
    Consistent size [] (.start size saved writer : App R) where
  capacity := rfl
  ring := by simp [start, new, PacketRing.new, lastN]
  indices := rfl

theorem drainPacket_packets (st : App R × ℕ) (pkt : DecodedPacket) :
    (drainPacket st pkt).1.packets = (st.1.packets.push pkt).1 ∧
      (drainPacket st pkt).1.activeFilter = st.1.activeFilter := by
  simp only [drainPacket]
  cases (st.1.count pkt).matchesFilter pkt <;> exact ⟨rfl, rfl⟩

theorem drainPacket_unfiltered {st : App R × ℕ} (h : st.1.filteredIndices = none)
    (pkt : DecodedPacket) : (drainPacket st pkt).1.filteredIndices = none := by
  have hcount : (st.1.count pkt).filteredIndices = none := h
  simp only [drainPacket, hcount]
  cases (st.1.count pkt).matchesFilter pkt <;> simp

theorem drainPacket_filtered {st : App R × ℕ} {filter : FilterExpr} {places : List ℕ}
    (hactive : st.1.activeFilter = some filter) (h : st.1.filteredIndices = some places)
    (pkt : DecodedPacket) {ring : PacketRing} {evicted : Option DecodedPacket}
    (hpush : st.1.packets.push pkt = (ring, evicted)) :
    (drainPacket st pkt).1.filteredIndices =
      some ((if evicted.isSome then shifted places else places) ++
        if evalFilter pkt filter then
          [if evicted.isSome then min st.1.packets.len (ring.len - 1) else st.1.packets.len]
        else []) := by
  simp only [drainPacket, count, hpush, h, matchesFilter, hactive]
  by_cases hmatch : evalFilter pkt filter
  · simp only [if_pos hmatch]
    cases evicted <;> rfl
  · simp only [if_neg hmatch]
    cases evicted <;> simp

/-- The packets fit into the ring, and the places are those of a scan. -/
structure Scanned (app : App R) : Prop where
  fits : app.packets.len ≤ max 1 app.packets.capacity
  indices : app.filteredIndices =
    app.activeFilter.map fun filter => positions (evalFilter · filter) app.packets.packets

theorem Consistent.scanned (hsize : 1 ≤ size) (h : Consistent size arrived app) : Scanned app := by
  refine ⟨?_, h.indices⟩
  have hlen : app.packets.len = (lastN size arrived).length := by rw [PacketRing.len, h.ring]
  rw [hlen, length_lastN, h.capacity]
  omega

theorem scanned_drainPacket_grown {st : App R × ℕ} (h : Scanned st.1) {pkt : DecodedPacket}
    (hpush : st.1.packets.push pkt =
      ({ st.1.packets with packets := st.1.packets.packets ++ [pkt] }, none)) :
    (drainPacket st pkt).1.filteredIndices = st.1.activeFilter.map fun filter =>
      positions (evalFilter · filter) (st.1.packets.packets ++ [pkt]) := by
  cases hactive : st.1.activeFilter with
  | none => exact drainPacket_unfiltered (by rw [h.indices, hactive]; rfl) pkt
  | some filter =>
    have hplaces := h.indices
    rw [hactive, Option.map_some] at hplaces
    rw [drainPacket_filtered hactive hplaces pkt hpush, Option.map_some, positions_concat]
    simp [PacketRing.len]

theorem scanned_drainPacket_shifted {st : App R × ℕ} (h : Scanned st.1) {pkt a : DecodedPacket}
    {rest : List DecodedPacket} (hr : st.1.packets.packets = a :: rest)
    (hfull : st.1.packets.capacity ≤ st.1.packets.len) :
    (drainPacket st pkt).1.filteredIndices = st.1.activeFilter.map fun filter =>
      positions (evalFilter · filter) (rest ++ [pkt]) := by
  have hpush := PacketRing.push_of_full hr hfull pkt
  cases hactive : st.1.activeFilter with
  | none => exact drainPacket_unfiltered (by rw [h.indices, hactive]; rfl) pkt
  | some filter =>
    have hplaces : st.1.filteredIndices = some (positions (evalFilter · filter) (a :: rest)) := by
      rw [h.indices, hactive, hr]
      rfl
    rw [drainPacket_filtered hactive hplaces pkt hpush, Option.map_some, positions_concat]
    -- the new place is clamped to the end
    simp [shifted_positions, PacketRing.len, hr]

/-- An arriving packet is appended to the ring, and its place if the filter shows it. -/
theorem scanned_drainPacket {st : App R × ℕ} (h : Scanned st.1) (pkt : DecodedPacket) :
    Scanned (drainPacket st pkt).1 ∧ (drainPacket st pkt).1.packets =
      { st.1.packets with
        packets := lastN (max 1 st.1.packets.capacity) (st.1.packets.packets ++ [pkt]) } := by
  obtain ⟨hpackets, hkept⟩ := drainPacket_packets st pkt
  have hfits : st.1.packets.packets.length ≤ max 1 st.1.packets.capacity := h.fits
  have hring : (drainPacket st pkt).1.packets = { st.1.packets with
        packets := lastN (max 1 st.1.packets.capacity) (st.1.packets.packets ++ [pkt]) } ∧
      (drainPacket st pkt).1.filteredIndices = st.1.activeFilter.map fun filter =>
        positions (evalFilter · filter)
          (lastN (max 1 st.1.packets.capacity) (st.1.packets.packets ++ [pkt])) := by
    cases hr : st.1.packets.packets with
    | nil =>
      have hpush := PacketRing.push_of_nil hr pkt
      have hindices := scanned_drainPacket_grown h hpush
      have hall : lastN (max 1 st.1.packets.capacity) ([] ++ [pkt]) = [] ++ [pkt] :=
        lastN_of_le (by simp)
      rw [hpush, hr] at hpackets
      rw [hr] at hindices
      rw [hall, hpackets]
      exact ⟨rfl, hindices⟩
    | cons a rest =>
      rw [hr, List.length_cons] at hfits
      by_cases hfull : st.1.packets.capacity ≤ st.1.packets.len
      · have hpush := PacketRing.push_of_full hr hfull pkt
        have hlen : st.1.packets.len = rest.length + 1 := by rw [PacketRing.len, hr, List.length_cons]
        have hone : lastN (max 1 st.1.packets.capacity) (a :: rest ++ [pkt]) = rest ++ [pkt] := by
          have hdrop : (a :: rest ++ [pkt]).length - max 1 st.1.packets.capacity = 1 := by
            rw [List.length_append, List.length_cons, List.length_singleton]
            omega
          rw [lastN, hdrop]
          rfl
        rw [hpush] at hpackets
        rw [hone, hpackets]
        exact ⟨rfl, scanned_drainPacket_shifted h hr hfull⟩
      · have hpush := PacketRing.push_of_lt (Nat.lt_of_not_le hfull) pkt
        have hindices := scanned_drainPacket_grown h hpush
        have hlen : st.1.packets.len = rest.length + 1 := by rw [PacketRing.len, hr, List.length_cons]
        have hall : lastN (max 1 st.1.packets.capacity) (a :: rest ++ [pkt]) = a :: rest ++ [pkt] := by
          apply lastN_of_le
          rw [List.length_append, List.length_cons, List.length_singleton]
          omega
        rw [hpush, hr] at hpackets
        rw [hr] at hindices
        rw [hall, hpackets]
        exact ⟨rfl, hindices⟩
  refine ⟨⟨?_, ?_⟩, hring.1⟩
  · rw [hring.1, PacketRing.len, length_lastN]
    exact Nat.min_le_right _ _
  · rw [hring.2, hring.1, hkept]

theorem consistent_drainPacket (hsize : 1 ≤ size) {st : App R × ℕ}
    (h : Consistent size arrived st.1) (pkt : DecodedPacket) :
    Consistent size (arrived ++ [pkt]) (drainPacket st pkt).1 := by
  obtain ⟨hscanned, hring⟩ := scanned_drainPacket (h.scanned hsize) pkt
  have hmax : max 1 size = size := Nat.max_eq_right hsize
  constructor
  · rw [hring]
    exact h.capacity
  · rw [hring, h.capacity, h.ring, hmax]
    exact lastN_append size arrived [pkt]
  · exact hscanned.indices

theorem consistent_drain (hsize : 1 ≤ size) (pkts : List DecodedPacket) :
    ∀ {arrived : List DecodedPacket} {st : App R × ℕ}, Consistent size arrived st.1 →
      Consistent size (arrived ++ pkts) (pkts.foldl drainPacket st).1 := by
  induction pkts with
  | nil => intro arrived st h; simpa using h
  | cons pkt pkts ih =>
    intro arrived st h
    have hnext := ih (consistent_drainPacket hsize h pkt)
    simpa using hnext

theorem Consistent.congr {app' : App R} (h : Consistent size arrived app)
    (hpackets : app'.packets = app.packets) (hindices : app'.filteredIndices = app.filteredIndices)
    (hactive : app'.activeFilter = app.activeFilter) : Consistent size arrived app' := by
  constructor
  · rw [hpackets, h.capacity]
  · rw [hpackets, h.ring]
  · rw [hindices, hactive, hpackets, h.indices]

theorem consistent_autoScroll (h : Consistent size arrived app) (newCount : ℕ) :
    Consistent size arrived (app.autoScroll newCount) := by
  simp only [autoScroll]
  split
  · exact h.congr rfl rfl rfl
  · exact h

theorem rebuild_eq (app : App R) : app.rebuildFilterIndices.filteredIndices =
    app.activeFilter.map fun filter => positions (evalFilter · filter) app.packets.packets := by
  simp only [rebuildFilterIndices, positions, PacketRing.len, PacketRing.get]
  congr 1
  funext filter
  congr 1
  funext i
  cases app.packets.packets[i]? <;> rfl

theorem consistent_rebuild (hcap : app.packets.capacity = size)
    (hring : app.packets.packets = lastN size arrived) :
    Consistent size arrived app.rebuildFilterIndices := ⟨hcap, hring, rebuild_eq app⟩

/-- What the list shows are the packets of the ring that satisfy the active filter. -/
theorem Consistent.shown {filter : FilterExpr} (h : Consistent size arrived app)
    (hactive : app.activeFilter = some filter) :
    (List.range app.visibleCount).filterMap app.visiblePacket =
      app.packets.packets.filter (evalFilter · filter) := by
  have hplaces := h.indices
  rw [hactive, Option.map_some] at hplaces
  have hvisible : app.visiblePacket = fun i =>
      (positions (evalFilter · filter) app.packets.packets)[i]?.bind (app.packets.packets[·]?) := by
    funext i
    simp only [visiblePacket, hplaces]
    rfl
  simp only [visibleCount, hplaces]
  rw [hvisible, filterMap_range, filterMap_positions]

variable [Nom]

theorem consistent_submit (h : Consistent size arrived app) (input : String) :
    Consistent size arrived (app.submit input) := by
  simp only [submit, enter]
  split
  · exact ⟨h.capacity, h.ring, rfl⟩
  · split
    · exact h.congr rfl rfl rfl
    · split
      · rename_i filter _
        have hrebuilt : Consistent size arrived (rebuildFilterIndices
            { app with activeFilter := some filter, filterInput := input, mode := .filterInput }) :=
          consistent_rebuild h.capacity h.ring
        exact hrebuilt.congr rfl rfl rfl
      · exact h.congr rfl rfl rfl

theorem submit_of_accepts {input : String} {filter : Option FilterExpr}
    (h : app.Accepts input filter) :
    (app.submit input).activeFilter = filter ∧ (app.submit input).selected = 0 := by
  cases filter with
  | none =>
    obtain rfl : input = "" := h
    exact ⟨rfl, rfl⟩
  | some filter =>
    obtain ⟨hne, expr, hexpr, hparse⟩ := h
    have hexpr : expression { app with filterInput := input, mode := .filterInput } = some expr := hexpr
    simp only [submit, enter, if_neg hne, hexpr, hparse]
    exact ⟨rfl, trivial⟩

theorem submit_of_rejects {input : String} (h : app.Rejects input) :
    (app.submit input).activeFilter = app.activeFilter ∧
      (app.submit input).filteredIndices = app.filteredIndices ∧
      (app.submit input).selected = app.selected := by
  obtain ⟨hne, hreject⟩ := h
  simp only [submit, enter, if_neg hne]
  split
  · exact ⟨rfl, rfl, rfl⟩
  · rename_i expr hexpr
    split
    · rename_i filter hfilter
      exact absurd hfilter (hreject expr filter hexpr)
    · exact ⟨rfl, rfl, rfl⟩

theorem consistent_step (hsize : 1 ≤ size) (h : Consistent size arrived app) (s : UiStep) :
    Consistent size (arrived ++ s.arriving) (app.uiStep s) := by
  cases s with
  | drain pkts =>
    have hdrain : Consistent size (arrived ++ pkts) (pkts.foldl drainPacket (app, 0)).1 :=
      consistent_drain hsize pkts h
    exact consistent_autoScroll hdrain _
  | submit input =>
    rw [UiStep.arriving, List.append_nil]
    exact consistent_submit h input

theorem consistent_run (hsize : 1 ≤ size) (steps : List UiStep) :
    ∀ {arrived : List DecodedPacket} {app : App R}, Consistent size arrived app →
      Consistent size (arrived ++ steps.flatMap UiStep.arriving) (steps.foldl uiStep app) := by
  induction steps with
  | nil => intro arrived app h; simpa using h
  | cons s steps ih =>
    intro arrived app h
    have hnext := ih (consistent_step hsize h s)
    simpa using hnext

end App

/-- In every run the ring has the last packets that arrived, and the places are those of the packets
that the active filter shows. A text that asks for a filter makes it the active one, and a rejected
text changes nothing. -/
theorem filterBar_run {R : Type} [Nom] {size : ℕ} (hsize : 1 ≤ size)
    (saved : String → Option String) (writer : Option SaveWriter) (steps : List UiStep) :
    let app : App R := steps.foldl App.uiStep (.start size saved writer)
    app.packets.packets = lastN size (steps.flatMap UiStep.arriving) ∧
      app.filteredIndices = app.activeFilter.map
        (fun filter => positions (evalFilter · filter) app.packets.packets) ∧
      (∀ input filter, app.Accepts input filter →
        (app.submit input).activeFilter = filter ∧ (app.submit input).selected = 0) ∧
      ∀ input, app.Rejects input →
        (app.submit input).activeFilter = app.activeFilter ∧
          (app.submit input).filteredIndices = app.filteredIndices ∧
          (app.submit input).selected = app.selected := by
  intro app
  have hrun := App.consistent_run hsize steps (App.consistent_start (R := R) saved writer)
  rw [List.nil_append] at hrun
  exact ⟨hrun.ring, hrun.indices, fun input filter h => App.submit_of_accepts h,
    fun input h => App.submit_of_rejects h⟩

def firstSteps : List UiStep :=
  [.submit "dns", .drain [packetOf (questionLayer "a"), packetOf (ipv6Layer 0 0)],
    .drain [packetOf (questionLayer "b")], .submit ":x", .submit "tcp and"]

/-- The state after these steps, where the filter for DNS is still active. -/
def firstApp : App Unit :=
  firstSteps.foldl (@App.uiStep Unit Nom.documented) (.start 2 (fun _ => none) none)

theorem filterBar_run_two :
    @App.Accepts Unit Nom.documented firstApp "udp" (some (.protocolPresent .udp)) ∧
      @App.Rejects Unit Nom.documented firstApp "tcp and" ∧
      firstApp.packets.packets = lastN 2 (firstSteps.flatMap UiStep.arriving) ∧
      firstApp.filteredIndices = firstApp.activeFilter.map
        (fun filter => positions (evalFilter · filter) firstApp.packets.packets) ∧
      (@App.submit Unit Nom.documented firstApp "udp").activeFilter =
        some (.protocolPresent .udp) ∧
      (@App.submit Unit Nom.documented firstApp "tcp and").activeFilter =
        some (.protocolPresent .dns) := by
  obtain ⟨hring, hindices, haccepts, hrejects⟩ :=
    @filterBar_run Unit Nom.documented 2 (by decide) (fun _ => none) none firstSteps
  have hudp : @App.Accepts Unit Nom.documented firstApp "udp" (some (.protocolPresent .udp)) :=
    ⟨by decide, "udp", rfl, by decide⟩
  have htcp : @App.Rejects Unit Nom.documented firstApp "tcp and" := by
    refine ⟨by decide, ?_⟩
    rintro expr filter ⟨⟩ hparse
    cases hparse
  have hactive : firstApp.activeFilter = some (.protocolPresent .dns) := by decide
  exact ⟨hudp, htcp, hring, hindices, (haccepts _ _ hudp).1, (hrejects _ htcp).1.trans hactive⟩

end Pktscope

import Mathlib.Algebra.BigOperators.Group.List.Basic
import Pktscope.Monitor.Lifetime

/-! # The local side of a flow

The live entry takes the local side from each packet, the history row from the
flow's key. With one local endpoint they are the same; otherwise the live entry
counts every packet as sent, by the side that sent the first one.
-/

namespace Pktscope.Worker

open Library

variable {F : Type} {addrs : Finset IpAddr} {key : FlowKey}

section Sides

/-- Exactly one endpoint of a flow is local. -/
def OneLocal (addrs : Finset IpAddr) (key : FlowKey) : Prop :=
  key.addrLow ∈ addrs ↔ key.addrHigh ∉ addrs

theorem orient_of_low (hl : key.addrLow ∈ addrs) (hh : key.addrHigh ∉ addrs) (dir : Dir) :
    orient addrs key dir =
      ⟨key.addrLow, key.portLow, key.addrHigh, key.portHigh, decide (dir = .lowToHigh)⟩ := by
  cases dir <;> simp [orient, hl, hh]

theorem orient_of_high (hl : key.addrLow ∉ addrs) (hh : key.addrHigh ∈ addrs) (dir : Dir) :
    orient addrs key dir =
      ⟨key.addrHigh, key.portHigh, key.addrLow, key.portLow, decide (dir = .highToLow)⟩ := by
  cases dir <;> simp [orient, hl, hh]

theorem orient_of_not_oneLocal (h : ¬ OneLocal addrs key) (dir : Dir) :
    orient addrs key dir = match dir with
      | .lowToHigh => ⟨key.addrLow, key.portLow, key.addrHigh, key.portHigh, true⟩
      | .highToLow => ⟨key.addrHigh, key.portHigh, key.addrLow, key.portLow, true⟩ := by
  unfold OneLocal at h
  by_cases hl : key.addrLow ∈ addrs
  · have hh : key.addrHigh ∈ addrs := by simpa [hl] using h
    cases dir <;> simp [orient, hl, hh]
  · have hh : key.addrHigh ∉ addrs := by simpa [hl] using h
    cases dir <;> simp [orient, hl, hh]

end Sides

section Counts

variable [F64 F]

/-- The bytes that one side of a flow has sent. -/
def sentBy (dir : Dir) (life : List (Turn F)) : ℕ :=
  (life.map fun t => if t.info.dir = dir then t.wire.toNat else 0).sum

theorem bytesLow_stateOf (life : List (Turn F)) :
    (stateOf life).elim 0 FlowState.bytesLowToHigh = sentBy .lowToHigh life := by
  refine sessionFold_sum (fun found t => ?_) life
  have hcore := core_observe (found.getD (.new t.time)) t.info t.wire t.time
  refine (congrArg FlowCore.bytesLowToHigh hcore).trans ?_
  unfold FlowCore.observe FlowCore.account
  cases hd : t.info.dir <;> cases found <;> rfl

theorem bytesHigh_stateOf (life : List (Turn F)) :
    (stateOf life).elim 0 FlowState.bytesHighToLow = sentBy .highToLow life := by
  refine sessionFold_sum (fun found t => ?_) life
  have hcore := core_observe (found.getD (.new t.time)) t.info t.wire t.time
  refine (congrArg FlowCore.bytesHighToLow hcore).trans ?_
  unfold FlowCore.observe FlowCore.account
  cases hd : t.info.dir <;> cases found <;> rfl

omit [F64 F] in
theorem sentBy_eq_zero {dir : Dir} {life : List (Turn F)} :
    sentBy dir life = 0 ↔ ∀ t ∈ life, t.info.dir = dir → t.wire = 0 := by
  rw [sentBy, List.sum_eq_zero_iff_forall_eq_nat, List.forall_mem_map]
  refine forall₂_congr fun t _ => ?_
  rw [ite_eq_right_iff, ← UInt32.toNat_inj]
  rfl

end Counts

section Views

/-- The numbers in which the history row and the live entry of a flow can differ. -/
structure View where
  localPort : UInt16
  remotePort : UInt16
  bytesUp : ℕ
  bytesDown : ℕ
  deriving DecidableEq

def viewOfRow (row : ConnectionRow) : View :=
  ⟨row.localPort, row.remotePort, row.bytesUp, row.bytesDown⟩

def viewOfDto (dto : ConnectionDto) : View :=
  ⟨dto.localPort, dto.remotePort, dto.bytesUp, dto.bytesDown⟩

/-- The live entry of a life counts by the sides of its packets, and names those of the first. -/
theorem view_note (life : List (Turn F)) (t : Turn F) :
    ∃ u ∈ (life ++ [t]).head?, viewOfDto (t.note (entryOf life)).2 =
      ⟨u.visit.sides.localPort, u.visit.sides.remotePort,
        ((life ++ [t]).map fun u => u.visit.upDelta).sum,
        ((life ++ [t]).map fun u => u.visit.downDelta).sum⟩ := by
  have hentry : entryOf (life ++ [t]) = some (t.note (entryOf life)) := sessionFold_concat _ _ _
  have hports : (entryOf (life ++ [t])).map (fun e => (e.2.localPort, e.2.remotePort)) =
      (life ++ [t]).head?.map fun u => (u.visit.sides.localPort, u.visit.sides.remotePort) :=
    sessionFold_head (fun found u => by cases found <;> rfl) _
  have hup : (entryOf (life ++ [t])).elim 0 (fun e => e.2.bytesUp) =
      ((life ++ [t]).map fun u => u.visit.upDelta).sum :=
    sessionFold_sum (fun found u => by cases found <;> rfl) _
  have hdown : (entryOf (life ++ [t])).elim 0 (fun e => e.2.bytesDown) =
      ((life ++ [t]).map fun u => u.visit.downDelta).sum :=
    sessionFold_sum (fun found u => by cases found <;> rfl) _
  rw [hentry] at hports hup hdown
  obtain ⟨u, hu, hview⟩ := Option.map_eq_some_iff.mp hports.symm
  obtain ⟨hlocal, hremote⟩ := Prod.mk.inj hview
  refine ⟨u, hu, ?_⟩
  rw [viewOfDto, ← hup, ← hdown, hlocal, hremote]
  rfl

/-- What the live entry shows of a life whose first packet goes one way. -/
def dtoView (addrs : Finset IpAddr) (key : FlowKey) (life : List (Turn F)) (first : Dir) : View :=
  if key.addrLow ∈ addrs ∧ key.addrHigh ∉ addrs then
    ⟨key.portLow, key.portHigh, sentBy .lowToHigh life, sentBy .highToLow life⟩
  else if key.addrLow ∉ addrs ∧ key.addrHigh ∈ addrs then
    ⟨key.portHigh, key.portLow, sentBy .highToLow life, sentBy .lowToHigh life⟩
  else match first with
    | .lowToHigh => ⟨key.portLow, key.portHigh, sentBy .lowToHigh life + sentBy .highToLow life, 0⟩
    | .highToLow => ⟨key.portHigh, key.portLow, sentBy .lowToHigh life + sentBy .highToLow life, 0⟩

/-- What the history row shows of a life. -/
def rowView (addrs : Finset IpAddr) (key : FlowKey) (life : List (Turn F)) : View :=
  if key.addrLow ∉ addrs ∧ key.addrHigh ∈ addrs then
    ⟨key.portHigh, key.portLow, sentBy .highToLow life, sentBy .lowToHigh life⟩
  else
    ⟨key.portLow, key.portHigh, sentBy .lowToHigh life, sentBy .highToLow life⟩

theorem sum_upDelta {ctx : WorkerCtx F} {life : List (Turn F)}
    (hlife : ∀ u ∈ life, Formed ctx u ∧ u.key = key) {out : Dir → Bool}
    (hout : ∀ dir, (orient ctx.localAddrs key dir).outbound = out dir) :
    (life.map fun u => u.visit.upDelta).sum =
      (life.map fun u => if out u.info.dir then u.wire.toNat else 0).sum := by
  refine congrArg List.sum (List.map_congr_left fun u hu => ?_)
  obtain ⟨hformed, rfl⟩ := hlife u hu
  rw [Visit.upDelta, hformed.sides, hout, hformed.bytes]

theorem sum_downDelta {ctx : WorkerCtx F} {life : List (Turn F)}
    (hlife : ∀ u ∈ life, Formed ctx u ∧ u.key = key) {out : Dir → Bool}
    (hout : ∀ dir, (orient ctx.localAddrs key dir).outbound = out dir) :
    (life.map fun u => u.visit.downDelta).sum =
      (life.map fun u => if out u.info.dir then 0 else u.wire.toNat).sum := by
  refine congrArg List.sum (List.map_congr_left fun u hu => ?_)
  obtain ⟨hformed, rfl⟩ := hlife u hu
  rw [Visit.downDelta, hformed.sides, hout, hformed.bytes]

/-- The other direction. -/
def Dir.back : Dir → Dir
  | .lowToHigh => .highToLow
  | .highToLow => .lowToHigh

theorem sum_sent (dir : Dir) (life : List (Turn F)) :
    (life.map fun u => if decide (u.info.dir = dir) then u.wire.toNat else 0).sum =
      sentBy dir life := by
  simp only [decide_eq_true_eq, sentBy]

theorem sum_not_sent (dir : Dir) (life : List (Turn F)) :
    (life.map fun u => if decide (u.info.dir = dir) then 0 else u.wire.toNat).sum =
      sentBy (Dir.back dir) life := by
  refine congrArg List.sum (List.map_congr_left fun u _ => ?_)
  cases dir <;> cases u.info.dir <;> rfl

theorem sum_wire (life : List (Turn F)) :
    (life.map fun u => u.wire.toNat).sum = sentBy .lowToHigh life + sentBy .highToLow life := by
  rw [sentBy, sentBy, ← List.sum_map_add]
  refine congrArg List.sum (List.map_congr_left fun u _ => ?_)
  cases u.info.dir <;> simp

theorem view_note_eq {ctx : WorkerCtx F} {life : List (Turn F)} {t : Turn F}
    (hlife : ∀ u ∈ life ++ [t], Formed ctx u ∧ u.key = key) :
    ∃ u ∈ (life ++ [t]).head?, viewOfDto (t.note (entryOf life)).2 =
      dtoView ctx.localAddrs key (life ++ [t]) u.info.dir := by
  obtain ⟨u, hu, hview⟩ := view_note life t
  refine ⟨u, hu, hview.trans ?_⟩
  obtain ⟨hformed, rfl⟩ := hlife u (List.mem_of_head? hu)
  rw [hformed.sides]
  unfold dtoView
  split_ifs with hlow hhigh
  · have hout := fun dir => congrArg Sides.outbound (orient_of_low hlow.1 hlow.2 dir)
    rw [sum_upDelta hlife hout, sum_downDelta hlife hout, orient_of_low hlow.1 hlow.2, sum_sent,
      sum_not_sent]
    rfl
  · have hout := fun dir => congrArg Sides.outbound (orient_of_high hhigh.1 hhigh.2 dir)
    rw [sum_upDelta hlife hout, sum_downDelta hlife hout, orient_of_high hhigh.1 hhigh.2, sum_sent,
      sum_not_sent]
    rfl
  · have hone : ¬ OneLocal ctx.localAddrs u.key := by
      unfold OneLocal
      tauto
    have hout : ∀ dir, (orient ctx.localAddrs u.key dir).outbound = true := fun dir => by
      rw [orient_of_not_oneLocal hone]
      cases dir <;> rfl
    rw [sum_upDelta hlife hout, sum_downDelta hlife hout, orient_of_not_oneLocal hone]
    simp only [if_true, sum_wire, List.map_const', List.sum_replicate_nat, Nat.mul_zero]
    cases u.info.dir <;> rfl

theorem localLow_iff :
    FlowTracker.localLow addrs key = true ↔ ¬ (key.addrLow ∉ addrs ∧ key.addrHigh ∈ addrs) := by
  simp [FlowTracker.localLow, or_iff_not_imp_left]

theorem view_rowAt [F64 F] {ctx : WorkerCtx F} {w : Worker F} {t : Turn F} {life : List (Turn F)}
    (hlife : w.tracker.flows.peek t.key = stateOf life) :
    viewOfRow (rowAt ctx w t) = rowView ctx.localAddrs t.key (life ++ [t]) := by
  have hstate : stateOf (life ++ [t]) = some (t.observe (stateOf life)) := sessionFold_concat _ _ _
  have hlow := bytesLow_stateOf (life ++ [t])
  have hhigh := bytesHigh_stateOf (life ++ [t])
  rw [hstate, Option.elim_some] at hlow hhigh
  have haddrs : (FlowTracker.new.setLocalAddrs ctx.localAddrs : FlowTracker F).localAddrs =
      ctx.localAddrs := rfl
  rw [rowAt, hlife, Turn.snap, FlowTracker.makeSnapshot, rowView, ← hlow, ← hhigh, haddrs]
  by_cases h : t.key.addrLow ∉ ctx.localAddrs ∧ t.key.addrHigh ∈ ctx.localAddrs
  · rw [if_pos h, if_neg fun hl => localLow_iff.mp hl h]
    rfl
  · rw [if_neg h, if_pos (localLow_iff.mpr h)]
    rfl

end Views

section Agreement

variable [F64 F]

/-- The packets of a life go, as far as they have bytes, from the low endpoint to the high one. -/
def LowSends (key : FlowKey) (life : List (Turn F)) : Prop :=
  (∀ t ∈ life.head?, t.info.dir = .lowToHigh ∨ key.portLow = key.portHigh) ∧
    ∀ t ∈ life, t.info.dir = .highToLow → t.wire = 0

omit [F64 F] in
theorem dtoView_eq_rowView {life : List (Turn F)} {u : Turn F} (hu : u ∈ life.head?) :
    dtoView addrs key life u.info.dir = rowView addrs key life ↔
      OneLocal addrs key ∨ LowSends key life := by
  by_cases hone : OneLocal addrs key
  · refine iff_of_true ?_ (Or.inl hone)
    unfold OneLocal at hone
    by_cases hl : key.addrLow ∈ addrs
    · simp [dtoView, rowView, hl, hone.mp hl]
    · have hh : key.addrHigh ∈ addrs := by simpa [hl] using hone
      simp [dtoView, rowView, hl, hh]
  · have hrow : rowView addrs key life =
        ⟨key.portLow, key.portHigh, sentBy .lowToHigh life, sentBy .highToLow life⟩ := by
      refine if_neg fun h => hone ?_
      exact iff_of_false h.1 (not_not_intro h.2)
    have hdto : dtoView addrs key life u.info.dir = match u.info.dir with
        | .lowToHigh =>
          ⟨key.portLow, key.portHigh, sentBy .lowToHigh life + sentBy .highToLow life, 0⟩
        | .highToLow =>
          ⟨key.portHigh, key.portLow, sentBy .lowToHigh life + sentBy .highToLow life, 0⟩ := by
      unfold dtoView
      rw [if_neg fun h => hone (iff_of_true h.1 h.2),
        if_neg fun h => hone (iff_of_false h.1 (not_not_intro h.2))]
    have hfirst : (∀ t ∈ life.head?, t.info.dir = .lowToHigh ∨ key.portLow = key.portHigh) ↔
        u.info.dir = .lowToHigh ∨ key.portLow = key.portHigh := by
      rw [Option.mem_def.mp hu]
      simp
    rw [hrow, hdto, LowSends, hfirst, ← sentBy_eq_zero]
    cases u.info.dir with
    | lowToHigh =>
      simp only [View.mk.injEq, true_and, hone, false_or, true_or]
      omega
    | highToLow =>
      simp only [View.mk.injEq, hone, false_or, reduceCtorEq]
      constructor
      · exact fun ⟨hp, _, _, hz⟩ => ⟨hp.symm, hz.symm⟩
      · exact fun ⟨hp, hz⟩ => ⟨hp.symm, hp, by omega, hz.symm⟩

/-- The history row of a flow and its live entry agree exactly when one endpoint is local, or else
all bytes go from the low endpoint to the high one. -/
theorem row_agrees_with_live_iff {ctx : WorkerCtx F} {store : Store F} {inputs : List Recv}
    {pkt : DecodedPacket} {env : Env} {t : Turn F}
    (ht : turnOf ctx (steps ctx (start ctx store) inputs) (.packet pkt env) = some t)
    (hc : t.closed = true) (hf : t.insertFails = false)
    (hkept : trackedLife t.key (history ctx (start ctx store) inputs) =
      lifetime t.key (history ctx (start ctx store) inputs)) :
    let w := steps ctx (start ctx store) inputs
    let life := lifetime t.key (history ctx (start ctx store) inputs) ++ [t]
    ∃ row dto, (step ctx w (.packet pkt env)).store.connections = w.store.connections ++ [row] ∧
      (receive ctx pkt env w).live.lookup t.key = some dto ∧
      (viewOfRow row = viewOfDto dto ↔ OneLocal ctx.localAddrs t.key ∨ LowSends t.key life) := by
  intro w life
  have hw : Tidy ctx w := tidy_steps (tidy_start ctx store) inputs
  have hformed : ∀ u ∈ life, Formed ctx u ∧ u.key = t.key := by
    intro u hu
    rcases List.mem_append.mp hu with hu | hu
    · exact ⟨formed_history (start ctx store) inputs u (mem_lifetime hu).1, (mem_lifetime hu).2⟩
    · rw [List.mem_singleton.mp hu]
      exact ⟨formed_turnOf ht, rfl⟩
  have hconn := (step_of_some hw ht).connections
  rw [hc, hf] at hconn
  obtain ⟨info, hx, -⟩ := Option.map_eq_some_iff.mp ht
  obtain ⟨-, hlive, -, -⟩ := receive_of_some hw hx ht
  refine ⟨_, _, hconn, by rw [hlive, AList.lookup_insert], ?_⟩
  obtain ⟨u, hu, hview⟩ := view_note_eq hformed
  have hentry : w.entry t.key = entryOf (lifetime t.key (history ctx (start ctx store) inputs)) :=
    entry_steps ctx store inputs t.key
  have hpeek : w.tracker.flows.peek t.key =
      stateOf (lifetime t.key (history ctx (start ctx store) inputs)) :=
    (peek_steps ctx store inputs t.key).trans (congrArg stateOf hkept)
  have hrow : viewOfRow (rowAt ctx w t) = _ := view_rowAt hpeek
  rw [← dtoView_eq_rowView hu, ← hview, ← hrow, hentry]
  exact eq_comm

end Agreement

section Neutral

/-- A connection that is captured between two other hosts, opened by the higher one. -/
def passingInputs : List Recv :=
  [.packet (tcpPacket 0 60 0x0a000009 40000 0x0a000002 443 { sampleFlags with syn := true })
    (sampleEnv none)]

def passingReset : DecodedPacket :=
  tcpPacket 1000000 60 0x0a000002 443 0x0a000009 40000 { sampleFlags with rst := true }

/-- The worker when the connection is reset. -/
def passing : Worker ℚ := steps (sampleCtx ∅) (start (sampleCtx ∅) Store.openNew) passingInputs

theorem row_agrees_with_live_iff_passing :
    ∃ t, turnOf (sampleCtx ∅) passing (.packet passingReset (sampleEnv none)) = some t ∧
      let life := lifetime t.key (history (sampleCtx ∅) (start (sampleCtx ∅) Store.openNew)
        passingInputs) ++ [t]
      ∃ row dto, (step (sampleCtx ∅) passing (.packet passingReset (sampleEnv none))).store.connections
          = passing.store.connections ++ [row] ∧
        (receive (sampleCtx ∅) passingReset (sampleEnv none) passing).live.lookup t.key = some dto ∧
        (viewOfRow row = viewOfDto dto ↔ OneLocal ∅ t.key ∨ LowSends t.key life) :=
  ⟨_, rfl, row_agrees_with_live_iff rfl (by decide) rfl rfl⟩

/-- The row of the connection and its live entry name different local ports and count different
bytes. -/
theorem passing_views_differ :
    ∃ t, turnOf (sampleCtx ∅) passing (.packet passingReset (sampleEnv none)) = some t ∧
      t.closed = true ∧
      (step (sampleCtx ∅) passing (.packet passingReset (sampleEnv none))).store.connections.map
        viewOfRow = [⟨443, 40000, 60, 60⟩] ∧
      ((receive (sampleCtx ∅) passingReset (sampleEnv none) passing).live.lookup t.key).map
        viewOfDto = some ⟨40000, 443, 120, 0⟩ :=
  ⟨_, rfl, by decide, by decide, by decide⟩

end Neutral

end Pktscope.Worker

import Pktscope.Alert.Recall
import Pktscope.Library.Folds
import Pktscope.Monitor.Lifetime

/-! # Destinations of one flow

Each packet of a flow is evaluated on its own, under the name that its address
has by then. A label is announced once, so the packets of a flow cause more than
one alert exactly when they bring more than one label that is not recorded.
-/

namespace Pktscope

open Library Library.Prog Library.Stage AlertEngine

variable {F : Type} [F64 F]

namespace AlertEngine

section Destination

variable {cfg : AlertConfig F} {ev : FlowEvent} {sub : Subject} {s : Store F}

omit [F64 F] in
/-- The destination that an attributed event carries. -/
def contactOf (ev : FlowEvent) : Option Novelty :=
  ev.proc.map fun p => .label p.exe ev.stableLabel

/-- The event brings a destination that its process is not recorded with. -/
def bringsDest (cfg : AlertConfig F) (ev : FlowEvent) (s : Store F) : Bool :=
  activeAt cfg ev s && ev.outbound && (contactOf ev).any fun x => !knows s x

def isDestAlert (a : Alert F) : Bool := decide (a.kind = .newProcessDest)

theorem isDestAlert_of_mem {wasNew : Bool} {k : Signal} {a : Alert F}
    (h : a ∈ Verdict.of cfg ev sub wasNew s k) : isDestAlert a = decide (k = .dest) := by
  obtain ⟨c, hcalls, -⟩ := Verdict.calls_of_mem h
  cases hcalls <;> rfl

theorem countP_verdict (p : SocketProc) (hp : ev.proc = some p) :
    (verdict cfg ev s).countP isDestAlert =
      (Verdict.dest cfg ev (subjectOf cfg ev s p) s).length := by
  have other {k : Signal} (hk : k ≠ .dest) (wasNew : Bool) :
      (Verdict.of cfg ev (subjectOf cfg ev s p) wasNew s k).countP isDestAlert = 0 :=
    List.countP_eq_zero.mpr fun a ha => by simp [isDestAlert_of_mem ha, hk]
  have own (wasNew : Bool) :
      (Verdict.of cfg ev (subjectOf cfg ev s p) wasNew s .dest).countP isDestAlert =
        (Verdict.of cfg ev (subjectOf cfg ev s p) wasNew s .dest).length :=
    List.countP_eq_length.mpr fun a ha => by simp [isDestAlert_of_mem ha]
  rw [verdict, hp]
  simp only [Signal.all, List.flatMap_cons, List.flatMap_nil, List.countP_append, own,
    other (k := .egress) (by decide), other (k := .identity) (by decide),
    other (k := .country) (by decide), other (k := .network) (by decide),
    other (k := .volume) (by decide), List.countP_nil, Nat.zero_add, Nat.add_zero]
  rfl

theorem countP_evaluateFull (hs : Coherent s) :
    ((evaluateFull cfg ev).run s).1.alerts.countP isDestAlert =
      if bringsDest cfg ev s then 1 else 0 := by
  have hkind : isDestAlert ∘ withoutId = (isDestAlert : Alert F → Bool) := rfl
  rw [← hkind, ← List.countP_map, run_evaluateFull]
  cases hp : ev.proc with
  | none => simp [verdict, hp, bringsDest, contactOf]
  | some p =>
    have hknows := hs.knows_eq (.label p.exe ev.stableLabel)
    have hfire := hs.fire_eq cfg (e := .label (pidRowOf s p.exe) ev.stableLabel)
      (a := destAlert ev (subjectOf cfg ev s p))
    rw [countP_verdict p hp, Verdict.dest, bringsDest, contactOf, hp, Option.map_some,
      Option.any_some, hknows]
    change (if (activeAt cfg ev s && !s.hasLabel (pidRowOf s p.exe) ev.stableLabel && ev.outbound)
      then fire cfg s (destAlert ev (subjectOf cfg ev s p)) else []).length = _
    simp only [Novelty.entry, Novelty.exe, Entry.present] at hfire ⊢
    by_cases hl : s.hasLabel (pidRowOf s p.exe) ev.stableLabel = true
    · simp [hl]
    · rw [Bool.not_eq_true] at hl
      rw [hfire hl rfl]
      by_cases hact : activeAt cfg ev s = true <;> by_cases hout : ev.outbound = true <;>
        simp [hact, hout, hl]

theorem countP_attempt (hs : Coherent s) (fault : Option ℕ) :
    (Worker.firedAlerts ((evaluateFull cfg ev).attempt fault s).1).countP isDestAlert =
      if ((evaluateFull cfg ev).attempt fault s).1.isSome && bringsDest cfg ev s then 1 else 0 := by
  cases ho : ((evaluateFull cfg ev).attempt fault s).1 with
  | none => rfl
  | some o =>
    rw [(attempt_eq_run ho).1]
    exact countP_evaluateFull hs

end Destination

end AlertEngine

namespace Worker

/-- A turn with the worker that it meets. -/
structure Arrival (F : Type) where
  turn : Turn F
  before : Worker F

namespace Arrival

variable (ctx : WorkerCtx F) (a : Arrival F)

omit [F64 F] in
/-- The event of a turn. -/
def event : FlowEvent :=
  a.turn.visit.event
    (a.turn.visit.openMeta a.before.nextId (a.before.metas.lookup a.turn.key)).outbound

/-- The packet is evaluated without failure and brings its process a destination it is not recorded
with. -/
def brings : Bool := a.turn.outcome.isSome && bringsDest ctx.cfg a.event a.before.store

omit [F64 F] in
/-- How many new destinations the packet announces. -/
def destAlerts : ℕ := (firedAlerts a.turn.outcome).countP isDestAlert

end Arrival

section Arrivals

variable (ctx : WorkerCtx F)

def arrivalOf (w : Worker F) (i : Recv) : Option (Arrival F) := (turnOf ctx w i).map (⟨·, w⟩)

/-- The turns of a run, each with the worker that it meets. -/
def arrivals (w : Worker F) (inputs : List Recv) : List (Arrival F) :=
  logOf (step ctx) (arrivalOf ctx) w inputs

omit [F64 F] in
/-- The packets of a flow since the worker last dropped it. -/
def arrivalLife (k : FlowKey) (as : List (Arrival F)) : List (Arrival F) :=
  session (fun a => a.turn.key) (fun k a => a.turn.endsFlow k) k as

variable {ctx} {w : Worker F} {i : Recv} {a : Arrival F}

theorem outcome_arrivalOf (ha : arrivalOf ctx w i = some a) :
    a.before = w ∧ ∃ pkt env info, i = .packet pkt env ∧
      extractPktFlowInfo pkt.layers = some info ∧ turnOf ctx w i = some a.turn ∧
      a.event = eventFor ctx w info pkt env ∧
      a.turn.outcome = ((evaluateFull ctx.cfg a.event).attempt env.evalFault w.store).1 := by
  obtain ⟨t, ht, rfl⟩ := Option.map_eq_some_iff.mp ha
  cases i with
  | timeout nowMs => cases ht
  | packet pkt env =>
    obtain ⟨info, hx, rfl⟩ := Option.map_eq_some_iff.mp ht
    exact ⟨rfl, pkt, env, info, rfl, hx, ht, rfl, rfl⟩

theorem store_step (hw : Tidy ctx w) {pkt : DecodedPacket} {env : Env} {info : PktFlowInfo}
    {t : Turn F} (hx : extractPktFlowInfo pkt.layers = some info)
    (ht : turnOf ctx w (.packet pkt env) = some t) :
    let s := ((evaluateFull ctx.cfg (eventFor ctx w info pkt env)).attempt env.evalFault w.store).2
    SameRecords s (step ctx w (.packet pkt env)).store ∧
      (Reached s → Reached (step ctx w (.packet pkt env)).store) := by
  obtain ⟨-, -, -, hst⟩ := step_tables hw hx ht
  dsimp only
  rw [hst]
  split
  · exact ⟨⟨rfl, rfl, rfl, rfl⟩, fun h => h.inserted (rowAt ctx w t) none⟩
  · exact ⟨⟨rfl, rfl, rfl, rfl⟩, id⟩

theorem reached_step (hw : Tidy ctx w) (hs : Reached w.store) (i : Recv) :
    Reached (step ctx w i).store := by
  cases ht : turnOf ctx w i with
  | none =>
    obtain ⟨-, -, -, hst⟩ := step_of_none hw ht
    rwa [hst]
  | some t =>
    cases i with
    | timeout nowMs => cases ht
    | packet pkt env =>
      obtain ⟨info, hx, -⟩ := Option.map_eq_some_iff.mp ht
      exact (store_step hw hx ht).2 (hs.evaluated ctx.cfg _ env.evalFault)

theorem reached_steps (hw : Tidy ctx w) (hs : Reached w.store) (inputs : List Recv) :
    Reached (steps ctx w inputs).store := by
  induction inputs generalizing w with
  | nil => exact hs
  | cons i inputs ih => exact ih (tidy_step hw i) (reached_step hw hs i)

theorem retains_step (hw : Tidy ctx w) (i : Recv) : Retains w.store (step ctx w i).store := by
  cases ht : turnOf ctx w i with
  | none =>
    obtain ⟨-, -, -, hst⟩ := step_of_none hw ht
    rw [hst]
    exact refl_of Retains _
  | some t =>
    cases i with
    | timeout nowMs => cases ht
    | packet pkt env =>
      obtain ⟨info, hx, -⟩ := Option.map_eq_some_iff.mp ht
      exact trans_of Retains (retains_attempt ctx.cfg (eventFor ctx w info pkt env) env.evalFault _)
        (store_step hw hx ht).1.retains

theorem destAlerts_eq (hs : Coherent w.store) (ha : arrivalOf ctx w i = some a) :
    a.destAlerts = if a.brings ctx then 1 else 0 := by
  obtain ⟨hb, pkt, env, info, rfl, -, -, -, ho⟩ := outcome_arrivalOf ha
  rw [Arrival.destAlerts, Arrival.brings, hb, ho]
  exact countP_attempt hs _

theorem knows_contact (hw : Tidy ctx w) (hs : Coherent w.store) (ha : arrivalOf ctx w i = some a)
    (ho : a.turn.outcome.isSome) : ∀ x ∈ contactOf a.event, knows (step ctx w i).store x = true := by
  intro x hx
  obtain ⟨-, pkt, env, info, rfl, hxt, ht, hev, hout⟩ := outcome_arrivalOf ha
  obtain ⟨o, hsome⟩ := Option.isSome_iff_exists.mp ho
  have hrun := (attempt_eq_run (hout.symm.trans hsome)).2
  obtain ⟨p, hp, rfl⟩ := Option.map_eq_some_iff.mp hx
  refine (store_step hw hxt ht).1.retains.knows ?_
  rw [← hev, hrun, knows_evaluateFull hs]
  exact Or.inr ((mem_novelties hp).mpr (Or.inr (Or.inl rfl)))

end Arrivals

section Drift

variable (ctx : WorkerCtx F) {w : Worker F}

theorem arrivals_known (hw : Tidy ctx w) (hs : Reached w.store) (inputs : List Recv) :
    (∀ a ∈ arrivals ctx w inputs, a.turn.outcome.isSome → ∀ x ∈ contactOf a.event,
        knows (steps ctx w inputs).store x = true) ∧
      (arrivals ctx w inputs).Pairwise fun a b => a.turn.outcome.isSome →
        ∀ x ∈ contactOf a.event, knows b.before.store x = true := by
  induction inputs using List.reverseRecOn with
  | nil => exact ⟨fun _ ha => (nomatch ha), .nil⟩
  | append_singleton inputs i ih =>
    have hw' : Tidy ctx (steps ctx w inputs) := tidy_steps hw inputs
    have hs' : Coherent (steps ctx w inputs).store := (reached_steps hw hs inputs).coherent
    have hlog : arrivals ctx w (inputs ++ [i]) = arrivals ctx w inputs ++
        (arrivalOf ctx (steps ctx w inputs) i).toList := logOf_concat _ _ _ _ _
    have hsteps : steps ctx w (inputs ++ [i]) = step ctx (steps ctx w inputs) i := List.foldl_append
    rw [hlog, hsteps]
    refine ⟨fun a ha ho x hx => ?_, List.pairwise_append.mpr ⟨ih.2, ?_, fun a ha b hb ho x hx => ?_⟩⟩
    · rcases List.mem_append.mp ha with ha | ha
      · exact (retains_step hw' i).knows (ih.1 a ha ho x hx)
      · exact knows_contact hw' hs' (Option.mem_toList.mp ha) ho x hx
    · cases arrivalOf ctx (steps ctx w inputs) i <;> simp
    · rw [(outcome_arrivalOf (Option.mem_toList.mp hb)).1]
      exact ih.1 a ha ho x hx

theorem destAlerts_arrivals (hw : Tidy ctx w) (hs : Reached w.store) (inputs : List Recv) :
    ∀ a ∈ arrivals ctx w inputs, a.destAlerts = if a.brings ctx then 1 else 0 := by
  induction inputs generalizing w with
  | nil => exact fun _ ha => nomatch ha
  | cons i inputs ih =>
    intro a ha
    rcases List.mem_append.mp ha with ha | ha
    · exact destAlerts_eq hs.coherent (Option.mem_toList.mp ha)
    · exact ih (tidy_step hw i) (reached_step hw hs i) a ha

end Drift

section ClientHello

def appEnv : Env := sampleEnv (some ⟨7, "app", some "/usr/bin/app"⟩)

/-- The learning window of a new store passes, and the app connects to an address without a name. -/
def synInputs : List Recv :=
  [.packet (udpPacket 0 60 0x0a000002 5353 0x0a000009 53) (sampleEnv none),
    .packet (tcpPacket 5001000000 60 0x0a000002 40000 0x5db8d822 443 { sampleFlags with syn := true })
      appEnv]

/-- The first data of the connection, which name the server. -/
def helloPacket : DecodedPacket :=
  let pkt := tcpPacket 5002000000 300 0x0a000002 40000 0x5db8d822 443 sampleFlags
  { pkt with layers := pkt.layers ++ [.tlsClientHello
    ⟨some "example.com", [], [], [], [], [], [], [], 0x0303, none, none, (40, 286)⟩] }

def synDone : Worker ℚ := steps (sampleCtx ∅) (start (sampleCtx ∅) Store.openNew) synInputs

end ClientHello

end Worker

end Pktscope

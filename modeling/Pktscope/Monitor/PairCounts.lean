import Pktscope.Alert.Pairs
import Pktscope.Library.Folds
import Pktscope.Library.Window
import Pktscope.Monitor.Lifetime

/-! # Connections and packets of a pair

The counter of a process and a destination goes up with every packet that the
evaluation attributes to them. It is the number of their connections exactly
when no connection has more than one such packet and no attempt fails after it
has counted.
-/

namespace Pktscope.Worker

open Library Library.Prog AlertEngine Store

variable {F : Type} [F64 F]

/-- A packet of the history, with the pair whose counter it raises. -/
structure Contact (F : Type) where
  turn : Turn F
  touched : Option (ℕ × ℕ)

/-- The pair that a packet is attributed to, if its evaluation succeeds. -/
def Contact.attributed (c : Contact F) : Option (ℕ × ℕ) :=
  c.turn.outcome.bind fun o => o.processId.map (·, o.destId)

section Log

variable (ctx : WorkerCtx F)

def touchOf (w : Worker F) : Recv → Option (ℕ × ℕ)
  | .timeout _ => none
  | .packet pkt env => (extractPktFlowInfo pkt.layers).bind fun info =>
    touches ctx.cfg (eventFor ctx w info pkt env) env.evalFault w.store

def contactAt (w : Worker F) (i : Recv) : Option (Contact F) :=
  (turnOf ctx w i).map fun t => ⟨t, touchOf ctx w i⟩

/-- The packets of a run that belong to a flow, in order. -/
def contacts (w : Worker F) (inputs : List Recv) : List (Contact F) :=
  logOf (step ctx) (contactAt ctx) w inputs

end Log

section Places

omit [F64 F]

variable (log : List (Contact F))

/-- The place of the packet that opened the flow lifetime of a packet. -/
def birth (n : ℕ) : Option ℕ :=
  log[n]?.bind fun c => (List.range (n + 1)).reverse.find? fun m =>
    log[m]?.any fun o => decide (o.turn.key = c.turn.key) && o.turn.visit.firstSeen

/-- The places of the packets that are attributed to a pair. -/
def attributedTo (pair : ℕ × ℕ) : Finset ℕ :=
  (positions (fun c => decide (c.attributed = some pair)) log).toFinset

/-- The flow lifetimes with a packet that is attributed to a pair. -/
def lifetimesOf (pair : ℕ × ℕ) : Finset (Option ℕ) := (attributedTo log pair).image (birth log)

end Places

section Counts

variable {ctx : WorkerCtx F} {w : Worker F} {i : Recv} {pair : ℕ × ℕ}

theorem touched_of_attributed {c : Contact F} (hc : contactAt ctx w i = some c)
    (h : c.attributed = some pair) : c.touched = some pair := by
  obtain ⟨t, ht, rfl⟩ := Option.map_eq_some_iff.mp hc
  cases i with
  | timeout nowMs => cases ht
  | packet pkt env =>
    obtain ⟨info, hx, rfl⟩ := Option.map_eq_some_iff.mp ht
    obtain ⟨o, ho, hpair⟩ := Option.bind_eq_some_iff.mp h
    change touchOf ctx w (.packet pkt env) = some pair
    rw [touchOf, hx, Option.bind_some, touches_of_outcome ho]
    exact hpair

theorem connCount_step (pair : ℕ × ℕ) (hw : Tidy ctx w) (hs : DistinctPairs w.store) (i : Recv) :
    DistinctPairs (step ctx w i).store ∧
      (step ctx w i).store.connCount pair = w.store.connCount pair +
        (contactAt ctx w i).toList.countP fun c => decide (c.touched = some pair) := by
  rw [contactAt]
  cases ht : turnOf ctx w i with
  | none =>
    obtain ⟨-, -, -, hst⟩ := step_of_none hw ht
    rw [hst]
    exact ⟨hs, rfl⟩
  | some t =>
    cases i with
    | timeout nowMs => cases ht
    | packet pkt env =>
      obtain ⟨info, hx, -⟩ := Option.map_eq_some_iff.mp ht
      obtain ⟨-, -, -, hst⟩ := step_tables hw hx ht
      obtain ⟨hdist, hcount⟩ := connCount_attempt ctx.cfg
        (eventFor ctx w info pkt env) hs env.evalFault
      have hpairs : (step ctx w (.packet pkt env)).store.pairs =
          ((evaluateFull ctx.cfg (eventFor ctx w info pkt env)).attempt env.evalFault
            w.store).2.pairs := by
        rw [hst]
        split <;> rfl
      refine ⟨hdist.congr hpairs, ?_⟩
      rw [connCount_congr hpairs, hcount, Option.map_some, Option.toList_some,
        List.countP_singleton, touchOf, hx, Option.bind_some]
      simp only [decide_eq_true_eq]

theorem connCount_steps (pair : ℕ × ℕ) (hw : Tidy ctx w) (hs : DistinctPairs w.store) (inputs : List Recv) :
    (steps ctx w inputs).store.connCount pair = w.store.connCount pair +
      (contacts ctx w inputs).countP fun c => decide (c.touched = some pair) := by
  induction inputs generalizing w with
  | nil => rfl
  | cons i inputs ih =>
    obtain ⟨hdist, hcount⟩ := connCount_step pair hw hs i
    have hlog : contacts ctx w (i :: inputs) =
        (contactAt ctx w i).toList ++ contacts ctx (step ctx w i) inputs := rfl
    have hsteps : steps ctx w (i :: inputs) = steps ctx (step ctx w i) inputs := rfl
    rw [hsteps, ih (tidy_step hw i) hdist, hcount, hlog, List.countP_append, Nat.add_assoc]

end Counts

/-- The counter of a pair is the number of its connections exactly when no attempt that raises it
fails, and no connection has two packets that are attributed to the pair. -/
theorem connCount_eq_lifetimes_iff (ctx : WorkerCtx F) {store : Store F}
    (hstore : DistinctPairs store) (inputs : List Recv) (pair : ℕ × ℕ) :
    let log := contacts ctx (start ctx store) inputs
    (runWorker ctx store inputs).store.connCount pair =
        store.connCount pair + (lifetimesOf log pair).card ↔
      (∀ c ∈ log, c.touched = some pair → c.attributed = some pair) ∧
        ∀ n ∈ attributedTo log pair, ∀ m ∈ attributedTo log pair,
          birth log n = birth log m → n = m := by
  intro log
  have hcount := connCount_steps pair (tidy_start ctx store) hstore inputs
  have hattr : ∀ c ∈ log, c.attributed = some pair → c.touched = some pair :=
    forall_mem_logOf (fun _ _ _ hc => touched_of_attributed hc) _ _
  have hsub : attributedTo log pair ⊆
      (positions (fun c => decide (c.touched = some pair)) log).toFinset := by
    intro n hn
    obtain ⟨c, hc, hp⟩ := mem_places.mp hn
    refine mem_places.mpr ⟨c, hc, decide_eq_true ?_⟩
    exact hattr c (List.mem_of_getElem? hc) (of_decide_eq_true hp)
  have hstart : (start ctx store : Worker F).store = store := rfl
  rw [runWorker_eq, hcount, hstart, Nat.add_left_cancel_iff, ← card_places, lifetimesOf,
    card_eq_card_image_iff hsub]
  refine and_congr_left fun _ => ?_
  constructor
  · intro h c hc ht
    obtain ⟨n, hn⟩ := List.mem_iff_getElem?.mp hc
    obtain ⟨c', hc', hp⟩ := mem_places.mp (h (mem_places.mpr ⟨c, hn, decide_eq_true ht⟩))
    obtain rfl : c = c' := Option.some.inj (hn.symm.trans hc')
    exact of_decide_eq_true hp
  · intro h n hn
    obtain ⟨c, hc, ht⟩ := mem_places.mp hn
    refine mem_places.mpr ⟨c, hc, decide_eq_true ?_⟩
    exact h c (List.mem_of_getElem? hc) (of_decide_eq_true ht)

section TwoPackets

def appProc : SocketProc := ⟨7, "app", some "/usr/bin/app"⟩

/-- One connection of an app, with two packets. -/
def twoPackets : List Recv :=
  [.packet (udpPacket 0 60 0x0a000002 5353 0x0a000009 53) (sampleEnv (some appProc)),
    .packet (udpPacket 1000000 60 0x0a000002 5353 0x0a000009 53) (sampleEnv (some appProc))]

theorem connCount_eq_lifetimes_iff_two :
    let log := contacts (sampleCtx ∅) (start (sampleCtx ∅) openNew) twoPackets
    (runWorker (sampleCtx ∅) openNew twoPackets).store.connCount (1, 1) =
        (openNew : Store ℚ).connCount (1, 1) + (lifetimesOf log (1, 1)).card ↔
      (∀ c ∈ log, c.touched = some (1, 1) → c.attributed = some (1, 1)) ∧
        ∀ n ∈ attributedTo log (1, 1), ∀ m ∈ attributedTo log (1, 1),
          birth log n = birth log m → n = m :=
  connCount_eq_lifetimes_iff (sampleCtx ∅) (fun _ hr => absurd hr List.not_mem_nil) twoPackets (1, 1)

/-- The counter says two, for one connection. -/
theorem packets_counted_as_connections :
    let log := contacts (sampleCtx ∅) (start (sampleCtx ∅) openNew) twoPackets
    (runWorker (sampleCtx ∅) openNew twoPackets).store.connCount (1, 1) = 2 ∧
      (lifetimesOf log (1, 1)).card = 1 := by
  decide

end TwoPackets

end Pktscope.Worker

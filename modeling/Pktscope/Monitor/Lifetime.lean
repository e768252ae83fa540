import Pktscope.Library.Sessions
import Pktscope.Monitor.Turns

/-! # Lifetimes of flows

The history of a run is the list of its turns. The bookkeeping and the live
entry of a flow are the fold of the turns since the flow's last end, and its
state in the tracker the fold of those since its last end or eviction.
-/

namespace Pktscope.Worker

open Library Library.Prog AlertEngine

variable {F : Type} [F64 F] (ctx : WorkerCtx F)

/-- The turns of a run, in order. -/
def history (w : Worker F) (inputs : List Recv) : List (Turn F) :=
  logOf (step ctx) (turnOf ctx) w inputs

/-- The turns of a flow since the worker last dropped it. -/
def lifetime (k : FlowKey) (turns : List (Turn F)) : List (Turn F) :=
  session Turn.key (fun k t => t.endsFlow k) k turns

/-- The turns of a flow since the tracker last dropped it. -/
def trackedLife (k : FlowKey) (turns : List (Turn F)) : List (Turn F) :=
  session Turn.key (fun k t => t.dropsFlow k) k turns

def entryOf (turns : List (Turn F)) : Option FlowEntry := sessionFold (fun e t => t.note e) turns

def stateOf (turns : List (Turn F)) : Option (FlowState F) :=
  sessionFold (fun st t => t.observe st) turns

section Run

variable {ctx} {w : Worker F}

theorem tidy_step (hw : Tidy ctx w) (i : Recv) : Tidy ctx (step ctx w i) := by
  cases ht : turnOf ctx w i with
  | some t => exact (step_of_some hw ht).tidy
  | none =>
    obtain ⟨hm, hl, htr, -⟩ := step_of_none hw ht
    exact ⟨htr ▸ hw.drained, hm ▸ hl ▸ hw.paired, htr ▸ hw.addrs, htr ▸ hw.cap⟩

theorem tidy_steps (hw : Tidy ctx w) (inputs : List Recv) : Tidy ctx (steps ctx w inputs) := by
  induction inputs generalizing w with
  | nil => exact hw
  | cons i inputs ih => exact ih (tidy_step hw i)

variable (ctx) (store : Store F) (inputs : List Recv)

/-- Every turn empties the channel of completed flows, so nothing is left at the end. -/
theorem runWorker_eq : runWorker ctx store inputs = steps ctx (start ctx store) inputs :=
  drain_nil (tidy_steps (tidy_start ctx store) inputs).drained false

/-- The entries of a run are the folds of the lifetimes. -/
theorem entry_steps (k : FlowKey) :
    (steps ctx (start ctx store) inputs).entry k =
      entryOf (lifetime k (history ctx (start ctx store) inputs)) := by
  refine cell_eq_sessionFold Turn.key (fun k t => t.endsFlow k) (fun e t => t.note e) (g := entry)
    (I := Tidy ctx) (fun _ i hs => tidy_step hs i)
    (fun s i hs hn k => ?_) (fun s i t hs ht k => (step_of_some hs ht).entry k)
    (tidy_start ctx store) (fun _ => rfl) inputs k
  obtain ⟨hm, hl, -, -⟩ := step_of_none hs hn
  rw [entry, entry, hm, hl]

theorem peek_steps (k : FlowKey) :
    (steps ctx (start ctx store) inputs).tracker.flows.peek k =
      stateOf (trackedLife k (history ctx (start ctx store) inputs)) := by
  refine cell_eq_sessionFold Turn.key (fun k t => t.dropsFlow k) (fun st t => t.observe st)
    (g := fun w k => w.tracker.flows.peek k) (I := Tidy ctx) (fun _ i hs => tidy_step hs i) (fun s i hs hn k => ?_)
    (fun s i t hs ht k => (step_of_some hs ht).flows k) (tidy_start ctx store) (fun _ => rfl)
    inputs k
  obtain ⟨-, -, htr, -⟩ := step_of_none hs hn
  rw [htr]

end Run

section Formed

variable {ctx} {w : Worker F} {i : Recv} {t : Turn F}

theorem processId_evaluateFull (cfg : AlertConfig F) (ev : FlowEvent) (s : Store F) :
    ((evaluateFull cfg ev).run s).1.processId = ev.proc.map fun p => pidRowOf s p.exe := by
  cases hp : ev.proc with
  | none =>
    rw [evaluateFull_of_none cfg ev hp]
    simp only [run_bind, run_pure, Option.map_none]
  | some p =>
    rw [evaluateFull_of_proc cfg ev hp]
    simp only [run_bind, run_pure, run_setup cfg ev p s, Option.map_some]
    rfl

/-- What every turn says of its own packet. -/
structure Formed (ctx : WorkerCtx F) (t : Turn F) : Prop where
  key : t.visit.key = t.key
  sides : t.visit.sides = orient ctx.localAddrs t.key t.info.dir
  bytes : t.visit.bytes = t.wire.toNat
  attributed : ∀ o ∈ t.outcome, o.processId.isSome = t.visit.proc.isSome
  spared : t.evicted ≠ some t.key

theorem formed_turnOf (ht : turnOf ctx w i = some t) : Formed ctx t := by
  cases i with
  | timeout nowMs => cases ht
  | packet pkt env =>
    obtain ⟨info, -, rfl⟩ := Option.map_eq_some_iff.mp ht
    refine ⟨rfl, rfl, rfl, fun o ho => ?_, fun h => LruCache.victim_ne h rfl⟩
    rw [(attempt_eq_run ho).1, processId_evaluateFull, Option.isSome_map]
    rfl

omit [F64 F] in
theorem Formed.dropsFlow_self (ht : Formed ctx t) : t.dropsFlow t.key = t.closed := by
  simp [Turn.dropsFlow, Turn.endsFlow, ht.spared]

theorem peek_evicted (ht : turnOf ctx w i = some t) {k : FlowKey} (h : t.evicted = some k) :
    (w.tracker.flows.peek k).isSome ∧ t.key ≠ k := by
  cases i with
  | timeout nowMs => cases ht
  | packet pkt env =>
    obtain ⟨info, -, rfl⟩ := Option.map_eq_some_iff.mp ht
    exact ⟨LruCache.peek_isSome.mpr (LruCache.victim_mem h), (LruCache.victim_ne h).symm⟩

theorem formed_history (w : Worker F) (inputs : List Recv) :
    ∀ t ∈ history ctx w inputs, Formed ctx t :=
  forall_mem_logOf (fun _ _ _ ha => formed_turnOf ha) w inputs

omit [F64 F] in
theorem mem_lifetime {k : FlowKey} {turns : List (Turn F)} (h : t ∈ lifetime k turns) :
    t ∈ turns ∧ t.key = k := mem_session _ _ h

end Formed

section Samples

def sampleFlags : TcpFlags := ⟨false, false, false, false, true, false, false, false⟩

/-- An IPv4 packet with its transport layer. -/
def samplePacket (ts : DateTime) (wireLen : UInt32) (src dst : UInt32) (protocol : UInt8)
    (transport : Layer) : DecodedPacket where
  number := 0
  timestamp := ts
  wireLen := wireLen
  data := []
  layers := [.ipv4 ⟨4, 5, 0, 0, 0, 0, 0, 0, 64, protocol, 0, src, dst, (0, 20)⟩, transport]
  summary := ⟨"", "", "", wireLen, "", .other⟩
  process := none
  retransmission := false

def tcpPacket (ts : DateTime) (wireLen : UInt32) (src : UInt32) (srcPort : UInt16) (dst : UInt32)
    (dstPort : UInt16) (flags : TcpFlags) : DecodedPacket :=
  samplePacket ts wireLen src dst 6
    (.tcp ⟨srcPort, dstPort, 0, 0, 5, flags, 0, 0, 0, 0, (20, 40)⟩)

def udpPacket (ts : DateTime) (wireLen : UInt32) (src : UInt32) (srcPort : UInt16) (dst : UInt32)
    (dstPort : UInt16) : DecodedPacket :=
  samplePacket ts wireLen src dst 17 (.udp ⟨srcPort, dstPort, 8, 0, (20, 28)⟩)

/-- An environment where nothing fails. -/
def sampleEnv (proc : Option SocketProc) : Env where
  lookupSocketProc _ _ _ := proc
  identify path := .unreadable (utf8Bytes path) .sha256
  evalFault := none
  insertFails := false

/-- A host with some addresses and no geography. -/
def sampleCtx (localAddrs : Finset IpAddr) : WorkerCtx ℚ := ⟨.demo, nullEnricher, localAddrs⟩

end Samples

end Pktscope.Worker

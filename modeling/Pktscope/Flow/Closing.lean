import Pktscope.Flow.Tracker

/-! # How flows end

What one packet does to the tracker, and the part of it that decides when a flow
ends: a state of three flags that the packets of the flow set, lost when the
flow is dropped.
-/

namespace Pktscope

open Library

variable {F : Type}

namespace FlowTracker

variable [F64 F] (t : FlowTracker F) (info : PktFlowInfo) (wire : UInt32) (ts : DateTime)

/-- The tracker after some packets. -/
def feed (pkts : List DecodedPacket) : FlowTracker F := pkts.foldl (fun t pkt => (t.update pkt).1) t

/-- The tracker after a packet of a flow. -/
def advance : FlowTracker F :=
  if t.closes info wire ts then (t.count info wire ts).close info.key else t.count info wire ts

/-- What the tracker reports of a packet of a flow. -/
def flowUpdate (pkt : DecodedPacket) : FlowUpdate where
  annotation := (t.annotate info pkt.wireLen pkt.timestamp).map FlowAnnotation.mk
  key := info.key
  dir := info.dir
  bytes := pkt.wireLen
  firstSeen := !t.flows.contains info.key

theorem update_of_info {pkt : DecodedPacket} {info : PktFlowInfo}
    (h : extractPktFlowInfo pkt.layers = some info) :
    t.update pkt = (t.advance info pkt.wireLen pkt.timestamp,
      if t.annotate info pkt.wireLen pkt.timestamp = some true then markRetransmission pkt else pkt,
      some (t.flowUpdate info pkt)) := by
  unfold update
  rw [h]
  rfl

theorem update_of_none {pkt : DecodedPacket} (h : extractPktFlowInfo pkt.layers = none) :
    t.update pkt = (t, pkt, none) := by
  unfold update
  rw [h]

theorem stateAfter_eq :
    t.stateAfter info wire ts =
      ((t.flows.peek info.key).getD (.new ts)).observe info wire ts := rfl

/-- The entries after a packet: its own, dropped if it closes, and all but the evicted one. -/
theorem peek_advance (k : FlowKey) :
    (t.advance info wire ts).flows.peek k =
      if k = info.key then
        if t.closes info wire ts then none else some (t.stateAfter info wire ts)
      else if t.flows.victim info.key = some k then none
      else t.flows.peek k := by
  have hcount (k : FlowKey) : (t.count info wire ts).flows.peek k =
      if k = info.key then some (t.stateAfter info wire ts)
      else if t.flows.victim info.key = some k then none else t.flows.peek k := by
    by_cases hk : k = info.key
    · rw [if_pos hk, hk]
      exact LruCache.peek_getOrInsertMut_self _ _ (.new ts) _
    · rw [if_neg hk]
      exact LruCache.peek_getOrInsertMut_of_ne _ _ (.new ts) _ hk
  unfold advance
  by_cases hc : t.closes info wire ts = true
  · rw [if_pos hc, if_pos hc]
    by_cases hk : k = info.key
    · rw [if_pos hk, hk]
      exact LruCache.peek_pop_self _ _
    · rw [if_neg hk]
      exact (LruCache.peek_pop_of_ne _ hk).trans ((hcount k).trans (if_neg hk))
  · rw [if_neg hc, if_neg hc]
    exact hcount k

/-- A closing packet sends the snapshot of its flow to the sink. -/
theorem completedTx_advance :
    (t.advance info wire ts).completedTx =
      if t.closes info wire ts then
        t.completedTx.map (· ++ [t.makeSnapshot info.key (t.stateAfter info wire ts)])
      else t.completedTx := by
  unfold advance
  by_cases hc : t.closes info wire ts = true
  · have hstats : (t.count info wire ts).statsFor info.key =
        some (t.makeSnapshot info.key (t.stateAfter info wire ts)) := by
      have hpeek : (t.count info wire ts).flows.peek info.key =
          some (t.stateAfter info wire ts) := LruCache.peek_getOrInsertMut_self _ _ (.new ts) _
      rw [statsFor, hpeek]
      rfl
    rw [if_pos hc, if_pos hc]
    unfold close
    rw [hstats]
    cases h : t.completedTx <;> simp [count, h]
  · rw [if_neg hc, if_neg hc]
    rfl

theorem localAddrs_advance : (t.advance info wire ts).localAddrs = t.localAddrs := by
  unfold advance
  split <;> rfl

theorem cap_advance : (t.advance info wire ts).flows.cap = t.flows.cap := by
  unfold advance
  split <;> rfl

end FlowTracker

/-- The flags of a flow that decide when it ends. -/
structure Ends where
  rst : Bool
  finLow : Bool
  finHigh : Bool
  deriving DecidableEq

namespace Ends

def none : Ends := ⟨false, false, false⟩

def closing (e : Ends) : Bool := e.rst || (e.finLow && e.finHigh)

/-- The flags after a segment of the low or the high side. -/
def note (e : Ends) (isLow : Bool) (tcp : TcpBits) : Ends where
  rst := e.rst || tcp.rst
  finLow := e.finLow || (tcp.fin && isLow)
  finHigh := e.finHigh || (tcp.fin && !isLow)

end Ends

/-- The part of a flow's state that the estimates and the retransmission check do not touch. -/
structure FlowCore where
  ends : Ends
  firstSeen : DateTime
  lastSeen : DateTime
  pktsLowToHigh : ℕ
  pktsHighToLow : ℕ
  bytesLowToHigh : ℕ
  bytesHighToLow : ℕ

namespace FlowCore

variable (c : FlowCore)

def bytes : ℕ := c.bytesLowToHigh + c.bytesHighToLow

/-- Count one packet. -/
def account (dir : Dir) (wire : UInt32) (ts : DateTime) : FlowCore :=
  match dir with
  | .lowToHigh =>
    { c with
      lastSeen := ts
      pktsLowToHigh := c.pktsLowToHigh + 1
      bytesLowToHigh := c.bytesLowToHigh + wire.toNat }
  | .highToLow =>
    { c with
      lastSeen := ts
      pktsHighToLow := c.pktsHighToLow + 1
      bytesHighToLow := c.bytesHighToLow + wire.toNat }

/-- Count one packet and note its flags. -/
def observe (info : PktFlowInfo) (wire : UInt32) (ts : DateTime) : FlowCore :=
  { c.account info.dir wire ts with ends := (info.tcp.map (c.ends.note info.isLow)).getD c.ends }

variable (info : PktFlowInfo) (wire : UInt32) (ts : DateTime)

theorem bytes_observe : (c.observe info wire ts).bytes = c.bytes + wire.toNat := by
  unfold observe account bytes
  cases info.dir <;> dsimp only <;> omega

theorem firstSeen_observe : (c.observe info wire ts).firstSeen = c.firstSeen := by
  unfold observe account
  cases info.dir <;> rfl

theorem lastSeen_observe : (c.observe info wire ts).lastSeen = ts := by
  unfold observe account
  cases info.dir <;> rfl

end FlowCore

section Core

variable {st : FlowState F}

def FlowState.ends (st : FlowState F) : Ends := ⟨st.rstSeen, st.finLow, st.finHigh⟩

def FlowState.core (st : FlowState F) : FlowCore :=
  ⟨st.ends, st.firstSeen, st.lastSeen, st.pktsLowToHigh, st.pktsHighToLow, st.bytesLowToHigh,
    st.bytesHighToLow⟩

theorem ends_new (ts : DateTime) : (FlowState.new ts : FlowState F).ends = .none := rfl

theorem closing_eq (st : FlowState F) : st.closing = st.ends.closing := rfl

theorem core_account (dir : Dir) (wire : UInt32) (ts : DateTime) :
    (st.account dir wire ts).core = st.core.account dir wire ts := by
  cases dir <;> rfl

theorem core_raiseMaxSeq (isLow : Bool) (tcp : TcpBits) :
    (st.raiseMaxSeq isLow tcp).core = st.core := by
  unfold FlowState.raiseMaxSeq
  dsimp only
  split_ifs <;> rfl

/-- A flow without its round-trip estimates. -/
def FlowState.rttFree (st : FlowState F) : FlowState F :=
  { st with
    synTs := none, synackTs := none, handshakeRttMs := none, srttMs := none
    unackedLow := .empty, unackedHigh := .empty }

theorem rttFree_recordHandshake [F64 F] (tcp : TcpBits) (ts : DateTime) :
    (recordHandshake st tcp ts).rttFree = st.rttFree := by
  unfold recordHandshake
  dsimp only
  repeat' split
  all_goals rfl

theorem rttFree_recordSent (isLow : Bool) (tcp : TcpBits) (ts : DateTime) :
    (recordSent st isLow tcp ts).rttFree = st.rttFree := by
  unfold recordSent
  dsimp only
  split_ifs <;> rfl

theorem rttFree_recordAcked [F64 F] (isLow : Bool) (ts : DateTime) (k : ℕ) :
    (recordAcked isLow ts st k).rttFree = st.rttFree := by
  unfold recordAcked
  cases isLow <;> dsimp only <;> repeat' split
  all_goals rfl

theorem rttFree_foldl_recordAcked [F64 F] (isLow : Bool) (ts : DateTime) (ks : List ℕ) :
    (ks.foldl (recordAcked isLow ts) st).rttFree = st.rttFree := by
  induction ks generalizing st with
  | nil => rfl
  | cons k ks ih => rw [List.foldl_cons, ih, rttFree_recordAcked]

theorem rttFree_recordRtt [F64 F] (isLow : Bool) (tcp : TcpBits) (ts : DateTime) :
    (recordRtt st isLow tcp ts).rttFree = st.rttFree := by
  unfold recordRtt
  dsimp only
  split_ifs
  · rw [rttFree_foldl_recordAcked, rttFree_recordSent, rttFree_recordHandshake]
  · rw [rttFree_foldl_recordAcked, rttFree_recordSent, rttFree_recordHandshake]
  · rw [rttFree_recordSent, rttFree_recordHandshake]

theorem core_recordRtt [F64 F] (isLow : Bool) (tcp : TcpBits) (ts : DateTime) :
    (recordRtt st isLow tcp ts).core = st.core := by
  change (recordRtt st isLow tcp ts).rttFree.core = st.rttFree.core
  rw [rttFree_recordRtt]

/-- The highest sequence end of one side. -/
def FlowState.maxSeq (st : FlowState F) (isLow : Bool) : Option ℕ :=
  if isLow then st.maxSeqLow else st.maxSeqHigh

theorem isRetransmission_eq (isLow : Bool) (tcp : TcpBits) :
    st.isRetransmission isLow tcp =
      (decide (0 < tcp.payloadLen) &&
        (st.maxSeq isLow).any fun prev => decide (tcp.seq + tcp.payloadLen ≤ prev)) := by
  unfold FlowState.isRetransmission FlowState.maxSeq
  cases (if isLow then st.maxSeqLow else st.maxSeqHigh) <;> rfl

theorem maxSeq_recordRtt [F64 F] (st : FlowState F) (isLow side : Bool) (tcp : TcpBits)
    (ts : DateTime) : (recordRtt st isLow tcp ts).maxSeq side = st.maxSeq side := by
  change (recordRtt st isLow tcp ts).rttFree.maxSeq side = st.rttFree.maxSeq side
  rw [rttFree_recordRtt]

theorem maxSeq_account (st : FlowState F) (dir : Dir) (side : Bool) (wire : UInt32)
    (ts : DateTime) : (st.account dir wire ts).maxSeq side = st.maxSeq side := by
  cases dir <;> rfl

theorem maxSeq_observe [F64 F] {info : PktFlowInfo} {tcp : TcpBits} (htcp : info.tcp = some tcp)
    (hlen : 0 < tcp.payloadLen) (hnew : st.maxSeq info.isLow = none) (wire : UInt32)
    (ts : DateTime) :
    (st.observe info wire ts).maxSeq info.isLow = some (tcp.seq + tcp.payloadLen) := by
  have haccount : (st.account info.dir wire ts).maxSeq info.isLow = none :=
    (maxSeq_account st _ _ _ _).trans hnew
  have hfresh : (st.account info.dir wire ts).isRetransmission info.isLow tcp = false := by
    rw [isRetransmission_eq, haccount, Option.any_none, Bool.and_false]
  unfold FlowState.observe
  dsimp only
  rw [htcp]
  change (recordRtt _ info.isLow tcp ts).maxSeq info.isLow = _
  rw [maxSeq_recordRtt, FlowState.raiseMaxSeq, hfresh]
  simp only [gt_iff_lt, hlen, decide_true, Bool.not_false, Bool.and_self, if_true]
  unfold FlowState.maxSeq
  cases info.isLow <;> rfl

/-- Of a packet, the counts see the size and the direction, and the end its flags. -/
theorem core_observe [F64 F] (st : FlowState F) (info : PktFlowInfo) (wire : UInt32)
    (ts : DateTime) : (st.observe info wire ts).core = st.core.observe info wire ts := by
  have hends : (st.core.account info.dir wire ts).ends = st.core.ends := by
    cases info.dir <;> rfl
  unfold FlowState.observe FlowCore.observe
  cases info.tcp with
  | none => rw [core_account, Option.map_none, Option.getD_none, ← hends]
  | some tcp =>
    have hflags (st : FlowState F) : (st.noteFlags info.isLow tcp).core =
        { st.core with ends := st.core.ends.note info.isLow tcp } := rfl
    rw [hflags, core_recordRtt, core_raiseMaxSeq, core_account, hends]
    rfl

theorem ends_observe [F64 F] (info : PktFlowInfo) (wire : UInt32) (ts : DateTime) :
    (st.observe info wire ts).ends = (info.tcp.map (st.ends.note info.isLow)).getD st.ends :=
  congrArg FlowCore.ends (core_observe st info wire ts)

end Core

section Annotate

variable {info : PktFlowInfo} (wire : UInt32) (ts : DateTime)

theorem annotate_eq (t : FlowTracker F) :
    t.annotate info wire ts = info.tcp.map fun tcp =>
      decide (0 < tcp.payloadLen) &&
        (((t.flows.peek info.key).getD (.new ts)).maxSeq info.isLow).any fun prev =>
          decide (tcp.seq + tcp.payloadLen ≤ prev) := by
  change info.tcp.map ((((t.flows.peek info.key).getD (.new ts)).account info.dir wire
    ts).isRetransmission info.isLow) = _
  cases info.tcp with
  | none => rfl
  | some tcp => rw [Option.map_some, Option.map_some, isRetransmission_eq, maxSeq_account]

/-- A second segment repeats the first when it has data that ends no later. -/
theorem annotate_second [F64 F] {first : PktFlowInfo} {tcp tcp₁ : TcpBits} (htcp₁ : first.tcp = some tcp₁)
    (hlen : 0 < tcp₁.payloadLen) (hrst : tcp₁.rst = false) (hfin : tcp₁.fin = false)
    (htcp : info.tcp = some tcp) (hkey : info.key = first.key) (hlow : info.isLow = first.isLow)
    (wire₁ : UInt32) (ts₁ : DateTime) :
    ((FlowTracker.new : FlowTracker F).advance first wire₁ ts₁).annotate info wire ts =
      some (decide (0 < tcp.payloadLen) &&
        decide (tcp.seq + tcp.payloadLen ≤ tcp₁.seq + tcp₁.payloadLen)) := by
  have hstate : (FlowTracker.new : FlowTracker F).stateAfter first wire₁ ts₁ =
      (FlowState.new ts₁).observe first wire₁ ts₁ := rfl
  have hopen : (FlowTracker.new : FlowTracker F).closes first wire₁ ts₁ = false := by
    rw [FlowTracker.closes, hstate, closing_eq, ends_observe, htcp₁, ends_new, Option.map_some,
      Option.getD_some, Ends.note, hrst, hfin]
    rfl
  have hpeek : ((FlowTracker.new : FlowTracker F).advance first wire₁ ts₁).flows.peek info.key =
      some ((FlowState.new ts₁).observe first wire₁ ts₁) := by
    rw [FlowTracker.peek_advance, if_pos hkey, hopen, if_neg Bool.false_ne_true, hstate]
  have hnew : (FlowState.new ts₁ : FlowState F).maxSeq first.isLow = none := by
    cases first.isLow <;> rfl
  rw [annotate_eq, htcp, Option.map_some, hpeek, Option.getD_some, hlow,
    maxSeq_observe htcp₁ hlen hnew, Option.any_some]

end Annotate

/-- What decides about one key: the flags of its flow, if it has one, and the number of flows
that have ended. -/
structure Track where
  held : Option Ends
  ended : ℕ
  deriving DecidableEq

namespace Track

/-- One TCP segment of the key. -/
def step (c : Track) (isLow : Bool) (tcp : TcpBits) : Track :=
  let e := (c.held.getD .none).note isLow tcp
  if e.closing then ⟨none, c.ended + 1⟩ else ⟨some e, c.ended⟩

end Track

/-- A segment of a TCP connection, with the packet that carries it. -/
structure Segment (key : FlowKey) where
  pkt : DecodedPacket
  info : PktFlowInfo
  tcp : TcpBits
  extract : extractPktFlowInfo pkt.layers = some info
  bits : info.tcp = some tcp
  ofKey : info.key = key

namespace Segment

variable {key : FlowKey}

def isLow (g : Segment key) : Bool := g.info.isLow

/-- A segment that acknowledges and does nothing else. -/
def IsPureAck (g : Segment key) : Prop :=
  g.tcp.ackFlag = true ∧ g.tcp.payloadLen = 0 ∧ g.tcp.syn = false ∧ g.tcp.fin = false ∧
    g.tcp.rst = false

end Segment

/-- A whole TCP connection: one FIN from each side, and behind the second one only
acknowledgements and repeated FINs. -/
structure Connection (key : FlowKey) where
  body : List (Segment key)
  firstFin : Segment key
  half : List (Segment key)
  secondFin : Segment key
  trail : List (Segment key)
  body_open : ∀ g ∈ body, g.tcp.fin = false ∧ g.tcp.rst = false
  first_fin : firstFin.tcp.fin = true ∧ firstFin.tcp.rst = false
  half_open : ∀ g ∈ half, g.tcp.rst = false ∧ (g.tcp.fin = true → g.isLow = firstFin.isLow)
  second_fin : secondFin.tcp.fin = true ∧ secondFin.tcp.rst = false
  sides : secondFin.isLow = !firstFin.isLow
  trail_quiet : ∀ g ∈ trail, g.IsPureAck ∨ g.tcp.fin = true ∧ g.tcp.rst = false

namespace Connection

variable {key : FlowKey} (c : Connection key)

def upToFins : List (Segment key) := c.body ++ c.firstFin :: c.half ++ [c.secondFin]

def segments : List (Segment key) := c.upToFins ++ c.trail

end Connection

namespace Track

variable {key : FlowKey}

def steps (c : Track) (gs : List (Segment key)) : Track :=
  gs.foldl (fun c g => c.step g.isLow g.tcp) c

theorem steps_append (c : Track) (gs hs : List (Segment key)) :
    c.steps (gs ++ hs) = (c.steps gs).steps hs := List.foldl_append

theorem steps_quiet {c : Track} {e : Ends} (he : c.held.getD .none = e) (hopen : e.closing = false)
    {gs : List (Segment key)} (hg : ∀ g ∈ gs, e.note g.isLow g.tcp = e) :
    (c.steps gs).held.getD .none = e ∧ (c.steps gs).ended = c.ended := by
  induction gs generalizing c with
  | nil => exact ⟨he, rfl⟩
  | cons g gs ih =>
    have hstep : c.step g.isLow g.tcp = ⟨some e, c.ended⟩ := by
      simp only [step, he, hg g List.mem_cons_self, hopen, Bool.false_eq_true, if_false]
    have htail := ih (c := c.step g.isLow g.tcp) (by rw [hstep]; rfl)
      fun g' h => hg g' (List.mem_cons_of_mem _ h)
    rw [hstep] at htail
    rw [steps, List.foldl_cons, ← steps, hstep]
    exact htail

/-- The flags when one side has sent its FIN. -/
def halfClosed (isLow : Bool) : Ends := ⟨false, isLow, !isLow⟩

theorem closing_halfClosed (isLow : Bool) : (halfClosed isLow).closing = false := by
  cases isLow <;> rfl

theorem note_of_no_fin (e : Ends) (isLow : Bool) {tcp : TcpBits} (hf : tcp.fin = false)
    (hr : tcp.rst = false) : e.note isLow tcp = e := by
  simp [Ends.note, hf, hr]

theorem note_none_fin (isLow : Bool) {tcp : TcpBits} (hf : tcp.fin = true) (hr : tcp.rst = false) :
    Ends.none.note isLow tcp = halfClosed isLow := by
  simp [Ends.note, Ends.none, halfClosed, hf, hr]

theorem note_halfClosed (isLow : Bool) {tcp : TcpBits} (hf : tcp.fin = true)
    (hr : tcp.rst = false) : (halfClosed isLow).note isLow tcp = halfClosed isLow := by
  cases isLow <;> simp [Ends.note, halfClosed, hf, hr]

theorem closing_note_halfClosed (isLow : Bool) {tcp : TcpBits} (hf : tcp.fin = true) :
    ((halfClosed isLow).note (!isLow) tcp).closing = true := by
  cases isLow <;> simp [Ends.note, Ends.closing, halfClosed, hf]

theorem steps_upToFins (c : Connection key) (n : ℕ) :
    steps ⟨none, n⟩ c.upToFins = ⟨none, n + 1⟩ := by
  obtain ⟨hheld, hended⟩ := steps_quiet (c := ⟨none, n⟩) (e := .none) rfl rfl
    fun g hg => note_of_no_fin _ _ (c.body_open g hg).1 (c.body_open g hg).2
  have hfirst : (steps ⟨none, n⟩ c.body).step c.firstFin.isLow c.firstFin.tcp =
      ⟨some (halfClosed c.firstFin.isLow), n⟩ := by
    simp only [step, hheld, note_none_fin _ c.first_fin.1 c.first_fin.2, closing_halfClosed, hended,
      Bool.false_eq_true, if_false]
  obtain ⟨hheld', hended'⟩ := steps_quiet (c := ⟨some (halfClosed c.firstFin.isLow), n⟩)
    (e := halfClosed c.firstFin.isLow) rfl (closing_halfClosed _) fun g hg => by
      obtain ⟨hr, hside⟩ := c.half_open g hg
      cases hf : g.tcp.fin with
      | false => exact note_of_no_fin _ _ hf hr
      | true => rw [hside hf, note_halfClosed _ hf hr]
  rw [Connection.upToFins, List.append_assoc, steps_append, List.cons_append, steps,
    List.foldl_cons, ← steps, hfirst, steps_append]
  generalize steps ⟨some (halfClosed c.firstFin.isLow), n⟩ c.half = d at hheld' hended'
  simp only [steps, List.foldl_cons, List.foldl_nil, step, hheld', c.sides,
    closing_note_halfClosed _ c.second_fin.1, if_true, hended']

theorem ended_le_steps (c : Track) (gs : List (Segment key)) : c.ended ≤ (c.steps gs).ended := by
  induction gs generalizing c with
  | nil => exact Nat.le_refl _
  | cons g gs ih =>
    refine Nat.le_trans ?_ (ih _)
    unfold step
    dsimp only
    split <;> dsimp only <;> omega

theorem steps_behind (c : Track) {gs : List (Segment key)} (hg : gs ≠ []) :
    (c.steps gs).held.isSome ∨ c.ended + 1 ≤ (c.steps gs).ended := by
  obtain ⟨hs, g, rfl⟩ := (List.eq_nil_or_concat' gs).resolve_left hg
  have hle := ended_le_steps c hs
  rw [steps_append]
  simp only [steps, List.foldl_cons, List.foldl_nil]
  rw [← steps]
  unfold step
  dsimp only
  split
  · exact Or.inr (Nat.succ_le_succ hle)
  · exact Or.inl rfl

/-- A connection ends as one flow exactly when nothing comes behind its second FIN. -/
theorem steps_connection (c : Connection key) (n : ℕ) :
    steps ⟨none, n⟩ c.segments = ⟨none, n + 1⟩ ↔ c.trail = [] := by
  rw [Connection.segments, steps_append, steps_upToFins]
  constructor
  · intro h
    by_contra hne
    rcases steps_behind ⟨none, n + 1⟩ hne with hb | hb
    · rw [h] at hb
      cases hb
    · rw [h] at hb
      exact absurd hb (by simp)
  · intro h
    rw [h]
    rfl

end Track

end Pktscope

import Mathlib.Data.List.Induction
import Pktscope.Capture.Moves
import Pktscope.Library.Folds
import Pktscope.Library.Sessions

/-! # What a capture prints

Whatever the interleaving, the lines are those of the first packets that were read,
in order and without a gap, and what the output has taken is the front of their text.
What the buffered writer still holds when it is dropped is lost if the output fails.
-/

namespace Pktscope

open Library Parse

/-- The packets as the capture loop numbers them. -/
def JsonRun.numbered (run : JsonRun) (packets : List PcapPacket) : List RawPacket :=
  packets.mapIdx fun i p => run.rawPacket (i % 2 ^ 64) p

@[simp] theorem JsonRun.length_numbered (run : JsonRun) (packets : List PcapPacket) :
    (run.numbered packets).length = packets.length := List.length_mapIdx

theorem JsonRun.numbered_concat (run : JsonRun) (packets : List PcapPacket) (p : PcapPacket) :
    run.numbered (packets ++ [p]) =
      run.numbered packets ++ [run.rawPacket (packets.length % 2 ^ 64) p] := List.mapIdx_concat

/-- A packet as it is written. -/
def JsonRun.line (run : JsonRun) (pkt : DecodedPacket) : List UInt8 :=
  (run.toWriter pkt).flatten ++ [0x0a]

/-- The lines of some packets. -/
def JsonRun.text (run : JsonRun) (pkts : List DecodedPacket) : List UInt8 := pkts.flatMap run.line

theorem JsonRun.text_concat (run : JsonRun) (pkts : List DecodedPacket) (pkt : DecodedPacket) :
    run.text (pkts ++ [pkt]) = run.text pkts ++ run.line pkt := by
  rw [text, List.flatMap_append, List.flatMap_singleton, text]

theorem JsonRun.text_prefix (run : JsonRun) {pkts pkts' : List DecodedPacket} (h : pkts <+: pkts') :
    run.text pkts <+: run.text pkts' := by
  obtain ⟨rest, rfl⟩ := h
  rw [text, text, List.flatMap_append]
  exact List.prefix_append _ _

theorem JsonRun.takes_writeJsonLine (run : JsonRun) (writer : BufWriter) (pkt : DecodedPacket) :
    writer.Takes bufferCapacity (run.line pkt) (run.writeJsonLine writer pkt) := by
  have h := @BufWriter.takes_writeEach bufferCapacity writer (run.toWriter pkt ++ [[0x0a]])
  rwa [List.flatten_append, List.flatten_singleton] at h

section DecodeAll

variable {F : Type} [Digests] [F64 F]

/-- One more packet through the decoder and the tracker. -/
def decodeMore (done : FlowTracker F × List DecodedPacket) (job : RawPacket × SocketTable) :
    FlowTracker F × List DecodedPacket :=
  match decodeTurn done.1 job.1 job.2 with
  | ok (tracker, pkt) => (tracker, done.2 ++ [pkt])
  | _ => done

/-- Some packets, decoded one after the other by one thread. -/
def decodeAll (jobs : List (RawPacket × SocketTable)) : FlowTracker F × List DecodedPacket :=
  jobs.foldl decodeMore (.new, [])

theorem decodeAll_concat (jobs : List (RawPacket × SocketTable)) (job : RawPacket × SocketTable) :
    decodeAll (F := F) (jobs ++ [job]) = decodeMore (decodeAll jobs) job := by
  rw [decodeAll, List.foldl_append]
  rfl

theorem length_decodeAll (jobs : List (RawPacket × SocketTable)) :
    (decodeAll (F := F) jobs).2.length = jobs.length := by
  induction jobs using List.reverseRecOn with
  | nil => rfl
  | append_singleton jobs job ih =>
    obtain ⟨r, hr⟩ := CapturePipeline.decodeTurn_returns (decodeAll (F := F) jobs).1 job.1 job.2
    rw [decodeAll_concat, decodeMore, hr, List.length_append, List.length_append, ih]
    rfl

theorem exists_turn {jobs : List (RawPacket × SocketTable)} {i : ℕ} {pkt : DecodedPacket}
    (h : (decodeAll (F := F) jobs).2[i]? = some pkt) :
    ∃ (job : RawPacket × SocketTable) (tracker tracker' : FlowTracker F),
      jobs[i]? = some job ∧ decodeTurn tracker job.1 job.2 = ok (tracker', pkt) := by
  induction jobs using List.reverseRecOn with
  | nil => cases h
  | append_singleton jobs job ih =>
    obtain ⟨⟨tracker', pkt'⟩, hturn⟩ :=
      CapturePipeline.decodeTurn_returns (decodeAll (F := F) jobs).1 job.1 job.2
    rw [decodeAll_concat, decodeMore, hturn] at h
    rcases getElem?_concat_eq_some_iff.mp h with hold | ⟨rfl, rfl⟩
    · obtain ⟨job', t, t', hjob, hturn'⟩ := ih hold
      have hlt := (List.getElem?_eq_some_iff.mp hjob).1
      exact ⟨job', t, t', by rwa [List.getElem?_append_left hlt], hturn'⟩
    · refine ⟨job, _, tracker', ?_, hturn⟩
      rw [length_decodeAll, List.getElem?_concat_length]

end DecodeAll

namespace CapturePipeline

variable {F : Type} [Digests] [F64 F]

/-- The flag and the channel ends follow where the threads are, and the channels are bounded. -/
structure Phases (s : CapturePipeline F) : Prop where
  stop : s.stop = s.main.hasStopped
  decoded : s.decoded.isOpen = s.main.receives
  raws : s.raws.isOpen = false ↔ s.decode = .done
  rawsRoom : s.raws.queue.length ≤ channelCapacity
  decodedRoom : s.decoded.queue.length ≤ channelCapacity

variable {run : JsonRun} {s s' : CapturePipeline F} {rd : Option PcapPacket}
variable {tb : Option SocketTable} {th : PipelineThread}

omit [Digests] [F64 F] in
theorem Phases.quitDecode (h : Phases s) : Phases s.quitDecode :=
  ⟨h.stop, h.decoded, by simp [CapturePipeline.quitDecode, Channel.hangup], Nat.zero_le _,
    h.decodedRoom⟩

omit [Digests] [F64 F] in
theorem Phases.stop_of_closed (h : Phases s) (ho : s.decoded.isOpen = false) : s.stop = true := by
  have hdecoded := h.decoded
  have hstop := h.stop
  rw [ho] at hdecoded
  cases hm : s.main with
  | printing => rw [hm] at hdecoded; cases hdecoded
  | failing => rw [hm] at hdecoded; cases hdecoded
  | failed => rw [hm] at hdecoded; cases hdecoded
  | ending why phase =>
    rw [hm] at hdecoded hstop
    cases phase <;> cases hdecoded <;> exact hstop

theorem Phases.moved (h : Phases s) (hmoved : Moved run s th s' rd tb) : Phases s' := by
  obtain ⟨hstop, hdecoded, hraws, hr, hd⟩ := h
  cases hmoved with
  | idle => exact ⟨hstop, hdecoded, hraws, hr, hd⟩
  | captureChecks => exact ⟨hstop, hdecoded, hraws, hr, hd⟩
  | captureStops => exact ⟨hstop, hdecoded, hraws, hr, hd⟩
  | reads => exact ⟨hstop, hdecoded, hraws, hr, hd⟩
  | timesOut => exact ⟨hstop, hdecoded, hraws, hr, hd⟩
  | captureEnds => exact ⟨hstop, hdecoded, hraws, hr, hd⟩
  | sends _ _ hroom => exact ⟨hstop, hdecoded, by simpa using hraws, Channel.length_push_le hroom, hd⟩
  | drops => exact ⟨hstop, hdecoded, hraws, hr, hd⟩
  | decodeChecks hl => exact ⟨hstop, hdecoded, by simpa [hl] using hraws, hr, hd⟩
  | decodeStops => exact Phases.quitDecode ⟨hstop, hdecoded, hraws, hr, hd⟩
  | decodes hl =>
    exact ⟨hstop, hdecoded, by simpa [hl] using hraws, (Channel.length_recv_le _).trans hr, hd⟩
  | decodeWaits hl => exact ⟨hstop, hdecoded, by simpa [hl] using hraws, hr, hd⟩
  | decodeEnds => exact Phases.quitDecode ⟨hstop, hdecoded, hraws, hr, hd⟩
  | delivers hl _ hroom =>
    exact ⟨hstop, by simpa using hdecoded, by simpa [hl] using hraws, hr, Channel.length_push_le hroom⟩
  | refused => exact Phases.quitDecode ⟨hstop, hdecoded, hraws, hr, hd⟩
  | prints hm =>
    exact ⟨hstop, by simpa using hdecoded, hraws, hr, (Channel.length_recv_le _).trans hd⟩
  | printsLast hm =>
    rw [hm] at hstop hdecoded
    exact ⟨hstop, (Channel.isOpen_recv _).trans hdecoded, hraws, hr, (Channel.length_recv_le _).trans hd⟩
  | fails hm =>
    rw [hm] at hstop hdecoded
    exact ⟨hstop, (Channel.isOpen_recv _).trans hdecoded, hraws, hr, (Channel.length_recv_le _).trans hd⟩
  | interrupted hm =>
    rw [hm] at hstop hdecoded
    exact ⟨hstop, hdecoded, hraws, hr, hd⟩
  | loopEnds hm =>
    rw [hm] at hstop hdecoded
    exact ⟨hstop, hdecoded, hraws, hr, hd⟩
  | leaves hm =>
    rw [hm] at hdecoded
    exact ⟨rfl, hdecoded, hraws, hr, hd⟩
  | flushes hm =>
    rw [hm] at hstop hdecoded
    exact ⟨hstop, hdecoded, hraws, hr, hd⟩
  | hangsUp hm =>
    rw [hm] at hstop
    exact ⟨hstop, rfl, hraws, hr, Nat.zero_le _⟩
  | joinsCapture hm =>
    rw [hm] at hstop hdecoded
    exact ⟨hstop, hdecoded, hraws, hr, hd⟩
  | joinsDecode hm =>
    rw [hm] at hstop hdecoded
    exact ⟨hstop, hdecoded, hraws, hr, hd⟩
  | givesUp hm =>
    rw [hm] at hstop hdecoded
    exact ⟨hstop, hdecoded, hraws, hr, hd⟩

/-- The loop has printed as many lines as it was asked for, or fewer so far. -/
def Counted (run : JsonRun) (main : MainThread) (n : ℕ) : Prop :=
  match main with
  | .ending .counted _ => ∃ c, run.count = some c ∧ n = max c 1
  | _ => ∀ c, run.count = some c → n < max c 1

omit [Digests] in
theorem Counted.lt {c n : ℕ} {main : MainThread} (h : Counted run main n)
    (hm : ∀ phase, main ≠ .ending .counted phase) (hc : run.count = some c) : n < max c 1 := by
  unfold Counted at h
  split at h
  · exact absurd rfl (hm _)
  · exact h c hc

omit [Digests] in
theorem Counted.le {c n : ℕ} {main : MainThread} (h : Counted run main n) (hc : run.count = some c) :
    n ≤ max c 1 := by
  unfold Counted at h
  split at h
  · obtain ⟨c', hc', rfl⟩ := h
    rw [hc] at hc'
    cases hc'
    rfl
  · exact Nat.le_of_lt (h c hc)

/-- Nobody else sets the flag, and only a run with a duration can be out of time. -/
def Reason (run : JsonRun) (why : LoopEnd) : Prop :=
  why ≠ .stopped ∧ (why = .elapsed → run.duration.isSome = true)

/-- The source has the packets that were read before those it has left. -/
def SourceAfter (run : JsonRun) (source : PacketSource) (reads : List PcapPacket) : Prop :=
  match run.source with
  | .live => source = .live
  | .file packets => ∃ rest, source = .file rest ∧ packets = reads ++ rest

/-- Everything was read, and has been taken by the decode thread. -/
structure AllRead (run : JsonRun) (reads : List PcapPacket) (capture : CaptureThread)
    (raws : List RawPacket) (source : PacketSource) : Prop where
  capture : capture = .done
  taken : raws = run.numbered reads
  source : ∀ p rest, source ≠ .file (p :: rest)

/-- Where the packets that were read have got to, with the tables that were looked at. -/
structure Traced (run : JsonRun) (s : CapturePipeline F) (reads : List PcapPacket)
    (tables : List SocketTable) : Prop where
  phases : Phases s
  counter : s.counter = reads.length % 2 ^ 64
  source : SourceAfter run s.source reads
  handed : s.raws.isOpen = true → s.raws.received ++ s.capture.pending = run.numbered reads
  taken : s.raws.taken <+: run.numbered reads
  looked : tables.length = s.raws.taken.length
  tracker : (decodeAll (s.raws.taken.zip tables)).1 = s.tracker
  passed : s.decoded.isOpen = true →
    s.decoded.received ++ s.decode.pending = (decodeAll (F := F) (s.raws.taken.zip tables)).2
  shown : s.decoded.taken <+: (decodeAll (F := F) (s.raws.taken.zip tables)).2
  printed : s.lines <+: s.decoded.taken
  whole : s.main.hasFailed = false → s.lines = s.decoded.taken
  atEnd : s.capture = .done → s.stop = false → ∀ p rest, s.source ≠ .file (p :: rest)
  finished : s.decode = .done → s.stop = false →
    AllRead run reads s.capture s.raws.taken s.source
  complete : ∀ phase, s.main = .ending .disconnected phase →
    AllRead run reads s.capture s.raws.taken s.source ∧ s.lines = (decodeAll (F := F) (s.raws.taken.zip tables)).2
  counted : Counted run s.main s.lines.length
  reason : ∀ why phase, s.main = .ending why phase → Reason run why
  buffered : s.writer.buffer.length ≤ bufferCapacity
  written : s.main.hasFailed = false → s.writer.written = run.text s.lines
  output : s.writer.written <+:
    run.text ((decodeAll (F := F) (s.raws.taken.zip tables)).2.take (s.lines.length + 1))

section Steps

variable {reads reads' : List PcapPacket} {tables : List SocketTable}

theorem traced_start (run : JsonRun) : Traced run (start (F := F) run) [] [] where
  phases := ⟨rfl, rfl, by simp [start, Channel.new], Nat.zero_le _, Nat.zero_le _⟩
  counter := rfl
  source := by
    unfold SourceAfter start
    cases run.source with
    | live => rfl
    | file packets => exact ⟨packets, rfl, rfl⟩
  handed _ := rfl
  taken := List.nil_prefix
  looked := rfl
  tracker := rfl
  passed _ := rfl
  shown := List.nil_prefix
  printed := List.nil_prefix
  whole _ := rfl
  atEnd := by rintro ⟨⟩
  finished := by rintro ⟨⟩
  complete := by rintro _ ⟨⟩
  counted := fun c _ => Nat.lt_of_lt_of_le Nat.zero_lt_one (Nat.le_max_right c 1)
  reason := by rintro _ _ ⟨⟩
  buffered := Nat.zero_le _
  written _ := rfl
  output := List.nil_prefix

theorem Traced.running (h : Traced run s reads tables) (hc : s.capture ≠ .done) :
    (s.decode = .done → s.stop = true) ∧ ∀ phase, s.main ≠ .ending .disconnected phase := by
  constructor
  · intro hd
    cases hstop : s.stop with
    | true => rfl
    | false => exact absurd (h.finished hd hstop).capture hc
  · rintro phase hm
    exact hc (h.complete phase hm).1.capture

/-- A step of the capture thread. -/
theorem Traced.captured (h : Traced run s reads tables) (hc : s.capture ≠ .done)
    (hphases : Phases s') (hs : s' = { s with
      source := s'.source, counter := s'.counter, capture := s'.capture, raws := s'.raws })
    (htaken : s'.raws.taken = s.raws.taken) (hcounter : s'.counter = reads'.length % 2 ^ 64)
    (hsource : SourceAfter run s'.source reads')
    (hhanded : s'.raws.isOpen = true →
      s'.raws.received ++ s'.capture.pending = run.numbered reads')
    (hgrows : run.numbered reads <+: run.numbered reads')
    (hend : s'.capture = .done → s'.stop = false → ∀ p rest, s'.source ≠ .file (p :: rest)) :
    Traced run s' reads' tables := by
  obtain ⟨hrun, hmain⟩ := h.running hc
  obtain ⟨hstop', htracker', hdecode', hdecoded', hmain', hwriter', hlines'⟩ :
      s'.stop = s.stop ∧ s'.tracker = s.tracker ∧ s'.decode = s.decode ∧ s'.decoded = s.decoded ∧
        s'.main = s.main ∧ s'.writer = s.writer ∧ s'.lines = s.lines := by
    rw [hs]
    exact ⟨rfl, rfl, rfl, rfl, rfl, rfl, rfl⟩
  constructor
  · exact hphases
  · exact hcounter
  · exact hsource
  · exact hhanded
  · rw [htaken]
    exact h.taken.trans hgrows
  · rw [htaken]
    exact h.looked
  · rw [htaken, htracker']
    exact h.tracker
  · rw [htaken, hdecoded', hdecode']
    exact h.passed
  · rw [htaken, hdecoded']
    exact h.shown
  · rw [hlines', hdecoded']
    exact h.printed
  · rw [hlines', hdecoded', hmain']
    exact h.whole
  · exact hend
  · rw [hdecode', hstop']
    intro hd hstop
    rw [hrun hd] at hstop
    cases hstop
  · rw [hmain']
    exact fun phase hm => absurd hm (hmain phase)
  · rw [hmain', hlines']
    exact h.counted
  · rw [hmain']
    exact h.reason
  · rw [hwriter']
    exact h.buffered
  · rw [hwriter', hlines', hmain']
    exact h.written
  · rw [hwriter', hlines', htaken]
    exact h.output

theorem Traced.quit (h : Traced run s reads tables)
    (hpending : s.decoded.isOpen = true → s.decode.pending = [])
    (hfinished : s.stop = false → AllRead run reads s.capture s.raws.taken s.source) :
    Traced run s.quitDecode reads tables :=
  { h with
    phases := h.phases.quitDecode
    handed := by rintro ⟨⟩
    passed := fun ho => by
      have hpassed := h.passed ho
      rw [hpending ho] at hpassed
      exact hpassed
    finished := fun _ => hfinished }

/-- The decode thread takes a packet. -/
theorem Traced.decodes (h : Traced run s reads tables) {raw : RawPacket} {queue : List RawPacket}
    {table : SocketTable} {tracker : FlowTracker F} {pkt : DecodedPacket}
    (hd : s.decode = .receiving) (hqueue : s.raws.queue = raw :: queue)
    (hturn : decodeTurn s.tracker raw table = ok (tracker, pkt))
    (hphases : Phases { s with raws := s.raws.recv, tracker, decode := .sending pkt }) :
    Traced run { s with raws := s.raws.recv, tracker, decode := .sending pkt } reads
      (tables ++ [table]) := by
  have htaken : s.raws.recv.taken = s.raws.taken ++ [raw] := Channel.taken_recv hqueue
  have hopen : s.raws.isOpen = true := by
    rw [← Bool.not_eq_false, h.phases.raws, hd]
    rintro ⟨⟩
  have hhanded := h.handed hopen
  have hall : decodeAll (F := F) (s.raws.recv.taken.zip (tables ++ [table])) =
      (tracker, (decodeAll (F := F) (s.raws.taken.zip tables)).2 ++ [pkt]) := by
    rw [htaken, List.zip_append h.looked.symm, List.zip_cons_cons, List.zip_nil_right,
      decodeAll_concat, decodeMore, h.tracker, hturn]
  have hnot : ¬ AllRead run reads s.capture s.raws.taken s.source := by
    rintro ⟨-, hall, -⟩
    rw [← hhanded, Channel.received, hqueue] at hall
    have hlen := congrArg List.length hall
    simp at hlen
  constructor
  · exact hphases
  · exact h.counter
  · exact h.source
  · rintro -
    rw [Channel.received_recv]
    exact hhanded
  · rw [htaken, ← hhanded, Channel.received, hqueue]
    exact ⟨queue ++ s.capture.pending, by simp⟩
  · rw [htaken, List.length_append, List.length_append, h.looked]
    rfl
  · rw [hall]
  · intro ho
    have hpassed := h.passed ho
    rw [hd, DecodeThread.pending.eq_def, List.append_nil] at hpassed
    rw [hall, ← hpassed]
    rfl
  · rw [hall]
    exact h.shown.trans (List.prefix_append _ _)
  · exact h.printed
  · exact h.whole
  · exact h.atEnd
  · rintro ⟨⟩
  · rintro phase hm
    exact absurd (h.complete phase hm).1 hnot
  · exact h.counted
  · exact h.reason
  · exact h.buffered
  · exact h.written
  · rw [hall]
    exact h.output.trans (run.text_prefix ((List.prefix_append _ _).take _))

theorem Traced.took (h : Traced run s reads tables) {pkt : DecodedPacket}
    {queue : List DecodedPacket} (hm : s.main = .printing) (hqueue : s.decoded.queue = pkt :: queue) :
    s.decoded.recv.taken = s.lines ++ [pkt] ∧
      s.lines ++ [pkt] <+: (decodeAll (F := F) (s.raws.taken.zip tables)).2 := by
  have hwhole : s.lines = s.decoded.taken := h.whole (by rw [hm]; rfl)
  have hopen : s.decoded.isOpen = true := by
    rw [h.phases.decoded, hm]
    rfl
  constructor
  · rw [hwhole, Channel.taken_recv hqueue]
  · rw [hwhole, ← h.passed hopen, Channel.received, hqueue]
    exact ⟨queue ++ s.decode.pending, by simp⟩

theorem Traced.wrote (h : Traced run s reads tables) {pkt : DecodedPacket}
    {queue : List DecodedPacket} {room : Option ℕ} {ok : Bool} {writer : BufWriter}
    (hm : s.main = .printing) (hqueue : s.decoded.queue = pkt :: queue)
    (hwrite : run.writeJsonLine (s.writer.under room) pkt = (ok, writer)) :
    writer.buffer.length ≤ bufferCapacity ∧
      (ok = true → writer.written = run.text (s.lines ++ [pkt])) ∧
      writer.written <+:
        run.text ((decodeAll (F := F) (s.raws.taken.zip tables)).2.take (s.lines.length + 1)) := by
  obtain ⟨horder, -, hwhole, hfits, -⟩ := run.takes_writeJsonLine (s.writer.under room) pkt
  have hwritten := h.written (by rw [hm]; rfl)
  rw [hwrite, BufWriter.written_under, hwritten, ← run.text_concat] at horder hwhole
  rw [hwrite] at hfits
  have hshown := (h.took hm hqueue).2
  have htake : s.lines ++ [pkt] <+:
      (decodeAll (F := F) (s.raws.taken.zip tables)).2.take (s.lines.length + 1) :=
    List.prefix_take_iff.mpr ⟨hshown, (List.length_append ..).le⟩
  exact ⟨hfits h.buffered, hwhole, horder.trans (run.text_prefix htake)⟩

/-- The loop hands a line over to the writer. -/
theorem Traced.handsOver (h : Traced run s reads tables) {pkt : DecodedPacket}
    {queue : List DecodedPacket} {room : Option ℕ} {writer : BufWriter} {main : MainThread}
    (hm : s.main = .printing) (hqueue : s.decoded.queue = pkt :: queue)
    (hwrite : run.writeJsonLine (s.writer.under room) pkt = (true, writer))
    (hmain : main = .printing ∨ main = .ending .counted .leaving)
    (hcounted : Counted run main (s.lines.length + 1))
    (hphases : Phases { s with
      decoded := s.decoded.recv, writer, lines := s.lines ++ [pkt], main }) :
    Traced run { s with decoded := s.decoded.recv, writer, lines := s.lines ++ [pkt], main }
      reads tables := by
  obtain ⟨htaken, hshown⟩ := h.took hm hqueue
  obtain ⟨hbuffered, hwritten, houtput⟩ := h.wrote hm hqueue hwrite
  rw [← htaken] at hshown
  have hlen : (s.lines ++ [pkt]).length = s.lines.length + 1 := List.length_append
  rw [← hlen] at hcounted
  refine { h with
    phases := hphases
    passed := fun ho => ?_
    shown := hshown
    printed := by rw [htaken]
    whole := fun _ => htaken.symm
    complete := ?_
    counted := hcounted
    reason := ?_
    buffered := hbuffered
    written := fun _ => hwritten rfl
    output := houtput.trans (run.text_prefix (List.take_prefix_take_left ?_)) }
  · rw [Channel.received_recv]
    exact h.passed (by simpa using ho)
  · rintro phase rfl
    rcases hmain with hmain | hmain <;> cases hmain
  · rintro why phase rfl
    rcases hmain with hmain | hmain <;> cases hmain
    exact ⟨by rintro ⟨⟩, by rintro ⟨⟩⟩
  · rw [hlen]
    exact Nat.le_add_right _ _

theorem Traced.flushed (h : Traced run s reads tables) (room : Option ℕ) :
    Traced run { s with writer := (s.writer.under room).flushBuf } reads tables :=
  { h with
    phases := ⟨h.phases.stop, h.phases.decoded, h.phases.raws, h.phases.rawsRoom, h.phases.decodedRoom⟩
    buffered := (BufWriter.length_flushBuf_le _).trans h.buffered
    written := fun hm => by
      rw [BufWriter.written_flushBuf, BufWriter.written_under]
      exact h.written hm
    output := by
      rw [BufWriter.written_flushBuf, BufWriter.written_under]
      exact h.output }

theorem Traced.endsLoop (h : Traced run s reads tables) {why : LoopEnd} (hm : s.main = .printing)
    (hwhy : why ≠ .counted) (hreason : Reason run why)
    (hcomplete : why = .disconnected → AllRead run reads s.capture s.raws.taken s.source ∧
      s.lines = (decodeAll (F := F) (s.raws.taken.zip tables)).2)
    (hphases : Phases { s with main := .ending why .leaving }) :
    Traced run { s with main := .ending why .leaving } reads tables :=
  { h with
    phases := hphases
    whole := fun _ => h.whole (by rw [hm]; rfl)
    written := fun _ => h.written (by rw [hm]; rfl)
    complete := by
      rintro phase ⟨⟩
      exact hcomplete rfl
    counted := by
      have hcounted := h.counted
      unfold Counted
      split
      · next heq =>
        cases heq
        exact absurd rfl hwhy
      · rintro c hc
        exact hcounted.lt (by rw [hm]; rintro phase ⟨⟩) hc
    reason := by
      rintro _ _ ⟨⟩
      exact hreason }

theorem Traced.goesOn (h : Traced run s reads tables) {why : LoopEnd} {phase phase' : ExitPhase}
    {stop : Bool} {decoded : Channel DecodedPacket} (hm : s.main = .ending why phase)
    (hstop : stop = false → s.stop = false) (htaken : decoded.taken = s.decoded.taken)
    (hopen : decoded.isOpen = true → decoded = s.decoded)
    (hphases : Phases { s with stop, decoded, main := .ending why phase' }) :
    Traced run { s with stop, decoded, main := .ending why phase' } reads tables := by
  constructor
  · exact hphases
  · exact h.counter
  · exact h.source
  · exact h.handed
  · exact h.taken
  · exact h.looked
  · exact h.tracker
  · intro ho
    have hsame : decoded = s.decoded := hopen ho
    subst hsame
    exact h.passed ho
  · rw [htaken]
    exact h.shown
  · rw [htaken]
    exact h.printed
  · rintro -
    rw [htaken]
    exact h.whole (by rw [hm]; rfl)
  · exact fun hc hs => h.atEnd hc (hstop hs)
  · exact fun hd hs => h.finished hd (hstop hs)
  · rintro _ ⟨⟩
    exact h.complete phase hm
  · have hcounted := h.counted
    rw [hm] at hcounted
    cases why <;> exact hcounted
  · rintro _ _ ⟨⟩
    exact h.reason why phase hm
  · exact h.buffered
  · exact fun _ => h.written (by rw [hm]; rfl)
  · exact h.output

omit [Digests] [F64 F] in
theorem SourceAfter.advance {p : PcapPacket} {source : PacketSource} {r : NextPacket}
    (h : SourceAfter run s.source reads) (hnext : s.source.next r = (.packet p, source)) :
    SourceAfter run source (reads ++ [p]) := by
  unfold SourceAfter at *
  cases hrun : run.source with
  | live =>
    simp only [hrun] at h ⊢
    rw [h] at hnext
    cases hnext
    rfl
  | file packets =>
    simp only [hrun] at h ⊢
    obtain ⟨rest, hs, hpackets⟩ := h
    rw [hs] at hnext
    cases rest with
    | nil => cases hnext
    | cons q rest =>
      cases hnext
      exact ⟨rest, rfl, by rw [hpackets, List.append_assoc]; rfl⟩

/-- Every step carries the trace on. -/
theorem Traced.moved (h : Traced run s reads tables) (hmoved : Moved run s th s' rd tb) :
    Traced run s' (reads ++ rd.toList) (tables ++ tb.toList) := by
  have hphases := h.phases.moved hmoved
  cases hmoved with
  | idle => simpa using h
  | captureChecks hc hstop =>
    simp only [Option.toList_none, List.append_nil]
    have hhanded := h.handed
    rw [hc] at hhanded
    exact h.captured (by rw [hc]; rintro ⟨⟩) hphases rfl rfl h.counter h.source hhanded
      (List.prefix_refl _) (by rintro ⟨⟩)
  | captureStops hc hstop =>
    simp only [Option.toList_none, List.append_nil]
    have hhanded := h.handed
    rw [hc] at hhanded
    exact h.captured (by rw [hc]; rintro ⟨⟩) hphases rfl rfl h.counter h.source hhanded
      (List.prefix_refl _) fun _ hs => absurd (hs.symm.trans hstop) Bool.false_ne_true
  | reads r hc hnext =>
    simp only [Option.toList_some, Option.toList_none, List.append_nil]
    have hhanded := h.handed
    rw [hc, CaptureThread.pending.eq_def, List.append_nil] at hhanded
    refine h.captured (by rw [hc]; rintro ⟨⟩) hphases rfl rfl ?_ (SourceAfter.advance h.source hnext) ?_ ?_
      (by rintro ⟨⟩)
    · simp [h.counter]
    · intro ho
      rw [run.numbered_concat, ← hhanded ho, h.counter]
      rfl
    · rw [run.numbered_concat]
      exact List.prefix_append _ _
  | timesOut hc hlive =>
    simp only [Option.toList_none, List.append_nil]
    have hhanded := h.handed
    rw [hc] at hhanded
    exact h.captured (by rw [hc]; rintro ⟨⟩) hphases rfl rfl h.counter h.source hhanded
      (List.prefix_refl _) (by rintro ⟨⟩)
  | captureEnds hc hrest =>
    simp only [Option.toList_none, List.append_nil]
    have hhanded := h.handed
    rw [hc] at hhanded
    exact h.captured (by rw [hc]; rintro ⟨⟩) hphases rfl rfl h.counter h.source hhanded
      (List.prefix_refl _) fun _ _ => hrest
  | sends hc ho hroom =>
    simp only [Option.toList_none, List.append_nil]
    refine h.captured (by rw [hc]; rintro ⟨⟩) hphases rfl (Channel.taken_push _ _) h.counter
      h.source (fun _ => ?_) (List.prefix_refl _) (by rintro ⟨⟩)
    have hhanded := h.handed ho
    rw [hc] at hhanded
    rw [Channel.received_push ho, CaptureThread.pending.eq_def, List.append_nil]
    exact hhanded
  | drops hc ho =>
    simp only [Option.toList_none, List.append_nil]
    have hne : s.capture ≠ .done := by rw [hc]; rintro ⟨⟩
    have hstop := (h.running hne).1 (h.phases.raws.mp ho)
    refine h.captured hne hphases rfl rfl h.counter h.source (fun ho' => ?_) (List.prefix_refl _)
      fun _ hs => absurd (hs.symm.trans hstop) Bool.false_ne_true
    exact absurd (ho.symm.trans ho') Bool.false_ne_true
  | decodeChecks hd hstop =>
    simp only [Option.toList_none, List.append_nil]
    have hpassed := h.passed
    rw [hd] at hpassed
    exact { h with phases := hphases, passed := hpassed, finished := by rintro ⟨⟩ }
  | decodeStops hd hstop =>
    simp only [Option.toList_none, List.append_nil]
    exact h.quit (fun _ => by rw [hd]; rfl) fun hs => absurd (hs.symm.trans hstop) Bool.false_ne_true
  | decodes hd hqueue hturn =>
    simp only [Option.toList_none, Option.toList_some, List.append_nil]
    exact h.decodes hd hqueue hturn hphases
  | decodeWaits hd hqueue hc =>
    simp only [Option.toList_none, List.append_nil]
    have hpassed := h.passed
    rw [hd] at hpassed
    exact { h with phases := hphases, passed := hpassed, finished := by rintro ⟨⟩ }
  | decodeEnds hd hqueue hc =>
    simp only [Option.toList_none, List.append_nil]
    refine h.quit (fun _ => by rw [hd]; rfl) fun hs => ⟨hc, ?_, h.atEnd hc hs⟩
    have hopen : s.raws.isOpen = true := by
      rw [← Bool.not_eq_false, h.phases.raws, hd]
      rintro ⟨⟩
    have hhanded := h.handed hopen
    rw [hc, Channel.received, hqueue] at hhanded
    simpa [CaptureThread.pending] using hhanded
  | delivers hd ho hroom =>
    simp only [Option.toList_none, List.append_nil]
    have hpassed := h.passed ho
    rw [hd] at hpassed
    have hshown := h.shown
    have hprinted := h.printed
    have hwhole := h.whole
    rw [← Channel.taken_push] at hshown hprinted hwhole
    refine { h with
      phases := hphases, passed := fun _ => ?_, finished := by rintro ⟨⟩, shown := hshown,
      printed := hprinted, whole := hwhole }
    rw [Channel.received_push ho, DecodeThread.pending.eq_def, List.append_nil]
    exact hpassed
  | refused hd ho =>
    simp only [Option.toList_none, List.append_nil]
    refine h.quit (fun ho' => absurd (ho.symm.trans ho') Bool.false_ne_true) fun hs => ?_
    exact absurd (hs.symm.trans (h.phases.stop_of_closed ho)) Bool.false_ne_true
  | prints hm hqueue hwrite hcount =>
    simp only [Option.toList_none, List.append_nil]
    refine h.handsOver hm hqueue hwrite (Or.inl hm) ?_ hphases
    rw [hm]
    exact fun c hc => Nat.lt_of_lt_of_le (hcount c hc) (Nat.le_max_left c 1)
  | printsLast hm hqueue hwrite hcount hlast =>
    simp only [Option.toList_none, List.append_nil]
    refine h.handsOver hm hqueue hwrite (Or.inr rfl) ⟨_, hcount, ?_⟩ hphases
    have hlt := h.counted.lt (by rw [hm]; rintro phase ⟨⟩) hcount
    omega
  | fails hm hqueue hwrite =>
    simp only [Option.toList_none, List.append_nil]
    obtain ⟨htaken, hshown⟩ := h.took hm hqueue
    obtain ⟨hbuffered, -, houtput⟩ := h.wrote hm hqueue hwrite
    rw [← htaken] at hshown
    refine { h with
      phases := hphases
      passed := fun ho => ?_
      shown := hshown
      printed := by rw [htaken]; exact List.prefix_append _ _
      whole := by rintro ⟨⟩
      complete := by rintro phase ⟨⟩
      counted := fun c hc => h.counted.lt (by rw [hm]; rintro phase ⟨⟩) hc
      reason := by rintro _ _ ⟨⟩
      buffered := hbuffered
      written := by rintro ⟨⟩
      output := houtput }
    rw [Channel.received_recv]
    exact h.passed (by simpa using ho)
  | interrupted hm hwhy =>
    simp only [Option.toList_none, List.append_nil]
    rcases hwhy with ⟨rfl, hstop⟩ | ⟨rfl, hsome⟩
    · rw [h.phases.stop, hm] at hstop
      cases hstop
    · exact h.endsLoop hm (by rintro ⟨⟩) ⟨by rintro ⟨⟩, fun _ => hsome⟩ (by rintro ⟨⟩) hphases
  | loopEnds hm hstop hqueue hd =>
    simp only [Option.toList_none, List.append_nil]
    refine h.endsLoop hm (by rintro ⟨⟩) ⟨by rintro ⟨⟩, by rintro ⟨⟩⟩ (fun _ => ⟨h.finished hd hstop, ?_⟩) hphases
    have hopen : s.decoded.isOpen = true := by
      rw [h.phases.decoded, hm]
      rfl
    have hwhole : s.lines = s.decoded.taken := h.whole (by rw [hm]; rfl)
    rw [hwhole, ← h.passed hopen, Channel.received, hqueue, hd]
    simp [DecodeThread.pending]
  | leaves hm =>
    simp only [Option.toList_none, List.append_nil]
    exact h.goesOn hm (by rintro ⟨⟩) rfl (fun _ => rfl) hphases
  | @flushes _ room hm =>
    simp only [Option.toList_none, List.append_nil]
    exact (h.flushed room).goesOn hm id rfl (fun _ => rfl) hphases
  | hangsUp hm =>
    simp only [Option.toList_none, List.append_nil]
    exact h.goesOn hm id rfl (by rintro ⟨⟩) hphases
  | joinsCapture hm hc =>
    simp only [Option.toList_none, List.append_nil]
    exact h.goesOn hm id rfl (fun _ => rfl) hphases
  | joinsDecode hm hd =>
    simp only [Option.toList_none, List.append_nil]
    exact h.goesOn hm id rfl (fun _ => rfl) hphases
  | @givesUp room hm =>
    simp only [Option.toList_none, List.append_nil]
    exact { h.flushed room with
      phases := hphases
      whole := by rintro ⟨⟩
      complete := by rintro phase ⟨⟩
      counted := fun c hc => h.counted.lt (by rw [hm]; rintro phase ⟨⟩) hc
      reason := by rintro _ _ ⟨⟩
      written := by rintro ⟨⟩ }

end Steps

section Runs

variable (F) (r : JsonRun) (moves : List PipelineMove)

/-- The packets that were read, in order. -/
def readIn : List PcapPacket := logOf (step r) reads? (start (F := F) r) moves

/-- The tables that the decode thread looked at, in order. -/
def tablesIn : List SocketTable := logOf (step r) takes? (start (F := F) r) moves

/-- What one thread would make of the packets that were read. -/
def expected : List DecodedPacket :=
  (decodeAll (F := F) ((r.numbered (readIn F r moves)).zip (tablesIn F r moves))).2

variable {F}

theorem traced_run : Traced r (CapturePipeline.run (F := F) r moves) (readIn F r moves)
    (tablesIn F r moves) := by
  induction moves using List.reverseRecOn with
  | nil => exact traced_start r
  | append_singleton moves m ih =>
    have hmoved := (CapturePipeline.run (F := F) r moves).moved_step r m
    have h := ih.moved hmoved
    rw [CapturePipeline.run, List.foldl_append, List.foldl_cons, List.foldl_nil]
    rw [readIn, tablesIn, logOf_concat, logOf_concat]
    exact h

variable {r moves}

theorem decodeAll_taken {s : CapturePipeline F} {reads : List PcapPacket}
    {tables : List SocketTable} (h : Traced r s reads tables) :
    s.raws.taken.zip tables = (r.numbered reads).zip tables := by
  obtain ⟨rest, hrest⟩ := h.taken
  have hzip : (s.raws.taken ++ rest).zip (tables ++ []) =
      s.raws.taken.zip tables ++ rest.zip [] := List.zip_append h.looked.symm
  rw [hrest, List.append_nil, List.zip_nil_right, List.append_nil] at hzip
  exact hzip.symm

/-- A line shows a packet that was read, under its number. -/
def Shows (r : JsonRun) (i : ℕ) (p : PcapPacket) (pkt : DecodedPacket) : Prop :=
  ∃ decoded, decodePacket (r.rawPacket (i % 2 ^ 64) p) = ok decoded ∧
    pkt = { decoded with
      summary := pkt.summary, process := pkt.process, retransmission := pkt.retransmission }

theorem shows_decodeTurn {tracker tracker' : FlowTracker F} {i : ℕ} {p : PcapPacket}
    {table : SocketTable} {pkt : DecodedPacket}
    (h : decodeTurn tracker (r.rawPacket (i % 2 ^ 64) p) table = ok (tracker', pkt)) :
    Shows r i p pkt := by
  obtain ⟨decoded, hdecoded, h⟩ := bind_eq_ok.mp h
  refine ⟨decoded, hdecoded, ?_⟩
  have hupdate : (tracker.update decoded).2.1 = decoded ∨
      (tracker.update decoded).2.1 = FlowTracker.markRetransmission decoded := by
    unfold FlowTracker.update
    split
    · exact Or.inl rfl
    · dsimp only
      split_ifs <;> simp
  generalize tracker.update decoded = u at h hupdate
  obtain ⟨_, marked, _⟩ := u
  cases h
  rcases hupdate with rfl | rfl <;> rfl

theorem shows_decodeAll {reads : List PcapPacket} {tables : List SocketTable} {i : ℕ}
    {pkt : DecodedPacket}
    (h : (decodeAll (F := F) ((r.numbered reads).zip tables)).2[i]? = some pkt) :
    ∃ p, reads[i]? = some p ∧ Shows r i p pkt := by
  obtain ⟨⟨raw, table⟩, t, t', hzip, hturn⟩ := exists_turn h
  obtain ⟨hraw, -⟩ := List.getElem?_zip_eq_some.mp hzip
  rw [JsonRun.numbered, List.getElem?_mapIdx] at hraw
  obtain ⟨p, hp, rfl⟩ := Option.map_eq_some_iff.mp hraw
  exact ⟨p, hp, shows_decodeTurn hturn⟩

/-- What the main thread has printed, wherever the threads are: the lines that it has handed to the
writer, and of their text what the output has taken. -/
structure Printed (r : JsonRun) (s : CapturePipeline F) (reads : List PcapPacket)
    (expected : List DecodedPacket) : Prop where
  inOrder : s.lines <+: expected
  shows : ∀ i pkt, s.lines[i]? = some pkt → ∃ p, reads[i]? = some p ∧ Shows r i p pkt
  bounded : s.raws.queue.length ≤ channelCapacity ∧ s.decoded.queue.length ≤ channelCapacity
  buffered : s.writer.buffer.length ≤ bufferCapacity
  /-- Until a write fails, what is not in the output yet is in the buffer. -/
  written : s.main.hasFailed = false → s.writer.inner.taken ++ s.writer.buffer = r.text s.lines
  /-- After a failure too, the output has at most a part of one line more. -/
  output : s.writer.inner.taken <+: r.text (expected.take (s.lines.length + 1))
  /-- The drop of the writer hands the rest on, and an output that takes it has all lines. -/
  dropped : ∀ why elapsedSecs, s.main = .ending why .flushing →
    (step r s (.main elapsedSecs none)).writer.inner.taken = r.text s.lines
  counted : ∀ c, r.count = some c →
    s.lines.length ≤ max c 1 ∧ s.writer.inner.taken <+: r.text (expected.take (max c 1))
  reached : ∀ phase, s.main = .ending .counted phase →
    ∃ c, r.count = some c ∧ s.lines.length = max c 1
  complete : ∀ phase, s.main = .ending .disconnected phase →
    s.capture = .done ∧ s.lines = expected ∧ s.lines.length = reads.length
  reason : ∀ why phase, s.main = .ending why phase → Reason r why

omit [Digests] in
theorem Counted.atMost {c : ℕ} {lines all : List DecodedPacket} {main : MainThread}
    {writer : BufWriter} (h : Counted run main lines.length) (hc : run.count = some c)
    (hlines : lines <+: all) (hwritten : main.hasFailed = false → writer.written = run.text lines)
    (houtput : writer.written <+: run.text (all.take (lines.length + 1))) :
    writer.inner.taken <+: run.text (all.take (max c 1)) := by
  refine (List.prefix_append _ writer.buffer).trans ?_
  cases hm : main.hasFailed with
  | false =>
    have hall := run.text_prefix (List.prefix_take_iff.mpr ⟨hlines, h.le hc⟩)
    rwa [← hwritten hm] at hall
  | true =>
    have hlt := h.lt (by rintro phase rfl; cases hm) hc
    exact houtput.trans (run.text_prefix (List.take_prefix_take_left hlt))

theorem taken_drop {why : LoopEnd} (hm : s.main = .ending why .flushing) (elapsedSecs : ℕ) :
    (step run s (.main elapsedSecs none)).writer.inner.taken = s.writer.written := by
  have hstep : step run s (.main elapsedSecs none) = s.dropWriter none (.ending why .dropping) := by
    unfold step
    rw [if_neg (by rw [hm]; rintro ⟨⟩)]
    change mainStep _ _ _ _ = _
    rw [mainStep, hm]
  have hempty := @BufWriter.buffer_flushBuf (s.writer.under none) rfl
  have hwritten := (s.writer.under none).written_flushBuf
  rw [BufWriter.written, hempty, List.append_nil, BufWriter.written_under] at hwritten
  rw [hstep]
  exact hwritten

/-- However the threads interleave, what is printed are the first packets that were read. -/
theorem capture_prints (r : JsonRun) (moves : List PipelineMove) :
    Printed r (CapturePipeline.run (F := F) r moves) (readIn F r moves) (expected F r moves) := by
  have h := traced_run (F := F) r moves
  have hexpected : (decodeAll (F := F) ((CapturePipeline.run (F := F) r moves).raws.taken.zip
      (tablesIn F r moves))).2 = expected F r moves := by
    rw [decodeAll_taken h, expected]
  have hlines := h.printed.trans h.shown
  rw [hexpected] at hlines
  constructor
  · exact hlines
  · rintro i pkt hpkt
    obtain ⟨rest, hrest⟩ := hlines
    have hlt := (List.getElem?_eq_some_iff.mp hpkt).1
    have hget : (expected F r moves)[i]? = some pkt := by
      rw [← hrest, List.getElem?_append_left hlt]
      exact hpkt
    exact shows_decodeAll hget
  · exact ⟨h.phases.rawsRoom, h.phases.decodedRoom⟩
  · exact h.buffered
  · exact h.written
  · have houtput := h.output
    rw [hexpected] at houtput
    exact (List.prefix_append _ _).trans houtput
  · rintro why elapsedSecs hm
    rw [taken_drop hm, h.written (by rw [hm]; rfl)]
  · rintro c hc
    have houtput := h.output
    rw [hexpected] at houtput
    exact ⟨h.counted.le hc, h.counted.atMost hc hlines h.written houtput⟩
  · rintro phase hm
    have hcounted := h.counted
    rw [hm] at hcounted
    exact hcounted
  · rintro phase hm
    obtain ⟨hall, hsame⟩ := h.complete phase hm
    rw [hexpected] at hsame
    refine ⟨hall.capture, hsame, ?_⟩
    rw [hsame, ← hexpected, length_decodeAll, List.length_zip, h.looked, hall.taken,
      JsonRun.length_numbered, Nat.min_self]
  · exact h.reason

end Runs

end CapturePipeline

end Pktscope

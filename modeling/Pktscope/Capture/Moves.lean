import Pktscope.Capture.Threads

/-! # What the capture threads can do

Every step of a thread is one of a few, and each says what it found and what it
changes. The flag and the ends of the channels follow where the threads are.
-/

namespace Pktscope

open Library Parse

/-- What the capture thread has still to send. -/
def CaptureThread.pending : CaptureThread → List RawPacket
  | .sending raw => [raw]
  | _ => []

/-- What the decode thread has still to send. -/
def DecodeThread.pending : DecodeThread → List DecodedPacket
  | .sending pkt => [pkt]
  | _ => []

/-- Whether the main thread still holds its receiver. -/
def MainThread.receives : MainThread → Bool
  | .ending _ .leaving | .ending _ .flushing | .ending _ .dropping => true
  | .ending _ _ => false
  | _ => true

/-- Whether the main thread has set the flag. -/
def MainThread.hasStopped : MainThread → Bool
  | .ending _ .leaving => false
  | .ending _ _ => true
  | _ => false

/-- Whether a line could not be written. -/
def MainThread.hasFailed : MainThread → Bool
  | .failing | .failed => true
  | _ => false

inductive PipelineThread where
  | capture
  | decode
  | main

def PipelineMove.thread : PipelineMove → PipelineThread
  | .capture _ => .capture
  | .decode _ => .decode
  | .main _ _ => .main

namespace CapturePipeline

variable {F : Type}

/-- Whether a thread finds something to do: no channel keeps it waiting, and no other thread. -/
def Ready (s : CapturePipeline F) : PipelineThread → Prop
  | .capture =>
    match s.capture with
    | .sending _ => s.raws.isOpen = true → s.raws.queue.length < channelCapacity
    | .done => False
    | _ => True
  | .decode =>
    match s.decode with
    | .sending _ => s.decoded.isOpen = true → s.decoded.queue.length < channelCapacity
    | .done => False
    | _ => s.stop = true ∨ s.raws.queue ≠ [] ∨ s.capture = .done
  | .main =>
    match s.main with
    | .printing => s.decoded.queue ≠ [] ∨ s.decode = .done
    | .ending _ .joinCapture => s.capture = .done
    | .ending _ .joinDecode => s.decode = .done
    | .ending _ .exited => False
    | .failed => False
    | _ => True

variable [Digests] [F64 F]

/-- The steps of the threads, with the packet that was read and the table that was looked at. -/
inductive Moved (run : JsonRun) (s : CapturePipeline F) : PipelineThread →
    CapturePipeline F → Option PcapPacket → Option SocketTable → Prop
  | idle {t : PipelineThread} (hidle : s.main = .failed ∨ ¬ s.Ready t) : Moved run s t s none none
  | captureChecks (hc : s.capture = .looping) (hstop : s.stop = false) :
      Moved run s .capture { s with capture := .reading } none none
  | captureStops (hc : s.capture = .looping) (hstop : s.stop = true) :
      Moved run s .capture { s with capture := .done } none none
  | reads {p : PcapPacket} {source : PacketSource} (r : NextPacket) (hc : s.capture = .reading)
      (hnext : s.source.next r = (.packet p, source)) :
      Moved run s .capture { s with
        source
        counter := (s.counter + 1) % 2 ^ 64
        capture := .sending (run.rawPacket s.counter p) } (some p) none
  | timesOut (hc : s.capture = .reading) (hlive : s.source = .live) :
      Moved run s .capture { s with capture := .looping } none none
  | captureEnds (hc : s.capture = .reading) (hrest : ∀ p rest, s.source ≠ .file (p :: rest)) :
      Moved run s .capture { s with capture := .done } none none
  | sends {raw : RawPacket} (hc : s.capture = .sending raw) (ho : s.raws.isOpen = true)
      (hroom : s.raws.queue.length < channelCapacity) :
      Moved run s .capture { s with raws := s.raws.push raw, capture := .looping } none none
  | drops {raw : RawPacket} (hc : s.capture = .sending raw) (ho : s.raws.isOpen = false) :
      Moved run s .capture { s with capture := .done } none none
  | decodeChecks (hd : s.decode = .looping) (hstop : s.stop = false) :
      Moved run s .decode { s with decode := .receiving } none none
  | decodeStops (hd : s.decode = .looping) (hstop : s.stop = true) :
      Moved run s .decode s.quitDecode none none
  | decodes {raw : RawPacket} {queue : List RawPacket} {table : SocketTable}
      {tracker : FlowTracker F} {pkt : DecodedPacket} (hd : s.decode = .receiving)
      (hqueue : s.raws.queue = raw :: queue)
      (hturn : decodeTurn s.tracker raw table = ok (tracker, pkt)) :
      Moved run s .decode { s with raws := s.raws.recv, tracker, decode := .sending pkt } none (some table)
  | decodeWaits (hd : s.decode = .receiving) (hqueue : s.raws.queue = []) (hc : s.capture ≠ .done) :
      Moved run s .decode { s with decode := .looping } none none
  | decodeEnds (hd : s.decode = .receiving) (hqueue : s.raws.queue = []) (hc : s.capture = .done) :
      Moved run s .decode s.quitDecode none none
  | delivers {pkt : DecodedPacket} (hd : s.decode = .sending pkt) (ho : s.decoded.isOpen = true)
      (hroom : s.decoded.queue.length < channelCapacity) :
      Moved run s .decode { s with decoded := s.decoded.push pkt, decode := .looping } none none
  | refused {pkt : DecodedPacket} (hd : s.decode = .sending pkt) (ho : s.decoded.isOpen = false) :
      Moved run s .decode s.quitDecode none none
  | prints {pkt : DecodedPacket} {queue : List DecodedPacket} {room : Option ℕ} {writer : BufWriter}
      (hm : s.main = .printing) (hqueue : s.decoded.queue = pkt :: queue)
      (hwrite : run.writeJsonLine (s.writer.under room) pkt = (true, writer))
      (hcount : ∀ c, run.count = some c → s.lines.length + 1 < c) :
      Moved run s .main { s with decoded := s.decoded.recv, writer, lines := s.lines ++ [pkt] } none none
  | printsLast {pkt : DecodedPacket} {queue : List DecodedPacket} {room : Option ℕ}
      {writer : BufWriter} {c : ℕ} (hm : s.main = .printing) (hqueue : s.decoded.queue = pkt :: queue)
      (hwrite : run.writeJsonLine (s.writer.under room) pkt = (true, writer))
      (hcount : run.count = some c) (hlast : c ≤ s.lines.length + 1) :
      Moved run s .main { s with
        decoded := s.decoded.recv
        writer
        lines := s.lines ++ [pkt]
        main := .ending .counted .leaving } none none
  | fails {pkt : DecodedPacket} {queue : List DecodedPacket} {room : Option ℕ} {writer : BufWriter}
      (hm : s.main = .printing) (hqueue : s.decoded.queue = pkt :: queue)
      (hwrite : run.writeJsonLine (s.writer.under room) pkt = (false, writer)) :
      Moved run s .main { s with decoded := s.decoded.recv, writer, main := .failing } none none
  | interrupted {why : LoopEnd} (hm : s.main = .printing) (hwhy : why = .stopped ∧ s.stop = true ∨
      why = .elapsed ∧ run.duration.isSome = true) :
      Moved run s .main { s with main := .ending why .leaving } none none
  | loopEnds (hm : s.main = .printing) (hstop : s.stop = false) (hqueue : s.decoded.queue = [])
      (hd : s.decode = .done) :
      Moved run s .main { s with main := .ending .disconnected .leaving } none none
  | leaves {why : LoopEnd} (hm : s.main = .ending why .leaving) :
      Moved run s .main { s with stop := true, main := .ending why .flushing } none none
  | flushes {why : LoopEnd} {room : Option ℕ} (hm : s.main = .ending why .flushing) :
      Moved run s .main (s.dropWriter room (.ending why .dropping)) none none
  | hangsUp {why : LoopEnd} (hm : s.main = .ending why .dropping) :
      Moved run s .main { s with decoded := s.decoded.hangup, main := .ending why .joinCapture } none none
  | joinsCapture {why : LoopEnd} (hm : s.main = .ending why .joinCapture) (hc : s.capture = .done) :
      Moved run s .main { s with main := .ending why .joinDecode } none none
  | joinsDecode {why : LoopEnd} (hm : s.main = .ending why .joinDecode) (hd : s.decode = .done) :
      Moved run s .main { s with main := .ending why .exited } none none
  | givesUp {room : Option ℕ} (hm : s.main = .failing) :
      Moved run s .main (s.dropWriter room .failed) none none

section Inversion

variable (run : JsonRun) (s : CapturePipeline F)

theorem moved_capture (r : NextPacket) :
    Moved run s .capture (s.captureStep run r) (s.readsFrom r) none := by
  obtain ⟨stop, source, counter, capture, raws, tracker, decode, decoded, main, writer, lines⟩ := s
  cases capture with
  | looping =>
    cases stop with
    | true => exact .captureStops rfl rfl
    | false => exact .captureChecks rfl rfl
  | reading =>
    cases source with
    | live =>
      cases r with
      | packet p => exact .reads (.packet p) rfl rfl
      | timeoutExpired => exact .timesOut rfl rfl
      | noMorePackets => exact .captureEnds rfl (by simp)
      | error => exact .captureEnds rfl (by simp)
    | file rest =>
      cases rest with
      | nil => exact .captureEnds rfl (by simp)
      | cons p rest => exact .reads r rfl rfl
  | sending raw =>
    obtain ⟨queue, taken, isOpen⟩ := raws
    cases isOpen with
    | true =>
      unfold captureStep readsFrom
      dsimp only
      rw [if_pos rfl]
      split_ifs with hroom
      · exact .sends rfl rfl hroom
      · exact .idle (Or.inr (by simpa [Ready] using hroom))
    | false => exact .drops rfl rfl
  | done => exact .idle (Or.inr (by simp [Ready]))

theorem decodeTurn_returns (tracker : FlowTracker F) (raw : RawPacket) (table : SocketTable) :
    ∃ r, decodeTurn tracker raw table = ok r := by
  obtain ⟨pkt, hpkt⟩ := decodePacket_returns raw
  unfold decodeTurn
  rw [hpkt, ok_bind]
  exact ⟨_, rfl⟩

theorem moved_decode (hm : s.main ≠ .failed) (table : SocketTable) :
    Moved run s .decode (s.decodeStep table) none (s.takes? (.decode table)) := by
  unfold takes?
  rw [if_neg hm]
  obtain ⟨stop, source, counter, capture, raws, tracker, decode, decoded, main, writer, lines⟩ := s
  cases decode with
  | looping =>
    cases stop with
    | true => exact .decodeStops rfl rfl
    | false => exact .decodeChecks rfl rfl
  | receiving =>
    obtain ⟨queue, taken, isOpen⟩ := raws
    cases queue with
    | cons raw queue =>
      obtain ⟨⟨tracker', pkt⟩, hturn⟩ := decodeTurn_returns tracker raw table
      unfold decodeStep
      dsimp only
      rw [hturn]
      exact .decodes rfl rfl hturn
    | nil =>
      cases capture with
      | done => exact .decodeEnds rfl rfl rfl
      | looping => exact .decodeWaits rfl rfl (by simp)
      | reading => exact .decodeWaits rfl rfl (by simp)
      | sending raw => exact .decodeWaits rfl rfl (by simp)
  | sending pkt =>
    obtain ⟨queue, taken, isOpen⟩ := decoded
    cases isOpen with
    | true =>
      unfold decodeStep
      dsimp only
      rw [if_pos rfl]
      split_ifs with hroom
      · exact .delivers rfl rfl hroom
      · exact .idle (Or.inr (by simpa [Ready] using hroom))
    | false => exact .refused rfl rfl
  | done => exact .idle (Or.inr (by simp [Ready]))

theorem moved_print (hm : s.main = .printing) (elapsedSecs : ℕ) (room : Option ℕ) :
    Moved run s .main (s.printStep run elapsedSecs room) none none := by
  unfold printStep
  by_cases hstop : s.stop = true
  · rw [if_pos hstop]
    exact .interrupted hm (Or.inl ⟨rfl, hstop⟩)
  by_cases helapsed : run.duration.any (· ≤ elapsedSecs) = true
  · have hsome : run.duration.isSome = true := by
      cases hd : run.duration with
      | none => simp [hd] at helapsed
      | some secs => rfl
    rw [if_neg hstop, if_pos helapsed]
    exact .interrupted hm (Or.inr ⟨rfl, hsome⟩)
  · rw [if_neg hstop, if_neg helapsed]
    have hstop := Bool.eq_false_of_not_eq_true hstop
    obtain ⟨stop, source, counter, capture, raws, tracker, decode, decoded, main, writer, lines⟩ := s
    obtain ⟨queue, taken, isOpen⟩ := decoded
    cases hm
    cases queue with
    | nil =>
      cases decode with
      | done => exact .loopEnds rfl hstop rfl rfl
      | looping => exact .idle (Or.inr (by simp [Ready]))
      | receiving => exact .idle (Or.inr (by simp [Ready]))
      | sending pkt => exact .idle (Or.inr (by simp [Ready]))
    | cons pkt queue =>
      dsimp only
      cases hwrite : run.writeJsonLine (writer.under room) pkt with
      | mk ok writer' =>
        cases ok with
        | false => exact .fails rfl rfl hwrite
        | true =>
          cases hcount : run.count with
          | none => exact .prints rfl rfl hwrite (by simp [hcount])
          | some c =>
            by_cases hlast : c ≤ lines.length + 1
            · simpa [hlast] using Moved.printsLast rfl rfl hwrite hcount hlast
            · have hlt : ∀ c', run.count = some c' → lines.length + 1 < c' := by
                rintro c' hc'
                rw [hcount] at hc'
                cases hc'
                omega
              simpa [hlast] using Moved.prints rfl rfl hwrite hlt

theorem moved_main (elapsedSecs : ℕ) (room : Option ℕ) :
    Moved run s .main (s.mainStep run elapsedSecs room) none none := by
  by_cases hm : s.main = .printing
  · rw [mainStep, hm]
    exact s.moved_print run hm elapsedSecs room
  · obtain ⟨stop, source, counter, capture, raws, tracker, decode, decoded, main, writer, lines⟩ := s
    cases main with
    | printing => exact absurd rfl hm
    | ending why phase =>
      cases phase with
      | leaving => exact .leaves rfl
      | flushing => exact .flushes rfl
      | dropping => exact .hangsUp rfl
      | joinCapture =>
        cases capture with
        | done => exact .joinsCapture rfl rfl
        | looping => exact .idle (Or.inr (by simp [Ready]))
        | reading => exact .idle (Or.inr (by simp [Ready]))
        | sending raw => exact .idle (Or.inr (by simp [Ready]))
      | joinDecode =>
        cases decode with
        | done => exact .joinsDecode rfl rfl
        | looping => exact .idle (Or.inr (by simp [Ready]))
        | receiving => exact .idle (Or.inr (by simp [Ready]))
        | sending pkt => exact .idle (Or.inr (by simp [Ready]))
      | exited => exact .idle (Or.inr (by simp [Ready]))
    | failing => exact .givesUp rfl
    | failed => exact .idle (Or.inr (by simp [Ready]))

/-- Every step is one of those listed. -/
theorem moved_step (m : PipelineMove) :
    Moved run s m.thread (step run s m) (s.reads? m) (s.takes? m) := by
  by_cases hm : s.main = .failed
  · unfold step reads? takes?
    rw [if_pos hm, if_pos hm, if_pos hm]
    exact .idle (Or.inl hm)
  · unfold step reads?
    rw [if_neg hm, if_neg hm]
    cases m with
    | capture r =>
      have h := s.moved_capture run r
      simpa [takes?, PipelineMove.thread] using h
    | decode table => exact s.moved_decode run hm table
    | main elapsedSecs room =>
      have h := s.moved_main run elapsedSecs room
      simpa [takes?, PipelineMove.thread] using h

end Inversion

end CapturePipeline

end Pktscope

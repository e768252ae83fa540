import Pktscope.Capture.Printed
import Pktscope.Library.FairRounds

/-! # The end of a capture

Once the flag is set or the source has ended, the threads cannot keep each other
waiting for ever. A file always has an end, so reading one under any fair schedule
ends, and prints all of its packets.
-/

namespace Pktscope

open Library Parse

/-- Whether the main thread has dropped its writer on the way to a regular end. -/
def MainThread.hasDropped : MainThread → Bool
  | .ending _ .leaving | .ending _ .flushing => false
  | .ending _ _ => true
  | _ => false

namespace CapturePipeline

variable {F : Type}

/-- The process is over. -/
def Ended (s : CapturePipeline F) : Prop := s.main = .failed ∨ ∃ why, s.main = .ending why .exited

/-- The capture thread will not wait for packets for ever. -/
structure Closing (s : CapturePipeline F) : Prop where
  phases : Phases s
  bounded : s.stop = true ∨ s.capture = .done ∨ s.source ≠ .live

section Work

/-- What the capture thread has left to do, by the packets that its source has left. -/
def captureWork (source : PacketSource) (c : CaptureThread) : ℕ :=
  match c, source with
  | .looping, .live => 3
  | .reading, .live => 13
  | .sending _, .live => 11
  | .looping, .file rest => 12 * rest.length + 3
  | .reading, .file rest => 12 * rest.length + 2
  | .sending _, .file rest => 12 * rest.length + 11
  | .done, _ => 0

/-- Whether the decode thread can only wait for the capture thread. -/
def quiet (s : CapturePipeline F) : Bool :=
  !s.stop && s.raws.queue.isEmpty &&
    match s.capture with
    | .done => false
    | _ => true

/-- What the decode thread has left to do with the packet it is at. -/
def decodeWork (stop quiet : Bool) : DecodeThread → ℕ
  | .looping => if stop || quiet then 1 else 2
  | .receiving => if stop then 2 else 1
  | .sending _ => 5
  | .done => 0

def mainWork : MainThread → ℕ
  | .printing => 8
  | .ending _ .leaving => 7
  | .ending _ .flushing => 5
  | .ending _ .dropping => 4
  | .ending _ .joinCapture => 3
  | .ending _ .joinDecode => 2
  | .ending _ .exited => 0
  | .failing => 1
  | .failed => 0

/-- What the threads have left to do. -/
def work (s : CapturePipeline F) : ℕ :=
  captureWork s.source s.capture + 6 * s.raws.queue.length + decodeWork s.stop s.quiet s.decode +
    2 * s.decoded.queue.length + mainWork s.main

@[simp] theorem captureWork_done (source : PacketSource) : captureWork source .done = 0 := by
  cases source <;> rfl

theorem captureWork_looping (source : PacketSource) : 3 ≤ captureWork source .looping := by
  cases source <;> simp [captureWork]

theorem captureWork_reading (source : PacketSource) : 2 ≤ captureWork source .reading := by
  cases source <;> simp [captureWork]

theorem captureWork_sending (source : PacketSource) (raw : RawPacket) :
    captureWork source (.sending raw) = captureWork source .looping + 8 := by
  cases source <;> rfl

theorem captureWork_reads {source source' : PacketSource} {p : PcapPacket} {r : NextPacket}
    (hnext : source.next r = (.packet p, source')) (raw : RawPacket) :
    captureWork source' (.sending raw) < captureWork source .reading := by
  cases source with
  | live =>
    cases hnext
    simp [captureWork]
  | file rest =>
    cases rest with
    | nil => cases hnext
    | cons q rest =>
      cases hnext
      simp only [captureWork, List.length_cons]
      omega

@[simp] theorem decodeWork_done (stop quiet : Bool) : decodeWork stop quiet .done = 0 := rfl

@[simp] theorem decodeWork_sending (stop quiet : Bool) (pkt : DecodedPacket) :
    decodeWork stop quiet (.sending pkt) = 5 := rfl

theorem decodeWork_le (stop quiet quiet' : Bool) (d : DecodeThread) :
    decodeWork stop quiet d ≤ decodeWork stop quiet' d + 1 := by
  cases d <;> cases stop <;> cases quiet <;> cases quiet' <;> simp [decodeWork]

theorem decodeWork_stop_le (stop quiet quiet' : Bool) (d : DecodeThread) :
    decodeWork true quiet d ≤ decodeWork stop quiet' d + 1 := by
  cases d <;> cases stop <;> cases quiet <;> cases quiet' <;> simp [decodeWork]

theorem decodeWork_looping (stop quiet : Bool) :
    1 ≤ decodeWork stop quiet .looping ∧ decodeWork stop quiet .looping ≤ 2 := by
  cases stop <;> cases quiet <;> decide

theorem decodeWork_receiving (stop quiet : Bool) :
    1 ≤ decodeWork stop quiet .receiving ∧ decodeWork stop quiet .receiving ≤ 2 := by
  cases stop <;> cases quiet <;> decide

theorem quiet_iff (s : CapturePipeline F) :
    s.quiet = true ↔ s.stop = false ∧ s.raws.queue = [] ∧ s.capture ≠ .done := by
  unfold quiet
  cases s.capture <;> simp

end Work

variable {s s' : CapturePipeline F}

/-- A step that does nothing of what is left: its thread was not ready, and threads that were are
still. -/
structure Waits (s : CapturePipeline F) (th : PipelineThread) (s' : CapturePipeline F) : Prop where
  same : s'.work = s.work
  idle : s.main = .failed ∨ ¬ s.Ready th
  ready : ∀ t, s.Ready t → s'.Ready t

theorem work_start (packets : List PcapPacket) (r : JsonRun) (hr : r.source = .file packets) :
    (start (F := F) r).work = 12 * packets.length + 12 := by
  unfold start CapturePipeline.work
  simp [hr, captureWork, quiet, decodeWork, mainWork, Channel.new]

theorem waits_of_flip {d d' : DecodeThread} (hd : s.decode = d)
    (hflip : d = .looping ∧ d' = .receiving ∨ d = .receiving ∧ d' = .looping)
    (hsame : work { s with decode := d' } = s.work) (hstop : s.stop = false)
    (hqueue : s.raws.queue = []) (hc : s.capture ≠ .done) :
    Waits s .decode { s with decode := d' } where
  same := hsame
  idle := by
    right
    rcases hflip with ⟨rfl, -⟩ | ⟨rfl, -⟩ <;> simp [Ready, hd, hstop, hqueue, hc]
  ready t ht := by
    have hne : s.decode ≠ .done := by
      rcases hflip with ⟨rfl, -⟩ | ⟨rfl, -⟩ <;> simp [hd]
    cases t with
    | capture => exact ht
    | decode =>
      rcases hflip with ⟨rfl, -⟩ | ⟨rfl, -⟩ <;> simp [Ready, hd, hstop, hqueue, hc] at ht
    | main =>
      unfold Ready at *
      cases hm : s.main with
      | printing =>
        simp only [hm] at ht ⊢
        exact Or.inl (ht.resolve_right hne)
      | ending why phase =>
        cases phase <;> simp only [hm] at ht ⊢
        · exact ht
        · exact absurd ht hne
      | failing => trivial
      | failed => simp only [hm] at ht

theorem Ended.main_ne (h : Ended s) : s.main ≠ .printing ∧ s.main ≠ .failing ∧
    ∀ why phase, s.main = .ending why phase → phase = .exited := by
  rcases h with hm | ⟨why, hm⟩
  · simp [hm]
  · rw [hm]
    refine ⟨by rintro ⟨⟩, by rintro ⟨⟩, ?_⟩
    rintro _ _ ⟨⟩
    rfl

theorem ready_decode (hd : s.decode ≠ .done)
    (hroom : s.decoded.isOpen = true → s.decoded.queue.length < channelCapacity)
    (hquiet : s.stop = true ∨ s.raws.queue ≠ [] ∨ s.capture = .done) : s.Ready .decode := by
  unfold Ready
  cases hdecode : s.decode with
  | looping => exact hquiet
  | receiving => exact hquiet
  | sending pkt => exact hroom
  | done => exact absurd hdecode hd

theorem Closing.ready_others (h : Closing s)
    (hroom : s.decoded.isOpen = true → s.decoded.queue.length < channelCapacity)
    (hrunning : s.decode ≠ .done ∨ s.capture ≠ .done) : ∃ t, s.Ready t := by
  have hcap : 0 < channelCapacity := by decide
  by_cases hquiet : s.decode ≠ .done ∧ (s.stop = true ∨ s.raws.queue ≠ [] ∨ s.capture = .done)
  · exact ⟨.decode, ready_decode hquiet.1 hroom hquiet.2⟩
  · refine ⟨.capture, ?_⟩
    have hc : s.capture ≠ .done := by
      intro hc
      have hd := hrunning.resolve_right (not_not_intro hc)
      exact hquiet ⟨hd, Or.inr (Or.inr hc)⟩
    unfold Ready
    cases hcapture : s.capture with
    | looping => trivial
    | reading => trivial
    | sending raw =>
      intro ho
      have hd : s.decode ≠ .done := by
        rw [Ne, ← h.phases.raws, ho]
        rintro ⟨⟩
      have hempty : s.raws.queue = [] := by
        by_contra hne
        exact hquiet ⟨hd, Or.inr (Or.inl hne)⟩
      rw [hempty]
      exact hcap
    | done => exact absurd hcapture hc

/-- Until the end some thread is ready. -/
theorem Closing.live (h : Closing s) (he : ¬ Ended s) : ∃ t, s.Ready t := by
  have hcap : 0 < channelCapacity := by decide
  have hopen := h.phases.decoded
  cases hm : s.main with
  | failed => exact absurd (Or.inl hm) he
  | failing => exact ⟨.main, by simp [Ready, hm]⟩
  | printing =>
    by_cases hmain : s.decoded.queue ≠ [] ∨ s.decode = .done
    · exact ⟨.main, by simpa [Ready, hm] using hmain⟩
    · obtain ⟨hqueue, hd⟩ := not_or.mp hmain
      rw [not_not] at hqueue
      exact h.ready_others (fun _ => by rw [hqueue]; exact hcap) (Or.inl hd)
  | ending why phase =>
    rw [hm] at hopen
    cases phase with
    | leaving => exact ⟨.main, by simp [Ready, hm]⟩
    | flushing => exact ⟨.main, by simp [Ready, hm]⟩
    | dropping => exact ⟨.main, by simp [Ready, hm]⟩
    | joinCapture =>
      by_cases hc : s.capture = .done
      · exact ⟨.main, by simpa [Ready, hm] using hc⟩
      · exact h.ready_others (fun ho => absurd (hopen.symm.trans ho) Bool.false_ne_true) (Or.inr hc)
    | joinDecode =>
      by_cases hd : s.decode = .done
      · exact ⟨.main, by simpa [Ready, hm] using hd⟩
      · exact h.ready_others (fun ho => absurd (hopen.symm.trans ho) Bool.false_ne_true) (Or.inl hd)
    | exited => exact absurd (Or.inr ⟨why, hm⟩) he

section Steps

variable [Digests] [F64 F] {run : JsonRun} {rd : Option PcapPacket} {tb : Option SocketTable}
variable {th : PipelineThread}

theorem Moved.work (h : Closing s) (hmoved : Moved run s th s' rd tb) :
    s'.work < s.work ∨ Waits s th s' := by
  have hloop := captureWork_looping s.source
  have hread := captureWork_reading s.source
  cases hmoved with
  | idle hidle => exact Or.inr ⟨rfl, hidle, fun _ => id⟩
  | captureChecks hc hstop =>
    left
    have hlt : captureWork s.source .reading < captureWork s.source .looping := by
      rcases h.bounded with hstop' | hdone | hsource
      · rw [hstop] at hstop'
        cases hstop'
      · rw [hc] at hdone
        cases hdone
      · cases hs : s.source with
        | live => exact absurd hs hsource
        | file rest => simp [captureWork]
    simp only [CapturePipeline.work, quiet, hc]
    omega
  | captureStops hc hstop =>
    left
    have hd := decodeWork_le s.stop (quiet { s with capture := .done }) s.quiet s.decode
    simp only [CapturePipeline.work, hc, captureWork_done]
    omega
  | reads r hc hnext =>
    left
    have hlt := captureWork_reads hnext (run.rawPacket s.counter ‹_›)
    simp only [CapturePipeline.work, quiet, hc]
    omega
  | timesOut hc hlive =>
    left
    have hstop : s.stop = true := by
      rcases h.bounded with hstop | hdone | hsource
      · exact hstop
      · rw [hc] at hdone
        cases hdone
      · exact absurd hlive hsource
    simp only [CapturePipeline.work, quiet, hc, hlive, captureWork]
    omega
  | captureEnds hc hrest =>
    left
    have hd := decodeWork_le s.stop (quiet { s with capture := .done }) s.quiet s.decode
    simp only [CapturePipeline.work, hc, captureWork_done]
    omega
  | sends hc ho hroom =>
    left
    rename_i raw
    have hd := decodeWork_le s.stop
      (quiet { s with raws := s.raws.push raw, capture := .looping }) s.quiet s.decode
    have hsend := captureWork_sending s.source raw
    simp only [CapturePipeline.work, hc, Channel.length_push ho]
    omega
  | drops hc ho =>
    left
    rename_i raw
    have hd := decodeWork_le s.stop (quiet { s with capture := .done }) s.quiet s.decode
    have hsend := captureWork_sending s.source raw
    simp only [CapturePipeline.work, hc, captureWork_done]
    omega
  | decodeChecks hd hstop =>
    cases hq : s.quiet with
    | false =>
      left
      simp only [CapturePipeline.work, hd, hq, hstop, decodeWork]
      simp
    | true =>
      obtain ⟨-, hqueue, hc⟩ := s.quiet_iff.mp hq
      refine Or.inr (waits_of_flip hd (Or.inl ⟨rfl, rfl⟩) ?_ hstop hqueue hc)
      simp only [CapturePipeline.work, hd, hq, hstop, decodeWork]
      simp
  | decodeStops hd hstop =>
    left
    have hpos := (decodeWork_looping s.stop s.quiet).1
    simp only [CapturePipeline.work, quitDecode, Channel.hangup, hd, decodeWork_done,
      List.length_nil]
    omega
  | decodes hd hqueue hturn =>
    left
    have hpos := (decodeWork_receiving s.stop s.quiet).1
    have hlen := Channel.length_recv hqueue
    simp only [CapturePipeline.work, hd, decodeWork_sending]
    omega
  | decodeWaits hd hqueue hc =>
    have hquiet : quiet { s with decode := .looping } = s.quiet := rfl
    by_cases hstop : s.stop = true
    · left
      simp only [CapturePipeline.work, hd, hstop, decodeWork]
      simp
    · have hstop := Bool.eq_false_of_not_eq_true hstop
      have hq : s.quiet = true := s.quiet_iff.mpr ⟨hstop, hqueue, hc⟩
      refine Or.inr (waits_of_flip hd (Or.inr ⟨rfl, rfl⟩) ?_ hstop hqueue hc)
      simp only [CapturePipeline.work, hquiet, hq, hd, decodeWork]
      simp [hstop]
  | decodeEnds hd hqueue hc =>
    left
    have hpos := (decodeWork_receiving s.stop s.quiet).1
    simp only [CapturePipeline.work, quitDecode, Channel.hangup, hd, decodeWork_done,
      List.length_nil]
    omega
  | delivers hd ho hroom =>
    left
    rename_i pkt
    have hle := (decodeWork_looping s.stop
      (quiet { s with decoded := s.decoded.push pkt, decode := .looping })).2
    simp only [CapturePipeline.work, hd, Channel.length_push ho, decodeWork_sending]
    omega
  | refused hd ho =>
    left
    simp only [CapturePipeline.work, quitDecode, Channel.hangup, hd, decodeWork_done,
      decodeWork_sending, List.length_nil]
    omega
  | prints hm hqueue =>
    left
    have hlen := Channel.length_recv hqueue
    simp only [CapturePipeline.work, quiet]
    omega
  | printsLast hm hqueue =>
    left
    have hlen := Channel.length_recv hqueue
    simp only [CapturePipeline.work, quiet, hm, mainWork]
    omega
  | fails hm hqueue =>
    left
    have hlen := Channel.length_recv hqueue
    simp only [CapturePipeline.work, quiet, hm, mainWork]
    omega
  | interrupted hm hwhy =>
    left
    simp only [CapturePipeline.work, quiet, hm, mainWork]
    omega
  | loopEnds hm hstop hqueue hd =>
    left
    simp only [CapturePipeline.work, quiet, hm, mainWork]
    omega
  | leaves hm =>
    left
    rename_i why
    have hd := decodeWork_stop_le s.stop
      (quiet { s with stop := true, main := .ending why .flushing }) s.quiet s.decode
    simp only [CapturePipeline.work, hm, mainWork]
    omega
  | flushes hm =>
    left
    simp only [CapturePipeline.work, quiet, dropWriter, hm, mainWork]
    omega
  | hangsUp hm =>
    left
    simp only [CapturePipeline.work, quiet, Channel.hangup, hm, mainWork, List.length_nil]
    omega
  | joinsCapture hm hc =>
    left
    simp only [CapturePipeline.work, quiet, hm, mainWork]
    omega
  | joinsDecode hm hd =>
    left
    simp only [CapturePipeline.work, quiet, hm, mainWork]
    omega
  | givesUp hm =>
    left
    simp only [CapturePipeline.work, quiet, dropWriter, hm, mainWork]
    omega

theorem Closing.moved (h : Closing s) (hmoved : Moved run s th s' rd tb) : Closing s' := by
  refine ⟨h.phases.moved hmoved, ?_⟩
  rcases h.bounded with hstop | hdone | hsource
  · left
    cases hmoved <;> first | exact hstop | rfl
  · right; left
    cases hmoved <;> first | exact hdone | rfl | simp_all
  · right; right
    cases hmoved with
    | reads r hc hnext =>
      cases hs : s.source with
      | live => exact absurd hs hsource
      | file rest =>
        rw [hs] at hnext
        cases rest <;> cases hnext
        rintro ⟨⟩
    | _ => exact hsource

theorem Ended.moved (h : Ended s) (hmoved : Moved run s th s' rd tb) : Ended s' := by
  obtain ⟨hprinting, hfailing, hphase⟩ := h.main_ne
  cases hmoved with
  | prints hm => exact absurd hm hprinting
  | printsLast hm => exact absurd hm hprinting
  | fails hm => exact absurd hm hprinting
  | interrupted hm => exact absurd hm hprinting
  | loopEnds hm => exact absurd hm hprinting
  | leaves hm => cases hphase _ _ hm
  | flushes hm => cases hphase _ _ hm
  | hangsUp hm => cases hphase _ _ hm
  | joinsCapture hm => cases hphase _ _ hm
  | joinsDecode hm => cases hphase _ _ hm
  | givesUp hm => exact absurd hm hfailing
  | _ => exact h

theorem progress (run : JsonRun) :
    Progress (step (F := F) run) PipelineMove.thread Closing Ended (fun t s => s.Ready t)
      CapturePipeline.work where
  keeps s m hs := hs.moved (s.moved_step run m)
  stays s m _ he := he.moved (s.moved_step run m)
  falls s m hs := by
    rcases (s.moved_step run m).work hs with hlt | hwaits
    · exact Nat.le_of_lt hlt
    · exact Nat.le_of_eq hwaits.same
  moves s m hs he ht := by
    rcases (s.moved_step run m).work hs with hlt | hwaits
    · exact hlt
    · rcases hwaits.idle with hm | hnot
      · exact absurd (Or.inl hm) he
      · exact absurd ht hnot
  waits s m t hs ht := by
    rcases (s.moved_step run m).work hs with hlt | hwaits
    · exact Or.inl hlt
    · exact Or.inr (hwaits.ready t ht)
  live s hs he := hs.live he

theorem closing_run (r : JsonRun) (moves : List PipelineMove)
    (hbounded : (CapturePipeline.run (F := F) r moves).stop = true ∨
      (CapturePipeline.run (F := F) r moves).capture = .done ∨ r.source ≠ .live) :
    Closing (CapturePipeline.run (F := F) r moves) := by
  have h := traced_run (F := F) r moves
  refine ⟨h.phases, ?_⟩
  rcases hbounded with hstop | hdone | hlive
  · exact Or.inl hstop
  · exact Or.inr (Or.inl hdone)
  · right; right
    have hsource := h.source
    unfold SourceAfter at hsource
    cases hr : r.source with
    | live => exact absurd hr hlive
    | file packets =>
      rw [hr] at hsource
      obtain ⟨rest, hrest, -⟩ := hsource
      rw [hrest]
      rintro ⟨⟩

theorem Moved.main_eq (hmoved : Moved run s th s' rd tb) (hth : th ≠ .main) :
    s'.main = s.main ∧ s'.writer = s.writer := by
  cases hmoved <;> first | exact ⟨rfl, rfl⟩ | exact absurd rfl hth

/-- Nothing has failed, and nothing was left in the writer when it was dropped. -/
structure Unhurt (main : MainThread) (writer : BufWriter) : Prop where
  hasFailed : main.hasFailed = false
  buffer : main.hasDropped = true → writer.buffer = []

omit [Digests] [F64 F] in
theorem unhurt_printStep (hm : s.main = .printing) (n : ℕ) :
    Unhurt (s.printStep run n none).main (s.printStep run n none).writer := by
  unfold printStep
  split_ifs
  · exact ⟨rfl, by rintro ⟨⟩⟩
  · exact ⟨rfl, by rintro ⟨⟩⟩
  · split
    · rename_i pkt _ _
      obtain ⟨-, -, -, -, hroom⟩ := run.takes_writeJsonLine (s.writer.under none) pkt
      have hok := (hroom rfl).1
      split
      · dsimp only
        split_ifs
        · exact ⟨rfl, by rintro ⟨⟩⟩
        · exact ⟨rfl, by rintro ⟨⟩⟩
      · rename_i hwrite
        rw [hwrite] at hok
        cases hok
    · split
      · exact ⟨rfl, by rintro ⟨⟩⟩
      · rw [hm]
        exact ⟨rfl, by rintro ⟨⟩⟩

/-- Only an output that fails does hurt. -/
theorem Unhurt.step (h : Unhurt s.main s.writer) {m : PipelineMove}
    (htakes : ∀ n k, m ≠ .main n (some k)) :
    Unhurt (step run s m).main (step run s m).writer := by
  have hne : s.main ≠ .failed := by
    intro hm
    rw [hm] at h
    cases h.hasFailed
  have hmoved := s.moved_step run m
  cases m with
  | capture r =>
    obtain ⟨hmain, hwriter⟩ := hmoved.main_eq (by rintro ⟨⟩)
    rwa [hmain, hwriter]
  | decode table =>
    obtain ⟨hmain, hwriter⟩ := hmoved.main_eq (by rintro ⟨⟩)
    rwa [hmain, hwriter]
  | main n room =>
    cases room with
    | some k => exact absurd rfl (htakes n k)
    | none =>
      unfold CapturePipeline.step
      rw [if_neg hne]
      dsimp only
      unfold mainStep
      split
      · next hm => exact unhurt_printStep hm n
      · exact ⟨rfl, by rintro ⟨⟩⟩
      · exact ⟨rfl, fun _ => BufWriter.buffer_flushBuf rfl⟩
      · next hm =>
        rw [hm] at h
        exact ⟨rfl, h.buffer⟩
      · next hm =>
        split
        · rw [hm] at h
          exact ⟨rfl, h.buffer⟩
        · exact h
      · next hm =>
        split
        · rw [hm] at h
          exact ⟨rfl, h.buffer⟩
        · exact h
      · exact h
      · next hm =>
        rw [hm] at h
        cases h.hasFailed
      · exact h

theorem unhurt_run (r : JsonRun) {moves : List PipelineMove}
    (htakes : ∀ m ∈ moves, ∀ n k, m ≠ .main n (some k)) :
    Unhurt (CapturePipeline.run (F := F) r moves).main
      (CapturePipeline.run (F := F) r moves).writer := by
  induction moves using List.reverseRecOn with
  | nil => exact ⟨rfl, by rintro ⟨⟩⟩
  | append_singleton moves m ih =>
    rw [CapturePipeline.run, List.foldl_append]
    exact (ih fun m hm => htakes m (List.mem_append_left _ hm)).step
      (htakes m List.mem_concat_self)

/-- Fair schedules end: from any state in which the flag is set, or the source has ended or
can end, as many rounds as there is work to do are enough. -/
theorem fair_rounds_end (r : JsonRun) (moves : List PipelineMove)
    (hbounded : (CapturePipeline.run (F := F) r moves).stop = true ∨
      (CapturePipeline.run (F := F) r moves).capture = .done ∨ r.source ≠ .live)
    (rounds : List (List PipelineMove))
    (hfair : ∀ round ∈ rounds, FairRound PipelineMove.thread round)
    (hlen : (CapturePipeline.run (F := F) r moves).work < rounds.length) :
    Ended (CapturePipeline.run (F := F) r (moves ++ rounds.flatten)) := by
  rw [CapturePipeline.run, List.foldl_append]
  exact (progress r).ends (closing_run r moves hbounded) hfair hlen

/-- A round in which every thread moves once. -/
def aRound : List PipelineMove := [.capture .error, .decode fun _ _ _ => none, .main 5 none]

omit [Digests] in
theorem fairRound_aRound : FairRound PipelineMove.thread aRound := by
  rintro (_ | _ | _)
  · exact ⟨_, List.mem_cons_self, rfl⟩
  · exact ⟨_, List.mem_cons_of_mem _ List.mem_cons_self, rfl⟩
  · exact ⟨_, List.mem_cons_of_mem _ (List.mem_cons_of_mem _ List.mem_cons_self), rfl⟩

/-- A live capture that is out of time after three seconds. -/
def shortCapture : JsonRun := ⟨.ethernet, fun _ _ => none, fun _ => [], .live, none, some 3⟩

omit [Digests] in
theorem fair_rounds_end_sample : ∃ _ : Digests, Ended (CapturePipeline.run (F := ℚ) shortCapture
    ([.main 5 none, .main 5 none] ++ (List.replicate 10 aRound).flatten)) := by
  let digests : Digests := ⟨fun _ => Vector.replicate 16 0, fun _ => Vector.replicate 32 0⟩
  have hfair : ∀ round ∈ List.replicate 10 aRound, FairRound PipelineMove.thread round := by
    rintro round hround
    rw [List.eq_of_mem_replicate hround]
    exact fairRound_aRound
  exact ⟨digests, fair_rounds_end (F := ℚ) shortCapture [.main 5 none, .main 5 none] (Or.inl rfl)
    (List.replicate 10 aRound) hfair (by decide)⟩

/-- Without a count and a duration the loop ends because its channel is disconnected. -/
theorem Traced.disconnected {reads : List PcapPacket} {tables : List SocketTable}
    (h : Traced run s reads tables) (hcount : run.count = none) (hduration : run.duration = none)
    {why : LoopEnd} {phase : ExitPhase} (hm : s.main = .ending why phase) : why = .disconnected := by
  obtain ⟨hstopped, helapsed⟩ := h.reason why phase hm
  have hcounted := h.counted
  rw [hm] at hcounted
  cases why with
  | stopped => exact absurd rfl hstopped
  | elapsed =>
    have hsome := helapsed rfl
    rw [hduration] at hsome
    cases hsome
  | counted =>
    obtain ⟨c, hc, -⟩ := hcounted
    rw [hcount] at hc
    cases hc
  | disconnected => rfl

omit [Digests] [F64 F] in
theorem AllRead.packets {reads packets : List PcapPacket} {capture : CaptureThread}
    {raws : List RawPacket} {source : PacketSource} (h : AllRead run reads capture raws source)
    (hr : run.source = .file packets) (hsource : SourceAfter run source reads) : packets = reads := by
  unfold SourceAfter at hsource
  rw [hr] at hsource
  obtain ⟨rest, hrest, hsplit⟩ := hsource
  cases rest with
  | nil => rw [hsplit, List.append_nil]
  | cons p rest => exact absurd hrest (h.source p rest)

/-- Reading a file ends, with all of its packets printed in order, if the output takes everything. -/
theorem read_prints_file (r : JsonRun) (packets : List PcapPacket) (hr : r.source = .file packets)
    (hcount : r.count = none) (hduration : r.duration = none) (rounds : List (List PipelineMove))
    (hfair : ∀ round ∈ rounds, FairRound PipelineMove.thread round)
    (htakes : ∀ round ∈ rounds, ∀ m ∈ round, ∀ n k, m ≠ .main n (some k))
    (hlen : 12 * packets.length + 12 < rounds.length) :
    (CapturePipeline.run (F := F) r rounds.flatten).main = .ending .disconnected .exited ∧
      (CapturePipeline.run (F := F) r rounds.flatten).lines =
        (decodeAll (F := F) ((r.numbered packets).zip (tablesIn F r rounds.flatten))).2 ∧
      (CapturePipeline.run (F := F) r rounds.flatten).writer.inner.taken =
        r.text (CapturePipeline.run (F := F) r rounds.flatten).lines ∧
      (CapturePipeline.run (F := F) r rounds.flatten).lines.length = packets.length ∧
      ∀ i pkt, (CapturePipeline.run (F := F) r rounds.flatten).lines[i]? = some pkt →
        ∃ p, packets[i]? = some p ∧ Shows r i p pkt := by
  have h := traced_run (F := F) r rounds.flatten
  have hlive : r.source ≠ .live := by
    rw [hr]
    rintro ⟨⟩
  have hstart : (start (F := F) r).work < rounds.length := by rwa [work_start packets r hr]
  have hended : Ended (CapturePipeline.run (F := F) r rounds.flatten) :=
    (progress r).ends (closing_run r [] (Or.inr (Or.inr hlive))) hfair hstart
  have hunhurt : Unhurt _ _ := unhurt_run (F := F) r fun m hm => by
    obtain ⟨round, hround, hm⟩ := List.mem_flatten.mp hm
    exact htakes round hround m hm
  obtain ⟨why, hwhy⟩ := hended.resolve_left fun hm => by
    rw [hm] at hunhurt
    cases hunhurt.hasFailed
  have houtput : (CapturePipeline.run (F := F) r rounds.flatten).writer.inner.taken =
      r.text (CapturePipeline.run (F := F) r rounds.flatten).lines := by
    have hwritten := h.written hunhurt.hasFailed
    rwa [BufWriter.written, hunhurt.buffer (by rw [hwhy]; rfl), List.append_nil] at hwritten
  have hdisconnected : why = .disconnected := h.disconnected hcount hduration hwhy
  subst hdisconnected
  obtain ⟨hread, hlines⟩ := h.complete _ hwhy
  have hpackets : packets = readIn F r rounds.flatten := hread.packets hr h.source
  have hlength : (CapturePipeline.run (F := F) r rounds.flatten).lines.length = packets.length := by
    rw [hlines, length_decodeAll, List.length_zip, h.looked, hread.taken,
      JsonRun.length_numbered, Nat.min_self, hpackets]
  rw [decodeAll_taken h, ← hpackets] at hlines
  refine ⟨hwhy, hlines, houtput, hlength, fun i pkt hpkt => ?_⟩
  rw [hlines] at hpkt
  exact shows_decodeAll hpkt

/-- A file with two packets, whose bytes are written as they are. -/
def smallFile : JsonRun where
  linktype := .ethernet
  fromTimestamp := fun _ _ => none
  toWriter := fun pkt => [pkt.data]
  source := .file [⟨1, 0, 2, [0x61, 0x62], by decide⟩, ⟨2, 0, 1, [0x63], by decide⟩]
  count := none
  duration := none

omit [Digests] in
theorem read_prints_file_sample : ∃ _ : Digests,
    let s := CapturePipeline.run (F := ℚ) smallFile (List.replicate 37 aRound).flatten
    s.lines.length = 2 ∧ s.writer.inner.taken = smallFile.text s.lines ∧
      ∀ i pkt, s.lines[i]? = some pkt → ∃ p : PcapPacket,
        [[0x61, 0x62], [0x63]][i]? = some p.data ∧ Shows smallFile i p pkt := by
  let digests : Digests := ⟨fun _ => Vector.replicate 16 0, fun _ => Vector.replicate 32 0⟩
  have hfair : ∀ round ∈ List.replicate 37 aRound, FairRound PipelineMove.thread round := by
    rintro round hround
    rw [List.eq_of_mem_replicate hround]
    exact fairRound_aRound
  have htakes : ∀ round ∈ List.replicate 37 aRound, ∀ m ∈ round, ∀ n k, m ≠ .main n (some k) := by
    rintro round hround
    rw [List.eq_of_mem_replicate hround]
    simp [aRound]
  obtain ⟨-, -, htaken, hlength, hshows⟩ := read_prints_file (F := ℚ) smallFile _ rfl rfl rfl
    (List.replicate 37 aRound) hfair htakes (by decide)
  refine ⟨digests, hlength, htaken, ?_⟩
  rintro i pkt hpkt
  obtain ⟨p, hp, hshow⟩ := hshows i pkt hpkt
  have hdata := congrArg (Option.map PcapPacket.data) hp
  rw [← List.getElem?_map] at hdata
  exact ⟨p, hdata, hshow⟩

end Steps

end CapturePipeline

end Pktscope

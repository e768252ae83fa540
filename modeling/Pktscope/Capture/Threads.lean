import Pktscope.Decode.Chain
import Pktscope.Flow.Tracker
import Pktscope.Library.BufWriter
import Pktscope.Library.Channel
import Pktscope.Process.Packets

/-! # The threads of a capture

One thread captures, one decodes and the main thread prints what was decoded. They
are connected by channels of bounded capacity, whose senders wait for room. The
lines go through a buffered writer, which is dropped when the loop that prints has
ended, and the main thread then joins the others.
-/

namespace Pktscope

open Library Parse

/-- `CHANNEL_CAPACITY` -/
def channelCapacity : ℕ := 10000

/-- How many bytes `BufWriter::new` has room for. -/
def bufferCapacity : ℕ := 8192

/-- A packet as the capture library hands it over. -/
structure PcapPacket where
  tvSec : ℤ
  tvUsec : ℤ
  len : UInt32
  data : List UInt8
  fits : data.length < maxBytes

/-- The outcome of `next_packet`. -/
inductive NextPacket where
  | packet (p : PcapPacket)
  | timeoutExpired
  | noMorePackets
  | error

/-- Where packets come from: a live capture answers as it likes, a file answers what it has left. -/
inductive PacketSource where
  | live
  | file (rest : List PcapPacket)

def PacketSource.next : PacketSource → NextPacket → NextPacket × PacketSource
  | .live, r => (r, .live)
  | .file (p :: rest), _ => (.packet p, .file rest)
  | .file [], _ => (.noMorePackets, .file [])

/-- What a run of `capture --json` or `read --json` is given. -/
structure JsonRun where
  linktype : Linktype
  /-- `DateTime::from_timestamp` -/
  fromTimestamp : ℤ → UInt32 → Option DateTime
  /-- `serde_json::to_writer`, by what it writes one after the other -/
  toWriter : DecodedPacket → List (List UInt8)
  source : PacketSource
  count : Option ℕ
  duration : Option ℕ

/-- The packet that the capture loop sends on. -/
def JsonRun.rawPacket (run : JsonRun) (num : ℕ) (p : PcapPacket) : RawPacket where
  number := num
  timestamp := (run.fromTimestamp p.tvSec (UInt32.ofNat (p.tvUsec * 1000 % 2 ^ 32).toNat)).getD 0
  wireLen := p.len
  data := p.data
  linktype := run.linktype
  fits := p.fits

def JsonRun.writeJsonLine (run : JsonRun) (writer : BufWriter) (pkt : DecodedPacket) :
    Bool × BufWriter :=
  writer.writeEach bufferCapacity (run.toWriter pkt ++ [[0x0a]])

inductive CaptureThread where
  | looping
  | reading
  | sending (raw : RawPacket)
  | done

inductive DecodeThread where
  | looping
  | receiving
  | sending (pkt : DecodedPacket)
  | done

/-- Why the loop that prints has ended. -/
inductive LoopEnd where
  | stopped
  | elapsed
  | counted
  | disconnected
  deriving DecidableEq

/-- What the main thread does after its loop: set the flag, drop the writer and the receiver, join,
exit. -/
inductive ExitPhase where
  | leaving
  | flushing
  | dropping
  | joinCapture
  | joinDecode
  | exited
  deriving DecidableEq

/-- The main thread; a line that cannot be written ends the process, behind a drop of the writer. -/
inductive MainThread where
  | printing
  | ending (why : LoopEnd) (phase : ExitPhase)
  | failing
  | failed
  deriving DecidableEq

/-- A channel end goes with the thread that holds it. The lines are those that were handed to the
writer as a whole. -/
structure CapturePipeline (F : Type) where
  stop : Bool
  source : PacketSource
  counter : ℕ
  capture : CaptureThread
  raws : Channel RawPacket
  tracker : FlowTracker F
  decode : DecodeThread
  decoded : Channel DecodedPacket
  main : MainThread
  writer : BufWriter
  lines : List DecodedPacket

/-- One step of a thread, with what it is told from outside; the output has room for a number of bytes
before it fails, or for all. -/
inductive PipelineMove where
  | capture (r : NextPacket)
  | decode (table : SocketTable)
  | main (elapsedSecs : ℕ) (room : Option ℕ)

/-- One turn of the loop of the decode thread. -/
def decodeTurn [Digests] {F : Type} [F64 F] (tracker : FlowTracker F) (raw : RawPacket)
    (table : SocketTable) : Parse (FlowTracker F × DecodedPacket) := do
  let decoded ← decodePacket raw
  let (tracker, decoded, _) := tracker.update decoded
  return (tracker, { decoded with process := tryProcessLookup table decoded })

namespace CapturePipeline

variable {F : Type}

def start (run : JsonRun) : CapturePipeline F where
  stop := false
  source := run.source
  counter := 0
  capture := .looping
  raws := .new
  tracker := .new
  decode := .looping
  decoded := .new
  main := .printing
  writer := .new
  lines := []

/-- One step of `capture_loop`. -/
def captureStep (run : JsonRun) (s : CapturePipeline F) (r : NextPacket) : CapturePipeline F :=
  match s.capture with
  | .looping => { s with capture := if s.stop then .done else .reading }
  | .reading =>
    match s.source.next r with
    | (.packet p, source) =>
      { s with
        source
        counter := (s.counter + 1) % 2 ^ 64
        capture := .sending (run.rawPacket s.counter p) }
    | (.timeoutExpired, source) => { s with source, capture := .looping }
    | (.noMorePackets, source) => { s with source, capture := .done }
    | (.error, source) => { s with source, capture := .done }
  | .sending raw =>
    if s.raws.isOpen then
      if s.raws.queue.length < channelCapacity then
        { s with raws := s.raws.push raw, capture := .looping }
      else s
    else { s with capture := .done }
  | .done => s

/-- `decode_thread` returns. -/
def quitDecode (s : CapturePipeline F) : CapturePipeline F :=
  { s with decode := .done, raws := s.raws.hangup }

section Steps

variable [Digests] [F64 F]

/-- One step of `decode_thread`. -/
def decodeStep (s : CapturePipeline F) (table : SocketTable) : CapturePipeline F :=
  match s.decode with
  | .looping => if s.stop then s.quitDecode else { s with decode := .receiving }
  | .receiving =>
    match s.raws.queue with
    | raw :: _ =>
      match decodeTurn s.tracker raw table with
      | ok (tracker, pkt) =>
        { s with raws := s.raws.recv, tracker, decode := .sending pkt }
      | _ => s.quitDecode
    | [] =>
      match s.capture with
      | .done => s.quitDecode
      | _ => { s with decode := .looping }
  | .sending pkt =>
    if s.decoded.isOpen then
      if s.decoded.queue.length < channelCapacity then
        { s with decoded := s.decoded.push pkt, decode := .looping }
      else s
    else s.quitDecode
  | .done => s

/-- One round of `json_output_loop`. -/
def printStep (run : JsonRun) (s : CapturePipeline F) (elapsedSecs : ℕ) (room : Option ℕ) :
    CapturePipeline F :=
  if s.stop then { s with main := .ending .stopped .leaving }
  else if run.duration.any (· ≤ elapsedSecs) then { s with main := .ending .elapsed .leaving }
  else
    match s.decoded.queue with
    | pkt :: _ =>
      match run.writeJsonLine (s.writer.under room) pkt with
      | (true, writer) =>
        let lines := s.lines ++ [pkt]
        { s with
          decoded := s.decoded.recv
          writer
          lines
          main := if run.count.any (· ≤ lines.length) then .ending .counted .leaving else .printing }
      | (false, writer) => { s with decoded := s.decoded.recv, writer, main := .failing }
    | [] =>
      match s.decode with
      | .done => { s with main := .ending .disconnected .leaving }
      | _ => s

/-- The writer is dropped, and with it what the output does not take. -/
def dropWriter (s : CapturePipeline F) (room : Option ℕ) (main : MainThread) : CapturePipeline F :=
  { s with writer := (s.writer.under room).flushBuf, main }

/-- One step of the main thread. -/
def mainStep (run : JsonRun) (s : CapturePipeline F) (elapsedSecs : ℕ) (room : Option ℕ) :
    CapturePipeline F :=
  match s.main with
  | .printing => s.printStep run elapsedSecs room
  | .ending why .leaving => { s with stop := true, main := .ending why .flushing }
  | .ending why .flushing => s.dropWriter room (.ending why .dropping)
  | .ending why .dropping =>
    { s with decoded := s.decoded.hangup, main := .ending why .joinCapture }
  | .ending why .joinCapture =>
    match s.capture with
    | .done => { s with main := .ending why .joinDecode }
    | _ => s
  | .ending why .joinDecode =>
    match s.decode with
    | .done => { s with main := .ending why .exited }
    | _ => s
  | .ending _ .exited => s
  | .failing => s.dropWriter room .failed
  | .failed => s

def step (run : JsonRun) (s : CapturePipeline F) (m : PipelineMove) : CapturePipeline F :=
  if s.main = .failed then s
  else
    match m with
    | .capture r => s.captureStep run r
    | .decode table => s.decodeStep table
    | .main elapsedSecs room => s.mainStep run elapsedSecs room

def run (r : JsonRun) (moves : List PipelineMove) : CapturePipeline F :=
  moves.foldl (step r) (start r)

end Steps

section Log

/-- The packet that the capture thread gets in a step. -/
def readsFrom (s : CapturePipeline F) (r : NextPacket) : Option PcapPacket :=
  match s.capture with
  | .reading =>
    match (s.source.next r).1 with
    | .packet p => some p
    | _ => none
  | _ => none

def reads? (s : CapturePipeline F) (m : PipelineMove) : Option PcapPacket :=
  if s.main = .failed then none
  else
    match m with
    | .capture r => s.readsFrom r
    | _ => none

/-- What the system says of sockets when the decode thread takes a packet. -/
def takes? (s : CapturePipeline F) (m : PipelineMove) : Option SocketTable :=
  if s.main = .failed then none
  else
    match m, s.decode, s.raws.queue with
    | .decode table, .receiving, _ :: _ => some table
    | _, _, _ => none

end Log

end CapturePipeline

end Pktscope

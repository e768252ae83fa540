import Pktscope.Library.HeaderCoding
import Pktscope.Library.Spans

/-! # The frames of a client

What an HTTP/2 client sends behind the connection preface (RFC 9113): header blocks in a
HEADERS frame and the CONTINUATION frames behind it, and frames of other types between
them. All header blocks of a connection are written with one table.
-/

namespace Library.Framing

open HeaderCoding

/-- A frame; the word with the stream has a reserved bit in front. -/
structure Frame where
  frameType : UInt8
  flags : UInt8
  stream : UInt32
  payload : List UInt8
  small : payload.length < 2 ^ 24

def Frame.bytes (f : Frame) : List UInt8 :=
  toBe24 f.payload.length ++ (f.frameType :: f.flags :: (toBe32 f.stream ++ f.payload))

/-- The payload of a HEADERS frame: some of a header block, behind the length of the padding and the
priority when the flags announce them, and before the padding. -/
structure HeadersPayload (flags : UInt8) (fragment payload : List UInt8) : Prop where
  layout : ∃ padLength priority padding, payload = padLength ++ priority ++ fragment ++ padding ∧
    (if flags &&& 0x08 = 0 then padLength = [] ∧ padding = []
      else padLength = [UInt8.ofNat padding.length] ∧ padding.length < 256) ∧
    (if flags &&& 0x20 = 0 then priority = [] else priority.length = 5)

/-- A header block of a client and the frames that carry it. -/
structure Block where
  head : Frame
  fragment : List UInt8
  rest : List Frame
  fields : List (Rep × List UInt8)
  headType : head.frameType = 0x1
  headPayload : HeadersPayload head.flags fragment head.payload
  restType : ∀ f ∈ rest, f.frameType = 0x9 ∧ f.stream = head.stream
  endsLast : (head :: rest).map (fun f => f.flags &&& 0x04 != 0) =
    List.replicate rest.length false ++ [true]
  written : ∀ f ∈ fields, RepBytes f.1 f.2
  cut : fragment ++ rest.flatMap Frame.payload = fields.flatMap Prod.snd

def Block.reps (b : Block) : List Rep := b.fields.map Prod.fst

/-- A part of a connection: a header block, or a frame of another type. -/
inductive Part where
  | other (f : Frame) (h : f.frameType ≠ 0x1 ∧ f.frameType ≠ 0x5 ∧ f.frameType ≠ 0x9)
  | block (b : Block)

def Part.frames : Part → List Frame
  | .other f _ => [f]
  | .block b => b.head :: b.rest

/-- An encoder with a table writes the header blocks of some parts; each comes with its header list. -/
inductive Sends : Table → List Part → List (List (String × String)) → Prop
  | nil (t : Table) : Sends t [] []
  | other {t : Table} {f : Frame} {h} {parts : List Part}
      {lists : List (List (String × String))} : Sends t parts lists →
      Sends t (.other f h :: parts) lists
  | block {t t' : Table} {b : Block} {headers : List (String × String)} {parts : List Part}
      {lists : List (List (String × String))} : t.run b.reps = some (t', headers) →
      Sends t' parts lists → Sends t (.block b :: parts) (headers :: lists)

theorem Block.blockBytes {fields : List (Rep × List UInt8)} (h : ∀ f ∈ fields, RepBytes f.1 f.2) :
    BlockBytes (fields.map Prod.fst) (fields.flatMap Prod.snd) := by
  induction fields with
  | nil => exact .nil
  | cons f fields ih =>
    exact .cons (h f List.mem_cons_self) (ih fun g hg => h g (List.mem_cons_of_mem f hg))

theorem Frame.length_bytes (f : Frame) : f.bytes.length = 9 + f.payload.length := by
  simp [Frame.bytes]
  omega

end Library.Framing

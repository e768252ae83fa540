import Pktscope.Decode.Layers
import Pktscope.Library.Bytes
import Pktscope.Library.Text
import Pktscope.Library.Utf8

/-! # HTTP/1 heads

The request or status line and the headers at the start of a byte stream.
-/

namespace Pktscope

open Library Parse

/-- The place of the first occurrence of some bytes. -/
def findSubslice (needle : List UInt8) : List UInt8 → Option ℕ
  | [] => if needle.isEmpty then some 0 else none
  | b :: rest =>
    if needle.isPrefixOf (b :: rest) then some 0 else (findSubslice needle rest).map (· + 1)

/-- `text.split("\r\n")` -/
def splitCrlf : List Char → List (List Char)
  | [] => [[]]
  | '\r' :: '\n' :: rest => [] :: splitCrlf rest
  | c :: rest =>
    match splitCrlf rest with
    | [] => [[c]]
    | line :: lines => (c :: line) :: lines

/-- The text before the first separator, and the text behind it when there is one. -/
def splitOnce (sep : Char) : List Char → List Char × Option (List Char)
  | [] => ([], none)
  | c :: rest =>
    if c = sep then ([], some rest)
    else ((c :: (splitOnce sep rest).1), (splitOnce sep rest).2)

/-- The white space of `char::is_whitespace`. -/
def isWhite (c : Char) : Bool :=
  let n := c.toNat
  decide (0x09 ≤ n ∧ n ≤ 0x0d) || n == 0x20 || n == 0x85 || n == 0xa0 || n == 0x1680 ||
    decide (0x2000 ≤ n ∧ n ≤ 0x200a) || n == 0x2028 || n == 0x2029 || n == 0x202f ||
    n == 0x205f || n == 0x3000

def trim (cs : List Char) : List Char :=
  ((cs.dropWhile isWhite).reverse.dropWhile isWhite).reverse

def asciiLower (cs : List Char) : List Char := cs.map Char.toLower

/-- `str::parse` of an unsigned number below a bound. -/
def parseUnsigned (bound : ℕ) (cs : List Char) : Option ℕ :=
  let digits := match cs with
    | '+' :: rest => rest
    | _ => cs
  (parseNat digits).filter fun n => decide (n < bound)

def httpMethods : List String :=
  ["GET", "POST", "PUT", "DELETE", "HEAD", "OPTIONS", "PATCH", "TRACE", "CONNECT"]

def isHttpMethod (m : List Char) : Bool := httpMethods.contains (String.ofList m)

/-- What a head says before its headers are read. -/
def HttpInfo.empty (headEnd : ℕ) : HttpInfo :=
  ⟨false, none, none, none, none, [], none, none, false, (0, headEnd)⟩

/-- The first line: a status line or a request line. -/
def firstLine (info : HttpInfo) (first : List Char) : Option HttpInfo :=
  let http := "HTTP/".toList
  if http.isPrefixOf first then do
    let (version, rest) := splitOnce ' ' (first.drop http.length)
    let status ← rest
    let code ← parseUnsigned (2 ^ 16) (splitOnce ' ' status).1
    return { info with
      version := some (String.ofList (http ++ version))
      statusCode := some (UInt16.ofNat code) }
  else do
    let (method, rest) := splitOnce ' ' first
    if isHttpMethod method then do
      let (uri, rest) := splitOnce ' ' (← rest)
      let version ← rest
      if http.isPrefixOf version then
        return { info with
          isRequest := true
          method := some (String.ofList method)
          uri := some (String.ofList uri)
          version := some (String.ofList version) }
      else none
    else none

/-- One header line. -/
def headerLine (info : HttpInfo) (line : List Char) : HttpInfo :=
  match splitOnce ':' line with
  | (_, none) => info
  | (k, some v) =>
    let k := trim k
    let v := trim v
    let name := String.ofList (asciiLower k)
    let info :=
      if name = "host" then { info with host := some (String.ofList v) }
      else if name = "content-length" then { info with contentLength := parseUnsigned (2 ^ 64) v }
      else if name = "transfer-encoding" ∧ asciiLower v = "chunked".toList then
        { info with chunked := true }
      else info
    { info with headers := info.headers ++ [(String.ofList k, String.ofList v)] }

/-- The header lines up to an empty one. -/
def headerLines (info : HttpInfo) (lines : List (List Char)) : HttpInfo :=
  (lines.takeWhile fun line => !line.isEmpty).foldl headerLine info

/-- The head of a stream ends behind the line end before the first empty line. -/
def headEnd (stream : List UInt8) : Parse ℕ :=
  match findSubslice (utf8Bytes "\r\n\r\n") stream with
  | some i => addUsize i 2
  | none => return min stream.length 8192

def tryDecodeHttp (stream : List UInt8) : Parse HttpInfo := do
  let stop ← headEnd stream
  let head ← sliceAt stream 0 stop
  let text ← ofOption (fromUtf8 head)
  match splitCrlf text.toList with
  | [] => refuse
  | first :: lines =>
    if first.isEmpty then refuse
    else do
      let info ← ofOption (firstLine (.empty stop) first)
      return headerLines info lines

section Safe

theorem findSubslice_add_le {needle : List UInt8} {stream : List UInt8} {i : ℕ}
    (h : findSubslice needle stream = some i) : i + needle.length ≤ stream.length := by
  induction stream generalizing i with
  | nil =>
    unfold findSubslice at h
    split at h
    · rename_i he
      cases h
      rw [List.isEmpty_iff.mp he]
      exact Nat.le_refl 0
    · cases h
  | cons b rest ih =>
    unfold findSubslice at h
    split at h
    · rename_i hp
      cases h
      rw [Nat.zero_add]
      exact (List.isPrefixOf_iff_prefix.mp hp).length_le
    · obtain ⟨j, hj, rfl⟩ := Option.map_eq_some_iff.mp h
      have hle := ih hj
      rw [List.length_cons]
      omega

theorem headerRange_firstLine {info i : HttpInfo} {first : List Char}
    (h : firstLine info first = some i) : i.headerRange = info.headerRange := by
  unfold firstLine at h
  simp only [Option.bind_eq_bind, Option.pure_def] at h
  split at h
  · obtain ⟨status, _, h⟩ := Option.bind_eq_some_iff.mp h
    obtain ⟨code, _, h⟩ := Option.bind_eq_some_iff.mp h
    cases h
    rfl
  · split at h
    · obtain ⟨rest, _, h⟩ := Option.bind_eq_some_iff.mp h
      obtain ⟨version, _, h⟩ := Option.bind_eq_some_iff.mp h
      split at h
      · cases h
        rfl
      · cases h
    · cases h

theorem headerRange_headerLine (info : HttpInfo) (line : List Char) :
    (headerLine info line).headerRange = info.headerRange := by
  unfold headerLine
  split
  · rfl
  · dsimp only
    split <;> [rfl; split <;> [rfl; split <;> rfl]]

theorem headerRange_headerLines (info : HttpInfo) (lines : List (List Char)) :
    (headerLines info lines).headerRange = info.headerRange := by
  unfold headerLines
  induction lines.takeWhile (fun line => !line.isEmpty) generalizing info with
  | nil => rfl
  | cons line lines ih => exact (ih _).trans (headerRange_headerLine info line)

/-- No byte stream makes the decoder fail, and the range of a head is one of the stream. -/
theorem holds_tryDecodeHttp {stream : List UInt8} (hs : stream.length < maxBytes) :
    Holds (tryDecodeHttp stream) fun i => i.headerRange.1 = 0 := by
  have hmax : maxBytes = 2 ^ 63 := rfl
  have hend : Holds (headEnd stream) fun stop => stop ≤ stream.length := by
    unfold headEnd
    cases hf : findSubslice (utf8Bytes "\r\n\r\n") stream with
    | none => exact min_le_left _ _
    | some i =>
      have hle := findSubslice_add_le hf
      have hlen : (utf8Bytes "\r\n\r\n").length = 4 := by decide
      change Holds (addUsize i 2) _
      rw [holds_addUsize (by omega)]
      omega
  refine hend.bind fun stop hstop => ?_
  rw [holds_bind, holds_sliceAt (Nat.zero_le _) hstop, holds_bind]
  refine holds_ofOption fun text _ => ?_
  cases splitCrlf text.toList with
  | nil => trivial
  | cons first lines =>
    refine holds_ite (fun _ => trivial) fun _ => ?_
    rw [holds_bind]
    refine holds_ofOption fun info hinfo => ?_
    rw [holds_pure, headerRange_headerLines, headerRange_firstLine hinfo, HttpInfo.empty]

end Safe

end Pktscope

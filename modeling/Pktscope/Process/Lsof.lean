import Mathlib.Data.List.DropRight
import Pktscope.Library.Folds
import Pktscope.Net.AddrParser
import Pktscope.Process.ProcNet

/-! # Sockets of macOS

The output of `lsof` has a field on each line, which starts with a tag: a process
(`p`), its command (`c`), a file of it (`f`), the protocol of the file (`P`) and
its endpoints (`n`). Three registers are reset by the tags of the records above;
an entry is made of what they hold at an endpoint.
-/

namespace Pktscope

open Library

namespace Lsof

/-- Protocol, local address and local port. -/
abbrev Key := UInt8 × IpAddr × UInt16

/-- Pid and command. -/
abbrev Entry := ℕ × String

abbrev Entries := AList fun _ : Key => Entry

/-- `str::split_once` with more than one character. -/
def splitOnceStr (sep : List Char) : List Char → Option (List Char × List Char)
  | [] => if sep = [] then some ([], []) else none
  | c :: cs =>
    if sep <+: c :: cs then some ([], (c :: cs).drop sep.length)
    else (splitOnceStr sep cs).map fun halves => (c :: halves.1, halves.2)

/-- `str::rsplit_once` -/
def rsplitOnce (sep : Char) : List Char → Option (List Char × List Char)
  | [] => none
  | c :: cs =>
    match rsplitOnce sep cs with
    | some (front, back) => some (c :: front, back)
    | none => if c = sep then some ([], cs) else none

def parsePort (cs : List Char) : Option UInt16 := (parseUnsigned (2 ^ 16) cs).map UInt16.ofNat

/-- An endpoint `addr:port` or `[addr]:port`. -/
def parseEndpoint (s : List Char) : Option (IpAddr × UInt16) :=
  match s with
  | '[' :: rest => do
    let (addr, port) ← splitOnceStr "]:".toList rest
    return (← parseIpAddr addr, ← parsePort port)
  | _ => do
    let (addr, port) ← rsplitOnce ':' s
    if addr = ['*'] then none
    else return (← parseIpAddr addr, ← parsePort port)

/-- What is in front of the arrow to the remote endpoint. -/
def localPart (rest : List Char) : List Char := ((splitOnceStr "->".toList rest).map Prod.fst).getD rest

def parsePid (rest : List Char) : ℕ := (parseUnsigned (2 ^ 32) rest).getD 0

def protocolOf (rest : List Char) : Option UInt8 :=
  if rest = "TCP".toList then some 6 else if rest = "UDP".toList then some 17 else none

/-- The registers, and the table so far. -/
structure ParseState where
  pid : ℕ
  cmd : String
  proto : Option UInt8
  map : Entries

/-- A line with a tag. -/
def field (s : ParseState) (tag : Char) (rest : List Char) : ParseState :=
  match tag with
  | 'p' => { s with pid := parsePid rest, cmd := "", proto := none }
  | 'c' => { s with cmd := String.ofList rest }
  | 'f' => { s with proto := none }
  | 'P' => { s with proto := protocolOf rest }
  | 'n' =>
    match s.proto with
    | some pr =>
      match parseEndpoint (localPart rest) with
      | some (addr, port) => { s with map := s.map.insert (pr, addr, port) (s.pid, s.cmd) }
      | none => s
    | none => s
  | _ => s

/-- One line; it stops at a first character of more than one byte, which cannot be cut off. -/
def parseLine (s : ParseState) (line : List Char) : Option ParseState :=
  match line with
  | [] => some s
  | tag :: rest => if tag.toNat < 128 then some (field s tag rest) else none

def parseLsof (text : List Char) (map : Entries) : Option Entries :=
  ((ProcNet.linesOf text).foldlM parseLine ⟨0, "", none, map⟩).map ParseState.map

section Records

/-- The field of a line with a tag. -/
def fieldOf (tag : Char) : List Char → Option (List Char)
  | [] => none
  | c :: rest => if c = tag then some rest else none

/-- The lines since the last one with one of the tags. -/
def since (tags : List Char) (lines : List (List Char)) : List (List Char) :=
  lines.rtakeWhile fun line => tags.all fun tag => (fieldOf tag line).isNone

/-- The field of the last line with a tag. -/
def lastField (tag : Char) (lines : List (List Char)) : Option (List Char) :=
  (lines.filterMap (fieldOf tag)).getLast?

/-- The pid of the last process. -/
def pidAt (before : List (List Char)) : ℕ := ((lastField 'p' before).map parsePid).getD 0

/-- The last command since the last process, the empty one without a command. -/
def cmdAt (before : List (List Char)) : String :=
  ((lastField 'c' (since ['p'] before)).map String.ofList).getD ""

/-- The last protocol since the last process and the last file. -/
def protoAt (before : List (List Char)) : Option UInt8 :=
  (lastField 'P' (since ['p', 'f'] before)).bind protocolOf

/-- The local endpoint of a line with endpoints, and the entry that its records make. -/
def reportAt (before : List (List Char)) (line : List Char) : Option (Key × Entry) := do
  let rest ← fieldOf 'n' line
  let pr ← protoAt before
  let (addr, port) ← parseEndpoint (localPart rest)
  return ((pr, addr, port), (pidAt before, cmdAt before))

/-- What a line reports for a key. -/
def entryFor (key : Key) (before : List (List Char)) (line : List Char) : Option Entry :=
  (reportAt before line).bind fun r => if r.1 = key then some r.2 else none

theorem entryFor_eq_some_iff {key : Key} {before : List (List Char)} {line : List Char}
    {entry : Entry} :
    entryFor key before line = some entry ↔ reportAt before line = some (key, entry) := by
  rw [entryFor, Option.bind_eq_some_iff]
  constructor
  · rintro ⟨⟨key', entry'⟩, hreport, hentry⟩
    split_ifs at hentry with hkey
    obtain rfl : key' = key := hkey
    cases hentry
    exact hreport
  · intro h
    exact ⟨_, h, if_pos rfl⟩

end Records

section Registers

variable {tag c : Char} {rest : List Char} {tags : List Char} {lines : List (List Char)}

theorem fieldOf_self : fieldOf tag (tag :: rest) = some rest := if_pos rfl

theorem fieldOf_ne (h : c ≠ tag) : fieldOf tag (c :: rest) = none := if_neg h

theorem lastField_concat (line : List Char) :
    lastField tag (lines ++ [line]) = (fieldOf tag line).or (lastField tag lines) := by
  unfold lastField
  rw [List.filterMap_append]
  cases h : fieldOf tag line with
  | none => simp [h]
  | some rest => simp [h]

theorem since_concat_of_mem (h : tag ∈ tags) : since tags (lines ++ [tag :: rest]) = [] := by
  refine List.rtakeWhile_concat_neg _ _ _ ?_
  intro hall
  have hnone := List.all_eq_true.mp hall tag h
  rw [fieldOf_self] at hnone
  cases hnone

theorem since_concat_of_not_mem (h : c ∉ tags) :
    since tags (lines ++ [c :: rest]) = since tags lines ++ [c :: rest] := by
  refine List.rtakeWhile_concat_pos _ _ _ (List.all_eq_true.mpr fun tag htag => ?_)
  rw [fieldOf_ne (ne_of_mem_of_not_mem htag h).symm]
  rfl

theorem since_concat_nil : since tags (lines ++ [[]]) = since tags lines ++ [[]] :=
  List.rtakeWhile_concat_pos _ _ _ (List.all_eq_true.mpr fun _ _ => rfl)

theorem pidAt_concat : pidAt (lines ++ [tag :: rest]) = if tag = 'p' then parsePid rest else pidAt lines := by
  rw [pidAt, lastField_concat]
  split_ifs with htag
  · rw [htag, fieldOf_self]
    rfl
  · rw [fieldOf_ne htag]
    rfl

theorem cmdAt_concat : cmdAt (lines ++ [tag :: rest]) =
    if tag = 'p' then "" else if tag = 'c' then String.ofList rest else cmdAt lines := by
  unfold cmdAt
  split_ifs with hp hc
  · rw [hp, since_concat_of_mem List.mem_cons_self]
    rfl
  · rw [since_concat_of_not_mem (by simpa using hp), lastField_concat, hc, fieldOf_self]
    rfl
  · rw [since_concat_of_not_mem (by simpa using hp), lastField_concat, fieldOf_ne hc]
    rfl

theorem protoAt_concat : protoAt (lines ++ [tag :: rest]) =
    if tag ∈ ['p', 'f'] then none else if tag = 'P' then protocolOf rest else protoAt lines := by
  unfold protoAt
  split_ifs with hreset hP
  · rw [since_concat_of_mem hreset]
    rfl
  · rw [since_concat_of_not_mem hreset, lastField_concat, hP, fieldOf_self]
    rfl
  · rw [since_concat_of_not_mem hreset, lastField_concat, fieldOf_ne hP]
    rfl

end Registers

section Fields

variable (s : ParseState) (tag : Char) (rest : List Char)

/-- What a line does to the registers. -/
theorem registers_field :
    (field s tag rest).pid = (if tag = 'p' then parsePid rest else s.pid) ∧
      (field s tag rest).cmd =
        (if tag = 'p' then "" else if tag = 'c' then String.ofList rest else s.cmd) ∧
      (field s tag rest).proto =
        if tag ∈ ['p', 'f'] then none else if tag = 'P' then protocolOf rest else s.proto := by
  unfold field
  split
  · exact ⟨rfl, rfl, (if_pos List.mem_cons_self).symm⟩
  · refine ⟨rfl, rfl, ?_⟩
    rw [if_neg (by decide), if_neg (by decide)]
  · exact ⟨rfl, rfl, (if_pos (List.mem_cons_of_mem _ List.mem_cons_self)).symm⟩
  · refine ⟨rfl, rfl, ?_⟩
    rw [if_neg (by decide), if_pos rfl]
  · have hproto : (if 'n' ∈ ['p', 'f'] then none else
        if 'n' = 'P' then protocolOf rest else s.proto) = s.proto := by
      rw [if_neg (by decide), if_neg (by decide)]
    rw [hproto]
    split
    · split
      · exact ⟨rfl, rfl, rfl⟩
      · exact ⟨rfl, rfl, rfl⟩
    · exact ⟨rfl, rfl, rfl⟩
  · next hp hc hf hP _ =>
    have hreset : tag ∉ ['p', 'f'] := by
      intro hmem
      rcases List.mem_cons.mp hmem with htag | htag
      · exact hp htag
      · exact hf (List.mem_singleton.mp htag)
    rw [if_neg hp, if_neg hp, if_neg hc, if_neg hreset, if_neg hP]
    exact ⟨rfl, rfl, rfl⟩

theorem map_field_of_ne (h : tag ≠ 'n') : (field s tag rest).map = s.map := by
  unfold field
  split
  · rfl
  · rfl
  · rfl
  · rfl
  · exact absurd rfl h
  · rfl

end Fields

/-- The registers hold what the lines so far say. -/
structure Registers (lines : List (List Char)) (s : ParseState) : Prop where
  pid : s.pid = pidAt lines
  cmd : s.cmd = cmdAt lines
  proto : s.proto = protoAt lines

/-- A line that is not refused. -/
def readLine (s : ParseState) : List Char → ParseState
  | [] => s
  | tag :: rest => field s tag rest

namespace Registers

variable {lines : List (List Char)} {s : ParseState}

theorem start (map : Entries) : Registers [] ⟨0, "", none, map⟩ := ⟨rfl, rfl, rfl⟩

theorem readLine (h : Registers lines s) (line : List Char) :
    Registers (lines ++ [line]) (readLine s line) := by
  cases line with
  | nil =>
    constructor
    · rw [pidAt, lastField_concat]
      exact h.pid
    · rw [cmdAt, since_concat_nil, lastField_concat]
      exact h.cmd
    · rw [protoAt, since_concat_nil, lastField_concat]
      exact h.proto
  | cons tag rest =>
    obtain ⟨hpid, hcmd, hproto⟩ := registers_field s tag rest
    constructor
    · rw [Lsof.readLine, hpid, pidAt_concat, h.pid]
    · rw [Lsof.readLine, hcmd, cmdAt_concat, h.cmd]
    · rw [Lsof.readLine, hproto, protoAt_concat, h.proto]

theorem foldl (lines : List (List Char)) (map : Entries) :
    Registers lines (lines.foldl Lsof.readLine ⟨0, "", none, map⟩) := by
  induction lines using List.reverseRecOn with
  | nil => exact .start map
  | append_singleton lines line ih =>
    rw [List.foldl_append]
    exact ih.readLine line

/-- A line writes the entry that it reports. -/
theorem lookup_readLine (h : Registers lines s) (line : List Char) (key : Key) :
    (Lsof.readLine s line).map.lookup key =
      (entryFor key lines line).or (s.map.lookup key) := by
  cases line with
  | nil => rfl
  | cons tag rest =>
    by_cases htag : tag = 'n'
    · subst htag
      rw [entryFor, reportAt, fieldOf_self, ← h.proto, ← h.pid, ← h.cmd, Lsof.readLine, field]
      cases s.proto with
      | none => rfl
      | some pr =>
        cases hlocal : parseEndpoint (localPart rest) with
        | none => simp [hlocal]
        | some endpoint =>
          by_cases hkey : (pr, endpoint) = key
          · subst hkey
            simp [hlocal]
          · simp [hlocal, hkey, AList.lookup_insert_ne (Ne.symm hkey)]
    · rw [Lsof.readLine, map_field_of_ne s tag rest htag, entryFor, reportAt, fieldOf_ne htag]
      rfl

end Registers

/-- The text has lines that start with characters of one byte. -/
def Tagged (text : List Char) : Prop :=
  ∀ line ∈ ProcNet.linesOf text, ∀ tag ∈ line.head?, tag.toNat < 128

theorem foldlM_parseLine {lines : List (List Char)}
    (h : ∀ line ∈ lines, ∀ tag ∈ line.head?, tag.toNat < 128) (s : ParseState) :
    lines.foldlM parseLine s = some (lines.foldl readLine s) := by
  induction lines generalizing s with
  | nil => rfl
  | cons line lines ih =>
    have hline : parseLine s line = some (readLine s line) := by
      cases line with
      | nil => rfl
      | cons tag rest => exact if_pos (h _ List.mem_cons_self tag rfl)
    rw [List.foldlM_cons, hline, List.foldl_cons]
    exact ih (fun line hmem => h line (List.mem_cons_of_mem _ hmem)) _

/-- An entry of the table is the report of the last endpoint line with its key: the protocol since
the last process and file, the last process, and the command since it. -/
theorem parseLsof_provenance {text : List Char} (h : Tagged text) :
    ∃ entries, parseLsof text ∅ = some entries ∧ ∀ key entry, entries.lookup key = some entry ↔
      ∃ i line, (ProcNet.linesOf text)[i]? = some line ∧
        reportAt ((ProcNet.linesOf text).take i) line = some (key, entry) ∧
        ∀ j line' entry', i < j → (ProcNet.linesOf text)[j]? = some line' →
          reportAt ((ProcNet.linesOf text).take j) line' ≠ some (key, entry') := by
  refine ⟨((ProcNet.linesOf text).foldl readLine ⟨0, "", none, ∅⟩).map, ?_, fun key entry => ?_⟩
  · rw [parseLsof, foldlM_parseLine h]
    rfl
  · have hcell := cell_eq_some_iff_lastValue (f := readLine)
      (g := fun s : ParseState => s.map.lookup key) (w := entryFor key)
      (s := ⟨0, "", none, ∅⟩) (AList.lookup_empty key)
      (fun log line => (Registers.foldl log ∅).lookup_readLine line key)
      (ProcNet.linesOf text) (b := entry)
    simp only [LastValue, Option.eq_none_iff_forall_ne_some, ne_eq, entryFor_eq_some_iff] at hcell
    rw [hcell]
    constructor
    · rintro ⟨i, line, hline, hreport, hlater⟩
      exact ⟨i, line, hline, hreport, fun j line' entry' hj hline' => hlater j line' hj hline' entry'⟩
    · rintro ⟨i, line, hline, hreport, hlater⟩
      exact ⟨i, line, hline, hreport, fun j line' hj hline' entry' => hlater j line' entry' hj hline'⟩

section Sample

/-- A connected socket of one file, and an endpoint of another one that is no endpoint. -/
def sampleText : List Char :=
  ("p501\ncfirefox\nf12\nPTCP\nn192.168.1.5:50000->93.184.216.34:443\n" ++
    "f13\nPUDP\nn10.0.0.2:53battle\n").toList

theorem tagged_sampleText : Tagged sampleText := by
  have hall : ((ProcNet.linesOf sampleText).all fun line =>
      line.head?.all fun tag => decide (tag.toNat < 128)) = true := by decide +kernel
  intro line hline tag htag
  have hhead := List.all_eq_true.mp hall line hline
  rw [Option.mem_def.mp htag] at hhead
  exact of_decide_eq_true hhead

theorem parseLsof_provenance_firefox : ∃ entries, parseLsof sampleText ∅ = some entries ∧
    entries.lookup (6, .ofOctets 192 168 1 5, 50000) = some (501, "firefox") := by
  obtain ⟨entries, hparse, hentries⟩ := parseLsof_provenance tagged_sampleText
  have hlines : ProcNet.linesOf sampleText =
      ["p501".toList, "cfirefox".toList, "f12".toList, "PTCP".toList,
        "n192.168.1.5:50000->93.184.216.34:443".toList, "f13".toList, "PUDP".toList,
        "n10.0.0.2:53battle".toList] := by decide +kernel
  refine ⟨entries, hparse, (hentries _ _).mpr ⟨4, _, by rw [hlines]; rfl, ?_, ?_⟩⟩
  · rw [hlines]
    decide +kernel
  · intro j line' entry' hj hline'
    have hlater : ∀ j : Fin 8, 4 < j.val →
        (((ProcNet.linesOf sampleText)[j.val]?).bind
          (reportAt ((ProcNet.linesOf sampleText).take j.val))).isNone := by
      decide +kernel
    have hlt := (List.getElem?_eq_some_iff.mp hline').1
    rw [hlines] at hlt
    have hnone := hlater ⟨j, hlt⟩ hj
    rw [hline', Option.bind_some, Option.isNone_iff_eq_none] at hnone
    rw [hnone]
    exact nofun

end Sample

end Lsof

end Pktscope

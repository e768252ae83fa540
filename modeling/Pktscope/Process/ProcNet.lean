import Mathlib.Data.List.AList
import Pktscope.Decode.Http
import Pktscope.Process.Identity

/-! # Sockets of Linux

The tables of the sockets under `/proc/net` are read into one cache, which every
lookup uses until it is older than the refresh interval. A refresh reads the
tables of the protocol that is then looked up, so the lookups of an interval are
all answered from the tables of the first one.
-/

namespace Pktscope

/-- What the kernel writes is ASCII, so that a byte of it is a character. -/
structure ProcText where
  chars : List Char
  ascii : ∀ c ∈ chars, c.toNat < 128

def ProcText.ofString (s : String) (h : s.toList.all fun c => decide (c.toNat < 128)) :
    ProcText :=
  ⟨s.toList, fun c hc => of_decide_eq_true (List.all_eq_true.mp h c hc)⟩

namespace ProcNet

/-- `str::lines` -/
def linesOf (cs : List Char) : List (List Char) :=
  let parts := cs.splitOn '\n'
  let ended := parts.dropLast.map fun line =>
    if line.getLast? = some '\r' then line.dropLast else line
  ended ++ parts.getLast?.toList.filter (· ≠ [])

/-- `str::split_whitespace` -/
def splitWhitespace (cs : List Char) : List (List Char) := (cs.splitOnP isWhite).filter (· ≠ [])

def hexDigit (c : Char) : Option ℕ :=
  if '0' ≤ c ∧ c ≤ '9' then some (c.toNat - '0'.toNat)
  else if 'a' ≤ c ∧ c ≤ 'f' then some (c.toNat - 'a'.toNat + 10)
  else if 'A' ≤ c ∧ c ≤ 'F' then some (c.toNat - 'A'.toNat + 10)
  else none

/-- `from_str_radix` of an unsigned hexadecimal number below a bound. -/
def parseHex (bound : ℕ) (cs : List Char) : Option ℕ := do
  let digits ← (match cs with
    | '+' :: rest => rest
    | _ => cs).mapM hexDigit
  if digits = [] then none
  else (some (digits.foldl (fun n d => 16 * n + d) 0)).filter fun n => decide (n < bound)

/-- A number of four bytes with the bytes in the other order. -/
def swapBytes (n : ℕ) : ℕ :=
  ((n % 256 * 256 + n / 2 ^ 8 % 256) * 256 + n / 2 ^ 16 % 256) * 256 + n / 2 ^ 24 % 256

/-- The four bytes of each word stand in the order of a little-endian host. -/
def parseAddr (hex : List Char) : Option IpAddr :=
  if hex.length = 8 then do
    let n ← parseHex (2 ^ 32) hex
    return .v4 (UInt32.ofNat (swapBytes n))
  else if hex.length = 32 then do
    let words ← (List.range 4).mapM fun i => parseHex (2 ^ 32) ((hex.drop (i * 8)).take 8)
    return .v6 (BitVec.ofNat 128 (words.foldl (fun n word => n * 2 ^ 32 + swapBytes word) 0))
  else none

def parseAddrPort (s : List Char) : Option (IpAddr × UInt16) :=
  match s.splitOn ':' with
  | [addrHex, portHex] => do
    let port ← parseHex (2 ^ 16) portHex
    let addr ← parseAddr addrHex
    return (addr, UInt16.ofNat port)
  | _ => none

/-- The inodes of sockets by their local address and port. -/
abbrev Entries := AList fun _ : IpAddr × UInt16 => ℕ

/-- The entry of one line of a table. -/
def parseLine (line : List Char) : Option ((IpAddr × UInt16) × ℕ) :=
  let fields := splitWhitespace line
  match fields[1]?, fields[9]? with
  | some localAddr, some inode => do
    let key ← parseAddrPort localAddr
    let inode ← parseUnsigned (2 ^ 64) inode
    if inode = 0 then none else return (key, inode)
  | _, _ => none

def parseProcNet (contents : ProcText) (entries : Entries) : Entries :=
  ((linesOf contents.chars).drop 1).foldl (fun entries line =>
    match parseLine line with
    | some (key, inode) => entries.insert key inode
    | none => entries) entries

/-- The contents of the files that can be read. -/
abbrev Files := String → Option ProcText

/-- The tables of a protocol. -/
def filesOf (protocol : UInt8) : Option (List String) :=
  if protocol = 6 then some ["/proc/net/tcp", "/proc/net/tcp6"]
  else if protocol = 17 then some ["/proc/net/udp", "/proc/net/udp6"]
  else none

/-- Read some tables one after another; what cannot be read is left out. -/
def readTables (files : Files) (paths : List String) : Entries :=
  paths.foldl (fun entries path =>
    match files path with
    | some contents => parseProcNet contents entries
    | none => entries) ∅

/-- What the tables of a protocol list. -/
def tablesOf (files : Files) (protocol : UInt8) : Entries :=
  ((filesOf protocol).map (readTables files)).getD ∅

structure ProcNetCache where
  entries : Entries
  /-- In nanoseconds of the monotonic clock. -/
  lastRefresh : ℤ

/-- One second. -/
def refreshInterval : ℤ := 1000000000

/-- One call: what is looked up, when, and when the tables have been read if they are. -/
structure Lookup where
  protocol : UInt8
  localAddr : IpAddr
  localPort : UInt16
  now : ℤ
  readAt : ℤ

namespace Lookup

/-- The cache that a lookup finds; the first one finds it too old. -/
def found (l : Lookup) (cache : Option ProcNetCache) : ProcNetCache :=
  cache.getD ⟨∅, l.now - refreshInterval * 2⟩

/-- Whether a lookup reads the tables again. -/
def refreshes (l : Lookup) (cache : Option ProcNetCache) : Bool :=
  decide (refreshInterval < l.now - (l.found cache).lastRefresh)

/-- The inode that a lookup finds, and the cache that it leaves. -/
def inode (files : Files) (l : Lookup) (cache : Option ProcNetCache) : Option ℕ × ProcNetCache :=
  let old := l.found cache
  if l.refreshes cache then
    match filesOf l.protocol with
    | some paths =>
      let new : ProcNetCache := ⟨readTables files paths, l.readAt⟩
      (new.entries.lookup (l.localAddr, l.localPort), new)
    | none => (none, { old with entries := ∅ })
  else (old.entries.lookup (l.localAddr, l.localPort), old)

/-- The process of the inode that a lookup finds. -/
def lookupSocketProcLinux (findPidForInode : ℕ → Option SocketProc) (files : Files) (l : Lookup)
    (cache : Option ProcNetCache) : Option SocketProc × ProcNetCache :=
  let (inode, cache) := l.inode files cache
  (inode.bind findPidForInode, cache)

/-- The inode that the tables of the lookup's own protocol list. -/
def listed (files : Files) (l : Lookup) : Option ℕ :=
  (tablesOf files l.protocol).lookup (l.localAddr, l.localPort)

end Lookup

/-- The inodes that some lookups find one after another. -/
def inodes (files : Files) : Option ProcNetCache → List Lookup → List (Option ℕ)
  | _, [] => []
  | cache, l :: ls => (l.inode files cache).1 :: inodes files (l.inode files cache).2 ls

section Interval

variable {files : Files} {cache : Option ProcNetCache} {l : Lookup}

theorem tablesOf_eq {protocol : UInt8} {paths : List String} (h : filesOf protocol = some paths) :
    tablesOf files protocol = readTables files paths := by
  rw [tablesOf, h]
  rfl

theorem filesOf_isSome {protocol : UInt8} (h : protocol = 6 ∨ protocol = 17) :
    ∃ paths, filesOf protocol = some paths := by
  rcases h with rfl | rfl
  · exact ⟨_, rfl⟩
  · exact ⟨_, rfl⟩

theorem Lookup.refreshes_none (l : Lookup) : l.refreshes none = true := by
  apply decide_eq_true
  have hlast : (l.found none).lastRefresh = l.now - refreshInterval * 2 := rfl
  rw [hlast, refreshInterval]
  omega

theorem Lookup.inode_of_refreshes (files : Files) (hl : l.protocol = 6 ∨ l.protocol = 17)
    (h : l.refreshes cache = true) :
    l.inode files cache = (l.listed files, ⟨tablesOf files l.protocol, l.readAt⟩) := by
  obtain ⟨paths, hpaths⟩ := filesOf_isSome hl
  rw [inode, if_pos h, hpaths, listed, tablesOf_eq hpaths]

theorem Lookup.inode_of_fresh (files : Files) {found : ProcNetCache}
    (h : l.now ≤ found.lastRefresh + refreshInterval) :
    l.inode files (some found) = (found.entries.lookup (l.localAddr, l.localPort), found) := by
  have hold : l.refreshes (some found) = false := by
    apply decide_eq_false
    have hlast : (l.found (some found)).lastRefresh = found.lastRefresh := rfl
    rw [hlast]
    omega
  rw [inode, hold]
  rfl

theorem inodes_of_fresh {found : ProcNetCache} {ls : List Lookup}
    (h : ∀ l ∈ ls, l.now ≤ found.lastRefresh + refreshInterval) :
    inodes files (some found) ls =
      ls.map fun l => found.entries.lookup (l.localAddr, l.localPort) := by
  induction ls with
  | nil => rfl
  | cons l ls ih =>
    have hl := Lookup.inode_of_fresh files (h l List.mem_cons_self)
    rw [inodes, hl, List.map_cons, ih fun l' hl' => h l' (List.mem_cons_of_mem l hl')]

end Interval

/-- The lookups of one refresh interval find what the tables of their own protocols list, exactly
when these agree there with the tables of the first lookup. -/
theorem inodes_eq_listed_iff (files : Files) (cache : Option ProcNetCache) (first : Lookup)
    (rest : List Lookup) (hproto : ∀ l ∈ first :: rest, l.protocol = 6 ∨ l.protocol = 17)
    (hfirst : first.refreshes cache = true)
    (hrest : ∀ l ∈ rest, l.now ≤ first.readAt + refreshInterval) :
    inodes files cache (first :: rest) = (first :: rest).map (Lookup.listed files) ↔
      ∀ l ∈ rest, (tablesOf files first.protocol).lookup (l.localAddr, l.localPort) =
        (tablesOf files l.protocol).lookup (l.localAddr, l.localPort) := by
  have hread := Lookup.inode_of_refreshes files (hproto first List.mem_cons_self) hfirst
  have hanswers : inodes files cache (first :: rest) = first.listed files ::
      rest.map fun l => (tablesOf files first.protocol).lookup (l.localAddr, l.localPort) := by
    rw [inodes, hread, inodes_of_fresh hrest]
  rw [hanswers, List.map_cons, List.cons_inj_right, List.map_inj_left]
  rfl

section Tables

/-- A table with one socket. -/
def tableOf (socket : String) : String :=
  "sl local rem st queues tr retr uid timeout inode\n" ++ socket ++ "\n"

/-- The tables of a host with one TCP and one UDP socket. -/
def twoSockets : Files := fun path =>
  if path = "/proc/net/tcp" then
    some (.ofString (tableOf "0: 0200000A:9C40 22D8B85D:01BB 01 0:0 00:0 0 1000 0 111 1")
      (by decide +kernel))
  else if path = "/proc/net/udp" then
    some (.ofString (tableOf "0: 0200000A:14E9 00000000:0000 07 0:0 00:0 0 1000 0 222 2")
      (by decide +kernel))
  else none

def hostAddr : IpAddr := .ofOctets 10 0 0 2

def tcpLookup : Lookup := ⟨6, hostAddr, 40000, 0, 1000⟩

theorem inodes_eq_listed_iff_tcp :
    inodes twoSockets none [tcpLookup, tcpLookup] =
        [tcpLookup, tcpLookup].map (Lookup.listed twoSockets) ↔
      ∀ l ∈ [tcpLookup], (tablesOf twoSockets 6).lookup (l.localAddr, l.localPort) =
        (tablesOf twoSockets l.protocol).lookup (l.localAddr, l.localPort) :=
  inodes_eq_listed_iff twoSockets none tcpLookup [tcpLookup] (by decide) tcpLookup.refreshes_none
    (by decide)

/-- After a TCP lookup a UDP socket is not found, and a TCP one is found in its place. -/
theorem tcp_answers_udp :
    let udp := fun port => (⟨17, hostAddr, port, 2000, 2000⟩ : Lookup)
    inodes twoSockets none [tcpLookup, udp 5353, udp 40000] = [some 111, none, some 111] ∧
      [tcpLookup, udp 5353, udp 40000].map (Lookup.listed twoSockets) =
        [some 111, some 222, none] := by
  decide +kernel

end Tables

end ProcNet

end Pktscope

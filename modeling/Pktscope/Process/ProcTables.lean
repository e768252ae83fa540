import Pktscope.Library.Columns
import Pktscope.Library.DnsFormat
import Pktscope.Library.Folds
import Pktscope.Library.Utf8
import Pktscope.Process.ProcNet

/-! # Printed socket tables

The kernel prints a line for each socket, with addresses in words of its own byte order.
Reading the lines back gives each address and port the inode of its last row, whatever
stands in the other columns.
-/

namespace Pktscope

open Library Parse

namespace ProcNet

section Reading

/-- `&s[a..b]`, whose bounds have to be boundaries of characters. -/
def sliceStr (s : List Char) (a b : ℕ) : Parse (List Char) :=
  match splitBytes s b with
  | some (front, _) =>
    match splitBytes front a with
    | some (_, part) => ok part
    | none => fault .index
  | none => fault .index

/-- `str::len` -/
def byteLen (s : List Char) : ℕ := (String.ofList s).utf8ByteSize

/-- An address in text of any characters. -/
def parseAddrText (hex : List Char) : Parse IpAddr :=
  if byteLen hex = 8 then do
    let n ← ofOption (parseHex (2 ^ 32) hex)
    return .v4 (UInt32.ofNat (swapBytes n))
  else if byteLen hex = 32 then do
    let words ← (List.range 4).mapM fun i => do
      let word ← sliceStr hex (i * 8) ((i + 1) * 8)
      ofOption (parseHex (2 ^ 32) word)
    return .v6 (BitVec.ofNat 128 (words.foldl (fun n word => n * 2 ^ 32 + swapBytes word) 0))
  else refuse

def parseAddrPortText (s : List Char) : Parse (IpAddr × UInt16) :=
  match s.splitOn ':' with
  | [addrHex, portHex] => do
    let port ← ofOption (parseHex (2 ^ 16) portHex)
    let addr ← parseAddrText addrHex
    return (addr, UInt16.ofNat port)
  | _ => refuse

def parseLineText (line : List Char) : Parse ((IpAddr × UInt16) × ℕ) :=
  let fields := splitWhitespace line
  match fields[1]?, fields[9]? with
  | some localAddr, some inode => do
    let key ← parseAddrPortText localAddr
    let inode ← ofOption (parseUnsigned (2 ^ 64) inode)
    if inode = 0 then refuse else return (key, inode)
  | _, _ => refuse

/-- A line that is refused is skipped. -/
def insertLineText (entries : Entries) (line : List Char) : Parse Entries := do
  match ← (parseLineText line).attempt with
  | some (key, inode) => return entries.insert key inode
  | none => return entries

def parseProcNetText (contents : List Char) (entries : Entries) : Parse Entries :=
  ((linesOf contents).drop 1).foldlM insertLineText entries

variable {hex s line : List Char}

theorem byteLen_of_ascii (h : ∀ c ∈ s, c.utf8Size = 1) : byteLen s = s.length :=
  utf8ByteSize_ofList_of_ascii h

theorem sliceStr_of_ascii (h : ∀ c ∈ s, c.utf8Size = 1) {a b : ℕ} (hab : a ≤ b)
    (hb : b ≤ s.length) : sliceStr s a b = ok ((s.drop a).take (b - a)) := by
  have hfront := splitBytes_of_ascii (fun c hc => h c (List.mem_of_mem_take hc))
    (show a ≤ (s.take b).length by rw [List.length_take]; omega)
  rw [sliceStr, splitBytes_of_ascii h hb]
  simp [hfront, List.drop_take]

/-- On ASCII a character is a byte. -/
theorem parseAddrText_of_ascii (h : ∀ c ∈ hex, c.utf8Size = 1) :
    parseAddrText hex = ofOption (parseAddr hex) := by
  rw [parseAddrText, parseAddr, byteLen_of_ascii h]
  split_ifs with h8 h32
  · exact ofOption_bind _ fun n => some (IpAddr.v4 (UInt32.ofNat (swapBytes n)))
  · have hwords : ((List.range 4).mapM fun i => do
        let word ← sliceStr hex (i * 8) ((i + 1) * 8)
        ofOption (parseHex (2 ^ 32) word)) =
        ofOption ((List.range 4).mapM fun i => parseHex (2 ^ 32) ((hex.drop (i * 8)).take 8)) := by
      apply mapM_eq_ofOption
      intro i hi
      have hi4 := List.mem_range.mp hi
      have hwidth : (i + 1) * 8 - i * 8 = 8 := by omega
      rw [sliceStr_of_ascii h (by omega) (by omega), ok_bind, hwidth]
    rw [hwords]
    exact ofOption_bind _ fun words : List ℕ => some (IpAddr.v6
      (BitVec.ofNat 128 (words.foldl (fun n word => n * 2 ^ 32 + swapBytes word) 0)))
  · rfl

/-- Elsewhere a word can end inside of a character. -/
example : parseAddrText ("0000000é".toList ++ List.replicate 23 '0') = fault .index := by
  decide +kernel

theorem parseAddrPortText_of_ascii (h : ∀ c ∈ s, c.utf8Size = 1) :
    parseAddrPortText s = ofOption (parseAddrPort s) := by
  have hparts : [':'].intercalate (s.splitOn ':') = s := List.intercalate_splitOn ':'
  unfold parseAddrPortText parseAddrPort
  generalize s.splitOn ':' = parts at hparts
  match parts with
  | [addrHex, portHex] =>
    have haddr : ∀ c ∈ addrHex, c.utf8Size = 1 := by
      intro c hc
      exact h c (by simp [← hparts, List.intercalate, hc])
    dsimp only
    rw [parseAddrText_of_ascii haddr]
    cases parseHex (2 ^ 16) portHex with
    | none => rfl
    | some port => exact ofOption_bind (parseAddr addrHex) fun addr => some (addr, UInt16.ofNat port)
  | [] => rfl
  | [_] => rfl
  | _ :: _ :: _ :: _ => rfl

/-- What a line adds to the entries. -/
def insertLine (entries : Entries) (line : List Char) : Entries :=
  match parseLine line with
  | some (key, inode) => entries.insert key inode
  | none => entries

/-- The local address of a line, if it has one, is ASCII. -/
def AsciiAddress (line : List Char) : Prop :=
  ∀ w ∈ (splitWhitespace line)[1]?, ∀ c ∈ w, c.utf8Size = 1

theorem parseLineText_of_ascii (h : AsciiAddress line) :
    parseLineText line = ofOption (parseLine line) := by
  unfold AsciiAddress at h
  unfold parseLineText parseLine
  dsimp only
  cases hlocal : (splitWhitespace line)[1]? with
  | none => rfl
  | some localAddr =>
    cases hinode : (splitWhitespace line)[9]? with
    | none => rfl
    | some inode =>
      dsimp only
      rw [parseAddrPortText_of_ascii (h localAddr hlocal)]
      cases parseAddrPort localAddr with
      | none => rfl
      | some key =>
        cases parseUnsigned (2 ^ 64) inode with
        | none => rfl
        | some n =>
          change (if n = 0 then refuse else ok (key, n)) = ofOption (if n = 0 then none else some (key, n))
          split_ifs <;> rfl

theorem insertLineText_of_ascii (h : AsciiAddress line) (entries : Entries) :
    insertLineText entries line = ok (insertLine entries line) := by
  rw [insertLineText, parseLineText_of_ascii h, insertLine]
  cases parseLine line <;> rfl

theorem foldlM_insertLineText {lines : List (List Char)} (h : ∀ line ∈ lines, AsciiAddress line)
    (entries : Entries) :
    lines.foldlM insertLineText entries = ok (lines.foldl insertLine entries) := by
  induction lines generalizing entries with
  | nil => rfl
  | cons line lines ih =>
    have hstep := insertLineText_of_ascii (h line List.mem_cons_self) entries
    rw [List.foldlM_cons, hstep, ok_bind, ih fun l hl => h l (List.mem_cons_of_mem line hl)]
    rfl

end Reading

section Printing

/-- The bytes of an address in network order. -/
def networkBytes : IpAddr → List UInt8
  | .v4 a => toBe 4 a.toNat
  | .v6 a => toBe 16 a.toNat

/-- The words that a little-endian host reads at some bytes. -/
def hostWords : List UInt8 → List ℕ
  | a :: b :: c :: d :: rest => beNat [d, c, b, a] :: hostWords rest
  | _ => []

def addrText (addr : IpAddr) : List Char := (hostWords (networkBytes addr)).flatMap (upperHex 8)

/-- What stands in the column of the local address. -/
def localText (addr : IpAddr) (port : UInt16) : List Char :=
  addrText addr ++ ':' :: upperHex 4 port.toNat

theorem plain_upperHex {width n : ℕ} :
    ∀ c ∈ upperHex width n, isWhite c = false ∧ c ≠ ':' ∧ c ≠ '+' ∧ c.utf8Size = 1 :=
  forall_mem_upperHex (by decide)

theorem plain_addrText {addr : IpAddr} :
    ∀ c ∈ addrText addr, isWhite c = false ∧ c ≠ ':' ∧ c.utf8Size = 1 := by
  intro c hc
  obtain ⟨word, -, hc⟩ := List.mem_flatMap.mp hc
  obtain ⟨hwhite, hcolon, -, hsize⟩ := plain_upperHex c hc
  exact ⟨hwhite, hcolon, hsize⟩

theorem plain_localText {addr : IpAddr} {port : UInt16} :
    ∀ c ∈ localText addr port, isWhite c = false ∧ c.utf8Size = 1 := by
  intro c hc
  rcases List.mem_append.mp hc with hc | hc
  · exact ⟨(plain_addrText c hc).1, (plain_addrText c hc).2.2⟩
  · rcases List.mem_cons.mp hc with rfl | hc
    · decide
    · exact ⟨(plain_upperHex c hc).1, (plain_upperHex c hc).2.2.2⟩

theorem parseHex_upperHex {bound n : ℕ} (h : n < bound) (width : ℕ) :
    parseHex bound (upperHex width n) = some n := by
  have hdigit : ∀ d < 16, hexDigit (Nat.digitChar d).toUpper = some d := by decide
  obtain ⟨ds, hds, hne, hvalue⟩ := mapM_upperHex hdigit width n
  unfold parseHex
  split
  · rename_i rest heq
    exact absurd rfl (plain_upperHex '+' (heq ▸ List.mem_cons_self)).2.2.1
  · simp [hds, hne, hvalue, h]

theorem beNat_four (a b c d : UInt8) :
    beNat [a, b, c, d] = ((a.toNat * 256 + b.toNat) * 256 + c.toNat) * 256 + d.toNat := by
  simp [beNat]

theorem beNat_four_lt (a b c d : UInt8) : beNat [a, b, c, d] < 2 ^ 32 := by
  have ha := a.toNat_lt
  have hb := b.toNat_lt
  have hc := c.toNat_lt
  have hd := d.toNat_lt
  rw [beNat_four]
  omega

theorem swapBytes_beNat (a b c d : UInt8) : swapBytes (beNat [d, c, b, a]) = beNat [a, b, c, d] := by
  have ha := a.toNat_lt
  have hb := b.toNat_lt
  have hc := c.toNat_lt
  have hd := d.toNat_lt
  have h0 : beNat [d, c, b, a] % 256 = a.toNat := by rw [beNat_four]; omega
  have h1 : beNat [d, c, b, a] / 2 ^ 8 % 256 = b.toNat := by rw [beNat_four]; omega
  have h2 : beNat [d, c, b, a] / 2 ^ 16 % 256 = c.toNat := by rw [beNat_four]; omega
  have h3 : beNat [d, c, b, a] / 2 ^ 24 % 256 = d.toNat := by rw [beNat_four]; omega
  rw [swapBytes, h0, h1, h2, h3, beNat_four]

theorem hostWords_lt (bytes : List UInt8) : ∀ word ∈ hostWords bytes, word < 2 ^ 32 := by
  induction bytes using hostWords.induct with
  | case1 a b c d rest ih =>
    intro word hword
    rcases List.mem_cons.mp hword with rfl | hword
    · exact beNat_four_lt d c b a
    · exact ih word hword
  | case2 bytes hshort =>
    intro word hword
    rw [hostWords] at hword
    · cases hword
    · exact hshort

/-- The words, with their bytes swapped, stand for the number that the bytes stand for. -/
theorem foldl_hostWords {bytes : List UInt8} (h : bytes.length % 4 = 0) (n : ℕ) :
    (hostWords bytes).foldl (fun n word => n * 2 ^ 32 + swapBytes word) n =
      bytes.foldl (fun n b => n * 256 + b.toNat) n := by
  induction bytes using hostWords.induct generalizing n with
  | case1 a b c d rest ih =>
    have hrest : rest.length % 4 = 0 := by
      simp only [List.length_cons] at h
      omega
    have hword : n * 2 ^ 32 + swapBytes (beNat [d, c, b, a]) =
        (((n * 256 + a.toNat) * 256 + b.toNat) * 256 + c.toNat) * 256 + d.toNat := by
      rw [swapBytes_beNat, beNat_four]
      omega
    simp only [hostWords, List.foldl_cons, hword, ih hrest]
  | case2 bytes hshort =>
    match bytes with
    | [] => rfl
    | [_] => cases h
    | [_, _] => cases h
    | [_, _, _] => cases h
    | a :: b :: c :: d :: rest => exact (hshort a b c d rest rfl).elim

theorem take_drop_upperHex {words : List ℕ} (h : ∀ word ∈ words, word < 2 ^ 32) {i word : ℕ}
    (hi : words[i]? = some word) :
    ((words.flatMap (upperHex 8)).drop (i * 8)).take 8 = upperHex 8 word := by
  induction words generalizing i with
  | nil => cases hi
  | cons first words ih =>
    have hlen : (upperHex 8 first).length = 8 :=
      length_upperHex (by omega) (h first List.mem_cons_self)
    rw [List.flatMap_cons]
    cases i with
    | zero =>
      obtain rfl : first = word := by simpa using hi
      rw [Nat.zero_mul, List.drop_zero, List.take_left' hlen]
    | succ i =>
      have hnext : (i + 1) * 8 = (upperHex 8 first).length + i * 8 := by omega
      rw [hnext, List.drop_length_add_append]
      exact ih (fun w hw => h w (List.mem_cons_of_mem first hw)) hi

theorem mapM_parseHex {w x y z : ℕ} (h : ∀ word ∈ [w, x, y, z], word < 2 ^ 32) :
    ((List.range 4).mapM fun i =>
      parseHex (2 ^ 32) ((([w, x, y, z].flatMap (upperHex 8)).drop (i * 8)).take 8)) =
        some [w, x, y, z] := by
  have hpart {i word : ℕ} (hi : [w, x, y, z][i]? = some word) :
      parseHex (2 ^ 32) ((([w, x, y, z].flatMap (upperHex 8)).drop (i * 8)).take 8) = some word := by
    rw [take_drop_upperHex h hi, parseHex_upperHex (h word (List.mem_of_getElem? hi))]
  have hrange : List.range 4 = [0, 1, 2, 3] := rfl
  rw [hrange]
  simp only [List.mapM_cons, List.mapM_nil, hpart (i := 0) rfl, hpart (i := 1) rfl,
    hpart (i := 2) rfl, hpart (i := 3) rfl]
  rfl

theorem foldl_swapBytes {k n : ℕ} (hk : k % 4 = 0) (h : n < 256 ^ k) :
    (hostWords (toBe k n)).foldl (fun n word => n * 2 ^ 32 + swapBytes word) 0 = n := by
  have hlen : (toBe k n).length % 4 = 0 := by rwa [length_toBe]
  rw [foldl_hostWords hlen]
  exact beNat_toBe h

theorem parseAddr_addrText (addr : IpAddr) : parseAddr (addrText addr) = some addr := by
  have hlt := hostWords_lt (networkBytes addr)
  cases addr with
  | v4 a =>
    have hvalue := foldl_swapBytes (show 4 % 4 = 0 from rfl) a.toNat_lt
    obtain ⟨word, hwords⟩ : ∃ word, hostWords (toBe 4 a.toNat) = [word] := ⟨_, rfl⟩
    have htext : addrText (.v4 a) = upperHex 8 word := by simp [addrText, networkBytes, hwords]
    rw [networkBytes, hwords] at hlt
    have hword := hlt word List.mem_cons_self
    have hlen : (upperHex 8 word).length = 8 := length_upperHex (by omega) hword
    have hswap : swapBytes word = a.toNat := by simpa [hwords] using hvalue
    rw [htext, parseAddr, if_pos hlen, parseHex_upperHex hword]
    simp [hswap]
  | v6 a =>
    have hvalue := foldl_swapBytes (show 16 % 4 = 0 from rfl) a.isLt
    obtain ⟨w, x, y, z, hwords⟩ : ∃ w x y z, hostWords (toBe 16 a.toNat) = [w, x, y, z] :=
      ⟨_, _, _, _, rfl⟩
    have htext : addrText (.v6 a) = [w, x, y, z].flatMap (upperHex 8) := by
      rw [addrText, networkBytes, hwords]
    rw [networkBytes, hwords] at hlt
    have hlen : ([w, x, y, z].flatMap (upperHex 8)).length = 32 := by
      have hword : ∀ word ∈ [w, x, y, z], (upperHex 8 word).length = 8 :=
        fun word hword => length_upperHex (by omega) (hlt word hword)
      simp [hword]
    rw [htext, parseAddr, if_neg (by omega), if_pos hlen, mapM_parseHex hlt]
    rw [hwords] at hvalue
    change some (IpAddr.v6 (BitVec.ofNat 128 _)) = _
    rw [hvalue, BitVec.ofNat_toNat, BitVec.setWidth_eq]

theorem parseAddrPort_localText (addr : IpAddr) (port : UInt16) :
    parseAddrPort (localText addr port) = some (addr, port) := by
  have hfront : ':' ∉ addrText addr := fun h => (plain_addrText ':' h).2.1 rfl
  have hback : ':' ∉ upperHex 4 port.toNat := fun h => (plain_upperHex ':' h).2.1 rfl
  have hparts : (localText addr port).splitOn ':' = [addrText addr, upperHex 4 port.toNat] := by
    rw [localText, List.splitOn_append_cons_self_of_not_mem hfront, List.splitOn_eq_singleton hback]
  simp [parseAddrPort, hparts, parseHex_upperHex port.toNat_lt, parseAddr_addrText]

example : localText (.ofOctets 127 0 0 1) 8080 = "0100007F:1F90".toList ∧
    localText (.v6 1) 53 = "00000000000000000000000001000000:0035".toList := by
  decide +kernel

theorem parseUnsigned_toDigits {bound n : ℕ} (h : n < bound) :
    parseUnsigned bound (Nat.toDigits 10 n) = some n := by
  have hplus := not_mem_toDigits (c := '+') rfl n
  unfold parseUnsigned
  split
  · rename_i rest heq
    simp [heq] at hplus
  · simp [parseNat_toDigits, h]

/-- A socket as its row shows it. The columns of its local address and its inode have one blank in
front. -/
structure SocketRow where
  slot : Column isWhite
  addr : IpAddr
  port : UInt16
  remAddress : Column isWhite
  st : Column isWhite
  queues : Column isWhite
  timer : Column isWhite
  retrnsmt : Column isWhite
  uid : Column isWhite
  timeout : Column isWhite
  inode : UInt64
  /-- What stands behind the inode. -/
  rest : List (Column isWhite)
  /-- How many blanks stand at the end. -/
  padding : ℕ

namespace SocketRow

variable (r : SocketRow)

def localAddress : Column isWhite where
  gap := 0
  text := localText r.addr r.port
  nonempty := by simp [localText]
  plain := fun c hc => (plain_localText c hc).1

def inodeColumn : Column isWhite where
  gap := 0
  text := Nat.toDigits 10 r.inode.toNat
  nonempty := Nat.toDigits_ne_nil
  plain := fun c hc => by
    have hdigit : ∀ d < 10, isWhite (Nat.digitChar d) = false := by decide
    obtain ⟨d, hd, rfl⟩ := exists_digit (by omega) hc
    exact hdigit d hd

/-- The columns behind the slot. -/
def columns : List (Column isWhite) :=
  [r.localAddress, r.remAddress, r.st, r.queues, r.timer, r.retrnsmt, r.uid, r.timeout,
    r.inodeColumn] ++ r.rest

def line : List Char :=
  List.replicate r.slot.gap ' ' ++
    (r.slot.text ++ (columnsText ' ' r.columns ++ List.replicate r.padding ' '))

def key : IpAddr × UInt16 := (r.addr, r.port)

/-- The inode that a row shows for an address and port. -/
def inodeFor (key : IpAddr × UInt16) : Option ℕ :=
  if r.key = key ∧ r.inode ≠ 0 then some r.inode.toNat else none

theorem splitWhitespace_line : splitWhitespace r.line = (r.slot :: r.columns).map Column.text := by
  have hblank : isWhite ' ' = true := by decide
  change words isWhite r.line = _
  rw [line, words_replicate_append hblank, words_columnsText hblank]

theorem mem_line {c : Char} (h : c ∈ r.line) : c = ' ' ∨ isWhite c = false := by
  rcases List.mem_append.mp h with h | h
  · exact Or.inl (List.eq_of_mem_replicate h)
  · rcases List.mem_append.mp h with h | h
    · exact Or.inr (r.slot.plain c h)
    · rcases List.mem_append.mp h with h | h
      · exact mem_columnsText h
      · exact Or.inl (List.eq_of_mem_replicate h)

theorem asciiAddress_line : AsciiAddress r.line := by
  intro w hw c hc
  rw [splitWhitespace_line] at hw
  obtain rfl : localText r.addr r.port = w := by simpa [columns, localAddress] using hw
  exact (plain_localText c hc).2

theorem parseLine_line :
    parseLine r.line = if r.inode = 0 then none else some (r.key, r.inode.toNat) := by
  have hlocal : (splitWhitespace r.line)[1]? = some (localText r.addr r.port) := by
    rw [splitWhitespace_line]
    rfl
  have hinode : (splitWhitespace r.line)[9]? = some (Nat.toDigits 10 r.inode.toNat) := by
    rw [splitWhitespace_line]
    rfl
  have hzero : r.inode.toNat = 0 ↔ r.inode = 0 := by
    rw [← UInt64.toNat_inj, UInt64.toNat_zero]
  unfold parseLine
  simp [hlocal, hinode, parseAddrPort_localText, parseUnsigned_toDigits r.inode.toNat_lt, hzero, key]

end SocketRow

/-- A table under a line with the names of its columns. -/
structure SocketTable where
  header : List Char
  newline_not_mem : '\n' ∉ header
  rows : List SocketRow

def SocketTable.text (t : SocketTable) : List Char :=
  (t.header :: t.rows.map SocketRow.line).flatMap fun line => line ++ ['\n']

/-- The lines under the header are those of the rows. -/
theorem SocketTable.linesOf_text (t : SocketTable) :
    (linesOf t.text).drop 1 = t.rows.map SocketRow.line := by
  have hlines : ∀ line ∈ t.header :: t.rows.map SocketRow.line, '\n' ∉ line := by
    intro line hline
    rcases List.mem_cons.mp hline with rfl | hline
    · exact t.newline_not_mem
    · obtain ⟨r, -, rfl⟩ := List.mem_map.mp hline
      intro h
      rcases r.mem_line h with h | h
      · cases h
      · cases h
  have hplain (r : SocketRow) : r.line.getLast? ≠ some '\r' := by
    intro h
    rcases r.mem_line (List.mem_of_getLast? h) with h | h
    · cases h
    · cases h
  simp only [linesOf, text, splitOn_flatMap_concat hlines, List.dropLast_concat,
    List.getLast?_concat]
  simp [hplain]

end Printing

section Filling

/-- The inode of the last row that shows one for an address and port. -/
def lastInode (rows : List SocketRow) (key : IpAddr × UInt16) : Option ℕ :=
  (rows.filterMap fun r => r.inodeFor key).getLast?

theorem lookup_insertLine (entries : Entries) (r : SocketRow) (key : IpAddr × UInt16) :
    (insertLine entries r.line).lookup key = (r.inodeFor key).or (entries.lookup key) := by
  rw [insertLine, r.parseLine_line, SocketRow.inodeFor]
  by_cases hinode : r.inode = 0
  · simp [hinode]
  · by_cases hkey : r.key = key
    · simp [hinode, hkey]
    · simp [hinode, hkey, AList.lookup_insert_ne (Ne.symm hkey)]

theorem lookup_foldl_insertLine (rows : List SocketRow) (entries : Entries)
    (key : IpAddr × UInt16) :
    ((rows.map SocketRow.line).foldl insertLine entries).lookup key =
      (lastInode rows key).or (entries.lookup key) := by
  rw [List.foldl_map]
  exact foldl_register (g := fun entries => entries.lookup key) (I := fun _ => True)
    (P := fun _ => True) (fun _ _ _ _ => trivial)
    (fun entries r _ _ => lookup_insertLine entries r key) (fun _ _ => trivial) trivial

end Filling

/-- A printed table is read back: into an empty map, exactly each address and port with the inode
of the last row that shows one; the entries of others stay. -/
theorem parseProcNetText_text (table : SocketTable) (entries : Entries) :
    ∃ filled, parseProcNetText table.text entries = ok filled ∧
      ∀ key, filled.lookup key = (lastInode table.rows key).or (entries.lookup key) := by
  have hascii : ∀ line ∈ (linesOf table.text).drop 1, AsciiAddress line := by
    intro line hline
    rw [table.linesOf_text] at hline
    obtain ⟨r, -, rfl⟩ := List.mem_map.mp hline
    exact r.asciiAddress_line
  refine ⟨_, foldlM_insertLineText hascii entries, fun key => ?_⟩
  rw [table.linesOf_text, lookup_foldl_insertLine]

end ProcNet

end Pktscope

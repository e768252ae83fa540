import Mathlib.Algebra.GroupWithZero.Nat
import Pktscope.Library.Dictionary
import Pktscope.Library.Utf8

/-! # Header compression

The header blocks of HTTP/2 (RFC 7541) as an encoder writes them. Each field is given by
an index into a fixed and a dynamic table, or as a literal that may enter the dynamic
table; strings are written without the Huffman code.
-/

namespace Library.HeaderCoding

open Dictionary

/-- A number in groups of seven bits, the lowest first; every byte but the last is marked. -/
inductive Varint : ℕ → List UInt8 → Prop
  | last {b : ℕ} : b < 128 → Varint b [UInt8.ofNat b]
  | more {b n : ℕ} {l : List UInt8} : b < 128 → Varint n l →
      Varint (b + 128 * n) (UInt8.ofNat (b + 128) :: l)

/-- An integer behind the mark in the first byte of a field (section 5.1): in the other bits of that
byte when it is small, else in up to five more bytes. -/
inductive PrefixInt (bits mark : ℕ) : ℕ → List UInt8 → Prop
  | short {n : ℕ} : n < 2 ^ bits - 1 → PrefixInt bits mark n [UInt8.ofNat (mark + n)]
  | long {n : ℕ} {l : List UInt8} : Varint n l → l.length ≤ 5 →
      PrefixInt bits mark (2 ^ bits - 1 + n) (UInt8.ofNat (mark + (2 ^ bits - 1)) :: l)

/-- A string behind its length (section 5.2). -/
inductive StringBytes (s : String) : List UInt8 → Prop
  | plain {l : List UInt8} : PrefixInt 7 0 (utf8Bytes s).length l → StringBytes s (l ++ utf8Bytes s)

/-- What is done with the entry that a literal makes. -/
inductive Mode where
  | incremental
  | without
  | never
  deriving DecidableEq

/-- The mark of a literal and the bits behind it. -/
def Mode.mark : Mode → ℕ
  | .incremental => 64
  | .without => 0
  | .never => 16

def Mode.bits : Mode → ℕ
  | .incremental => 6
  | .without => 4
  | .never => 4

/-- A name, given by an entry or in full. -/
inductive Name where
  | entry (i : ℕ)
  | text (s : String)

/-- The representations of a block (section 6). -/
inductive Rep where
  | indexed (i : ℕ)
  | literal (mode : Mode) (name : Name) (value : String)
  | resize (n : ℕ)

inductive NameBytes (mode : Mode) : Name → List UInt8 → Prop
  | entry {i : ℕ} {l : List UInt8} : 0 < i → PrefixInt mode.bits mode.mark i l →
      NameBytes mode (.entry i) l
  | text {s : String} {l k : List UInt8} : PrefixInt mode.bits mode.mark 0 l → StringBytes s k →
      NameBytes mode (.text s) (l ++ k)

/-- The bytes of a representation. -/
inductive RepBytes : Rep → List UInt8 → Prop
  | indexed {i : ℕ} {l : List UInt8} : PrefixInt 7 128 i l → RepBytes (.indexed i) l
  | literal {mode : Mode} {name : Name} {value : String} {l k : List UInt8} :
      NameBytes mode name l → StringBytes value k → RepBytes (.literal mode name value) (l ++ k)
  | resize {n : ℕ} {l : List UInt8} : PrefixInt 5 32 n l → RepBytes (.resize n) l

/-- The static table (appendix A), with the values of each name. -/
def staticNames : List (String × List String) :=
  [(":authority", [""]), (":method", ["GET", "POST"]), (":path", ["/", "/index.html"]),
    (":scheme", ["http", "https"]),
    (":status", ["200", "204", "206", "304", "400", "404", "500"]), ("accept-charset", [""]),
    ("accept-encoding", ["gzip, deflate"]), ("accept-language", [""]), ("accept-ranges", [""]),
    ("accept", [""]), ("access-control-allow-origin", [""]), ("age", [""]), ("allow", [""]),
    ("authorization", [""]), ("cache-control", [""]), ("content-disposition", [""]),
    ("content-encoding", [""]), ("content-language", [""]), ("content-length", [""]),
    ("content-location", [""]), ("content-range", [""]), ("content-type", [""]), ("cookie", [""]),
    ("date", [""]), ("etag", [""]), ("expect", [""]), ("expires", [""]), ("from", [""]),
    ("host", [""]), ("if-match", [""]), ("if-modified-since", [""]), ("if-none-match", [""]),
    ("if-range", [""]), ("if-unmodified-since", [""]), ("last-modified", [""]), ("link", [""]),
    ("location", [""]), ("max-forwards", [""]), ("proxy-authenticate", [""]),
    ("proxy-authorization", [""]), ("range", [""]), ("referer", [""]), ("refresh", [""]),
    ("retry-after", [""]), ("server", [""]), ("set-cookie", [""]),
    ("strict-transport-security", [""]), ("transfer-encoding", [""]), ("user-agent", [""]),
    ("vary", [""]), ("via", [""]), ("www-authenticate", [""])]

def staticEntries : List (String × String) :=
  staticNames.flatMap fun name => name.2.map fun value => (name.1, value)

/-- The size of an entry (section 4.1). -/
def entrySize (e : String × String) : ℕ := (utf8Bytes e.1).length + (utf8Bytes e.2).length + 32

/-- The dynamic table of an encoder, the newest entry first. -/
structure Table where
  entries : List (String × String)
  limit : ℕ
  deriving DecidableEq

namespace Table

def new : Table := ⟨[], 4096⟩

/-- The entry that an index names; the dynamic table follows the static one. -/
def lookup (t : Table) (i : ℕ) : Option (String × String) :=
  if i = 0 then none else (staticEntries ++ t.entries)[i - 1]?

def name (t : Table) : Name → Option String
  | .entry i => (t.lookup i).map Prod.fst
  | .text s => some s

/-- An entry evicts the old ones it has no room beside, and is not kept when it has no room at all. -/
def keep (t : Table) (mode : Mode) (e : String × String) : Table :=
  match mode with
  | .incremental => { t with entries := add entrySize t.limit e t.entries }
  | .without => t
  | .never => t

def resize (t : Table) (n : ℕ) : Table := ⟨fitting entrySize n t.entries, n⟩

/-- What a representation does to the table, and the field it makes. -/
def step (t : Table) : Rep → Option (Table × List (String × String))
  | .indexed i => (t.lookup i).map fun e => (t, [e])
  | .literal mode n value => (t.name n).map fun s => (t.keep mode (s, value), [(s, value)])
  | .resize n => some (t.resize n, [])

/-- What a block does to the table, and the header list it makes. -/
def run (t : Table) : List Rep → Option (Table × List (String × String))
  | [] => some (t, [])
  | rep :: rest =>
    (t.step rep).bind fun r => (r.1.run rest).map fun more => (more.1, r.2 ++ more.2)

end Table

/-- The bytes of a block. -/
inductive BlockBytes : List Rep → List UInt8 → Prop
  | nil : BlockBytes [] []
  | cons {rep : Rep} {reps : List Rep} {l k : List UInt8} : RepBytes rep l → BlockBytes reps k →
      BlockBytes (rep :: reps) (l ++ k)

/-- An encoder writes block after block; each comes with its header list and with the table after
it. -/
inductive Session : Table → List (List UInt8) → List (List (String × String) × Table) → Prop
  | nil (t : Table) : Session t [] []
  | cons {t t' : Table} {reps : List Rep} {block : List UInt8} {headers : List (String × String)}
      {blocks : List (List UInt8)} {outcomes : List (List (String × String) × Table)} :
      BlockBytes reps block → t.run reps = some (t', headers) → Session t' blocks outcomes →
      Session t (block :: blocks) ((headers, t') :: outcomes)

section Bounds

variable {bits mark n : ℕ} {l : List UInt8}

theorem Varint.lt (h : Varint n l) : n < 2 ^ (7 * l.length) := by
  induction h with
  | last hb => exact hb
  | @more b n l hb _ ih =>
    have hpow : 2 ^ (7 * (l.length + 1)) = 2 ^ (7 * l.length) * 128 := Nat.pow_add 2 _ 7
    rw [List.length_cons]
    omega

theorem PrefixInt.lt (h : PrefixInt bits mark n l) (hbits : bits ≤ 7) : n < 2 ^ 36 := by
  have hpow : 2 ^ bits ≤ 2 ^ 7 := Nat.pow_le_pow_right (by decide) hbits
  cases h with
  | short hn => omega
  | @long n l hv hlen =>
    have hlt := hv.lt
    have hmost : 2 ^ (7 * l.length) ≤ 2 ^ 35 := Nat.pow_le_pow_right (by decide) (by omega)
    omega

/-- The first byte of an integer has its mark. -/
theorem PrefixInt.first (h : PrefixInt bits mark n l) :
    ∃ low rest, low < 2 ^ bits ∧ l = UInt8.ofNat (mark + low) :: rest := by
  have hone : 0 < 2 ^ bits := Nat.two_pow_pos bits
  cases h with
  | short hlt => exact ⟨n, [], by omega, rfl⟩
  | long _ _ => exact ⟨2 ^ bits - 1, _, by omega, rfl⟩

theorem PrefixInt.length_pos (h : PrefixInt bits mark n l) : 0 < l.length := by
  cases h with
  | short _ => exact Nat.one_pos
  | long _ _ => exact Nat.succ_pos _

theorem StringBytes.size_lt {s : String} (h : StringBytes s l) : (utf8Bytes s).length < 2 ^ 36 := by
  cases h with
  | plain hint => exact hint.lt (Nat.le_refl 7)

theorem NameBytes.length_pos {mode : Mode} {name : Name} (h : NameBytes mode name l) :
    0 < l.length := by
  cases h with
  | entry _ hint => exact hint.length_pos
  | text hint _ => exact Nat.lt_of_lt_of_le hint.length_pos (List.length_append ▸ Nat.le_add_right _ _)

theorem NameBytes.first {mode : Mode} {name : Name} (h : NameBytes mode name l) :
    ∃ low rest, low < 2 ^ mode.bits ∧ l = UInt8.ofNat (mode.mark + low) :: rest := by
  cases h with
  | entry _ hint => exact hint.first
  | text hint _ =>
    obtain ⟨low, rest, hlow, rfl⟩ := hint.first
    exact ⟨low, _, hlow, rfl⟩

theorem RepBytes.length_pos {rep : Rep} (h : RepBytes rep l) : 0 < l.length := by
  cases h with
  | indexed hint => exact hint.length_pos
  | literal hname _ =>
    exact Nat.lt_of_lt_of_le hname.length_pos (List.length_append ▸ Nat.le_add_right _ _)
  | resize hint => exact hint.length_pos

theorem PrefixInt.length_le (h : PrefixInt bits mark n l) : l.length ≤ 6 := by
  cases h with
  | short _ => exact Nat.le_of_ble_eq_true rfl
  | long _ hlen => exact Nat.succ_le_succ hlen

theorem StringBytes.length_lt {s : String} (h : StringBytes s l) : l.length < 2 ^ 36 + 6 := by
  have hsize := h.size_lt
  cases h with
  | plain hint =>
    have hlen := hint.length_le
    rw [List.length_append]
    omega

theorem NameBytes.length_lt {mode : Mode} {name : Name} (h : NameBytes mode name l) :
    l.length < 2 ^ 36 + 12 := by
  cases h with
  | entry _ hint => exact Nat.lt_of_le_of_lt hint.length_le (by decide)
  | text hint hstr =>
    have hlen := hint.length_le
    have hname := hstr.length_lt
    rw [List.length_append]
    omega

theorem RepBytes.length_lt {rep : Rep} (h : RepBytes rep l) : l.length < 2 ^ 38 := by
  cases h with
  | indexed hint => exact Nat.lt_of_le_of_lt hint.length_le (by decide)
  | literal hname hvalue =>
    have hlen := hname.length_lt
    have hval := hvalue.length_lt
    rw [List.length_append]
    omega
  | resize hint => exact Nat.lt_of_le_of_lt hint.length_le (by decide)

end Bounds

namespace Table

/-- The entries are within the limit, which is itself one that can be written. -/
structure Bounded (t : Table) : Prop where
  total : total entrySize t.entries ≤ t.limit
  limit : t.limit < 2 ^ 36

variable {t : Table}

theorem bounded_new : new.Bounded := ⟨Nat.zero_le _, by decide⟩

theorem Bounded.keep (ht : t.Bounded) (mode : Mode) (e : String × String) :
    (t.keep mode e).Bounded := by
  cases mode with
  | incremental => exact ⟨total_fitting_le t.limit (e :: t.entries), ht.limit⟩
  | without => exact ht
  | never => exact ht

theorem bounded_resize {n : ℕ} (hn : n < 2 ^ 36) (t : Table) : (t.resize n).Bounded :=
  ⟨total_fitting_le n t.entries, hn⟩

theorem lookup_mem {i : ℕ} {e : String × String} (h : t.lookup i = some e) :
    e ∈ staticEntries ++ t.entries := by
  unfold lookup at h
  by_cases hi : i = 0
  · rw [if_pos hi] at h
    cases h
  · rw [if_neg hi] at h
    exact List.mem_of_getElem? h

theorem size_static {e : String × String} (h : e ∈ staticEntries) : entrySize e ≤ 128 := by
  have hall : staticEntries.all fun e => decide (entrySize e ≤ 128) := by
    decide +kernel
  exact of_decide_eq_true (List.all_eq_true.mp hall e h)

/-- A name that can be written is no longer than the largest integer. -/
theorem Bounded.name_lt (ht : t.Bounded) {mode : Mode} {n : Name} {l : List UInt8} {s : String}
    (hn : NameBytes mode n l) (hs : t.name n = some s) : (utf8Bytes s).length < 2 ^ 36 := by
  cases hn with
  | text _ hstr =>
    cases hs
    exact hstr.size_lt
  | entry _ _ =>
    obtain ⟨e, he, rfl⟩ := Option.map_eq_some_iff.mp hs
    have hsize : entrySize e = (utf8Bytes e.1).length + (utf8Bytes e.2).length + 32 := rfl
    rcases List.mem_append.mp (lookup_mem he) with hmem | hmem
    · have hle := size_static hmem
      omega
    · have hle : entrySize e ≤ Dictionary.total entrySize t.entries := cost_le_total hmem
      have htotal := ht.total
      have hlimit := ht.limit
      omega

end Table

end Library.HeaderCoding

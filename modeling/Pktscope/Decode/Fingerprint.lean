import Mathlib.Data.List.Sort
import Pktscope.Library.Bytes
import Pktscope.Library.Utf8

/-! # JA3 and JA4

The client fingerprints computed from the fields of a ClientHello. The hash
functions are those of two other crates; they are parameters here, with the
sizes of their results.
-/

namespace Pktscope

open Library Parse

/-- The hash functions of the `md5` and `sha2` crates. -/
class Digests where
  md5 : List UInt8 → Vector UInt8 16
  sha256 : List UInt8 → Vector UInt8 32

/-- A number in hexadecimal with at least some digits. -/
def hexPad (width n : ℕ) : String := String.ofList ((Nat.toDigits 16 n).leftpad width '0')

def decPad (width n : ℕ) : String := String.ofList ((Nat.toDigits 10 n).leftpad width '0')

def isGrease (v : UInt16) : Bool := v >>> 8 == v &&& 0x00ff && v &&& 0x000f == 0x000a

def hex (bytes : List UInt8) : String := String.join (bytes.map fun b => hexPad 2 b.toNat)

def ja3String (version : UInt16) (ciphers exts groups : List UInt16) (formats : List UInt8) :
    String :=
  let joinU16 := fun (xs : List UInt16) =>
    "-".intercalate ((xs.filter fun v => !isGrease v).map fun v => toString v.toNat)
  let joinU8 := fun (xs : List UInt8) => "-".intercalate (xs.map fun v => toString v.toNat)
  ",".intercalate
    [toString version.toNat, joinU16 ciphers, joinU16 exts, joinU16 groups, joinU8 formats]

def ja4VersionCode (v : UInt16) : String :=
  if v = 0x0304 then "13"
  else if v = 0x0303 then "12"
  else if v = 0x0302 then "11"
  else if v = 0x0301 then "10"
  else if v = 0x0300 then "s3"
  else if v = 0xfeff then "d1"
  else if v = 0xfefd then "d2"
  else "00"

/-- The first and the last byte of the first protocol. -/
def ja4Alpn (first : Option String) : Parse String :=
  match first with
  | none => return "00"
  | some s =>
    let b := utf8Bytes s
    if b.isEmpty then return "00"
    else do
      let head ← index b 0
      let last ← subUsize b.length 1
      let tail ← index b last
      return String.ofList [Char.ofNat head.toNat, Char.ofNat tail.toNat]

/-- The first characters of a text of one-byte characters. -/
def strHead (s : String) (n : ℕ) : Parse String :=
  if n ≤ s.toList.length then ok (String.ofList (s.toList.take n)) else fault .index

variable [Digests]

def ja3Hash (s : String) : String := hex (Digests.md5 (utf8Bytes s)).toList

def sha12 (s : String) (empty : Bool) : Parse String :=
  if empty then return "000000000000"
  else strHead (hex (Digests.sha256 (utf8Bytes s)).toList) 12

def ja4 (version : UInt16) (overQuic sniPresent : Bool) (ciphers exts sigAlgs : List UInt16)
    (alpnFirst : Option String) : Parse String := do
  let hex4 := fun (v : UInt16) => hexPad 4 v.toNat
  let count := fun (xs : List UInt16) => min (xs.countP fun v => !isGrease v) 99
  let alpn ← ja4Alpn alpnFirst
  let ja4a := (if overQuic then "q" else "t") ++ ja4VersionCode version ++
    (if sniPresent then "d" else "i") ++ decPad 2 (count ciphers) ++ decPad 2 (count exts) ++ alpn
  let c := (ciphers.filter fun v => !isGrease v).insertionSort (· ≤ ·)
  let ja4b ← sha12 (",".intercalate (c.map hex4)) c.isEmpty
  let e := (exts.filter fun v => !isGrease v && v != 0x0000 && v != 0x0010).insertionSort (· ≤ ·)
  let ja4c ← sha12 (",".intercalate (e.map hex4) ++ "_" ++ ",".intercalate (sigAlgs.map hex4))
    (e.isEmpty && sigAlgs.isEmpty)
  return "_".intercalate [ja4a, ja4b, ja4c]

section Safe

omit [Digests] in
theorem length_hexPad (width n : ℕ) : width ≤ (hexPad width n).toList.length := by
  rw [hexPad, String.toList_ofList, List.length_leftpad]
  exact le_max_left _ _

omit [Digests] in
theorem length_hex (bytes : List UInt8) : 2 * bytes.length ≤ (hex bytes).toList.length := by
  unfold hex
  induction bytes with
  | nil => exact Nat.zero_le _
  | cons b bytes ih =>
    have hb := length_hexPad 2 b.toNat
    rw [List.map_cons, String.join_cons, String.toList_append, List.length_append, List.length_cons]
    omega

omit [Digests] in
theorem holds_ja4Alpn (first : Option String) : Holds (ja4Alpn first) fun _ => True := by
  cases first with
  | none => trivial
  | some s =>
    refine holds_ite (fun _ => trivial) fun hne => ?_
    have hpos : 0 < (utf8Bytes s).length := by
      rw [List.length_pos_iff]
      simpa using hne
    rw [index_eq_peek hpos]
    change Holds (subUsize _ 1 >>= _) _
    rw [holds_bind, holds_subUsize hpos]
    rw [index_eq_peek (Nat.sub_lt hpos Nat.one_pos)]
    trivial

/-- A hash has enough digits for the part that is shown. -/
theorem holds_sha12 (s : String) (empty : Bool) : Holds (sha12 s empty) fun _ => True := by
  refine holds_ite (fun _ => trivial) fun _ => ?_
  have hlen := length_hex (Digests.sha256 (utf8Bytes s)).toList
  rw [Vector.length_toList] at hlen
  exact holds_ite (fun _ => trivial) fun h => h (by omega)

theorem holds_ja4 (version : UInt16) (overQuic sniPresent : Bool)
    (ciphers exts sigAlgs : List UInt16) (alpnFirst : Option String) :
    Holds (ja4 version overQuic sniPresent ciphers exts sigAlgs alpnFirst) fun _ => True :=
  (holds_ja4Alpn alpnFirst).bind fun _ _ => (holds_sha12 _ _).bind fun _ _ =>
    (holds_sha12 _ _).bind fun _ _ => trivial

end Safe

end Pktscope

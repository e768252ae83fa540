import Pktscope.Net.Addr

/-! # Reading addresses

`IpAddr::from_str` of the standard library. A reader takes a value off the front
of a text; an address of the sixth version is two rows of groups around `::`, and
may end in one of the fourth.
-/

namespace Pktscope

namespace AddrParser

/-- What is read and the rest of the text. -/
abbrev Reader (α : Type) := List Char → Option (α × List Char)

/-- `char::to_digit` -/
def toDigit (radix : ℕ) (c : Char) : Option ℕ :=
  let digit :=
    if '0' ≤ c ∧ c ≤ '9' then c.toNat - '0'.toNat
    else if 'a' ≤ c ∧ c ≤ 'z' then c.toNat - 'a'.toNat + 10
    else if 'A' ≤ c ∧ c ≤ 'Z' then c.toNat - 'A'.toNat + 10
    else radix
  if digit < radix then some digit else none

/-- A number below a bound with at least one digit and at most `maxDigits`. -/
def readNumber (radix maxDigits bound : ℕ) (allowZeroPrefix : Bool) : Reader ℕ := fun cs =>
  let digits := cs.takeWhile fun c => (toDigit radix c).isSome
  let value := digits.foldl (fun n c => n * radix + (toDigit radix c).getD 0) 0
  if digits.length = 0 ∨ maxDigits < digits.length ∨ bound ≤ value then none
  else if !allowZeroPrefix && decide (cs.head? = some '0') && decide (1 < digits.length) then none
  else some (value, cs.drop digits.length)

/-- A separator goes in front of all but the first. -/
def readSeparator {α : Type} (sep : Char) (i : ℕ) (inner : Reader α) : Reader α := fun cs =>
  if i = 0 then inner cs
  else
    match cs with
    | c :: rest => if c = sep then inner rest else none
    | [] => none

def readOctet (i : ℕ) : Reader ℕ := readSeparator '.' i (readNumber 10 3 256 false)

def readIpv4Addr : Reader UInt32 := fun cs => do
  let (a, cs) ← readOctet 0 cs
  let (b, cs) ← readOctet 1 cs
  let (c, cs) ← readOctet 2 cs
  let (d, cs) ← readOctet 3 cs
  return (UInt32.ofNat (((a * 256 + b) * 256 + c) * 256 + d), cs)

/-- Up to so many groups from the `i`-th on, and whether the last two of them are embedded. -/
def readGroups : ℕ → ℕ → List Char → List ℕ × Bool × List Char
  | 0, _, cs => ([], false, cs)
  | left + 1, i, cs =>
    match if 1 ≤ left then readSeparator ':' i readIpv4Addr cs else none with
    | some (a, cs) => ([a.toNat / 2 ^ 16, a.toNat % 2 ^ 16], true, cs)
    | none =>
      match readSeparator ':' i (readNumber 16 4 (2 ^ 16) true) cs with
      | some (group, cs) =>
        let (groups, embedded, cs) := readGroups left (i + 1) cs
        (group :: groups, embedded, cs)
      | none => ([], false, cs)

def ofGroups (groups : List ℕ) : BitVec 128 :=
  BitVec.ofNat 128 (groups.foldl (fun n group => n * 2 ^ 16 + group) 0)

def readIpv6Addr : Reader (BitVec 128) := fun cs =>
  let (head, headIpv4, cs) := readGroups 8 0 cs
  if head.length = 8 then some (ofGroups head, cs)
  else if headIpv4 then none
  else
    match cs with
    | ':' :: ':' :: cs =>
      let (tail, _, cs) := readGroups (7 - head.length) 0 cs
      some (ofGroups (head ++ List.replicate (8 - head.length - tail.length) 0 ++ tail), cs)
    | _ => none

end AddrParser

open AddrParser in
/-- `IpAddr::from_str` -/
def parseIpAddr (cs : List Char) : Option IpAddr :=
  match readIpv4Addr cs with
  | some (a, rest) => if rest = [] then some (.v4 a) else none
  | none =>
    match readIpv6Addr cs with
    | some (a, rest) => if rest = [] then some (.v6 a) else none
    | none => none

example : parseIpAddr "2001:db8::1".toList = some (.v6 0x20010db8000000000000000000000001) := by
  decide +kernel
example : parseIpAddr "::ffff:1.2.3.4".toList = some (.v6 0xffff01020304) := by decide +kernel

end Pktscope

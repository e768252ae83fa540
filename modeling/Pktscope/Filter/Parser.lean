import Pktscope.Decode.Http
import Pktscope.Library.Combinators
import Pktscope.Net.Addr

/-! # Display filters

The grammar of the filter bar. A unary expression is read with a number of
calls that the length of the text bounds.
-/

namespace Pktscope

open Library Parse

inductive ProtocolAtom
  | ethernet | arp | ip | ipv4 | ipv6 | tcp | udp | icmp | icmpv6 | dns | tls
  deriving DecidableEq, Repr

structure FieldPath where
  segments : List String
  deriving DecidableEq, Repr

def FieldPath.asStr (f : FieldPath) : String := ".".intercalate f.segments

inductive CompareOp | eq | ne
  deriving DecidableEq, Repr

inductive FilterValue where
  | integer (n : ℤ)
  | ipAddr (a : IpAddr)
  | str (s : String)
  deriving DecidableEq, Repr

inductive FilterExpr where
  | protocolPresent (p : ProtocolAtom)
  | comparison (field : FieldPath) (op : CompareOp) (value : FilterValue)
  | contains (field : FieldPath) (pattern : String)
  | and (a b : FilterExpr)
  | or (a b : FilterExpr)
  | not (e : FilterExpr)
  deriving DecidableEq, Repr

/-- What a text that is no filter is refused with. -/
inductive FilterError where
  | emptyFilter
  | trailing (rest : String)
  | parseError
  | unfinished
  deriving DecidableEq, Repr

/-- One octet of `Ipv4Addr::from_str`: at most three digits, none of them a leading zero. -/
def parseOctet (cs : List Char) : Option ℕ :=
  if 3 < cs.length ∨ 1 < cs.length ∧ cs.head? = some '0' then none
  else (parseNat cs).filter fun n => decide (n < 256)

/-- `Ipv4Addr::from_str` -/
def parseV4 (cs : List Char) : Option UInt32 :=
  match cs.splitOn '.' with
  | [a, b, c, d] => do
    let a ← parseOctet a
    let b ← parseOctet b
    let c ← parseOctet c
    let d ← parseOctet d
    return UInt32.ofNat (((a * 256 + b) * 256 + c) * 256 + d)
  | _ => none

/-- `i64::from_str` of a run of digits. -/
def parseI64 (digits : List Char) : Option ℕ :=
  (parseNat digits).filter fun n => decide (n < 2 ^ 63)

namespace FilterGrammar

variable [Nom]

def ws {α : Type} (f : Parser α) : Parser α := Nom.delimited Nom.multispace0 f Nom.multispace0

def identifier : Parser (List Char) :=
  Nom.recognize (Nom.many1 (Nom.alt [Nom.alphanumeric1, Nom.recognize (Nom.char '_')]))

def fieldPath : Parser FieldPath := fun input => do
  let (input, first) ← identifier input
  let (input, rest) ← Nom.many0 (Nom.preceded (Nom.char '.') identifier) input
  let segments := (first :: rest).map String.ofList
  -- a name without a dot is a protocol
  if segments.length < 2 then refuse else return (input, ⟨segments⟩)

def word : Parser (List Char) := Nom.recognize (Nom.many1 (Nom.noneOf [' ', '\t', '\n', '\r', ')']))

def compareOp : Parser CompareOp :=
  Nom.alt [Nom.value .ne (Nom.tag "!=".toList), Nom.value .eq (Nom.tag "==".toList)]

def ipAddrValue : Parser FilterValue := fun input => do
  let (remaining, addrStr) ← Nom.recognize
    (Nom.tuple Nom.digit1 (Nom.tuple (Nom.char '.') (Nom.tuple Nom.digit1 (Nom.tuple (Nom.char '.')
      (Nom.tuple Nom.digit1 (Nom.tuple (Nom.char '.') Nom.digit1)))))) input
  match parseV4 addrStr with
  | some addr => return (remaining, .ipAddr (.v4 addr))
  | none => refuse

def integerValue : Parser FilterValue := fun input => do
  let (remaining, digits) ← Nom.digit1 input
  match parseI64 digits with
  | some n => return (remaining, .integer n)
  | none => refuse

def stringValue : Parser FilterValue := fun input => do
  let (remaining, w) ← word input
  return (remaining, .str (String.ofList w))

def filterValue : Parser FilterValue := Nom.alt [ipAddrValue, integerValue, stringValue]

/-- The protocols by their names, a longer name before its fronts. -/
def protocolNames : List (ProtocolAtom × String) :=
  [(.icmpv6, "icmpv6"), (.icmp, "icmp"), (.ipv6, "ipv6"), (.ipv4, "ipv4"), (.ethernet, "eth"),
    (.tcp, "tcp"), (.udp, "udp"), (.arp, "arp"), (.dns, "dns"), (.tls, "tls"), (.ip, "ip")]

def protocolAtom : Parser ProtocolAtom :=
  Nom.alt (protocolNames.map fun p => Nom.value p.1 (Nom.tag p.2.toList))

def containsExpr : Parser FilterExpr := fun input => do
  let (input, field) ← ws fieldPath input
  let (input, _) ← ws (Nom.tag "contains".toList) input
  let (input, pattern) ← ws word input
  return (input, .contains field (String.ofList pattern))

def comparisonExpr : Parser FilterExpr := fun input => do
  let (input, field) ← ws fieldPath input
  let (input, op) ← ws compareOp input
  let (input, val) ← ws filterValue input
  return (input, .comparison field op val)

def atom (expr : Parser FilterExpr) : Parser FilterExpr :=
  Nom.alt [Nom.delimited (ws (Nom.char '(')) expr (ws (Nom.char ')')), containsExpr, comparisonExpr,
    Nom.map (ws protocolAtom) .protocolPresent]

def andTerm (unary : Parser FilterExpr) : Parser FilterExpr :=
  chainl unary
    (Nom.preceded (ws (Nom.alt [Nom.tag "&&".toList, Nom.tag "and".toList])) unary) .and

def expr (unary : Parser FilterExpr) : Parser FilterExpr :=
  chainl (andTerm unary)
    (Nom.preceded (ws (Nom.alt [Nom.tag "||".toList, Nom.tag "or".toList])) (andTerm unary)) .or

/-- A unary expression, read with so many calls at most. -/
def unary : ℕ → Parser FilterExpr
  | 0 => fun _ => fault .calls
  | n + 1 => Nom.alt [Nom.map
      (Nom.preceded (ws (Nom.alt [Nom.tag "not".toList, Nom.tag "!".toList])) (unary n)) .not,
      atom (expr (unary n))]

end FilterGrammar

open FilterGrammar in
/-- A whole text as a filter. -/
def parseFilter [Nom] (input : String) : Except FilterError FilterExpr :=
  let input := trim input.toList
  if input.isEmpty then .error .emptyFilter
  else match expr (unary (input.length + 1)) input with
    | ok (rest, e) => if rest.isEmpty then .ok e else .error (.trailing (String.ofList rest))
    | refuse => .error .parseError
    | fault _ => .error .unfinished

end Pktscope

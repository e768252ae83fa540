import Mathlib.Data.List.AList
import Mathlib.Data.List.DropRight
import Pktscope.Decode.Layers

/-! # Names and places of destinations

The passive map from addresses to names, learned from DNS answers, TLS server
names and HTTP hosts, and what an enricher says about an address.
-/

namespace Pktscope

/-- Where a name came from. -/
inductive NameSource where
  | dns | tlsSni | quicSni | httpHost
  deriving DecidableEq

def NameSource.priority : NameSource → ℕ
  | .dns | .tlsSni | .quicSni => 2
  | .httpHost => 1

structure NameEntry where
  name : String
  source : NameSource
  lastSeen : DateTime
  deriving DecidableEq

/-- The names learned so far, by address. -/
structure NameResolver where
  byIp : AList fun _ : IpAddr => NameEntry

namespace NameResolver

def new : NameResolver := ⟨∅⟩

def nameFor (r : NameResolver) (ip : IpAddr) : Option String := (r.byIp.lookup ip).map NameEntry.name

/-- Learn one name unless a better source has named the address; tell whether the name changed. -/
def insert (r : NameResolver) (ip : IpAddr) (name : String) (source : NameSource)
    (ts : DateTime) : NameResolver × Bool :=
  let entry : NameEntry := { name, source, lastSeen := ts }
  match r.byIp.lookup ip with
  | some existing =>
    if existing.source.priority > source.priority then (r, false)
    else (⟨r.byIp.insert ip entry⟩, decide (existing.name ≠ name))
  | none => (⟨r.byIp.insert ip entry⟩, true)

/-- The address of an answer record. -/
def answerIp : DnsRdata → Option IpAddr
  | .a ip => some (.v4 ip)
  | .aaaa ip => some (.v6 ip)
  | _ => none

/-- Map every answered address to the queried name. -/
def observeAnswers (qname : String) (ts : DateTime) (acc : NameResolver × Bool)
    (ans : DnsRecord) : NameResolver × Bool :=
  match answerIp ans.rdata with
  | some ip =>
    let (r, changed) := acc.1.insert ip qname .dns ts
    (r, acc.2 || changed)
  | none => acc

/-- Learn the name a client sent towards the packet's destination. -/
def observeName (name : Option String) (dstIp : Option IpAddr) (source : NameSource)
    (ts : DateTime) (acc : NameResolver × Bool) : NameResolver × Bool :=
  match name, dstIp with
  | some name, some ip =>
    let (r, changed) := acc.1.insert ip name source ts
    (r, acc.2 || changed)
  | _, _ => acc

def observeFrom (ts : DateTime) (dstIp : Option IpAddr) (acc : NameResolver × Bool) :
    List Layer → NameResolver × Bool
  | [] => acc
  | .ipv4 ip :: rest => observeFrom ts (some (.v4 ip.dstIp)) acc rest
  | .ipv6 ip :: rest => observeFrom ts (some (.v6 ip.dstIp)) acc rest
  | .dns dns :: rest =>
    let acc :=
      if dns.isResponse then
        match dns.questions.head? with
        | some q => dns.answers.foldl (observeAnswers q.qname ts) acc
        | none => acc
      else acc
    observeFrom ts dstIp acc rest
  | .tlsClientHello tls :: rest =>
    observeFrom ts dstIp (observeName tls.sni dstIp .tlsSni ts acc) rest
  | .http h :: rest => observeFrom ts dstIp (observeName h.host dstIp .httpHost ts acc) rest
  | _ :: rest => observeFrom ts dstIp acc rest

/-- Learn everything available from one packet. -/
def observePacket (r : NameResolver) (pkt : DecodedPacket) : NameResolver × Bool :=
  observeFrom pkt.timestamp none (r, false) pkt.layers

end NameResolver

def multiPartTlds : List String :=
  ["co.uk", "org.uk", "gov.uk", "ac.uk", "com.au", "net.au", "org.au", "co.jp", "co.nz", "com.br",
    "co.in", "com.cn"]

/-- The dot-separated labels of a name, without trailing dots. -/
def dnsLabels (name : String) : List String :=
  ((name.toList.rdropWhile (· = '.')).splitOn '.').map String.ofList

/-- The last two labels of a name, or three under a two-part suffix of the list. -/
def registrableDomainOf (name : String) : String :=
  match (dnsLabels name).reverse with
  | c :: b :: a :: _ =>
    let lastTwo := b ++ "." ++ c
    if lastTwo ∈ multiPartTlds then a ++ "." ++ lastTwo else lastTwo
  | short => ".".intercalate short.reverse

example : registrableDomainOf "api.github.com" = "github.com" := by decide
example : registrableDomainOf "a.b.co.uk" = "b.co.uk" := by decide

/-- Country and network of an address. -/
structure GeoInfo where
  country : Option String
  asn : Option ℕ
  asOrg : Option String
  deriving DecidableEq

/-- Nothing known, the answer without a database. -/
def GeoInfo.default : GeoInfo := ⟨none, none, none⟩

/-- The offline lookup of an address. -/
abbrev Enricher := IpAddr → GeoInfo

def nullEnricher : Enricher := fun _ => .default

end Pktscope

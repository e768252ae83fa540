import Pktscope.Decode.Layers
import Pktscope.Filter.Parser

/-! # Evaluating filters

A filter holds of a packet or not. A comparison looks at the first layer that
has its field, except that a port is compared with both ports of every layer.
-/

namespace Pktscope

def hasProtocol (proto : ProtocolAtom) (layers : List Layer) : Bool :=
  layers.any fun l =>
    match proto, l with
    | .ethernet, .ethernet _ => true
    | .arp, .arp _ => true
    | .ip, .ipv4 _ => true
    | .ip, .ipv6 _ => true
    | .ipv4, .ipv4 _ => true
    | .ipv6, .ipv6 _ => true
    | .tcp, .tcp _ => true
    | .udp, .udp _ => true
    | .icmp, .icmp _ => true
    | .icmpv6, .icmpv6 _ => true
    | .dns, .dns _ => true
    | .tls, .tlsClientHello _ => true
    | .tls, .tlsHandshake _ => true
    | _, _ => false

/-- What one layer returns for a path, if it ends the search. -/
def layerField (path : String) : Layer → Option (Option FilterValue)
  | .ipv4 ip =>
    if path = "ip.src" then some (some (.ipAddr (.v4 ip.srcIp)))
    else if path = "ip.dst" then some (some (.ipAddr (.v4 ip.dstIp)))
    else none
  | .ipv6 ip =>
    if path = "ip.src" then some (some (.ipAddr (.v6 ip.srcIp)))
    else if path = "ip.dst" then some (some (.ipAddr (.v6 ip.dstIp)))
    else none
  | .tcp tcp =>
    if path = "tcp.srcport" then some (some (.integer tcp.srcPort.toNat))
    else if path = "tcp.dstport" then some (some (.integer tcp.dstPort.toNat))
    else none
  | .udp udp =>
    if path = "udp.srcport" then some (some (.integer udp.srcPort.toNat))
    else if path = "udp.dstport" then some (some (.integer udp.dstPort.toNat))
    else none
  | .dns dns =>
    if path = "dns.qname" then some (dns.questions.head?.map fun q => .str q.qname) else none
  | .tlsClientHello tls =>
    if path = "tls.sni" then some (tls.sni.map .str) else none
  | .icmp icmp =>
    if path = "icmp.type" then some (some (.integer icmp.icmpType.toNat))
    else if path = "icmp.code" then some (some (.integer icmp.code.toNat))
    else none
  | .arp arp =>
    if path = "arp.sender.ip" then some (some (.ipAddr (.v4 arp.senderIp)))
    else if path = "arp.target.ip" then some (some (.ipAddr (.v4 arp.targetIp)))
    else none
  | _ => none

def extractField (field : FieldPath) (layers : List Layer) : Option FilterValue :=
  (layers.findSome? (layerField field.asStr)).join

def compareValues (left : FilterValue) (op : CompareOp) (right : FilterValue) : Bool :=
  match op with
  | .eq => left == right
  | .ne => left != right

def matchPortEither (layers : List Layer) (op : CompareOp) (value : FilterValue) (isTcp : Bool) :
    Bool :=
  layers.any fun l =>
    match isTcp, l with
    | true, .tcp tcp => compareValues (.integer tcp.srcPort.toNat) op value ||
        compareValues (.integer tcp.dstPort.toNat) op value
    | false, .udp udp => compareValues (.integer udp.srcPort.toNat) op value ||
        compareValues (.integer udp.dstPort.toNat) op value
    | _, _ => false

/-- `str::contains` -/
def containsText (pattern : List Char) : List Char → Bool
  | [] => pattern.isEmpty
  | c :: s => pattern.isPrefixOf (c :: s) || containsText pattern s

theorem containsText_iff {pattern s : List Char} : containsText pattern s = true ↔ pattern <:+: s := by
  induction s with
  | nil => simp [containsText]
  | cons c s ih =>
    simp only [containsText, Bool.or_eq_true, List.isPrefixOf_iff_prefix, ih]
    exact List.infix_cons_iff.symm

def evalFilter (pkt : DecodedPacket) : FilterExpr → Bool
  | .protocolPresent proto => hasProtocol proto pkt.layers
  | .comparison field op value =>
    if field.asStr = "tcp.port" then matchPortEither pkt.layers op value true
    else if field.asStr = "udp.port" then matchPortEither pkt.layers op value false
    else match extractField field pkt.layers with
      | some fieldVal => compareValues fieldVal op value
      | none => false
  | .contains field pattern =>
    match extractField field pkt.layers with
    | some (.str s) => containsText pattern.toList s.toList
    | _ => false
  | .and a b => evalFilter pkt a && evalFilter pkt b
  | .or a b => evalFilter pkt a || evalFilter pkt b
  | .not e => !evalFilter pkt e

section Twins

/-- Two packets that differ in one field only. -/
structure Twins (path : String) (a b : FilterValue) (p q : DecodedPacket) : Prop where
  protocols : ∀ proto, hasProtocol proto p.layers = hasProtocol proto q.layers
  ports : ∀ op v isTcp, matchPortEither p.layers op v isTcp = matchPortEither q.layers op v isTcp
  left : ∀ f : FieldPath, f.asStr = path → extractField f p.layers = some a
  right : ∀ f : FieldPath, f.asStr = path → extractField f q.layers = some b
  others : ∀ f : FieldPath, f.asStr ≠ path → extractField f p.layers = extractField f q.layers

/-- The comparisons and the containments of a filter satisfy two properties. -/
def FilterExpr.Forall (onValue : FilterValue → Prop) (onPattern : String → Prop) :
    FilterExpr → Prop
  | protocolPresent _ => True
  | comparison _ _ v => onValue v
  | contains _ p => onPattern p
  | and x y => x.Forall onValue onPattern ∧ y.Forall onValue onPattern
  | or x y => x.Forall onValue onPattern ∧ y.Forall onValue onPattern
  | not x => x.Forall onValue onPattern

theorem FilterExpr.Forall.mono {V V' : FilterValue → Prop} {P P' : String → Prop} {e : FilterExpr}
    (h : e.Forall V P) (hV : ∀ v, V v → V' v) (hP : ∀ p, P p → P' p) : e.Forall V' P' := by
  induction e with
  | protocolPresent _ => trivial
  | comparison _ _ v => exact hV v h
  | contains _ p => exact hP p h
  | and _ _ ihx ihy => exact ⟨ihx h.1, ihy h.2⟩
  | or _ _ ihx ihy => exact ⟨ihx h.1, ihy h.2⟩
  | not _ ih => exact ih h

/-- Whether a value is a text with a pattern in it. -/
def FilterValue.hasPattern (p : String) : FilterValue → Bool
  | str s => containsText p.toList s.toList
  | _ => false

theorem compareValues_congr {a b v : FilterValue} (h : a = v ↔ b = v) (op : CompareOp) :
    compareValues a op v = compareValues b op v := by
  by_cases ha : a = v
  · cases op <;> simp [compareValues, ha, h.mp ha]
  · have hb : b ≠ v := fun hb => ha (h.mpr hb)
    cases op <;> simp [compareValues, bne, ha, hb]

theorem evalFilter_contains (p : DecodedPacket) (f : FieldPath) (w : String) :
    evalFilter p (.contains f w) = ((extractField f p.layers).map (·.hasPattern w)).getD false := by
  simp only [evalFilter]
  cases extractField f p.layers with
  | none => rfl
  | some v => cases v <;> rfl

/-- A filter that names neither of two values does not tell them apart. -/
theorem evalFilter_twins {path : String} {a b : FilterValue} {p q : DecodedPacket}
    (h : Twins path a b p q) {e : FilterExpr}
    (he : e.Forall (fun v => a = v ↔ b = v) (fun w => a.hasPattern w = b.hasPattern w)) :
    evalFilter p e = evalFilter q e := by
  induction e with
  | protocolPresent proto => exact h.protocols proto
  | comparison f op v =>
    simp only [evalFilter, h.ports]
    by_cases hf : f.asStr = path
    · simp only [h.left f hf, h.right f hf, compareValues_congr he op]
    · simp only [h.others f hf]
  | contains f w =>
    simp only [evalFilter_contains]
    by_cases hf : f.asStr = path
    · rw [h.left f hf, h.right f hf]
      exact congrArg (fun b => (some b).getD false) he
    · rw [h.others f hf]
  | and x y ihx ihy => simp only [evalFilter, ihx he.1, ihy he.2]
  | or x y ihx ihy => simp only [evalFilter, ihx he.1, ihy he.2]
  | not x ih => simp only [evalFilter, ih he]

end Twins

end Pktscope

import Pktscope.Decode.Layers
import Pktscope.Library.Ordered

/-! # Flow keys and per-flow state

A flow key stores the endpoint that sorts lower first, so that both directions
of a conversation have one key. The state of a flow counts packets and bytes
per direction and keeps what retransmission detection and round-trip estimation
need.
-/

namespace Pktscope

open Library

/-- A connection key that does not depend on the direction. -/
structure FlowKey where
  addrLow : IpAddr
  portLow : UInt16
  addrHigh : IpAddr
  portHigh : UInt16
  protocol : UInt8
  deriving DecidableEq

/-- The direction of a packet relative to the low and the high endpoint. -/
inductive Dir where
  | lowToHigh
  | highToLow
  deriving DecidableEq

namespace FlowKey

def new (srcIp : IpAddr) (srcPort : UInt16) (dstIp : IpAddr) (dstPort : UInt16)
    (protocol : UInt8) : FlowKey :=
  if Endpoint.le ⟨srcIp, srcPort⟩ ⟨dstIp, dstPort⟩ then
    { addrLow := srcIp, portLow := srcPort, addrHigh := dstIp, portHigh := dstPort, protocol }
  else
    { addrLow := dstIp, portLow := dstPort, addrHigh := srcIp, portHigh := srcPort, protocol }

/-- Both directions of a conversation have the same key. -/
theorem new_comm (a b : IpAddr) (p q : UInt16) (protocol : UInt8) :
    new a p b q protocol = new b q a p protocol := by
  unfold new
  by_cases hab : Endpoint.le ⟨a, p⟩ ⟨b, q⟩ = true
  · by_cases hba : Endpoint.le ⟨b, q⟩ ⟨a, p⟩ = true
    · obtain ⟨rfl, rfl⟩ := Endpoint.mk.inj (Endpoint.le_antisymm hab hba)
      rfl
    · rw [if_pos hab, if_neg hba]
  · rw [if_neg hab, if_pos ((Endpoint.le_total _ _).resolve_left hab)]

end FlowKey

section State

variable {F : Type}

/-- The state of one flow. -/
structure FlowState (F : Type) where
  maxSeqLow : Option ℕ
  maxSeqHigh : Option ℕ
  finLow : Bool
  finHigh : Bool
  rstSeen : Bool
  firstSeen : DateTime
  lastSeen : DateTime
  pktsLowToHigh : ℕ
  pktsHighToLow : ℕ
  bytesLowToHigh : ℕ
  bytesHighToLow : ℕ
  synTs : Option DateTime
  synackTs : Option DateTime
  handshakeRttMs : Option F
  srttMs : Option F
  /-- Send times of data in flight, by the end of its sequence range. -/
  unackedLow : OrderedMap ℕ DateTime
  unackedHigh : OrderedMap ℕ DateTime

def FlowState.new (now : DateTime) : FlowState F where
  maxSeqLow := none
  maxSeqHigh := none
  finLow := false
  finHigh := false
  rstSeen := false
  firstSeen := now
  lastSeen := now
  pktsLowToHigh := 0
  pktsHighToLow := 0
  bytesLowToHigh := 0
  bytesHighToLow := 0
  synTs := none
  synackTs := none
  handshakeRttMs := none
  srttMs := none
  unackedLow := .empty
  unackedHigh := .empty

/-- Whether the flow is over: a reset, or a FIN from both sides. -/
def FlowState.closing (st : FlowState F) : Bool := st.rstSeen || (st.finLow && st.finHigh)

end State

structure FlowAnnotation where
  isRetransmission : Bool
  deriving DecidableEq

/-- What one packet contributes to its flow. -/
structure FlowUpdate where
  annotation : Option FlowAnnotation
  key : FlowKey
  dir : Dir
  bytes : UInt32
  firstSeen : Bool
  deriving DecidableEq

/-- A view of one flow's accounting, oriented by the local addresses. -/
structure FlowStatsSnapshot (F : Type) where
  key : FlowKey
  protocol : UInt8
  localAddr : Option IpAddr
  localPort : Option UInt16
  remoteAddr : Option IpAddr
  remotePort : Option UInt16
  bytesUp : ℕ
  bytesDown : ℕ
  pktsUp : ℕ
  pktsDown : ℕ
  firstSeen : DateTime
  lastSeen : DateTime
  srttMs : Option F
  handshakeRttMs : Option F

end Pktscope

import Pktscope.Filter.Eval

/-! # Equal and not equal

A field with one value is equal to a value or differs from it. A port field has
two values in every layer of its protocol, and a comparison that any of them
meets holds, so that both comparisons hold of a packet with ports of both kinds.
-/

namespace Pktscope

/-- The values of a field that a comparison looks at. -/
def fieldValues (field : FieldPath) (layers : List Layer) : List FilterValue :=
  if field.asStr = "tcp.port" then layers.flatMap fun
    | .tcp tcp => [.integer tcp.srcPort.toNat, .integer tcp.dstPort.toNat]
    | _ => []
  else if field.asStr = "udp.port" then layers.flatMap fun
    | .udp udp => [.integer udp.srcPort.toNat, .integer udp.dstPort.toNat]
    | _ => []
  else (extractField field layers).toList

/-- Whether a packet has a field: a layer of the protocol for a port, else its value. -/
def hasField (field : FieldPath) (layers : List Layer) : Bool :=
  if field.asStr = "tcp.port" then hasProtocol .tcp layers
  else if field.asStr = "udp.port" then hasProtocol .udp layers
  else (extractField field layers).isSome

/-- Some port of the field is the value, and some other port of it is not. -/
def MixedPorts (field : FieldPath) (value : FilterValue) (layers : List Layer) : Prop :=
  (field.asStr = "tcp.port" ∨ field.asStr = "udp.port") ∧
    value ∈ fieldValues field layers ∧ ∃ v ∈ fieldValues field layers, v ≠ value

section Values

variable {field : FieldPath} {op : CompareOp} {value : FilterValue} {layers : List Layer}

theorem matchPortEither_tcp : matchPortEither layers op value true = (layers.flatMap fun
    | .tcp tcp => [FilterValue.integer tcp.srcPort.toNat, .integer tcp.dstPort.toNat]
    | _ => []).any fun v => compareValues v op value := by
  rw [matchPortEither, List.any_flatMap]
  congr 1
  ext layer
  cases layer <;> simp

theorem matchPortEither_udp : matchPortEither layers op value false = (layers.flatMap fun
    | .udp udp => [FilterValue.integer udp.srcPort.toNat, .integer udp.dstPort.toNat]
    | _ => []).any fun v => compareValues v op value := by
  rw [matchPortEither, List.any_flatMap]
  congr 1
  ext layer
  cases layer <;> simp

theorem evalFilter_comparison (pkt : DecodedPacket) :
    evalFilter pkt (.comparison field op value) =
      (fieldValues field pkt.layers).any fun v => compareValues v op value := by
  rw [evalFilter, fieldValues]
  split_ifs
  · exact matchPortEither_tcp
  · exact matchPortEither_udp
  · cases extractField field pkt.layers <;> simp

theorem any_eq_not_isEmpty {p : Layer → Bool} {values : Layer → List FilterValue}
    (h : ∀ layer, p layer = !(values layer).isEmpty) (layers : List Layer) :
    layers.any p = !(layers.flatMap values).isEmpty := by
  induction layers with
  | nil => rfl
  | cons layer layers ih =>
    rw [List.any_cons, List.flatMap_cons, h, ih]
    cases values layer <;> rfl

theorem hasField_eq : hasField field layers = !(fieldValues field layers).isEmpty := by
  rw [hasField, fieldValues]
  split_ifs
  · apply any_eq_not_isEmpty
    intro layer
    cases layer <;> rfl
  · apply any_eq_not_isEmpty
    intro layer
    cases layer <;> rfl
  · cases extractField field layers <;> rfl

theorem mixedPorts_iff : MixedPorts field value layers ↔
    value ∈ fieldValues field layers ∧ ∃ v ∈ fieldValues field layers, v ≠ value := by
  rw [MixedPorts, and_iff_right_iff_imp]
  rintro ⟨hmem, v, hv, hne⟩
  by_contra hport
  rw [not_or] at hport
  rw [fieldValues, if_neg hport.1, if_neg hport.2, Option.mem_toList] at hmem hv
  exact hne (Option.some.inj (hv.symm.trans hmem))

end Values

theorem any_ne_eq_not_any_eq_iff {values : List FilterValue} (hvalues : values ≠ [])
    {value : FilterValue} :
    values.any (fun v => compareValues v .ne value) =
        !values.any (fun v => compareValues v .eq value) ↔
      ¬(value ∈ values ∧ ∃ v ∈ values, v ≠ value) := by
  have heq : values.any (fun v => compareValues v .eq value) = true ↔ value ∈ values := by
    simp [compareValues]
  have hne : values.any (fun v => compareValues v .ne value) = true ↔ ∃ v ∈ values, v ≠ value := by
    simp [compareValues]
  rw [Bool.eq_iff_iff, Bool.not_eq_true', ← Bool.not_eq_true, heq, hne]
  constructor
  · rintro h ⟨hmem, hother⟩
    exact h.mp hother hmem
  · intro h
    constructor
    · exact fun hother hmem => h ⟨hmem, hother⟩
    · intro hnot
      obtain ⟨v, hv⟩ := List.exists_mem_of_ne_nil values hvalues
      exact ⟨v, hv, fun hv' => hnot (hv' ▸ hv)⟩

/-- `!=` is the negation of `==` on a packet with the field, and both fail on one without it,
exactly when the packet does not have ports of both kinds. -/
theorem ne_negates_eq_iff (pkt : DecodedPacket) (field : FieldPath) (value : FilterValue) :
    ((hasField field pkt.layers = true →
        evalFilter pkt (.comparison field .ne value) =
          !evalFilter pkt (.comparison field .eq value)) ∧
      (hasField field pkt.layers = false →
        evalFilter pkt (.comparison field .ne value) = false ∧
          evalFilter pkt (.comparison field .eq value) = false)) ↔
      ¬MixedPorts field value pkt.layers := by
  rw [mixedPorts_iff, hasField_eq, evalFilter_comparison, evalFilter_comparison]
  by_cases hvalues : fieldValues field pkt.layers = []
  · rw [hvalues]
    simp
  · have hsome : (fieldValues field pkt.layers).isEmpty = false := by
      rw [← Bool.not_eq_true, List.isEmpty_iff]
      exact hvalues
    rw [hsome, ← any_ne_eq_not_any_eq_iff hvalues]
    simp

/-- A segment from a client to a web server. -/
def webPacket : DecodedPacket where
  number := 1
  timestamp := 0
  wireLen := 60
  data := []
  layers := [.tcp ⟨50000, 443, 0, 0, 5, ⟨false, false, false, false, true, false, false, false⟩,
    0, 0, 0, 0, (0, 20)⟩]
  summary := ⟨"", "", "", 60, "", .tcp⟩
  process := none
  retransmission := false

/-- Both comparisons accept a segment with one port of each kind. -/
theorem port_equal_and_not_equal :
    hasField ⟨["tcp", "port"]⟩ webPacket.layers = true ∧
      evalFilter webPacket (.comparison ⟨["tcp", "port"]⟩ .eq (.integer 443)) = true ∧
      evalFilter webPacket (.comparison ⟨["tcp", "port"]⟩ .ne (.integer 443)) = true := by
  decide

end Pktscope

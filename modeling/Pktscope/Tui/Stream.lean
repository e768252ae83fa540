import Pktscope.Flow.Completeness
import Pktscope.Tui.App

/-! # Following a stream

The stream view feeds the payloads of one conversation, in the order of the
packet ring, to a reassembly buffer for each direction. A direction is shown
whole exactly when its first payload in the ring is the first of the stream.
-/

namespace Pktscope

open Library

structure FiveTuple where
  src : Endpoint
  dst : Endpoint
  proto : UInt8
  label : String

/-- The first TCP or UDP layer with the addresses and the protocol of the IP layers above it. -/
def fiveTupleFrom (src dst : Option IpAddr) (proto : UInt8) : List Layer → Option FiveTuple
  | [] => none
  | .ipv4 ip :: ls => fiveTupleFrom (some (.v4 ip.srcIp)) (some (.v4 ip.dstIp)) ip.protocol ls
  | .ipv6 ip :: ls => fiveTupleFrom (some (.v6 ip.srcIp)) (some (.v6 ip.dstIp)) ip.nextHeader ls
  | .tcp t :: _ => do
    let s ← src
    let d ← dst
    return ⟨⟨s, t.srcPort⟩, ⟨d, t.dstPort⟩, proto, "TCP"⟩
  | .udp u :: _ => do
    let s ← src
    let d ← dst
    return ⟨⟨s, u.srcPort⟩, ⟨d, u.dstPort⟩, proto, "UDP"⟩
  | _ :: ls => fiveTupleFrom src dst proto ls

def fiveTuple (pkt : DecodedPacket) : Option FiveTuple := fiveTupleFrom none none 0 pkt.layers

/-- The first payload after a TCP layer, with its sequence number. -/
def tcpPayloadFrom (data : List UInt8) (seq : Option UInt32) :
    List Layer → Option (UInt32 × List UInt8)
  | [] => none
  | .tcp t :: ls => tcpPayloadFrom data (some t.seqNum) ls
  | .payload offset len :: _ =>
    seq.bind fun s =>
      let stop := min (offset + len) data.length
      if offset ≤ stop then some (s, slice data offset stop) else none
  | _ :: ls => tcpPayloadFrom data seq ls

def tcpPayload (pkt : DecodedPacket) : Option (UInt32 × List UInt8) :=
  tcpPayloadFrom pkt.data none pkt.layers

namespace App

variable {R : Type} (app : App R)

/-- Client and server of the selected packet's conversation: the lower endpoint is the client. -/
def conversation : Option (Endpoint × Endpoint) := do
  let selected ← app.selectedPacket
  let t ← fiveTuple selected
  if t.proto ≠ 6 then none
  else some (if t.src.le t.dst then (t.src, t.dst) else (t.dst, t.src))

/-- Whether a packet belongs to a conversation, whichever way it goes. -/
def same (conv : Endpoint × Endpoint) (t : FiveTuple) : Bool :=
  decide ((t.src, t.dst) = conv) || decide ((t.dst, t.src) = conv)

/-- One round of the loop over the ring. -/
def feedPacket (conv : Endpoint × Endpoint) (bufs : ReassemblyBuffer × ReassemblyBuffer)
    (pkt : DecodedPacket) : ReassemblyBuffer × ReassemblyBuffer :=
  match fiveTuple pkt with
  | none => bufs
  | some t =>
    if t.proto ≠ 6 then bufs
    else if !same conv t then bufs
    else match tcpPayload pkt with
      | none => bufs
      | some (seq, payload) =>
        if payload.isEmpty then bufs
        else if t.src = conv.1 then ((bufs.1.insertSegment seq payload).1, bufs.2)
        else (bufs.1, (bufs.2.insertSegment seq payload).1)

/-- The reassembled conversation of the selected packet, both directions. -/
def buildStream : Option (String × StreamData) := do
  let conv ← app.conversation
  let bufs := app.packets.packets.foldl (feedPacket conv) (.new, .new)
  let data : StreamData := ⟨bufs.1.tryDrain.1.getD [], bufs.2.tryDrain.1.getD []⟩
  let shown := fun (e : Endpoint) => s!"{e.addr.display}:{e.port.toNat}"
  return (s!"Follow TCP: {shown conv.1} <-> {shown conv.2}", data)

end App

/-- The direction from the client, or the one to it. -/
def StreamData.side (data : StreamData) (up : Bool) : List UInt8 :=
  if up then data.clientToServer else data.serverToClient

/-- The payload that a packet carries in one direction of a conversation. -/
def carriedBy (conv : Endpoint × Endpoint) (up : Bool) (pkt : DecodedPacket) :
    Option (UInt32 × List UInt8) := do
  let t ← fiveTuple pkt
  let seg ← tcpPayload pkt
  if t.proto = 6 && App.same conv t && decide (t.src = conv.1) == up && !seg.2.isEmpty then some seg
  else none

namespace App

/-- The payloads of one direction of a conversation, in the order of the ring. -/
def carried {R : Type} (app : App R) (conv : Endpoint × Endpoint) (up : Bool) :
    List (UInt32 × List UInt8) :=
  app.packets.packets.filterMap (carriedBy conv up)

end App

/-- The pieces follow each other from a place to the end of a string. -/
def Tiles (S : List UInt8) : ℕ → List (Cut S) → Prop
  | n, [] => n = S.length
  | n, c :: cuts => c.pos = n ∧ Tiles S c.stop cuts

instance decidableTiles {S : List UInt8} :
    ∀ (n : ℕ) (cuts : List (Cut S)), Decidable (Tiles S n cuts)
  | n, [] => inferInstanceAs (Decidable (n = S.length))
  | n, c :: cuts =>
    have := decidableTiles c.stop cuts
    inferInstanceAs (Decidable (c.pos = n ∧ Tiles S c.stop cuts))

section Feed

variable (conv : Endpoint × Endpoint) (up : Bool)

def half (bufs : ReassemblyBuffer × ReassemblyBuffer) : ReassemblyBuffer :=
  if up then bufs.1 else bufs.2

def ReassemblyBuffer.take (b : ReassemblyBuffer) (seg : UInt32 × List UInt8) : ReassemblyBuffer :=
  (b.insertSegment seg.1 seg.2).1

theorem half_feedPacket (bufs : ReassemblyBuffer × ReassemblyBuffer) (pkt : DecodedPacket) :
    half up (App.feedPacket conv bufs pkt) =
      (carriedBy conv up pkt).elim (half up bufs) (half up bufs).take := by
  unfold App.feedPacket carriedBy
  cases fiveTuple pkt with
  | none => rfl
  | some t =>
    cases tcpPayload pkt with
    | none => simp
    | some seg =>
      obtain ⟨seq, payload⟩ := seg
      simp only [Option.bind_eq_bind, Option.bind_some]
      by_cases hproto : t.proto = 6
      · by_cases hsame : App.same conv t = true
        · by_cases hempty : payload.isEmpty = true
          · simp [hproto, hsame, hempty]
          · by_cases hsrc : t.src = conv.1
            · cases up <;> simp [hproto, hsame, hempty, hsrc, half, ReassemblyBuffer.take]
            · cases up <;> simp [hproto, hsame, hempty, hsrc, half, ReassemblyBuffer.take]
        · simp [hproto, hsame]
      · simp [hproto]

theorem half_feed (pkts : List DecodedPacket) (bufs : ReassemblyBuffer × ReassemblyBuffer) :
    half up (pkts.foldl (App.feedPacket conv) bufs) =
      (pkts.filterMap (carriedBy conv up)).foldl .take (half up bufs) := by
  induction pkts generalizing bufs with
  | nil => rfl
  | cons pkt pkts ih =>
    rw [List.foldl_cons, ih, half_feedPacket, List.filterMap_cons]
    cases carriedBy conv up pkt with
    | none => rfl
    | some seg => rfl

end Feed

section Tiles

variable {S : List UInt8} {n : ℕ} {cuts : List (Cut S)}

theorem Tiles.sum (h : Tiles S n cuts) : n + (cuts.map Cut.len).sum = S.length := by
  induction cuts generalizing n with
  | nil => exact h
  | cons c cuts ih =>
    have hrest := ih h.2
    rw [List.map_cons, List.sum_cons, ← hrest, Cut.stop, h.1, Nat.add_assoc]

theorem Tiles.le {c : Cut S} (h : Tiles S n cuts) (hc : c ∈ cuts) : n ≤ c.pos := by
  induction cuts generalizing n with
  | nil => cases hc
  | cons c' cuts ih =>
    rcases List.mem_cons.mp hc with rfl | hc
    · exact h.1.ge
    · exact h.1.ge.trans ((Nat.le_add_right _ _).trans (ih h.2 hc))

theorem Tiles.apart (h : Tiles S n cuts) : cuts.Pairwise Cut.Apart := by
  induction cuts generalizing n with
  | nil => exact .nil
  | cons c cuts ih => exact .cons (fun c' hc' => Or.inl (h.2.le hc')) (ih h.2)

theorem Tiles.cover (h : Tiles S n cuts) {i : ℕ} (hn : n ≤ i) (hi : i < S.length) :
    ∃ c ∈ cuts, c.Covers i := by
  induction cuts generalizing n with
  | nil => exact absurd (h ▸ hn) (not_le.mpr hi)
  | cons c cuts ih =>
    rcases Nat.lt_or_ge i c.stop with hlt | hge
    · exact ⟨c, List.mem_cons_self, h.1.trans_le hn, hlt⟩
    · obtain ⟨c', hc', hcov⟩ := ih h.2 hge
      exact ⟨c', List.mem_cons_of_mem c hc', hcov⟩

end Tiles

section Shown

variable {S : List UInt8} {isn : UInt32}

def Cut.Filled (c : Cut S) : Bool := decide (0 < c.len)

/-- A piece as the packets carry it. -/
def Cut.segment (isn : UInt32) (c : Cut S) : UInt32 × List UInt8 := (c.seq isn, c.data)

theorem foldl_take_segment (cuts : List (Cut S)) :
    ((cuts.filter Cut.Filled).map (Cut.segment isn)).foldl .take .new =
      (Reader.arrived isn cuts).buffer := by
  induction cuts using List.reverseRecOn with
  | nil => rfl
  | append_singleton cuts c ih =>
    rw [List.filter_append, List.map_append, List.foldl_append, ih]
    rcases Nat.eq_zero_or_pos c.len with hc | hc
    · rw [Reader.arrived_empty cuts hc]
      simp [Cut.Filled, hc]
    · rw [Reader.arrived_concat, Reader.apply_insert]
      simp [Cut.Filled, hc, Cut.segment, ReassemblyBuffer.take]

theorem drained_arrived (cuts : List (Cut S)) : (Reader.arrived isn cuts).drained = [] := by
  induction cuts using List.reverseRecOn with
  | nil => rfl
  | append_singleton cuts c ih => rw [Reader.arrived_concat, Reader.apply_insert, ih]

theorem firstPos_insert (cuts : List (Cut S)) :
    Reader.firstPos (cuts.map ReadOp.insert) = (cuts.filter Cut.Filled).head?.map Cut.pos := by
  induction cuts with
  | nil => rfl
  | cons c cuts ih =>
    unfold Reader.firstPos at ih ⊢
    rcases Nat.eq_zero_or_pos c.len with hc | hc
    · simp [Cut.Filled, hc, ih]
    · simp [Cut.Filled, hc, hc.ne']

theorem tryDrain_getD (b : ReassemblyBuffer) : b.tryDrain.1.getD [] = b.pending := by
  unfold ReassemblyBuffer.tryDrain
  cases b.pending <;> rfl

/-- A direction whose payloads in the ring are the pieces of a string in some order is shown whole
exactly when the first of them is the first piece. -/
theorem App.buildStream_whole_iff {R : Type} (app : App R) {conv : Endpoint × Endpoint}
    (hconv : app.conversation = some conv) (up : Bool) (S : List UInt8)
    (hS : S.length < maxStreamBuffer) (isn : UInt32) (cuts order : List (Cut S))
    (htiles : Tiles S 0 cuts) (horder : order.Perm cuts)
    (hring : app.carried conv up = (order.filter Cut.Filled).map (Cut.segment isn)) :
    ∃ title data, app.buildStream = some (title, data) ∧
      (data.side up = S ↔ ∀ c ∈ (order.filter Cut.Filled).head?, c.pos = 0) := by
  refine ⟨_, _, by rw [App.buildStream, hconv]; rfl, ?_⟩
  have hbig : maxStreamBuffer < 2 ^ 31 := by decide
  have hside (bufs : ReassemblyBuffer × ReassemblyBuffer) :
      (StreamData.mk (bufs.1.tryDrain.1.getD []) (bufs.2.tryDrain.1.getD [])).side up =
        (half up bufs).pending := by
    rw [tryDrain_getD, tryDrain_getD]
    cases up <;> rfl
  have hnew : half up (.new, .new) = .new := by cases up <;> rfl
  have hbytes : (Reader.arrived isn order).delivered = (Reader.arrived isn order).buffer.pending := by
    rw [Reader.delivered, drained_arrived, List.nil_append]
  have hsum : (order.map Cut.len).sum = S.length := by
    rw [(horder.map Cut.len).sum_eq, ← htiles.sum, Nat.zero_add]
  have hapart : order.Pairwise Cut.Apart :=
    (horder.pairwise_iff fun h => Or.symm h).mpr htiles.apart
  have hcover : ∀ i < S.length, ∃ c ∈ order, c.Covers i := fun i hi =>
    (htiles.cover (Nat.zero_le i) hi).imp fun c hc => hc.imp_left horder.mem_iff.mpr
  have hwhole := Reader.whole_of_apart isn (hS.trans hbig) (hsum.trans_le hS.le) hapart hcover
  rw [hside, half_feed, hnew]
  change ((app.carried conv up).foldl ReassemblyBuffer.take ReassemblyBuffer.new).pending = S ↔ _
  rw [hring, foldl_take_segment, ← hbytes, hwhole, firstPos_insert]
  simp only [Option.mem_def, Option.map_eq_some_iff, forall_exists_index, and_imp,
    forall_apply_eq_imp_iff₂]

end Shown

section Samples

/-- A packet from the client with a payload behind its headers. -/
def uploadPacket (seq : UInt32) (payload : List UInt8) : DecodedPacket where
  number := 0
  timestamp := 0
  wireLen := 54 + UInt32.ofNat payload.length
  data := List.replicate 54 0 ++ payload
  layers :=
    [.ipv4 ⟨4, 5, 0, 0, 0, 0, 0, 0, 64, 6, 0, 2, 9, (14, 34)⟩,
      .tcp ⟨40000, 443, seq, 0, 5, ⟨false, false, false, true, true, false, false, false⟩, 0, 0, 0,
        payload.length, (34, 54)⟩,
      .payload 54 payload.length]
  summary := ⟨"", "", "", 0, "", .tcp⟩
  process := none
  retransmission := false

/-- A ring with two packets of one upload, its first packet selected. -/
def uploadApp (first second : DecodedPacket) : App Unit :=
  { App.new 2 with packets := ⟨[first, second], 2⟩ }

def upload : Endpoint × Endpoint := (⟨.v4 2, 40000⟩, ⟨.v4 9, 443⟩)

def fourBytes : List UInt8 := [10, 11, 12, 13]

def headPiece : Cut fourBytes := ⟨0, 2, by decide⟩

def tailPiece : Cut fourBytes := ⟨2, 2, by decide⟩

/-- The order of the segments in the ring matters. -/
theorem App.buildStream_not_whole : ¬ ∀ (app : App Unit) (conv : Endpoint × Endpoint),
    app.conversation = some conv → ∀ (up : Bool) (S : List UInt8), S.length < maxStreamBuffer →
    ∀ (isn : UInt32) (cuts order : List (Cut S)), Tiles S 0 cuts → order.Perm cuts →
    app.carried conv up = (order.filter Cut.Filled).map (Cut.segment isn) →
    ∃ title data, app.buildStream = some (title, data) ∧ data.side up = S := by
  intro h
  obtain ⟨title, data, hbuild, hside⟩ := h
    (uploadApp (uploadPacket 102 [12, 13]) (uploadPacket 100 [10, 11])) upload (by decide) true
    fourBytes (by decide) 100 [headPiece, tailPiece] [tailPiece, headPiece] (by decide)
    (List.Perm.swap _ _ _) (by decide)
  have hshown := congrArg (Option.map fun r => r.2.side true) hbuild
  rw [Option.map_some, hside] at hshown
  revert hshown
  decide

theorem App.buildStream_whole_upload : ∃ title data,
    (uploadApp (uploadPacket 100 [10, 11]) (uploadPacket 102 [12, 13])).buildStream =
      some (title, data) ∧
    (data.side true = fourBytes ↔
      ∀ c ∈ ([headPiece, tailPiece].filter Cut.Filled).head?, c.pos = 0) :=
  have hconv : App.conversation _ = some upload := by decide
  App.buildStream_whole_iff _ hconv true fourBytes (by decide) 100 [headPiece, tailPiece]
    [headPiece, tailPiece] (by decide) (.refl _) (by decide)

end Samples

end Pktscope

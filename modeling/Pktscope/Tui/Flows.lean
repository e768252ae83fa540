import Mathlib.Data.String.Basic
import Mathlib.Data.Sym.Sym2
import Mathlib.Order.Bounds.Basic
import Pktscope.Library.Grouping
import Pktscope.Net.EndpointText
import Pktscope.Process.Packets
import Pktscope.Tui.Stream

/-! # The flows overlay

The overlay lists the conversations in the packet ring. A row is made for a text,
and the text names the two endpoints and the transport whichever way the packet
went, so that the rows are the conversations.
-/

namespace Pktscope

open Library

structure FlowRow where
  label : String
  proto : String
  packets : ℕ
  bytes : ℕ
  firstMs : ℤ
  lastMs : ℤ
  deriving DecidableEq

namespace FlowRow

/-- The texts of both endpoints, the lower one first. -/
def sides (t : FiveTuple) : String × String :=
  if t.src.le t.dst then (t.src.text, t.dst.text) else (t.dst.text, t.src.text)

def labelOf (t : FiveTuple) : String := s!"{(sides t).1} <-> {(sides t).2}"

def key (t : FiveTuple) : String := s!"{(sides t).1} <-> {(sides t).2} {t.label}"

def new (e : FiveTuple × DecodedPacket) : FlowRow where
  label := labelOf e.1
  proto := e.1.label
  packets := 0
  bytes := 0
  firstMs := e.2.timestamp.timestampMillis
  lastMs := e.2.timestamp.timestampMillis

def add (row : FlowRow) (e : FiveTuple × DecodedPacket) : FlowRow :=
  { row with
    packets := row.packets + 1
    bytes := row.bytes + e.2.wireLen.toNat
    firstMs := min row.firstMs e.2.timestamp.timestampMillis
    lastMs := max row.lastMs e.2.timestamp.timestampMillis }

def rollup : Rollup (FiveTuple × DecodedPacket) String FlowRow :=
  ⟨fun e => key e.1, fun _ e => new e, add⟩

/-- One packet of the ring. -/
def count (map : OrderedMap String FlowRow) (pkt : DecodedPacket) : OrderedMap String FlowRow :=
  match fiveTuple pkt with
  | none => map
  | some t => rollup.count map (t, pkt)

end FlowRow

/-- The conversations in the ring, the one with the most bytes first. -/
def aggregateFlows (packets : List DecodedPacket) : List FlowRow :=
  let map := packets.foldl FlowRow.count .empty
  (map.entries.map Prod.snd).insertionSort fun a b => b.bytes ≤ a.bytes

/-- Two endpoints, in no order, and the transport between them. -/
abbrev Peers := Sym2 Endpoint × String

def FiveTuple.peers (t : FiveTuple) : Peers := (s(t.src, t.dst), t.label)

def FiveTuple.swap (t : FiveTuple) : FiveTuple := ⟨t.dst, t.src, t.proto, t.label⟩

/-- The packets of the ring that have addresses and ports, with these. -/
def tupled (packets : List DecodedPacket) : List (FiveTuple × DecodedPacket) :=
  packets.filterMap fun pkt => (fiveTuple pkt).map (·, pkt)

/-- The packets of a conversation. -/
def carriedIn (c : Peers) (packets : List DecodedPacket) : List DecodedPacket :=
  packets.filter fun pkt => (fiveTuple pkt).any fun t => decide (t.peers = c)

/-- The times of some packets. -/
def millis (packets : List DecodedPacket) : Set ℤ :=
  {ms | ∃ pkt ∈ packets, pkt.timestamp.timestampMillis = ms}

/-- A row tells of a conversation that it carried some packets. -/
structure FlowRow.Tells (row : FlowRow) (c : Peers) (carried : List DecodedPacket) :
    Prop where
  label : ∃ a b : Endpoint, a.le b = true ∧ c.1 = s(a, b) ∧ row.label = s!"{a.text} <-> {b.text}"
  proto : row.proto = c.2
  packets : row.packets = carried.length
  bytes : row.bytes = (carried.map fun pkt => pkt.wireLen.toNat).sum
  first : IsLeast (millis carried) row.firstMs
  last : IsGreatest (millis carried) row.lastMs

/-- The rows are the conversations in the ring: one row for each, which tells of it what all its
packets did. -/
structure FlowTable (packets : List DecodedPacket) (rows : List FlowRow) : Prop where
  existsUnique_row : ∀ pkt ∈ packets, ∀ t, fiveTuple pkt = some t →
    ∃! row, row ∈ rows ∧ row.Tells t.peers (carriedIn t.peers packets)
  exists_packet : ∀ row ∈ rows, ∃ pkt ∈ packets, ∃ t, fiveTuple pkt = some t ∧
    row.Tells t.peers (carriedIn t.peers packets)
  labels_nodup : (rows.map fun row => (row.label, row.proto)).Nodup
  sum_packets : (rows.map FlowRow.packets).sum =
    (packets.filter fun pkt => (fiveTuple pkt).isSome).length
  sum_bytes : (rows.map FlowRow.bytes).sum =
    ((packets.filter fun pkt => (fiveTuple pkt).isSome).map fun pkt => pkt.wireLen.toNat).sum
  sorted : rows.Pairwise fun a b => b.bytes ≤ a.bytes

section Order

namespace Endpoint

/-- Two endpoints, the lower one first. -/
def ordered (a b : Endpoint) : Endpoint × Endpoint := if a.le b then (a, b) else (b, a)

theorem le_ordered (a b : Endpoint) : (ordered a b).1.le (ordered a b).2 = true := by
  unfold ordered
  split_ifs with h
  · exact h
  · exact (le_total a b).resolve_left h

theorem ordered_of_le {a b : Endpoint} (h : a.le b = true) : ordered a b = (a, b) := if_pos h

theorem ordered_comm (a b : Endpoint) : ordered a b = ordered b a := by
  rcases le_total a b with h | h
  · by_cases h' : b.le a = true
    · rw [le_antisymm h h']
    · simp [ordered, h, h']
  · by_cases h' : a.le b = true
    · rw [le_antisymm h h']
    · simp [ordered, h, h']

theorem sym2_ordered (a b : Endpoint) : s((ordered a b).1, (ordered a b).2) = s(a, b) := by
  unfold ordered
  split_ifs
  · rfl
  · exact Sym2.eq_swap

theorem ordered_eq_iff {a b a' b' : Endpoint} :
    ordered a b = ordered a' b' ↔ s(a, b) = s(a', b') := by
  constructor
  · intro h
    rw [← sym2_ordered a b, h, sym2_ordered]
  · intro h
    rcases Sym2.eq_iff.mp h with ⟨rfl, rfl⟩ | ⟨rfl, rfl⟩
    · rfl
    · exact ordered_comm a b

end Endpoint

end Order

section Text

namespace FlowRow

theorem sides_eq (t : FiveTuple) :
    sides t = ((t.src.ordered t.dst).1.text, (t.src.ordered t.dst).2.text) := by
  unfold sides Endpoint.ordered
  split_ifs <;> rfl

/-- The key of a row can be told from what it shows. -/
def shown (row : FlowRow) : String := s!"{row.label} {row.proto}"

theorem key_eq_shown (e : FiveTuple × DecodedPacket) : key e.1 = (new e).shown := by
  simp [key, shown, new, labelOf, toString]

theorem toList_key (t : FiveTuple) :
    (key t).toList = (sides t).1.toList ++ ' ' ::
      ("<-> ".toList ++ ((sides t).2.toList ++ ' ' :: t.label.toList)) := by
  simp [key, toString]

/-- Packets have the same key exactly if they are of the same conversation. -/
theorem key_eq_iff {t t' : FiveTuple} : key t = key t' ↔ t.peers = t'.peers := by
  rw [FiveTuple.peers, FiveTuple.peers, Prod.mk.injEq, ← Endpoint.ordered_eq_iff]
  constructor
  · intro h
    have hlist := congrArg String.toList h
    rw [toList_key, toList_key, sides_eq, sides_eq] at hlist
    obtain ⟨hlow, hrest⟩ := append_cons_inj (Endpoint.space_not_mem_text _)
      (Endpoint.space_not_mem_text _) hlist
    obtain ⟨hhigh, hlabel⟩ := append_cons_inj (Endpoint.space_not_mem_text _)
      (Endpoint.space_not_mem_text _) (List.append_cancel_left hrest)
    refine ⟨Prod.ext ?_ ?_, String.toList_injective hlabel⟩
    · exact Endpoint.text_injective (String.toList_injective hlow)
    · exact Endpoint.text_injective (String.toList_injective hhigh)
  · rintro ⟨hsides, hlabel⟩
    rw [key, key, sides_eq, sides_eq, hsides, hlabel]

theorem new_eq (e e' : FiveTuple × DecodedPacket) (h : key e.1 = key e'.1) :
    (new e).label = (new e').label ∧ (new e).proto = (new e').proto := by
  obtain ⟨hsides, hlabel⟩ := Prod.mk.inj (key_eq_iff.mp h)
  rw [← Endpoint.ordered_eq_iff] at hsides
  simp only [new, labelOf, sides_eq, hsides]
  exact ⟨trivial, hlabel⟩

end FlowRow

end Text

section Rows

theorem mem_millis_singleton (pkt : DecodedPacket) :
    millis [pkt] = {pkt.timestamp.timestampMillis} := by
  ext ms
  simp [millis, eq_comm]

theorem millis_concat (packets : List DecodedPacket) (pkt : DecodedPacket) :
    millis (packets ++ [pkt]) = insert pkt.timestamp.timestampMillis (millis packets) := by
  ext ms
  simp only [millis, Set.mem_ofPred_eq, Set.mem_insert_iff, List.mem_append, List.mem_singleton]
  constructor
  · rintro ⟨pkt', hpkt | rfl, rfl⟩
    · exact Or.inr ⟨pkt', hpkt, rfl⟩
    · exact Or.inl rfl
  · rintro (rfl | ⟨pkt', hpkt, rfl⟩)
    · exact ⟨pkt, Or.inr rfl, rfl⟩
    · exact ⟨pkt', Or.inl hpkt, rfl⟩

namespace FlowRow

variable {row : FlowRow} {t : FiveTuple} {e : FiveTuple × DecodedPacket}
  {carried packets : List DecodedPacket}

theorem tells_new (h : key e.1 = key t) : (add (new e) e).Tells t.peers [e.2] := by
  obtain ⟨hlabel, hproto⟩ := new_eq e (t, e.2) h
  constructor
  · refine ⟨_, _, Endpoint.le_ordered t.src t.dst, (Endpoint.sym2_ordered _ _).symm, ?_⟩
    change (new e).label = _
    rw [hlabel, new, labelOf, sides_eq]
  · exact hproto
  · rfl
  · simp [add, new]
  · rw [mem_millis_singleton]
    simp [add, new]
  · rw [mem_millis_singleton]
    simp [add, new]

theorem tells_add (h : row.Tells t.peers carried) :
    (row.add e).Tells t.peers (carried ++ [e.2]) := by
  constructor
  · exact h.label
  · exact h.proto
  · simp [add, h.packets]
  · simp [add, h.bytes]
  · rw [millis_concat, add, min_comm]
    exact h.first.insert _
  · rw [millis_concat, add, max_comm]
    exact h.last.insert _

theorem Tells.shown_eq {row' : FlowRow} {c : Peers} {carried' : List DecodedPacket}
    (h : row.Tells c carried) (h' : row'.Tells c carried') :
    (row.label, row.proto) = (row'.label, row'.proto) := by
  obtain ⟨a, b, hab, hc, hlabel⟩ := h.label
  obtain ⟨a', b', hab', hc', hlabel'⟩ := h'.label
  have hsides := Endpoint.ordered_eq_iff.mpr (hc.symm.trans hc')
  rw [Endpoint.ordered_of_le hab, Endpoint.ordered_of_le hab', Prod.mk.injEq] at hsides
  obtain ⟨rfl, rfl⟩ := hsides
  rw [hlabel, hlabel', h.proto, h'.proto]

theorem carriedIn_eq (t : FiveTuple) (packets : List DecodedPacket) :
    ((tupled packets).filter fun e => key e.1 = key t).map Prod.snd =
      carriedIn t.peers packets := by
  induction packets with
  | nil => rfl
  | cons pkt packets ih =>
    rw [carriedIn, List.filter_cons, ← carriedIn, ← ih, tupled, List.filterMap_cons]
    cases ht : fiveTuple pkt with
    | none => simp [tupled]
    | some t' =>
      by_cases hkey : key t' = key t
      · simp [tupled, hkey, key_eq_iff.mp hkey]
      · simp [tupled, hkey, mt key_eq_iff.mpr hkey]

theorem foldl_count (packets : List DecodedPacket) :
    packets.foldl count .empty = rollup.table (tupled packets) := by
  rw [Rollup.table, tupled, List.foldl_filterMap]
  congr
  funext map pkt
  rw [count]
  cases fiveTuple pkt <;> rfl

theorem mem_tupled : e ∈ tupled packets ↔ e.2 ∈ packets ∧ fiveTuple e.2 = some e.1 := by
  obtain ⟨t, pkt⟩ := e
  simp only [tupled, List.mem_filterMap, Option.map_eq_some_iff, Prod.mk.injEq]
  constructor
  · rintro ⟨pkt', hpkt, t', ht, rfl, rfl⟩
    exact ⟨hpkt, ht⟩
  · rintro ⟨hpkt, ht⟩
    exact ⟨pkt, hpkt, t, ht, rfl, rfl⟩

theorem tells_of_rowOf (h : rollup.rowOf (tupled packets) (key t) = some row) :
    row.Tells t.peers (carriedIn t.peers packets) := by
  rw [← carriedIn_eq]
  refine Rollup.rowOf_induction (P := fun l row => row.Tells t.peers (l.map Prod.snd))
    (fun e he => ?_) (fun l row e _ hrow => ?_) h
  · exact tells_new he
  · rw [List.map_append]
    exact tells_add hrow

theorem shown_of_rowOf {k : String} (h : rollup.rowOf (tupled packets) k = some row) :
    row.shown = k := by
  refine Rollup.rowOf_induction (P := fun _ row => row.shown = k)
    (fun e he => ?_) (fun l row e _ hrow => ?_) h
  · rw [← he]
    exact (key_eq_shown e).symm
  · exact hrow

end FlowRow

end Rows

section Overlay

open FlowRow

variable {packets : List DecodedPacket} {row : FlowRow}

theorem mem_aggregateFlows :
    row ∈ aggregateFlows packets ↔ rollup.rowOf (tupled packets) row.shown = some row := by
  rw [aggregateFlows, List.mem_insertionSort, foldl_count, List.mem_map]
  constructor
  · rintro ⟨⟨k, row⟩, hrow, rfl⟩
    have hget := OrderedMap.get?_of_mem hrow
    rw [Rollup.get?_table] at hget
    rwa [shown_of_rowOf hget]
  · intro hrow
    rw [← Rollup.get?_table, OrderedMap.get?_eq_some_iff] at hrow
    exact ⟨_, hrow, rfl⟩

theorem nodup_aggregateFlows (packets : List DecodedPacket) :
    ((aggregateFlows packets).map fun row => (row.label, row.proto)).Nodup := by
  have hkeys : ((rollup.table (tupled packets)).entries.map Prod.snd).map shown =
      (rollup.table (tupled packets)).keys := by
    rw [List.map_map, OrderedMap.keys]
    refine List.map_congr_left fun e he => ?_
    have hget := OrderedMap.get?_of_mem (k := e.1) (v := e.2) he
    rw [Rollup.get?_table] at hget
    exact shown_of_rowOf hget
  have hnodup : ((aggregateFlows packets).map shown).Nodup := by
    have hperm := (List.perm_insertionSort (fun a b => b.bytes ≤ a.bytes)
      ((rollup.table (tupled packets)).entries.map Prod.snd)).map shown
    rw [aggregateFlows, foldl_count, hperm.nodup_iff, hkeys]
    exact (OrderedMap.keys_sorted _).imp ne_of_lt
  refine List.Nodup.of_map (fun p : String × String => s!"{p.1} {p.2}") ?_
  rw [List.map_map]
  exact hnodup

theorem existsUnique_mem_aggregateFlows {pkt : DecodedPacket} {t : FiveTuple} (hpkt : pkt ∈ packets)
    (ht : fiveTuple pkt = some t) : ∃! row, row ∈ aggregateFlows packets ∧
      row.Tells t.peers (carriedIn t.peers packets) := by
  have hsome : (rollup.rowOf (tupled packets) (key t)).isSome :=
    Rollup.isSome_rowOf.mpr ⟨(t, pkt), mem_tupled.mpr ⟨hpkt, ht⟩, rfl⟩
  obtain ⟨row, hrow⟩ := Option.isSome_iff_exists.mp hsome
  have htells := tells_of_rowOf hrow
  refine ⟨row, ⟨?_, htells⟩, ?_⟩
  · rw [mem_aggregateFlows, shown_of_rowOf hrow]
    exact hrow
  · rintro row' ⟨hrow', htells'⟩
    have hmem : row ∈ aggregateFlows packets := by
      rw [mem_aggregateFlows, shown_of_rowOf hrow]
      exact hrow
    have hnodup := nodup_aggregateFlows packets
    exact List.inj_on_of_nodup_map hnodup hrow' hmem (htells'.shown_eq htells)

theorem exists_of_mem_aggregateFlows (h : row ∈ aggregateFlows packets) :
    ∃ pkt ∈ packets, ∃ t, fiveTuple pkt = some t ∧
      row.Tells t.peers (carriedIn t.peers packets) := by
  have hrow := mem_aggregateFlows.mp h
  obtain ⟨e, he, hkey⟩ := Rollup.isSome_rowOf.mp (Option.isSome_of_eq_some hrow)
  have hkey : key e.1 = row.shown := hkey
  obtain ⟨hpkt, ht⟩ := mem_tupled.mp he
  rw [← hkey] at hrow
  exact ⟨e.2, hpkt, e.1, ht, tells_of_rowOf hrow⟩

theorem FlowRow.adds_packets : rollup.Adds FlowRow.packets fun _ => 1 :=
  ⟨fun _ _ => rfl, fun _ _ => rfl⟩

theorem FlowRow.adds_bytes : rollup.Adds FlowRow.bytes fun e => e.2.wireLen.toNat :=
  ⟨fun _ _ => rfl, fun _ _ => rfl⟩

theorem map_snd_tupled (packets : List DecodedPacket) :
    (tupled packets).map Prod.snd = packets.filter fun pkt => (fiveTuple pkt).isSome := by
  induction packets with
  | nil => rfl
  | cons pkt packets ih =>
    rw [tupled, List.filterMap_cons, List.filter_cons, ← ih]
    cases fiveTuple pkt <;> simp [tupled]

/-- What packets add to the rows is what they add together. -/
theorem sum_aggregateFlows {f : FlowRow → ℕ} {g : DecodedPacket → ℕ}
    (h : rollup.Adds f fun e => g e.2) (packets : List DecodedPacket) :
    ((aggregateFlows packets).map f).sum =
      ((packets.filter fun pkt => (fiveTuple pkt).isSome).map g).sum := by
  have hperm := (List.perm_insertionSort (fun a b => b.bytes ≤ a.bytes)
    ((rollup.table (tupled packets)).entries.map Prod.snd)).map f
  have htotal := h.total_table (tupled packets)
  rw [← map_snd_tupled, List.map_map, aggregateFlows, foldl_count, hperm.sum_eq, List.map_map]
  exact htotal

theorem FlowRow.rollup_add_comm (row : FlowRow) (e e' : FiveTuple × DecodedPacket) :
    rollup.add (rollup.add row e) e' = rollup.add (rollup.add row e') e := by
  simp only [rollup, add, mk.injEq, true_and]
  exact ⟨Nat.add_right_comm _ _ _, min_right_comm _ _ _, max_right_comm _ _ _⟩

theorem FlowRow.rollup_new_comm (e e' : FiveTuple × DecodedPacket)
    (h : rollup.label e = rollup.label e') :
    rollup.add (rollup.add (rollup.new (rollup.label e) e) e) e' =
      rollup.add (rollup.add (rollup.new (rollup.label e') e') e') e := by
  obtain ⟨hlabel, hproto⟩ := new_eq e e' h
  simp only [rollup, add, mk.injEq]
  refine ⟨hlabel, hproto, rfl, ?_, ?_, ?_⟩
  · simp [new, Nat.add_comm]
  · simp [new, min_comm]
  · simp [new, max_comm]

theorem fiveTupleFrom_swap (layers : List Layer) (src dst : Option IpAddr) (proto : UInt8) :
    fiveTupleFrom dst src proto (layers.map Layer.swap) =
      (fiveTupleFrom src dst proto layers).map FiveTuple.swap := by
  induction layers generalizing src dst proto with
  | nil => rfl
  | cons layer layers ih =>
    cases layer with
    | tcp tcp => cases src <;> cases dst <;> rfl
    | udp udp => cases src <;> cases dst <;> rfl
    | _ => exact ih _ _ _

/-- A packet counts alike whichever way it goes. -/
theorem FlowRow.count_swap (map : OrderedMap String FlowRow) (pkt : DecodedPacket) :
    count map pkt.swap = count map pkt := by
  have hswap : fiveTuple pkt.swap = (fiveTuple pkt).map FiveTuple.swap :=
    fiveTupleFrom_swap pkt.layers none none 0
  rw [count, count, hswap]
  cases fiveTuple pkt with
  | none => rfl
  | some t =>
    have hkey : key t.swap = key t := key_eq_iff.mpr (Prod.ext Sym2.eq_swap rfl)
    obtain ⟨hlabel, -⟩ := new_eq (t.swap, pkt.swap) (t, pkt) hkey
    have hnew : new (t.swap, pkt.swap) = new (t, pkt) := by
      rw [new, new, mk.injEq]
      exact ⟨hlabel, rfl, rfl, rfl, rfl, rfl⟩
    simp only [Option.map_some, Rollup.count, rollup, hkey, hnew]
    rfl

/-- The rows say nothing of the order of the packets, nor of the ways that they went. -/
theorem aggregateFlows_eq {packets packets' : List DecodedPacket} (turned : DecodedPacket → Bool)
    (h : packets'.Perm (packets.map fun pkt => if turned pkt then pkt.swap else pkt)) :
    aggregateFlows packets' = aggregateFlows packets := by
  have hturned : (packets.map fun pkt => if turned pkt then pkt.swap else pkt).foldl count .empty =
      packets.foldl count .empty := by
    rw [List.foldl_map]
    congr
    funext map pkt
    split_ifs
    · exact count_swap map pkt
    · rfl
  have htable : packets'.foldl count .empty = packets.foldl count .empty := by
    rw [← hturned, foldl_count, foldl_count]
    exact Rollup.table_perm (h.filterMap _) rollup_new_comm rollup_add_comm
  rw [aggregateFlows, htable, aggregateFlows]

theorem aggregateFlows_eq_sample :
    aggregateFlows [uploadPacket 7 [1], (uploadPacket 5 []).swap] =
      aggregateFlows [uploadPacket 5 [], uploadPacket 7 [1]] :=
  aggregateFlows_eq (fun pkt => pkt.data.length == 54) (List.Perm.swap _ _ _)

end Overlay

end Pktscope

import Pktscope.Inspector.Domains

/-! # The rollups of the inspector

The live connections by process and by domain. Either rollup is a partition of
the connection table: every connection counts in the one row of its label, so
the rows add up to the table.
-/

namespace Pktscope

open Library

/-- The sums over the live connections of one process, with the pid of the first of them. -/
structure ProcessAgg where
  process : String
  pid : Option ℕ
  conns : ℕ
  bytesUp : ℕ
  bytesDown : ℕ
  deriving DecidableEq

namespace ProcessAgg

def new (process : String) (c : ConnectionDto) : ProcessAgg := ⟨process, c.pid, 0, 0, 0⟩

def add (e : ProcessAgg) (c : ConnectionDto) : ProcessAgg :=
  { e with
    conns := e.conns + 1
    bytesUp := e.bytesUp + c.bytesUp
    bytesDown := e.bytesDown + c.bytesDown }

/-- The rollup by process. -/
def rollup : Rollup ConnectionDto String ProcessAgg := ⟨ConnectionDto.process, new, add⟩

end ProcessAgg

section App

variable {F : Type}

/-- The live connections, by flow id. -/
def InspectorApp.values (app : InspectorApp F) : List ConnectionDto := app.conns.entries.map Prod.snd

/-- The live connections by process, the busiest first. -/
def InspectorApp.processAggs (app : InspectorApp F) : List ProcessAgg :=
  let map := app.values.foldl ProcessAgg.rollup.count .empty
  (map.entries.map Prod.snd).insertionSort fun a b =>
    b.bytesUp + b.bytesDown ≤ a.bytesUp + a.bytesDown

def InspectorApp.liveCount (app : InspectorApp F) : ℕ := app.conns.len

end App

section Rows

/-- What the rows of both rollups have. -/
structure AggRow where
  label : String
  conns : ℕ
  bytesUp : ℕ
  bytesDown : ℕ
  deriving DecidableEq

namespace AggRow

def bytes (row : AggRow) : ℕ := row.bytesUp + row.bytesDown

def add (row : AggRow) (c : ConnectionDto) : AggRow :=
  ⟨row.label, row.conns + 1, row.bytesUp + c.bytesUp, row.bytesDown + c.bytesDown⟩

end AggRow

def ProcessAgg.row (e : ProcessAgg) : AggRow := ⟨e.process, e.conns, e.bytesUp, e.bytesDown⟩

def DomainAgg.row (e : DomainAgg) : AggRow := ⟨e.domain, e.conns, e.bytesUp, e.bytesDown⟩

def ConnectionDto.bytes (c : ConnectionDto) : ℕ := c.bytesUp + c.bytesDown

/-- Rows are a partition of some connections: one row for each label of a connection, with the
number and the bytes of the connections that have it, the busiest row first. -/
structure IsPartition (label : ConnectionDto → String) (conns : List ConnectionDto)
    (rows : List AggRow) : Prop where
  labels_nodup : (rows.map AggRow.label).Nodup
  existsUnique_row : ∀ c ∈ conns, ∃! row, row ∈ rows ∧ row.label = label c
  conns_pos : ∀ row ∈ rows, 0 < row.conns
  conns_eq : ∀ row ∈ rows, row.conns = (conns.filter fun c => label c = row.label).length
  bytesUp_eq : ∀ row ∈ rows,
    row.bytesUp = ((conns.filter fun c => label c = row.label).map ConnectionDto.bytesUp).sum
  bytesDown_eq : ∀ row ∈ rows,
    row.bytesDown = ((conns.filter fun c => label c = row.label).map ConnectionDto.bytesDown).sum
  sum_conns : (rows.map AggRow.conns).sum = conns.length
  sum_bytesUp : (rows.map AggRow.bytesUp).sum = (conns.map ConnectionDto.bytesUp).sum
  sum_bytesDown : (rows.map AggRow.bytesDown).sum = (conns.map ConnectionDto.bytesDown).sum
  sorted : rows.Pairwise fun a b => b.bytes ≤ a.bytes

/-- A rollup whose rows count connections. -/
structure Counts {ρ : Type} (r : Rollup ConnectionDto String ρ) (view : ρ → AggRow) : Prop where
  new : ∀ k c, view (r.new k c) = ⟨k, 0, 0, 0⟩
  add : ∀ row c, view (r.add row c) = (view row).add c

theorem ProcessAgg.counts : Counts rollup row := ⟨fun _ _ => rfl, fun _ _ => rfl⟩

theorem DomainAgg.counts : Counts rollup row := ⟨fun _ _ => rfl, fun _ _ => rfl⟩

namespace Counts

variable {ρ : Type} {r : Rollup ConnectionDto String ρ} {view : ρ → AggRow} (h : Counts r view)
  {conns : List ConnectionDto} {row : ρ}

include h

theorem label_new (k : String) (c : ConnectionDto) : (view (r.new k c)).label = k := by
  rw [h.new]

theorem label_add (row : ρ) (c : ConnectionDto) :
    (view (r.add row c)).label = (view row).label := by
  rw [h.add]
  rfl

/-- A measure that a connection adds to a row. -/
theorem adds {f : AggRow → ℕ} {g : ConnectionDto → ℕ} (hnew : ∀ k, f ⟨k, 0, 0, 0⟩ = 0)
    (hadd : ∀ row c, f (row.add c) = f row + g c) : r.Adds (fun row => f (view row)) g where
  new k c := by rw [h.new, hnew]
  add row c := by rw [h.add, hadd]

theorem adds_conns : r.Adds (fun row => (view row).conns) fun _ => 1 :=
  h.adds (fun _ => rfl) fun _ _ => rfl

theorem adds_bytesUp : r.Adds (fun row => (view row).bytesUp) ConnectionDto.bytesUp :=
  h.adds (fun _ => rfl) fun _ _ => rfl

theorem adds_bytesDown : r.Adds (fun row => (view row).bytesDown) ConnectionDto.bytesDown :=
  h.adds (fun _ => rfl) fun _ _ => rfl

theorem adds_bytes : r.Adds (fun row => (view row).bytes) ConnectionDto.bytes :=
  h.adds (fun _ => rfl) fun row c => by
    simp only [AggRow.bytes, AggRow.add, ConnectionDto.bytes]
    omega

theorem mem_rows : row ∈ (r.table conns).entries.map Prod.snd ↔
    r.rowOf conns (view row).label = some row :=
  Rollup.mem_rows (fun row => (view row).label) h.label_new h.label_add

theorem measure_eq {f : ρ → ℕ} {g : ConnectionDto → ℕ} (hadds : r.Adds f g)
    (hrow : row ∈ (r.table conns).entries.map Prod.snd) :
    f row = ((conns.filter fun c => r.label c = (view row).label).map g).sum := by
  have hsum := hadds.rowOf conns (view row).label
  rwa [h.mem_rows.mp hrow] at hsum

theorem conns_eq (hrow : row ∈ (r.table conns).entries.map Prod.snd) :
    (view row).conns = (conns.filter fun c => r.label c = (view row).label).length := by
  have hcount := h.measure_eq h.adds_conns hrow
  rwa [List.map_const', List.sum_replicate_nat, Nat.mul_one] at hcount

theorem exists_of_mem (hrow : row ∈ (r.table conns).entries.map Prod.snd) :
    ∃ c ∈ conns, r.label c = (view row).label := by
  rw [← Rollup.isSome_rowOf, h.mem_rows.mp hrow]
  rfl

theorem labels_nodup : (((r.table conns).entries.map Prod.snd).map fun row => (view row).label).Nodup := by
  rw [Rollup.map_rows (fun row => (view row).label) h.label_new h.label_add]
  exact (r.table conns).keys_sorted.imp ne_of_lt

omit h in
theorem sum_measure {f : ρ → ℕ} {g : ConnectionDto → ℕ} (hadds : r.Adds f g) {rows : List ρ}
    (hperm : rows.Perm ((r.table conns).entries.map Prod.snd)) :
    (rows.map f).sum = (conns.map g).sum := by
  rw [(hperm.map f).sum_eq, List.map_map]
  exact hadds.total_table conns

theorem isPartition {rows : List ρ} (hperm : rows.Perm ((r.table conns).entries.map Prod.snd))
    (hsorted : rows.Pairwise fun a b => (view b).bytes ≤ (view a).bytes) :
    IsPartition r.label conns (rows.map view) := by
  have hnodup : ((rows.map view).map AggRow.label).Nodup := by
    rw [List.map_map]
    exact (hperm.map _).nodup_iff.mpr h.labels_nodup
  have hrows {row : AggRow} (hrow : row ∈ rows.map view) :
      ∃ e ∈ (r.table conns).entries.map Prod.snd, view e = row := by
    obtain ⟨e, he, hview⟩ := List.mem_map.mp hrow
    exact ⟨e, hperm.mem_iff.mp he, hview⟩
  constructor
  · exact hnodup
  · intro c hc
    have hsome : (r.rowOf conns (r.label c)).isSome := Rollup.isSome_rowOf.mpr ⟨c, hc, rfl⟩
    obtain ⟨e, he⟩ := Option.isSome_iff_exists.mp hsome
    have hlabel : (view e).label = r.label c :=
      Rollup.label_of_rowOf (fun row => (view row).label) h.label_new h.label_add he
    have hmem : view e ∈ rows.map view := by
      refine List.mem_map_of_mem (hperm.mem_iff.mpr (h.mem_rows.mpr ?_))
      rw [hlabel, he]
    refine ⟨view e, ⟨hmem, hlabel⟩, ?_⟩
    rintro row ⟨hrow, hrowLabel⟩
    exact List.inj_on_of_nodup_map hnodup hrow hmem (hrowLabel.trans hlabel.symm)
  · intro row hrow
    obtain ⟨e, he, rfl⟩ := hrows hrow
    obtain ⟨c, hc, hlabel⟩ := h.exists_of_mem he
    rw [h.conns_eq he]
    exact List.length_pos_of_mem (List.mem_filter.mpr ⟨hc, decide_eq_true hlabel⟩)
  · intro row hrow
    obtain ⟨e, he, rfl⟩ := hrows hrow
    exact h.conns_eq he
  · intro row hrow
    obtain ⟨e, he, rfl⟩ := hrows hrow
    exact h.measure_eq h.adds_bytesUp he
  · intro row hrow
    obtain ⟨e, he, rfl⟩ := hrows hrow
    exact h.measure_eq h.adds_bytesDown he
  · have hsum := sum_measure h.adds_conns hperm
    rw [List.map_const', List.sum_replicate_nat, Nat.mul_one] at hsum
    rwa [List.map_map]
  · rw [List.map_map]
    exact sum_measure h.adds_bytesUp hperm
  · rw [List.map_map]
    exact sum_measure h.adds_bytesDown hperm
  · exact List.pairwise_map.mpr hsorted

theorem bytes_le {front : List ConnectionDto} (hfront : front <+: conns) {e : String × ρ}
    (he : e ∈ (r.table front).entries) :
    (view e.2).bytes ≤ (conns.map ConnectionDto.bytes).sum := by
  obtain ⟨back, rfl⟩ := hfront
  have hrow : (view e.2).bytes ≤ (front.map ConnectionDto.bytes).sum := by
    rw [← h.adds_bytes.total_table front]
    exact List.le_sum_of_mem (List.mem_map_of_mem he)
  rw [List.map_append, List.sum_append]
  exact hrow.trans (Nat.le_add_right _ _)

end Counts

end Rows

/-- Sorting keeps the rows and puts the busiest first. -/
theorem sortedRows {ρ : Type} (view : ρ → AggRow) (rows : List ρ) :
    (rows.insertionSort fun a b => (view b).bytes ≤ (view a).bytes).Perm rows ∧
      (rows.insertionSort fun a b => (view b).bytes ≤ (view a).bytes).Pairwise
        fun a b => (view b).bytes ≤ (view a).bytes := by
  have htotal : Std.Total fun a b : ρ => (view b).bytes ≤ (view a).bytes :=
    ⟨fun a b => Nat.le_total _ _⟩
  have htrans : IsTrans ρ fun a b => (view b).bytes ≤ (view a).bytes :=
    ⟨fun a b c hab hbc => Nat.le_trans hbc hab⟩
  exact ⟨List.perm_insertionSort _ _, List.pairwise_insertionSort _ _⟩

namespace InspectorApp

variable {F : Type} (app : InspectorApp F)

theorem processAggs_isPartition :
    IsPartition ConnectionDto.process app.values (app.processAggs.map ProcessAgg.row) :=
  have hsorted := sortedRows ProcessAgg.row ((ProcessAgg.rollup.table app.values).entries.map Prod.snd)
  ProcessAgg.counts.isPartition hsorted.1 hsorted.2

theorem domainAggs_isPartition :
    IsPartition ConnectionDto.domain app.values (app.domainAggs.map DomainAgg.row) :=
  have hsorted := sortedRows DomainAgg.row ((DomainAgg.rollup.table app.values).entries.map Prod.snd)
  DomainAgg.counts.isPartition hsorted.1 hsorted.2

/-- Both rollups are partitions of the live connections, and no sum of theirs overflows, neither
while the connections are counted nor when the rows are compared. -/
theorem rollups_partition (hbytes : (app.values.map ConnectionDto.bytes).sum < 2 ^ 64) :
    IsPartition ConnectionDto.process app.values (app.processAggs.map ProcessAgg.row) ∧
      IsPartition ConnectionDto.domain app.values (app.domainAggs.map DomainAgg.row) ∧
      app.liveCount = app.values.length ∧
      ∀ front, front <+: app.values →
        (∀ e ∈ (ProcessAgg.rollup.table front).entries, e.2.row.bytes < 2 ^ 64) ∧
        ∀ e ∈ (DomainAgg.rollup.table front).entries, e.2.row.bytes < 2 ^ 64 := by
  refine ⟨app.processAggs_isPartition, app.domainAggs_isPartition, ?_, ?_⟩
  · exact (List.length_map _).symm
  · intro front hfront
    constructor
    · intro e he
      exact lt_of_le_of_lt (ProcessAgg.counts.bytes_le hfront he) hbytes
    · intro e he
      exact lt_of_le_of_lt (DomainAgg.counts.bytes_le hfront he) hbytes

/-- Three connections of two processes to two domains. -/
def sampleApp : InspectorApp ℚ :=
  new.setSnapshot
    [⟨1, "curl", some 1, "a.example.com", "1.2.3.4", 443, 5000, 6, none, none, none, 100, 7, 0, 1, true⟩,
      ⟨2, "ssh", some 2, "github.com", "1.2.3.5", 22, 5001, 6, none, none, none, 20, 300, 0, 2, true⟩,
      ⟨3, "curl", some 3, "b.example.com", "1.2.3.6", 443, 5002, 6, none, none, none, 50, 0, 0, 3, true⟩]

theorem rollups_partition_sample :
    IsPartition ConnectionDto.process sampleApp.values
      [⟨"ssh", 1, 20, 300⟩, ⟨"curl", 2, 150, 7⟩] := by
  have hrows : sampleApp.processAggs.map ProcessAgg.row =
      [⟨"ssh", 1, 20, 300⟩, ⟨"curl", 2, 150, 7⟩] := by decide
  exact hrows ▸ (sampleApp.rollups_partition (by decide)).1

end InspectorApp

end Pktscope

import Pktscope.Decode.Http2
import Pktscope.Library.Dictionary

/-! # The table of a decompressor

The dynamic table is a bounded dictionary of headers: an entry that comes in and a new
limit both keep the newest entries that fit. Between any two fields of any blocks the
table is the newest part of what was ever put into it.
-/

namespace Pktscope

open Library Parse Dictionary

namespace Hpack

/-- A decompressor with some entries, the newest first. -/
def holding (maxSize : ℕ) (entries : List Header) : Hpack := ⟨entries, maxSize, tableSize entries⟩

variable {maxSize sz bound : ℕ} {entries : List Header} {header : Header} {h : Hpack}

theorem tableSize_eq_total : tableSize entries = total Header.cost entries := rfl

theorem Sized.eq_holding (hh : h.Sized bound) : h = holding h.maxSize h.dynamic := by
  rw [holding, ← hh.size]

theorem evictFrom_eq (maxSize : ℕ) (l : List Header) :
    evictFrom maxSize l (tableSize l) = ok ((fitting Header.cost maxSize l.reverse).reverse,
      tableSize (fitting Header.cost maxSize l.reverse)) := by
  induction l with
  | nil => rfl
  | cons oldest newer ih =>
    have hsum : tableSize (oldest :: newer) = oldest.cost + tableSize newer := List.sum_cons
    have hall : total Header.cost (newer.reverse ++ [oldest]) = tableSize (oldest :: newer) := by
      rw [← List.reverse_cons]
      exact total_reverse
    unfold evictFrom
    by_cases hlarge : maxSize < tableSize (oldest :: newer)
    · rw [if_pos hlarge, subUsize, if_pos (by omega), ok_bind, hsum, Nat.add_sub_cancel_left, ih,
        List.reverse_cons, fitting_concat (hall ▸ hlarge)]
    · rw [if_neg hlarge, List.reverse_cons, fitting_eq_self (hall ▸ not_lt.mp hlarge)]
      change tableSize (newer.reverse ++ [oldest]) = tableSize (oldest :: newer) at hall
      rw [List.reverse_append, List.reverse_reverse, hall]
      rfl

theorem evict_holding (maxSize sz : ℕ) (entries : List Header) :
    evict { holding maxSize entries with maxSize := sz } =
      ok (holding sz (fitting Header.cost sz entries)) := by
  unfold evict
  change (evictFrom sz entries.reverse (tableSize entries) >>= fun _ => _) = _
  rw [← tableSize_reverse, evictFrom_eq, ok_bind, List.reverse_reverse]
  dsimp only
  rw [List.reverse_reverse]
  rfl

theorem insert_holding (hfit : tableSize entries + header.cost < 2 ^ 64) :
    (holding maxSize entries).insert header =
      ok (holding maxSize (add Header.cost maxSize header entries)) := by
  have hcost : header.cost = header.1.utf8ByteSize + header.2.utf8ByteSize + 32 := rfl
  unfold insert
  rw [addUsize, if_pos (by omega), ok_bind, addUsize, if_pos (by omega), ok_bind, ← hcost]
  change (addUsize (tableSize entries) header.cost >>= _) = _
  rw [addUsize, if_pos hfit, ok_bind, add_eq_fitting, ← evict_holding maxSize]
  have hsum : tableSize (header :: entries) = header.cost + tableSize entries := List.sum_cons
  rw [Nat.add_comm, ← hsum]
  rfl

/-- The literal with incremental indexing that is decoded at a place of a block, if there is one. -/
def learned (block : List UInt8) (h : Hpack) (i : ℕ) : List Header :=
  if peek block i &&& 0x80 = 0 ∧ peek block i &&& 0x40 ≠ 0 then
    match h.literal block i 6 with
    | ok (header, _) => [header]
    | _ => []
  else []

theorem learned_eq_nil {block : List UInt8} {i : ℕ}
    (hbits : peek block i &&& 0x80 = 0 → peek block i &&& 0x40 = 0) : learned block h i = [] :=
  if_neg fun hlit => hlit.2 (hbits hlit.1)

theorem learned_literal {block : List UInt8} {i ni : ℕ} (hindex : peek block i &&& 0x80 = 0)
    (hliteral : peek block i &&& 0x40 ≠ 0) (hl : h.literal block i 6 = ok (header, ni)) :
    learned block h i = [header] := by
  rw [learned, if_pos ⟨hindex, hliteral⟩, hl]

section Field

variable {block : List UInt8} (hs : block.length < maxBytes)
  (hblock : 4 * min block.length (2 ^ 43) + 64 ≤ bound) (hbound : bound < 2 ^ 60) (hh : h.Sized bound)
include hs hblock hbound hh

/-- After a field the table is the newest part of what it was with the literal on top. -/
theorem holds_field_dynamic {i : ℕ} (hi : i < block.length) (headers : List Header) :
    Holds (field block h i headers) fun r => r.1.dynamic <+: learned block h i ++ h.dynamic := by
  have hlimit := hh.limit
  have hcap := hh.cap
  unfold field
  rw [index_eq_peek hi, ok_bind]
  refine holds_ite (fun hbit => ?_) fun hplain => ?_
  · rw [learned_eq_nil fun hzero => absurd hzero (bne_iff_ne.mp hbit)]
    refine (holds_decodeInt hs (Nat.le_refl 7)).bind fun r _ => holds_ite (fun _ => trivial) fun _ => ?_
    refine (holds_indexed (by omega) hh _).attempt.bind fun o _ => ?_
    cases o with
    | none => exact List.prefix_refl _
    | some e => exact List.prefix_refl _
  have hindex : peek block i &&& 0x80 = 0 := by simpa using hplain
  refine holds_ite (fun hbit => ?_) fun hother => ?_
  · have hliteral : Holds (h.literal block i 6) _ := holds_literal hs hblock hh (by decide)
    cases hl : h.literal block i 6 with
    | ok r =>
      rw [hl] at hliteral
      obtain ⟨⟨hname, hvalue⟩, -⟩ := hliteral
      have hcost : r.1.cost = r.1.1.utf8ByteSize + r.1.2.utf8ByteSize + 32 := rfl
      have hsize := hh.size
      rw [ok_bind, learned_literal hindex (bne_iff_ne.mp hbit) hl]
      dsimp only
      rw [hh.eq_holding, insert_holding (by omega), ok_bind, add_eq_fitting]
      exact fitting_head h.maxSize (r.1 :: h.dynamic)
    | refuse => trivial
    | fault e =>
      rw [hl] at hliteral
      exact hliteral
  · rw [learned_eq_nil fun _ => by simpa using hother]
    refine holds_ite (fun _ => ?_) fun _ => ?_
    · refine (holds_decodeInt hs (by decide)).bind fun r _ => ?_
      dsimp only
      rw [hh.eq_holding, evict_holding, ok_bind]
      exact fitting_head r.1 h.dynamic
    · exact (holds_literal hs hblock hh (by decide)).bind fun r _ => List.prefix_refl _

end Field

/-- No field is left to decode: the block is at its end, or is refused there. -/
def Ended (block : List UInt8) (p : Progress) : Prop :=
  block.length ≤ p.2.1 ∨ field block p.1 p.2.1 p.2.2 = refuse

/-- A decompressor between two fields: the blocks it was given, the literals with incremental
indexing it has decoded, the newest first, the block it reads, and where it stands. -/
inductive Midway : List (List UInt8) → List Header → List UInt8 → Progress → Prop
  | new : Midway [] [] [] (Hpack.new, 0, [])
  | block {blocks : List (List UInt8)} {history : List Header} {last : List UInt8} {p : Progress}
      (block : List UInt8) : Midway blocks history last p → Ended last p →
      Midway (blocks ++ [block]) history block (p.1, 0, [])
  | field {blocks : List (List UInt8)} {history : List Header} {block : List UInt8}
      {p next : Progress} : Midway blocks history block p → p.2.1 < block.length →
      field block p.1 p.2.1 p.2.2 = ok next →
      Midway blocks (learned block p.1 p.2.1 ++ history) block next

variable {blocks : List (List UInt8)} {history : List Header} {block : List UInt8} {p : Progress}

/-- A bound on the strings of a field, whatever the block. -/
def textBound : ℕ := 4 * 2 ^ 43 + 64

theorem Midway.mem_or_nil (hm : Midway blocks history block p) : block = [] ∨ block ∈ blocks := by
  induction hm with
  | new => exact Or.inl rfl
  | block block _ _ _ => exact Or.inr (List.mem_append_right _ (List.mem_singleton_self block))
  | field _ _ _ ih => exact ih

theorem Midway.length_lt (hm : Midway blocks history block p)
    (hs : ∀ b ∈ blocks, b.length < maxBytes) : block.length < maxBytes := by
  rcases hm.mem_or_nil with rfl | hmem
  · decide
  · exact hs block hmem

theorem Midway.sized (hm : Midway blocks history block p)
    (hs : ∀ b ∈ blocks, b.length < maxBytes) :
    p.1.Sized textBound ∧ p.1.dynamic <+: history := by
  induction hm with
  | new => exact ⟨sized_new _, List.prefix_refl _⟩
  | block block _ _ ih => exact ih fun b hb => hs b (List.mem_append_left _ hb)
  | @field blocks history block p next hm hi hf ih =>
    obtain ⟨hh, hprefix⟩ := ih hs
    have hblock := hm.length_lt hs
    have hbound : 4 * min block.length (2 ^ 43) + 64 ≤ textBound := by
      unfold textBound
      omega
    have hsized := holds_field hblock hbound (by decide) hh hi p.2.2
    have hdynamic := holds_field_dynamic hblock hbound (by decide) hh hi p.2.2
    rw [hf] at hsized hdynamic
    exact ⟨hsized.1, hdynamic.trans ((List.prefix_append_right_inj _).mpr hprefix)⟩

theorem Midway.holds_field (hm : Midway blocks history block p)
    (hs : ∀ b ∈ blocks, b.length < maxBytes) (hi : p.2.1 < block.length) :
    Holds (Hpack.field block p.1 p.2.1 p.2.2) fun r => p.2.1 < r.2.1 ∧ r.2.1 ≤ block.length := by
  have hbound : 4 * min block.length (2 ^ 43) + 64 ≤ textBound := by
    unfold textBound
    omega
  have hh := (hm.sized hs).1
  exact (Hpack.holds_field (hm.length_lt hs) hbound (by decide) hh hi p.2.2).mono fun r hr => hr.2

theorem Midway.returns_fieldLoop (hm : Midway blocks history block p)
    (hs : ∀ b ∈ blocks, b.length < maxBytes) {rounds : ℕ} (hpos : 0 < rounds)
    (hr : block.length < p.2.1 + rounds) :
    Returns (fieldLoop block rounds p) fun r =>
      ∃ history i, Midway blocks history block (r.1, i, r.2) ∧ Ended block (r.1, i, r.2) := by
  induction rounds generalizing history p with
  | zero => exact absurd hpos (Nat.lt_irrefl 0)
  | succ rounds ih =>
    obtain ⟨h, i, headers⟩ := p
    unfold fieldLoop
    apply returns_ite
    · intro hi
      have hstep := hm.holds_field hs hi
      dsimp only at hstep
      cases hf : Hpack.field block h i headers with
      | ok next =>
        rw [hf] at hstep
        obtain ⟨hlt, hle⟩ := hstep
        dsimp only at hr hlt
        exact ih (hm.field hi hf) (by omega) (by omega)
      | refuse => exact returns_ok ⟨history, i, hm, Or.inr hf⟩
      | fault f =>
        rw [hf] at hstep
        exact hstep.elim
    · intro hi
      exact returns_ok ⟨history, i, hm, Or.inl (not_lt.mp hi)⟩

/-- One decompressor on some blocks in order: the headers of each block, and the decompressor after
it. -/
def decodeEach : Hpack → List (List UInt8) → Parse (List (List Header × Hpack))
  | _, [] => return []
  | h, block :: rest => do
    let (h, headers) ← h.decode block
    let outcomes ← decodeEach h rest
    return (headers, h) :: outcomes

theorem Midway.returns_decodeEach (hm : Midway blocks history block p) (hend : Ended block p)
    (rest : List (List UInt8)) (hs : ∀ b ∈ blocks ++ rest, b.length < maxBytes) :
    Returns (decodeEach p.1 rest) fun outcomes => outcomes.length = rest.length ∧
      ∀ k o, outcomes[k]? = some o → ∃ history block i, rest[k]? = some block ∧
        Midway (blocks ++ rest.take (k + 1)) history block (o.2, i, o.1) ∧
        Ended block (o.2, i, o.1) := by
  induction rest generalizing blocks history block p with
  | nil => exact returns_ok ⟨rfl, fun k o ho => nomatch ho⟩
  | cons next rest ih =>
    rw [← List.singleton_append, ← List.append_assoc] at hs
    have hbegin := hm.block next hend
    have hloop := hbegin.returns_fieldLoop (fun b hb => hs b (List.mem_append_left _ hb))
      (Nat.succ_pos _) (Nat.lt_add_left 0 (Nat.lt_succ_self next.length))
    apply hloop.bind
    rintro ⟨h, headers⟩ ⟨history', i, hm', hend'⟩
    apply (ih hm' hend' hs).bind
    rintro outcomes ⟨hlength, houtcomes⟩
    apply returns_ok
    refine ⟨congrArg (· + 1) hlength, ?_⟩
    rintro (_ | k) o ho
    · cases ho
      exact ⟨history', next, i, rfl, hm', hend'⟩
    · obtain ⟨history'', block', i', hblock, hm'', hend''⟩ := houtcomes k o ho
      rw [List.append_assoc] at hm''
      exact ⟨history'', block', i', hblock, hm'', hend''⟩

/-- A decompressor gets through all its blocks. Between any two fields its counter is the size of
the table and within the limit, the table is the newest part of the literals so far, and the next
field takes nothing below zero. -/
theorem midway_table (blocks : List (List UInt8)) (hs : ∀ b ∈ blocks, b.length < maxBytes) :
    (Returns (decodeEach .new blocks) fun outcomes => outcomes.length = blocks.length ∧
      ∀ k o, outcomes[k]? = some o → ∃ history block i, blocks[k]? = some block ∧
        Midway (blocks.take (k + 1)) history block (o.2, i, o.1) ∧ Ended block (o.2, i, o.1)) ∧
    ∀ history block p, Midway blocks history block p →
      p.1.size = tableSize p.1.dynamic ∧ p.1.size ≤ p.1.maxSize ∧ p.1.dynamic <+: history ∧
        (p.2.1 < block.length → ∀ f, field block p.1 p.2.1 p.2.2 ≠ fault f) := by
  constructor
  · exact Midway.new.returns_decodeEach (Or.inl (Nat.le_refl 0)) blocks hs
  · intro history block p hm
    obtain ⟨hh, hprefix⟩ := hm.sized hs
    exact ⟨hh.size, hh.cap, hprefix, fun hi f => (hm.holds_field hs hi).not_fault f⟩

/-- A literal with indexing, and then a reference to it. -/
def literalBlocks : List (List UInt8) := [[0x40, 1, 120, 1, 121], [0xbe]]

theorem midway_table_literal :
    (Returns (decodeEach .new literalBlocks) fun outcomes => outcomes.length = 2 ∧
      ∀ k o, outcomes[k]? = some o → ∃ history block i, literalBlocks[k]? = some block ∧
        Midway (literalBlocks.take (k + 1)) history block (o.2, i, o.1) ∧ Ended block (o.2, i, o.1)) ∧
    ∀ history block p, Midway literalBlocks history block p → p.1.dynamic <+: history := by
  obtain ⟨hblocks, hmidway⟩ := midway_table literalBlocks (by decide)
  exact ⟨hblocks, fun history block p hm => (hmidway history block p hm).2.2.1⟩

end Hpack

end Pktscope

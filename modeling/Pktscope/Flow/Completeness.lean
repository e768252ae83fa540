import Mathlib.Algebra.BigOperators.Group.List.Basic
import Pktscope.Flow.Reassembly

/-! # When reassembly is complete

A stored segment is taken out only when the stream reaches its first byte
exactly. A step that makes segments overlap therefore leaves one stuck, and a
segment refused for its sequence number may be the only one with some byte.
-/

namespace Pktscope

open Library

namespace ReassemblyBuffer

/-- A segment at this sequence number is refused, because one is already stored there. -/
def refuses (b : ReassemblyBuffer) (seq : UInt32) : Bool :=
  seqLt b.nextSeq seq && (b.segments.get? seq).isSome

/-- A segment that is not refused has unseen bytes that a stored segment has too. -/
def clashes (b : ReassemblyBuffer) (seq : UInt32) (data : List UInt8) : Bool :=
  !data.isEmpty && seqLt b.nextSeq (seq + UInt32.ofNat data.length) && !b.refuses seq &&
    b.segments.entries.any fun e =>
      seqLt e.1 (seq + UInt32.ofNat data.length) &&
        seqLt (if seqLt seq b.nextSeq then b.nextSeq else seq) (e.1 + UInt32.ofNat e.2.length)

theorem refuses_of_empty {b : ReassemblyBuffer} (h : b.segments.entries = []) (seq : UInt32) :
    b.refuses seq = false := by
  rw [refuses, OrderedMap.get?, h, List.find?_nil, Option.map_none, Option.isSome_none,
    Bool.and_false]

theorem clashes_of_empty {b : ReassemblyBuffer} (h : b.segments.entries = []) (seq : UInt32)
    (data : List UInt8) : b.clashes seq data = false := by
  rw [clashes, h, List.any_nil, Bool.and_false]

end ReassemblyBuffer

namespace Reader

variable {S : List UInt8} (isn : UInt32)

/-- The step makes segments overlap. -/
def clashes (r : Reader) : ReadOp S → Bool
  | .insert c => r.buffer.clashes (c.seq isn) c.data
  | .drain => false

/-- The step brings a byte in a segment that is not refused. -/
def Keeps (r : Reader) (i : ℕ) : ReadOp S → Prop
  | .insert c => c.Covers i ∧ r.buffer.refuses (c.seq isn) = false
  | .drain => False

/-- No step of a run makes segments overlap. -/
def NeverClashes (ops : List (ReadOp S)) : Prop :=
  ∀ pre op, pre ++ [op] <+: ops → (run isn pre).clashes isn op = false

/-- Some step of a run brings a byte in a segment that is not refused. -/
def Kept (ops : List (ReadOp S)) (i : ℕ) : Prop :=
  ∃ pre op, pre ++ [op] <+: ops ∧ (run isn pre).Keeps isn i op

variable {isn} (ops : List (ReadOp S)) (op : ReadOp S)

theorem neverClashes_concat : NeverClashes isn (ops ++ [op]) ↔
    NeverClashes isn ops ∧ (run isn ops).clashes isn op = false := by
  constructor
  · intro h
    exact ⟨fun pre o hp => h pre o (hp.trans (List.prefix_append _ _)),
      h ops op (List.prefix_refl _)⟩
  · rintro ⟨h, hop⟩ pre o hp
    rcases List.prefix_concat_iff.mp hp with he | hp
    · obtain ⟨rfl, ho⟩ := List.append_inj' he rfl
      cases ho
      exact hop
    · exact h pre o hp

theorem kept_concat (i : ℕ) : Kept isn (ops ++ [op]) i ↔
    Kept isn ops i ∨ (run isn ops).Keeps isn i op := by
  constructor
  · rintro ⟨pre, o, hp, hk⟩
    rcases List.prefix_concat_iff.mp hp with he | hp
    · obtain ⟨rfl, ho⟩ := List.append_inj' he rfl
      cases ho
      exact Or.inr hk
    · exact Or.inl ⟨pre, o, hp, hk⟩
  · rintro (⟨pre, o, hp, hk⟩ | hk)
    · exact ⟨pre, o, hp.trans (List.prefix_append _ _), hk⟩
    · exact ⟨ops, op, List.prefix_refl _, hk⟩

end Reader

section Tidy

variable {S : List UInt8} {isn : UInt32} {p₀ : ℕ} {b : ReassemblyBuffer} {dr : List UInt8}

/-- No stored segment starts before the place where the buffer waits, and none overlaps another. -/
structure Tidy (isn : UInt32) (b : ReassemblyBuffer) : Prop where
  ahead : ∀ k d, b.segments.get? k = some d → b.next isn ≤ offset isn k
  apart : ∀ k d k' d', b.segments.get? k = some d → b.segments.get? k' = some d' →
    offset isn k < offset isn k' → offset isn k + d.length ≤ offset isn k'

/-- The buffer has come past a byte or has it stored. -/
def HasByte (isn : UInt32) (b : ReassemblyBuffer) (i : ℕ) : Prop :=
  i < b.next isn ∨
    ∃ k d, b.segments.get? k = some d ∧ offset isn k ≤ i ∧ i < offset isn k + d.length

theorem get?_pull {seg : List UInt8} {k : UInt32} {d : List UInt8} :
    (b.pull seg).segments.get? k = some d ↔ k ≠ b.nextSeq ∧ b.segments.get? k = some d := by
  rw [ReassemblyBuffer.pull, OrderedMap.get?_remove]
  by_cases h : k = b.nextSeq <;> simp [h]

theorem get?_store {seq : UInt32} {data : List UInt8} {k : UInt32} {d : List UInt8} :
    (b.store seq data).segments.get? k = some d ↔
      (k = seq ∧ data = d) ∨ (k ≠ seq ∧ b.segments.get? k = some d) := by
  rw [ReassemblyBuffer.store, OrderedMap.get?_insert]
  by_cases h : k = seq <;> simp [h]

section Step

variable (hS : S.length < 2 ^ 31) (h : Sound S isn p₀ ⟨b, dr⟩)
include hS h

theorem tidy_pull {seg : List UInt8} (hg : b.segments.get? b.nextSeq = some seg) :
    Tidy isn (b.pull seg) ↔ Tidy isn b := by
  have hp := h.stored _ _ hg
  have hfits : b.next isn + seg.length ≤ S.length := hp.fits
  have hnext : (b.pull seg).next isn = b.next isn + seg.length := next_pull _ _ (by omega)
  constructor
  · intro ht
    have hahead : ∀ k d, b.segments.get? k = some d → k ≠ b.nextSeq →
        b.next isn + seg.length ≤ offset isn k := fun k d hk hne =>
      hnext ▸ ht.ahead k d (get?_pull.mpr ⟨hne, hk⟩)
    constructor
    · intro k d hk
      by_cases hne : k = b.nextSeq
      · rw [hne]
        exact le_rfl
      · exact (Nat.le_add_right _ _).trans (hahead k d hk hne)
    · intro k d k' d' hk hk' hlt
      by_cases hne' : k' = b.nextSeq
      · by_cases hne : k = b.nextSeq
        · rw [hne, hne'] at hlt
          exact absurd hlt (lt_irrefl _)
        · have hle := hahead k d hk hne
          rw [hne'] at hlt
          unfold ReassemblyBuffer.next at hle
          omega
      · by_cases hne : k = b.nextSeq
        · rw [hne] at hk
          rw [Option.some.inj (hk.symm.trans hg), hne]
          exact hahead k' d' hk' hne'
        · exact ht.apart k d k' d' (get?_pull.mpr ⟨hne, hk⟩) (get?_pull.mpr ⟨hne', hk'⟩) hlt
  · intro ht
    refine ⟨fun k d hk => ?_, fun k d k' d' hk hk' =>
      ht.apart k d k' d' (get?_pull.mp hk).2 (get?_pull.mp hk').2⟩
    obtain ⟨hne, hk⟩ := get?_pull.mp hk
    rw [hnext]
    refine ht.apart _ _ _ _ hg hk ((ht.ahead k d hk).lt_of_ne fun he => hne ?_)
    exact (offset_inj.mp he).symm

theorem hasByte_pull {seg : List UInt8} (hg : b.segments.get? b.nextSeq = some seg) (i : ℕ) :
    HasByte isn (b.pull seg) i ↔ HasByte isn b i := by
  have hp := h.stored _ _ hg
  have hfits : b.next isn + seg.length ≤ S.length := hp.fits
  have hnext : (b.pull seg).next isn = b.next isn + seg.length := next_pull _ _ (by omega)
  unfold HasByte
  rw [hnext]
  constructor
  · rintro (hi | ⟨k, d, hk, hi⟩)
    · rcases Nat.lt_or_ge i (b.next isn) with hlt | hge
      · exact Or.inl hlt
      · exact Or.inr ⟨_, _, hg, hge, hi⟩
    · exact Or.inr ⟨k, d, (get?_pull.mp hk).2, hi⟩
  · rintro (hi | ⟨k, d, hk, hi⟩)
    · exact Or.inl (hi.trans_le (Nat.le_add_right _ _))
    · by_cases hne : k = b.nextSeq
      · rw [hne] at hk hi
        rw [Option.some.inj (hk.symm.trans hg)] at hi
        exact Or.inl hi.2
      · exact Or.inr ⟨k, d, get?_pull.mpr ⟨hne, hk⟩, hi⟩

theorem pullAll_iff (n : ℕ) :
    (Tidy isn (.pullAll n b) ↔ Tidy isn b) ∧
      ∀ i, HasByte isn (.pullAll n b) i ↔ HasByte isn b i := by
  have hall := ReassemblyBuffer.pullAll_induction
    (P := fun b' => Sound S isn p₀ ⟨b', dr⟩ ∧ (Tidy isn b' ↔ Tidy isn b) ∧
      ∀ i, HasByte isn b' i ↔ HasByte isn b i)
    (fun b' seg hg hb => ⟨hb.1.pull hS hg, (tidy_pull hS hb.1 hg).trans hb.2.1,
      fun i => (hasByte_pull hS hb.1 hg i).trans (hb.2.2 i)⟩)
    n b ⟨h, Iff.rfl, fun _ => Iff.rfl⟩
  exact hall.2

omit h in
theorem tidy_append {e : ℕ} (hlt : b.next isn < e) (he : e ≤ S.length) :
    Tidy isn (b.append (slice S (b.next isn) e)) ↔
      Tidy isn b ∧ ∀ k d, b.segments.get? k = some d → e ≤ offset isn k := by
  have hnext := next_append_slice hS hlt.le he
  constructor
  · intro ht
    have hahead : ∀ k d, b.segments.get? k = some d → e ≤ offset isn k := fun k d hk =>
      hnext.ge.trans (ht.ahead k d hk)
    exact ⟨⟨fun k d hk => hlt.le.trans (hahead k d hk), ht.apart⟩, hahead⟩
  · rintro ⟨ht, hahead⟩
    exact ⟨fun k d hk => hnext.trans_le (hahead k d hk), ht.apart⟩

theorem tidy_store (c : Cut S) (hlt : b.next isn < c.pos)
    (hnew : b.segments.get? (c.seq isn) = none) :
    Tidy isn (b.store (c.seq isn) c.data) ↔
      Tidy isn b ∧ ∀ k d, b.segments.get? k = some d →
        c.stop ≤ offset isn k ∨ offset isn k + d.length ≤ c.pos := by
  have hpos := c.offset_seq isn hS
  have hlen : c.pos + c.data.length = c.stop := by rw [c.length_data]; rfl
  have hne : ∀ k d, b.segments.get? k = some d → k ≠ c.seq isn := by
    rintro k d hk rfl
    rw [hnew] at hk
    cases hk
  have hself : (b.store (c.seq isn) c.data).segments.get? (c.seq isn) = some c.data :=
    get?_store.mpr (Or.inl ⟨rfl, rfl⟩)
  have hold : ∀ k d, b.segments.get? k = some d →
      (b.store (c.seq isn) c.data).segments.get? k = some d := fun k d hk =>
    get?_store.mpr (Or.inr ⟨hne k d hk, hk⟩)
  constructor
  · intro ht
    refine ⟨⟨fun k d hk => ht.ahead k d (hold k d hk), fun k d k' d' hk hk' =>
      ht.apart k d k' d' (hold k d hk) (hold k' d' hk')⟩, fun k d hk => ?_⟩
    rcases Nat.lt_trichotomy (offset isn k) c.pos with hlt | he | hgt
    · refine Or.inr ?_
      have hapart := ht.apart _ _ _ _ (hold k d hk) hself (hpos.symm ▸ hlt)
      rwa [hpos] at hapart
    · exact absurd (offset_inj.mp (he.trans hpos.symm)) (hne k d hk)
    · refine Or.inl ?_
      have hapart := ht.apart _ _ _ _ hself (hold k d hk) (hpos.symm ▸ hgt)
      rwa [hpos, hlen] at hapart
  · rintro ⟨ht, hfar⟩
    constructor
    · intro k d hk
      rcases get?_store.mp hk with ⟨rfl, -⟩ | ⟨-, hk⟩
      · exact hlt.le.trans hpos.ge
      · exact ht.ahead k d hk
    · intro k d k' d' hk hk' hkk
      rcases get?_store.mp hk with ⟨rfl, rfl⟩ | ⟨-, hk⟩
      · rcases get?_store.mp hk' with ⟨rfl, -⟩ | ⟨-, hk'⟩
        · exact absurd hkk (lt_irrefl _)
        · rcases hfar k' d' hk' with hle | hle
          · rwa [hpos, hlen]
          · rw [hpos] at hkk
            omega
      · rcases get?_store.mp hk' with ⟨rfl, -⟩ | ⟨-, hk'⟩
        · have hp := (h.stored k d hk).pos
          rw [hpos] at hkk ⊢
          unfold Cut.stop at hfar
          rcases hfar k d hk with hle | hle
          · omega
          · exact hle
        · exact ht.apart k d k' d' hk hk' hkk

omit h in
theorem hasByte_append (c : Cut S) (hle : c.pos ≤ b.next isn) (hlt : b.next isn < c.stop) (i : ℕ) :
    HasByte isn (b.append (slice S (b.next isn) c.stop)) i ↔ HasByte isn b i ∨ c.Covers i := by
  have hnext := next_append_slice hS hlt.le c.fits
  unfold HasByte
  rw [hnext, or_right_comm]
  refine or_congr_left ⟨fun hi => ?_, fun hi => ?_⟩
  · rcases Nat.lt_or_ge i (b.next isn) with hlt | hge
    · exact Or.inl hlt
    · exact Or.inr ⟨hle.trans hge, hi⟩
  · rcases hi with hi | hi
    · exact hi.trans hlt
    · exact hi.2

omit h in
theorem hasByte_store (c : Cut S) (hnew : b.segments.get? (c.seq isn) = none) (i : ℕ) :
    HasByte isn (b.store (c.seq isn) c.data) i ↔ HasByte isn b i ∨ c.Covers i := by
  have hpos := c.offset_seq isn hS
  have hlen : c.pos + c.data.length = c.stop := by rw [c.length_data]; rfl
  constructor
  · rintro (hi | ⟨k, d, hk, hi⟩)
    · exact Or.inl (Or.inl hi)
    · rcases get?_store.mp hk with ⟨rfl, rfl⟩ | ⟨-, hk⟩
      · rw [hpos, hlen] at hi
        exact Or.inr hi
      · exact Or.inl (Or.inr ⟨k, d, hk, hi⟩)
  · rintro ((hi | ⟨k, d, hk, hi⟩) | hi)
    · exact Or.inl hi
    · refine Or.inr ⟨k, d, get?_store.mpr (Or.inr ⟨?_, hk⟩), hi⟩
      rintro rfl
      rw [hnew] at hk
      cases hk
    · refine Or.inr ⟨_, _, get?_store.mpr (Or.inl ⟨rfl, rfl⟩), ?_⟩
      rw [hpos, hlen]
      exact hi

theorem refuses_iff (c : Cut S) : b.refuses (c.seq isn) = true ↔
    b.next isn < c.pos ∧ (b.segments.get? (c.seq isn)).isSome = true := by
  have hpos := c.offset_seq isn hS
  have hlt := seqLt_iff isn hS h.fits
    (hpos.trans_le ((Nat.le_add_right _ _).trans c.fits))
  rw [hpos] at hlt
  rw [ReassemblyBuffer.refuses, Bool.and_eq_true, hlt]
  rfl

theorem clashes_iff (c : Cut S) (hc : 0 < c.len) : b.clashes (c.seq isn) c.data = true ↔
    b.next isn < c.stop ∧ b.refuses (c.seq isn) = false ∧ ∃ k d, b.segments.get? k = some d ∧
      offset isn k < c.stop ∧ max c.pos (b.next isn) < offset isn k + d.length := by
  have hpos := c.offset_seq isn hS
  have hend := c.offset_end isn hS
  have hfits : c.stop ≤ S.length := c.fits
  have hposle : c.pos ≤ S.length := (Nat.le_add_right _ _).trans hfits
  have hnext : offset isn b.nextSeq = b.next isn := rfl
  have hne : c.data.isEmpty = false := by
    rw [List.isEmpty_eq_false_iff, ← List.length_pos_iff, c.length_data]
    exact hc
  have hseen := seqLt_iff isn hS h.fits (hend.trans_le hfits)
  have hfront := seqLt_iff isn hS (hpos.trans_le hposle) h.fits
  rw [hend] at hseen
  rw [hpos] at hfront
  have hstart : offset isn (if seqLt (c.seq isn) b.nextSeq then b.nextSeq else c.seq isn) =
      max c.pos (b.next isn) := by
    by_cases hlt : c.pos < b.next isn
    · rw [if_pos (hfront.mpr hlt), max_eq_right hlt.le]
      rfl
    · rw [if_neg (hfront.not.mpr hlt), max_eq_left (not_lt.mp hlt), hpos]
  have hmeets : ∀ k d, b.segments.get? k = some d →
      (seqLt k (c.seq isn + UInt32.ofNat c.data.length) = true ↔ offset isn k < c.stop) ∧
      (seqLt (if seqLt (c.seq isn) b.nextSeq then b.nextSeq else c.seq isn)
        (k + UInt32.ofNat d.length) = true ↔
          max c.pos (b.next isn) < offset isn k + d.length) := by
    intro k d hk
    have hp := h.stored k d hk
    have hd : offset isn (k + UInt32.ofNat d.length) = offset isn k + d.length :=
      offset_add (by have := hp.fits; omega)
    constructor
    · rw [seqLt_iff isn hS ((Nat.le_add_right _ _).trans hp.fits) (hend.trans_le hfits),
        hend]
    · rw [seqLt_iff isn hS (hstart.trans_le (max_le hposle h.fits))
        (hd.trans_le hp.fits), hstart, hd]
  unfold ReassemblyBuffer.clashes
  rw [hne, Bool.not_false, Bool.true_and, Bool.and_eq_true, Bool.and_eq_true, hseen,
    Bool.not_eq_true', List.any_eq_true, and_assoc]
  refine and_congr_right fun _ => and_congr_right fun _ => ⟨?_, ?_⟩
  · rintro ⟨⟨k, d⟩, hk, hm⟩
    have hk := OrderedMap.get?_of_mem hk
    rw [Bool.and_eq_true, (hmeets k d hk).1, (hmeets k d hk).2] at hm
    exact ⟨k, d, hk, hm⟩
  · rintro ⟨k, d, hk, hm⟩
    refine ⟨(k, d), OrderedMap.mem_of_get? hk, ?_⟩
    rw [Bool.and_eq_true, (hmeets k d hk).1, (hmeets k d hk).2]
    exact hm

end Step

namespace Reader

variable {r : Reader}

section Run

variable (hS : S.length < 2 ^ 31) (h : Sound S isn p₀ r)
include hS h

/-- A step without the cap keeps the store tidy exactly when it does not clash. -/
theorem tidy_apply (op : ReadOp S) (hcap : (r.apply isn op).buffer.capped = false) :
    Tidy isn (r.apply isn op).buffer ↔ Tidy isn r.buffer ∧ r.clashes isn op = false := by
  cases op with
  | drain =>
    rw [apply_drain]
    exact ⟨fun ht => ⟨⟨ht.ahead, ht.apart⟩, rfl⟩, fun ht => ⟨ht.1.ahead, ht.1.apart⟩⟩
  | insert c =>
    rw [apply_insert] at hcap ⊢
    rw [clashes]
    rcases Nat.eq_zero_or_pos c.len with hc | hc
    · have hnil : c.data = [] := List.eq_nil_of_length_eq_zero (c.length_data.trans hc)
      rw [insertSegment_empty _ hc, hnil]
      exact (and_iff_left rfl).symm
    have hclash := clashes_iff hS h c hc
    have hrefuse := refuses_iff hS h c
    have hout := outcome hS h.anchored c h.fits hc
    generalize (r.buffer.insertSegment (c.seq isn) c.data).1 = b at hout hcap ⊢
    rw [← Bool.not_eq_true, hclash]
    cases hout with
    | seen hle => exact (and_iff_left fun hk => absurd hk.1 (not_lt.mpr hle)).symm
    | full _ _ => cases hcap
    | joined hle hlt _ =>
      rw [(pullAll_iff hS (h.append hS hlt.le c.fits) _).1, tidy_append hS hlt c.fits]
      refine and_congr_right fun ht => ⟨?_, fun hno k d hk => ?_⟩
      · rintro hahead ⟨-, -, k, d, hk, hlt, -⟩
        exact absurd (hahead k d hk) (not_le.mpr hlt)
      · by_contra hgt
        refine hno ⟨hlt, ?_, k, d, hk, not_le.mp hgt, ?_⟩
        · rw [← Bool.not_eq_true, hrefuse]
          exact fun hr => absurd hr.1 (not_lt.mpr hle)
        · rw [max_eq_right hle]
          exact (ht.ahead k d hk).trans_lt (Nat.lt_add_of_pos_right (h.stored k d hk).pos)
    | refused hlt _ hheld =>
      have hr := hrefuse.mpr ⟨hlt, hheld⟩
      exact (and_iff_left fun hk => by rw [hr] at hk; exact absurd hk.2.1 Bool.noConfusion).symm
    | held hlt _ hnew =>
      rw [tidy_store hS h c hlt hnew]
      refine and_congr_right fun ht => ⟨?_, fun hno k d hk => ?_⟩
      · rintro hfar ⟨-, -, k, d, hk, hk₁, hk₂⟩
        rw [max_eq_left hlt.le] at hk₂
        rcases hfar k d hk with hle | hle
        · exact absurd hk₁ (not_lt.mpr hle)
        · exact absurd hk₂ (not_lt.mpr hle)
      · by_contra hfar
        rw [not_or, not_le, not_le] at hfar
        refine hno ⟨hlt.trans_le (Nat.le_add_right _ _), ?_, k, d, hk, hfar.1, ?_⟩
        · rw [← Bool.not_eq_true, hrefuse, hnew]
          exact fun hr => Bool.noConfusion hr.2
        · rw [max_eq_left hlt.le]
          exact hfar.2

theorem hasByte_apply (op : ReadOp S) (hcap : (r.apply isn op).buffer.capped = false) (i : ℕ) :
    HasByte isn (r.apply isn op).buffer i ↔ HasByte isn r.buffer i ∨ r.Keeps isn i op := by
  cases op with
  | drain =>
    rw [apply_drain]
    exact (or_iff_left id).symm
  | insert c =>
    rw [apply_insert] at hcap ⊢
    rw [Keeps]
    rcases Nat.eq_zero_or_pos c.len with hc | hc
    · rw [insertSegment_empty _ hc]
      refine (or_iff_left fun hk => ?_).symm
      have hlt := hk.1
      unfold Cut.Covers Cut.stop at hlt
      omega
    have hrefuse := refuses_iff hS h c
    have hout := outcome hS h.anchored c h.fits hc
    generalize (r.buffer.insertSegment (c.seq isn) c.data).1 = b at hout hcap ⊢
    have hkept : (¬ r.buffer.next isn < c.pos ∨ (r.buffer.segments.get? (c.seq isn)) = none) →
        (c.Covers i ∧ r.buffer.refuses (c.seq isn) = false ↔ c.Covers i) := by
      intro hno
      refine and_iff_left ?_
      rw [← Bool.not_eq_true, hrefuse]
      rintro ⟨hlt, hheld⟩
      rcases hno with hno | hno
      · exact hno hlt
      · rw [hno] at hheld
        exact Bool.noConfusion hheld
    cases hout with
    | seen hle => exact (or_iff_left_of_imp fun hk => Or.inl (hk.1.2.trans_le hle)).symm
    | full _ _ => cases hcap
    | joined hle hlt _ =>
      rw [(pullAll_iff hS (h.append hS hlt.le c.fits) _).2, hasByte_append hS c hle hlt,
        hkept (Or.inl (not_lt.mpr hle))]
    | refused hlt _ hheld =>
      have hr := hrefuse.mpr ⟨hlt, hheld⟩
      exact (or_iff_left fun hk => by rw [hr] at hk; exact absurd hk.2 Bool.noConfusion).symm
    | held hlt _ hnew => rw [hasByte_store hS c hnew, hkept (Or.inr hnew)]

theorem exited_apply (op : ReadOp S)
    (hexit : r.buffer.segments.get? r.buffer.nextSeq = none) :
    (r.apply isn op).buffer.segments.get? (r.apply isn op).buffer.nextSeq = none := by
  cases op with
  | drain =>
    rw [apply_drain]
    exact hexit
  | insert c =>
    rw [apply_insert]
    rcases Nat.eq_zero_or_pos c.len with hc | hc
    · rwa [insertSegment_empty _ hc]
    have hout := outcome hS h.anchored c h.fits hc
    generalize (r.buffer.insertSegment (c.seq isn) c.data).1 = b at hout ⊢
    cases hout with
    | seen _ => exact hexit
    | full _ _ => exact hexit
    | joined _ _ _ => exact ReassemblyBuffer.get?_pullAll _ _ le_rfl
    | refused _ _ _ => exact hexit
    | held hlt _ _ =>
      have hne : r.buffer.nextSeq ≠ c.seq isn := fun he => by
        have hpos := c.offset_seq isn hS
        rw [← he] at hpos
        exact hlt.ne hpos
      change (r.buffer.segments.insert _ _).get? r.buffer.nextSeq = none
      rw [OrderedMap.get?_insert, if_neg hne]
      exact hexit

end Run

theorem capped_insertSegment (b : ReassemblyBuffer) (seq : UInt32) (data : List UInt8)
    (h : b.capped = true) : (b.insertSegment seq data).1.capped = true := by
  have hanchor : (b.anchor seq).capped = true := by
    unfold ReassemblyBuffer.anchor
    split <;> exact h
  have hplace (s : UInt32) (l : List UInt8) : ((b.anchor seq).place s l).1.capped = true := by
    rw [ReassemblyBuffer.place, if_pos hanchor]
    exact hanchor
  unfold ReassemblyBuffer.insertSegment
  simp only
  split_ifs
  · exact h
  · exact hanchor
  · exact hanchor
  · exact hplace _ _
  · exact hplace _ _

theorem capped_apply (op : ReadOp S) (h : (r.apply isn op).buffer.capped = false) :
    r.buffer.capped = false := by
  rw [← Bool.not_eq_true] at h ⊢
  refine fun hr => h ?_
  cases op with
  | drain =>
    rw [apply_drain]
    exact hr
  | insert c => exact capped_insertSegment _ _ _ hr

theorem state_run (hS : S.length < 2 ^ 31) (ops : List (ReadOp S))
    (hcap : (run isn ops).buffer.capped = false) :
    (firstPos ops).elim (NeverClashes isn ops ∧ ∀ i, ¬Kept isn ops i) fun p₀ =>
      (run isn ops).buffer.segments.get? (run isn ops).buffer.nextSeq = none ∧
      (Tidy isn (run isn ops).buffer ↔ NeverClashes isn ops) ∧
      (p₀ = 0 → ∀ i, HasByte isn (run isn ops).buffer i ↔ Kept isn ops i) := by
  induction ops using List.reverseRecOn with
  | nil =>
    refine ⟨fun pre op hp => by simp at hp, ?_⟩
    rintro i ⟨pre, op, hp, -⟩
    simp at hp
  | append_singleton ops op ih =>
    have hrun := sound_run hS isn ops
    rw [run_concat] at hcap ⊢
    have ih := ih (capped_apply op hcap)
    simp only [firstPos_concat, neverClashes_concat, kept_concat]
    cases hf : firstPos ops with
    | some p₀ =>
      rw [hf] at ih hrun
      obtain ⟨hexit, htidy, hreach⟩ := ih
      refine ⟨exited_apply hS hrun op hexit, ?_, fun hp i => ?_⟩
      · rw [tidy_apply hS hrun op hcap, htidy]
      · rw [hasByte_apply hS hrun op hcap, hreach hp]
    | none =>
      rw [hf, Option.elim_none] at ih hrun
      obtain ⟨hno, hnone⟩ := ih
      rw [show run isn ops = new from hrun] at hcap ⊢
      rw [Option.none_or]
      have hclash : new.clashes isn op = false := by
        cases op with
        | drain => rfl
        | insert c => exact ReassemblyBuffer.clashes_of_empty rfl _ _
      by_cases hfirst : ∃ c : Cut S, op = .insert c ∧ 0 < c.len
      · obtain ⟨c, rfl, hc⟩ := hfirst
        have hsome : firstPos [.insert c] = some c.pos := by simp [firstPos, hc.ne']
        have hstart := sound_start isn hS c
        rw [apply_first c hc] at hcap
        rw [hsome, Option.elim_some, apply_first c hc]
        refine ⟨exited_apply hS hstart _ rfl, ?_, fun hp i => ?_⟩
        · rw [tidy_apply hS hstart _ hcap]
          have htidy : Tidy isn (start isn c).buffer := by
            constructor
            · intro k d hk
              cases hk
            · intro k d k' d' hk
              cases hk
          exact iff_of_true ⟨htidy, ReassemblyBuffer.clashes_of_empty rfl _ _⟩ ⟨hno, hclash⟩
        · rw [hasByte_apply hS hstart _ hcap]
          refine or_congr (iff_of_false ?_ (hnone i)) ?_
          · rintro (hlt | ⟨k, d, ⟨⟩, -⟩)
            rw [next_start _ hS, hp] at hlt
            exact Nat.not_lt_zero i hlt
          · rw [Keeps, Keeps, ReassemblyBuffer.refuses_of_empty rfl,
              ReassemblyBuffer.refuses_of_empty rfl]
      · have hempty : firstPos [op] = none ∧ ∀ i, ¬new.Keeps isn i op := by
          cases op with
          | drain => exact ⟨rfl, fun _ => id⟩
          | insert c =>
            have hc : c.len = 0 := Nat.eq_zero_of_not_pos fun hc => hfirst ⟨c, rfl, hc⟩
            refine ⟨by simp [firstPos, hc], fun i hk => ?_⟩
            have hlt := hk.1
            unfold Cut.Covers Cut.stop at hlt
            omega
        rw [hempty.1]
        exact ⟨⟨hno, hclash⟩, fun i => not_or.mpr ⟨hnone i, hempty.2 i⟩⟩

/-- All of a stream is handed out and nothing stays stored exactly when the run starts with the
stream's first byte, makes no segments overlap and brings every byte in one that is not refused. -/
theorem whole_iff (S : List UInt8) (hS : S.length < 2 ^ 31) (isn : UInt32)
    (ops : List (ReadOp S)) (hcap : (run isn ops).buffer.capped = false) :
    ((run isn (ops ++ [.drain])).drained = S ∧
      (run isn (ops ++ [.drain])).buffer.markFin.isComplete = true) ↔
    (∀ p ∈ firstPos ops, p = 0) ∧ NeverClashes isn ops ∧ ∀ i < S.length, Kept isn ops i := by
  have hstate := state_run hS ops hcap
  have hrun := sound_run hS isn ops
  rw [run_concat, apply_drain]
  change (run isn ops).delivered = S ∧ (run isn ops).buffer.segments.entries.isEmpty = true ↔ _
  cases hf : firstPos ops with
  | none =>
    rw [hf] at hstate hrun
    rw [show run isn ops = new from hrun]
    constructor
    · rintro ⟨hS, -⟩
      refine ⟨nofun, hstate.1, fun i hi => ?_⟩
      rw [← hS] at hi
      exact absurd hi (Nat.not_lt_zero i)
    · rintro ⟨-, -, hkept⟩
      refine ⟨?_, rfl⟩
      cases S with
      | nil => rfl
      | cons x l => exact absurd (hkept 0 (Nat.succ_pos _)) (hstate.2 0)
  | some p₀ =>
    rw [hf] at hstate hrun
    obtain ⟨hexit, htidy, hreach⟩ := hstate
    have hstarted : p₀ ≤ (run isn ops).buffer.next isn := hrun.started
    have hfits : (run isn ops).buffer.next isn ≤ S.length := hrun.fits
    rw [hrun.bytes]
    constructor
    · rintro ⟨hbytes, hempty⟩
      have hlen := congrArg List.length hbytes
      rw [length_slice hfits] at hlen
      have hstored : ∀ k d, (run isn ops).buffer.segments.get? k ≠ some d := fun k d hk => by
        have hmem := OrderedMap.mem_of_get? hk
        rw [List.isEmpty_iff.mp hempty] at hmem
        exact List.not_mem_nil hmem
      refine ⟨?_, htidy.mp ⟨fun k d hk => absurd hk (hstored k d), fun k d k' d' hk =>
        absurd hk (hstored k d)⟩, fun i hi => (hreach (by omega) i).mp (Or.inl (by omega))⟩
      rintro p hp
      cases hp
      omega
    · rintro ⟨hfirst, hno, hkept⟩
      obtain rfl : p₀ = 0 := hfirst p₀ rfl
      have ht := htidy.mpr hno
      have hnext : (run isn ops).buffer.next isn = S.length := by
        by_contra hne
        rcases (hreach rfl _).mpr (hkept _ (hfits.lt_of_ne hne)) with hlt | ⟨k, d, hk, hle, -⟩
        · exact lt_irrefl _ hlt
        · have hk' : k = (run isn ops).buffer.nextSeq :=
            offset_inj.mp (hle.antisymm (ht.ahead k d hk))
          rw [hk', hexit] at hk
          cases hk
      refine ⟨by rw [hnext, slice_whole], ?_⟩
      rw [List.isEmpty_iff, List.eq_nil_iff_forall_not_mem]
      rintro ⟨k, d⟩ hmem
      have hk := OrderedMap.get?_of_mem hmem
      have hp := hrun.stored k d hk
      have hahead := ht.ahead k d hk
      have hpos := hp.pos
      have hfit := hp.fits
      omega

end Reader

end Tidy

/-- Two pieces have no byte in common. -/
def Cut.Apart {S : List UInt8} (c c' : Cut S) : Prop := c.stop ≤ c'.pos ∨ c'.stop ≤ c.pos

namespace Reader

section Disjoint

variable {S : List UInt8} {isn : UInt32} {cuts : List (Cut S)}

/-- A run on which every piece arrives and nothing is drained. -/
def arrived (isn : UInt32) (cuts : List (Cut S)) : Reader := run isn (cuts.map .insert)

theorem arrived_concat (cuts : List (Cut S)) (c : Cut S) :
    arrived isn (cuts ++ [c]) = (arrived isn cuts).apply isn (.insert c) := by
  rw [arrived, List.map_append]
  exact run_concat ..

variable (isn) in
theorem exists_sound (hS : S.length < 2 ^ 31) (cuts : List (Cut S)) (c : Cut S) (hc : 0 < c.len) :
    ∃ r p₀, Sound S isn p₀ r ∧ arrived isn (cuts ++ [c]) = r.apply isn (.insert c) ∧
      r.buffer.segments = (arrived isn cuts).buffer.segments ∧
      r.buffer.totalBuffered = (arrived isn cuts).buffer.totalBuffered ∧
      r.buffer.capped = (arrived isn cuts).buffer.capped := by
  have hrun := sound_run hS isn (cuts.map ReadOp.insert)
  rw [arrived_concat]
  cases hf : firstPos (cuts.map ReadOp.insert) with
  | some p₀ =>
    rw [hf] at hrun
    exact ⟨_, p₀, hrun, rfl, rfl, rfl, rfl⟩
  | none =>
    rw [hf] at hrun
    have hnew : arrived isn cuts = new := hrun
    rw [hnew, apply_first c hc]
    exact ⟨_, _, sound_start _ hS c, rfl, rfl, rfl, rfl⟩

theorem arrived_empty (cuts : List (Cut S)) {c : Cut S} (hc : c.len = 0) :
    arrived isn (cuts ++ [c]) = arrived isn cuts := by
  rw [arrived_concat, apply_insert, insertSegment_empty _ hc]

theorem stored_arrived (hS : S.length < 2 ^ 31) (cuts : List (Cut S)) {k : UInt32} {d : List UInt8}
    (hk : (arrived isn cuts).buffer.segments.get? k = some d) :
    ∃ c ∈ cuts, 0 < c.len ∧ k = c.seq isn ∧ d = c.data := by
  induction cuts using List.reverseRecOn with
  | nil => cases hk
  | append_singleton cuts c ih =>
    have hold : (arrived isn cuts).buffer.segments.get? k = some d →
        ∃ c' ∈ cuts ++ [c], 0 < c'.len ∧ k = c'.seq isn ∧ d = c'.data := fun hk =>
      (ih hk).imp fun c' h => h.imp_left (List.mem_append_left _)
    rcases Nat.eq_zero_or_pos c.len with hc | hc
    · rw [arrived_empty cuts hc] at hk
      exact hold hk
    obtain ⟨r, p₀, h, harr, hseg, -, -⟩ := exists_sound isn hS cuts c hc
    rw [harr, apply_insert] at hk
    rw [← hseg] at hold
    have hout := outcome hS h.anchored c h.fits hc
    generalize (r.buffer.insertSegment (c.seq isn) c.data).1 = b at hout hk
    cases hout with
    | seen _ => exact hold hk
    | full _ _ => exact hold hk
    | joined _ _ _ =>
      refine hold ?_
      have hsub := ReassemblyBuffer.pullAll_induction
        (P := fun b => ∀ d, b.segments.get? k = some d → r.buffer.segments.get? k = some d)
        (fun b seg _ hb d hd => hb d (get?_pull.mp hd).2) r.buffer.segments.len
        (r.buffer.append (slice S (r.buffer.next isn) c.stop)) (fun _ => id)
      exact hsub d hk
    | refused _ _ _ => exact hold hk
    | held _ _ _ =>
      rcases get?_store.mp hk with ⟨hkey, hd⟩ | ⟨-, hk⟩
      · exact ⟨c, List.mem_append_right _ List.mem_cons_self, hc, hkey, hd.symm⟩
      · exact hold hk

theorem uncapped_arrived (hS : S.length < 2 ^ 31) (cuts : List (Cut S))
    (hsum : (cuts.map Cut.len).sum ≤ maxStreamBuffer) :
    (arrived isn cuts).buffer.capped = false ∧
      (arrived isn cuts).buffer.totalBuffered ≤ (cuts.map Cut.len).sum := by
  induction cuts using List.reverseRecOn with
  | nil => exact ⟨rfl, Nat.le_refl 0⟩
  | append_singleton cuts c ih =>
    rw [List.map_append, List.sum_append, List.map_singleton, List.sum_singleton] at hsum ⊢
    obtain ⟨hcap, hle⟩ := ih (by omega)
    rcases Nat.eq_zero_or_pos c.len with hc | hc
    · rw [arrived_empty cuts hc]
      exact ⟨hcap, by omega⟩
    obtain ⟨r, p₀, h, harr, -, htotal, hcapr⟩ := exists_sound isn hS cuts c hc
    rw [harr, apply_insert]
    rw [← htotal] at hle
    rw [← hcapr] at hcap
    have hout := outcome hS h.anchored c h.fits hc
    generalize (r.buffer.insertSegment (c.seq isn) c.data).1 = b at hout ⊢
    cases hout with
    | seen _ => exact ⟨hcap, Nat.le_trans hle (Nat.le_add_right _ _)⟩
    | full _ hfull =>
      rcases hfull with hfull | hfull
      · rw [hcap] at hfull
        cases hfull
      · omega
    | joined hpos hstop _ =>
      have hkeep := ReassemblyBuffer.pullAll_induction
        (P := fun b => b.capped = false ∧ b.totalBuffered = r.buffer.totalBuffered +
          (slice S (r.buffer.next isn) c.stop).length)
        (fun b seg _ hb => hb) r.buffer.segments.len
        (r.buffer.append (slice S (r.buffer.next isn) c.stop)) ⟨hcap, rfl⟩
      refine ⟨hkeep.1, ?_⟩
      rw [hkeep.2, length_slice (b := c.stop) c.fits]
      unfold Cut.stop
      omega
    | refused _ _ _ => exact ⟨hcap, Nat.le_trans hle (Nat.le_add_right _ _)⟩
    | held _ _ _ =>
      refine ⟨hcap, ?_⟩
      change r.buffer.totalBuffered + c.data.length ≤ _
      rw [c.length_data]
      omega

theorem seq_inj (hS : S.length < 2 ^ 31) {c c' : Cut S} (h : c.seq isn = c'.seq isn) :
    c.pos = c'.pos := by
  rw [← c.offset_seq isn hS, h, c'.offset_seq _ hS]

theorem refuses_of_apart (hS : S.length < 2 ^ 31) {c : Cut S} (hc : 0 < c.len)
    (hapart : ∀ c' ∈ cuts, c'.Apart c) :
    (arrived isn cuts).buffer.refuses (c.seq isn) = false := by
  rw [← Bool.not_eq_true, ReassemblyBuffer.refuses, Bool.and_eq_true]
  rintro ⟨-, hheld⟩
  obtain ⟨d, hk⟩ := Option.isSome_iff_exists.mp hheld
  obtain ⟨c', hmem, hc', hseq, -⟩ := stored_arrived hS cuts hk
  have hpos := seq_inj hS hseq
  have hapart := hapart c' hmem
  unfold Cut.Apart Cut.stop at hapart
  omega

theorem clashes_of_apart (hS : S.length < 2 ^ 31) {c : Cut S}
    (hapart : ∀ c' ∈ cuts, c'.Apart c) :
    (arrived isn cuts).buffer.clashes (c.seq isn) c.data = false := by
  rcases Nat.eq_zero_or_pos c.len with hc | hc
  · have hnil : c.data = [] := List.eq_nil_of_length_eq_zero (c.length_data.trans hc)
    rw [hnil]
    rfl
  have hrun := sound_run hS isn (cuts.map ReadOp.insert)
  cases hf : firstPos (cuts.map ReadOp.insert) with
  | none =>
    rw [hf] at hrun
    have hnew : arrived isn cuts = new := hrun
    rw [hnew]
    exact ReassemblyBuffer.clashes_of_empty rfl _ _
  | some p₀ =>
    rw [hf] at hrun
    have h : Sound S isn p₀ (arrived isn cuts) := hrun
    have hiff : (arrived isn cuts).buffer.clashes (c.seq isn) c.data = true ↔ _ :=
      clashes_iff hS h c hc
    rw [← Bool.not_eq_true, hiff]
    rintro ⟨-, -, k, d, hk, hlt, hgt⟩
    obtain ⟨c', hmem, hc', rfl, rfl⟩ := stored_arrived hS cuts hk
    rw [c'.offset_seq _ hS] at hlt hgt
    rw [c'.length_data] at hgt
    have hmax := le_max_left c.pos ((arrived isn cuts).buffer.next isn)
    have hapart := hapart c' hmem
    unfold Cut.Apart Cut.stop at *
    omega

variable (isn) in
/-- Pieces without a common byte that make up a stream give it whole in any order that starts with
its first byte, and in no other. -/
theorem whole_of_apart (hS : S.length < 2 ^ 31) (hsum : (cuts.map Cut.len).sum ≤ maxStreamBuffer)
    (hapart : cuts.Pairwise Cut.Apart) (hcover : ∀ i < S.length, ∃ c ∈ cuts, c.Covers i) :
    (arrived isn cuts).delivered = S ↔ ∀ p ∈ firstPos (cuts.map ReadOp.insert), p = 0 := by
  have hsplit : ∀ pre c, pre ++ [c] <+: cuts → ∀ c' ∈ pre, c'.Apart c := fun pre c hp c' hmem =>
    (List.pairwise_append.mp (hapart.sublist hp.sublist)).2.2 c' hmem c List.mem_cons_self
  constructor
  · intro hwhole p hp
    have hslice := delivered_is_slice S hS isn (cuts.map .insert)
    rw [hp] at hslice
    obtain ⟨q, hpq, hq, hbytes⟩ := hslice
    have hlen := congrArg List.length (hbytes.symm.trans hwhole)
    rw [length_slice hq] at hlen
    omega
  · intro hfirst
    have hwhole := (whole_iff S hS isn (cuts.map .insert) (uncapped_arrived hS cuts hsum).1).mpr
      ⟨hfirst, ?_, ?_⟩
    · rw [run_concat, apply_drain] at hwhole
      exact hwhole.1
    · intro pre op hp
      obtain ⟨l, hl, he⟩ := List.prefix_map_iff.mp hp
      obtain ⟨pre, l', rfl, rfl, ho⟩ := List.map_eq_append_iff.mp he.symm
      obtain ⟨c, rfl, rfl⟩ := List.map_eq_singleton_iff.mp ho
      exact clashes_of_apart hS (hsplit pre c hl)
    · intro i hi
      obtain ⟨c, hmem, hc⟩ := hcover i hi
      obtain ⟨pre, l, rfl⟩ := List.append_of_mem hmem
      refine ⟨pre.map .insert, .insert c, ⟨l.map .insert, by simp⟩, hc, ?_⟩
      refine refuses_of_apart hS ?_ (hsplit pre c ⟨l, by simp⟩)
      unfold Cut.Covers Cut.stop at hc
      omega

end Disjoint

section Samples

def sixBytes : List UInt8 := [1, 2, 3, 4, 5, 6]

/-- The last segment runs into the stored one. -/
def overlapping : List (Cut sixBytes) := [⟨0, 2, by decide⟩, ⟨3, 3, by decide⟩, ⟨2, 2, by decide⟩]

/-- The last segment ends where the stored one starts. -/
def abutting : List (ReadOp sixBytes) :=
  [.insert ⟨0, 2, by decide⟩, .insert ⟨3, 3, by decide⟩, .insert ⟨2, 1, by decide⟩]

/-- Segments that cover a stream below the cap do not always give it whole. -/
theorem not_always_whole : ¬ ∀ (S : List UInt8) (isn : UInt32) (cuts : List (Cut S)),
    S.length < maxStreamBuffer → (∀ c ∈ cuts.head?, c.pos = 0) →
    (∀ i < S.length, ∃ c ∈ cuts, c.Covers i) →
    (run isn (cuts.map .insert)).buffer.capped = false →
    (run isn (cuts.map .insert ++ [.drain])).drained = S ∧
      (run isn (cuts.map .insert ++ [.drain])).buffer.markFin.isComplete = true := by
  intro h
  have hcover : ∀ i < sixBytes.length, ∃ c ∈ overlapping, c.Covers i := by
    unfold Cut.Covers Cut.stop
    decide
  have hwhole := (h sixBytes 0 overlapping (by decide) (by decide) hcover (by decide)).1
  revert hwhole
  decide

theorem whole_iff_abutting : (run 0 (abutting ++ [.drain])).drained = sixBytes ∧
    (run 0 (abutting ++ [.drain])).buffer.markFin.isComplete = true ↔
    (∀ p ∈ firstPos abutting, p = 0) ∧ NeverClashes 0 abutting ∧
      ∀ i < sixBytes.length, Kept 0 abutting i :=
  whole_iff sixBytes (by decide) 0 abutting (by decide)

end Samples

end Reader

end Pktscope

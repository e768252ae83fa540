import Mathlib.Data.Finset.Card
import Mathlib.Data.List.Induction
import Pktscope.Library.Ordered
import Pktscope.Library.Serial
import Pktscope.Library.Slice

/-! # Reassembly of one direction

A buffer collects the segments of a byte stream. Whatever their order, what it
hands out is a contiguous slice of the stream.
-/

namespace Pktscope

open Library

def maxStreamBuffer : ℕ := 1024 * 1024

inductive ReassemblyResult where
  | contiguous
  | gap
  | buffered
  | duplicate
  | capped
  deriving DecidableEq

structure ReassemblyBuffer where
  pending : List UInt8
  segments : OrderedMap UInt32 (List UInt8)
  baseSeq : Option UInt32
  nextSeq : UInt32
  totalBuffered : ℕ
  fin : Bool
  capped : Bool

def seqLt (a b : UInt32) : Bool := serialLt a b

namespace ReassemblyBuffer

def new : ReassemblyBuffer := ⟨[], .empty, none, 0, 0, false, false⟩

/-- The first segment says where the stream starts. -/
def anchor (b : ReassemblyBuffer) (seq : UInt32) : ReassemblyBuffer :=
  if b.baseSeq.isNone then { b with baseSeq := some seq, nextSeq := seq } else b

/-- Append the stored segment that starts at `nextSeq`. -/
def pull (b : ReassemblyBuffer) (seg : List UInt8) : ReassemblyBuffer :=
  { b with
    segments := b.segments.remove b.nextSeq
    nextSeq := b.nextSeq + UInt32.ofNat seg.length
    pending := b.pending ++ seg }

/-- The loop over the stored segments that have become adjacent; it ends because each round removes
one. -/
def pullAll : ℕ → ReassemblyBuffer → ReassemblyBuffer
  | 0, b => b
  | n + 1, b =>
    match b.segments.get? b.nextSeq with
    | some seg => pullAll n (b.pull seg)
    | none => b

def append (b : ReassemblyBuffer) (data : List UInt8) : ReassemblyBuffer :=
  { b with
    pending := b.pending ++ data
    nextSeq := b.nextSeq + UInt32.ofNat data.length
    totalBuffered := b.totalBuffered + data.length }

def store (b : ReassemblyBuffer) (seq : UInt32) (data : List UInt8) : ReassemblyBuffer :=
  { b with
    segments := b.segments.insert seq data
    totalBuffered := b.totalBuffered + data.length }

/-- The part of `insert_segment` after the front is trimmed. -/
def place (b : ReassemblyBuffer) (seq : UInt32) (data : List UInt8) :
    ReassemblyBuffer × ReassemblyResult :=
  if b.capped then (b, .capped)
  else if b.totalBuffered + data.length > maxStreamBuffer then ({ b with capped := true }, .capped)
  else if seq = b.nextSeq then (pullAll b.segments.len (b.append data), .contiguous)
  else match b.segments.get? seq with
    | none => (b.store seq data, .gap)
    | some _ => (b, .duplicate)

def insertSegment (b : ReassemblyBuffer) (seq : UInt32) (data : List UInt8) :
    ReassemblyBuffer × ReassemblyResult :=
  if data.isEmpty then (b, .buffered)
  else
    let b := b.anchor seq
    if !seqLt b.nextSeq (seq + UInt32.ofNat data.length) then (b, .duplicate)
    else if seqLt seq b.nextSeq then
      let skip := (b.nextSeq - seq).toNat
      if data.length ≤ skip then (b, .duplicate) else b.place b.nextSeq (data.drop skip)
    else b.place seq data

def tryDrain (b : ReassemblyBuffer) : Option (List UInt8) × ReassemblyBuffer :=
  if b.pending.isEmpty then (none, b)
  else (some b.pending, { b with pending := [], totalBuffered := b.totalBuffered - b.pending.length })

def markFin (b : ReassemblyBuffer) : ReassemblyBuffer := { b with fin := true }

def isComplete (b : ReassemblyBuffer) : Bool := b.fin && b.segments.entries.isEmpty

def bufferedLen (b : ReassemblyBuffer) : ℕ := b.totalBuffered

end ReassemblyBuffer

/-- Both directions of a reassembled conversation. -/
structure StreamData where
  clientToServer : List UInt8
  serverToClient : List UInt8
  deriving DecidableEq

/-- A piece of a byte string at its place. -/
structure Cut (S : List UInt8) where
  pos : ℕ
  len : ℕ
  fits : pos + len ≤ S.length

namespace Cut

variable {S : List UInt8} (c : Cut S)

def stop : ℕ := c.pos + c.len

def data : List UInt8 := slice S c.pos c.stop

/-- The sequence number of a piece of a stream with an initial sequence number. -/
def seq (isn : UInt32) : UInt32 := isn + UInt32.ofNat c.pos

def Covers (i : ℕ) : Prop := c.pos ≤ i ∧ i < c.stop

end Cut

/-- What is done with a buffer: a piece of the stream arrives, or its owner drains it. -/
inductive ReadOp (S : List UInt8) where
  | insert (c : Cut S)
  | drain

/-- A buffer and all that has been drained from it. -/
structure Reader where
  buffer : ReassemblyBuffer
  drained : List UInt8

namespace Reader

def new : Reader := ⟨.new, []⟩

def apply {S : List UInt8} (isn : UInt32) (r : Reader) : ReadOp S → Reader
  | .insert c => { r with buffer := (r.buffer.insertSegment (c.seq isn) c.data).1 }
  | .drain => ⟨r.buffer.tryDrain.2, r.drained ++ r.buffer.tryDrain.1.getD []⟩

/-- A reader after some operations. -/
def run {S : List UInt8} (isn : UInt32) (ops : List (ReadOp S)) : Reader :=
  ops.foldl (apply isn) new

/-- What the reader has handed out with what it would hand out next. -/
def delivered (r : Reader) : List UInt8 := r.drained ++ r.buffer.pending

/-- Where the first piece that is not empty starts. -/
def firstPos {S : List UInt8} (ops : List (ReadOp S)) : Option ℕ :=
  ops.findSome? fun
    | .insert c => if c.len = 0 then none else some c.pos
    | .drain => none

end Reader

namespace ReassemblyBuffer

section Pull

variable {P : ReassemblyBuffer → Prop}

/-- What each round of the loop keeps, the loop keeps. -/
theorem pullAll_induction
    (step : ∀ b seg, b.segments.get? b.nextSeq = some seg → P b → P (b.pull seg)) (n : ℕ)
    (b : ReassemblyBuffer) (h : P b) : P (pullAll n b) := by
  induction n generalizing b with
  | zero => exact h
  | succ n ih =>
    unfold pullAll
    cases hg : b.segments.get? b.nextSeq with
    | none => exact h
    | some seg => exact ih _ (step b seg hg h)

/-- The loop runs to its end. -/
theorem get?_pullAll (n : ℕ) (b : ReassemblyBuffer) (h : b.segments.len ≤ n) :
    (pullAll n b).segments.get? (pullAll n b).nextSeq = none := by
  induction n generalizing b with
  | zero => exact OrderedMap.get?_of_len_eq_zero (Nat.le_zero.mp h) _
  | succ n ih =>
    unfold pullAll
    cases hg : b.segments.get? b.nextSeq with
    | none => exact hg
    | some seg =>
      have hlt := OrderedMap.len_remove_lt hg
      exact ih _ (by simp only [pull]; omega)

end Pull

end ReassemblyBuffer

section Sound

variable {S : List UInt8} {isn : UInt32} {p₀ : ℕ}

/-- The place of the next byte that a buffer waits for. -/
def ReassemblyBuffer.next (b : ReassemblyBuffer) (isn : UInt32) : ℕ := offset isn b.nextSeq

/-- A segment is a piece of the stream at its sequence number. -/
structure IsPiece (S : List UInt8) (isn k : UInt32) (d : List UInt8) : Prop where
  pos : 0 < d.length
  fits : offset isn k + d.length ≤ S.length
  bytes : d = slice S (offset isn k) (offset isn k + d.length)

/-- What a reader that has its first segment delivers is a slice of the stream. -/
structure Sound (S : List UInt8) (isn : UInt32) (p₀ : ℕ) (r : Reader) : Prop where
  anchored : r.buffer.baseSeq.isSome
  started : p₀ ≤ r.buffer.next isn
  fits : r.buffer.next isn ≤ S.length
  bytes : r.delivered = slice S p₀ (r.buffer.next isn)
  stored : ∀ k d, r.buffer.segments.get? k = some d → IsPiece S isn k d

variable (isn) in
theorem Cut.offset_seq (hS : S.length < 2 ^ 31) (c : Cut S) : offset isn (c.seq isn) = c.pos :=
  offset_base_add isn (by have := c.fits; omega)

theorem Cut.length_data (c : Cut S) : c.data.length = c.len := by
  rw [Cut.data, length_slice (b := c.stop) c.fits, Cut.stop, Nat.add_sub_cancel_left]

theorem Cut.isPiece (hS : S.length < 2 ^ 31) (c : Cut S) (hc : 0 < c.len) :
    IsPiece S isn (c.seq isn) c.data where
  pos := by rwa [c.length_data]
  fits := by rw [c.offset_seq _ hS, c.length_data]; exact c.fits
  bytes := by rw [c.offset_seq _ hS, c.length_data]; rfl

theorem next_append (b : ReassemblyBuffer) (data : List UInt8)
    (h : b.next isn + data.length < 2 ^ 32) :
    (b.append data).next isn = b.next isn + data.length := offset_add h

theorem next_append_slice (hS : S.length < 2 ^ 31) {b : ReassemblyBuffer} {e : ℕ}
    (hlt : b.next isn ≤ e) (he : e ≤ S.length) :
    (b.append (slice S (b.next isn) e)).next isn = e := by
  have hlen := length_slice (a := b.next isn) he
  rw [next_append _ _ (by omega)]
  omega

theorem next_pull (b : ReassemblyBuffer) (seg : List UInt8)
    (h : b.next isn + seg.length < 2 ^ 32) : (b.pull seg).next isn = b.next isn + seg.length :=
  offset_add h

namespace Sound

variable {b : ReassemblyBuffer} {dr : List UInt8} (hS : S.length < 2 ^ 31)
include hS

theorem append (h : Sound S isn p₀ ⟨b, dr⟩) {e : ℕ} (hlt : b.next isn ≤ e) (he : e ≤ S.length) :
    Sound S isn p₀ ⟨b.append (slice S (b.next isn) e), dr⟩ := by
  have hnext := next_append_slice hS hlt he
  refine ⟨h.anchored, ?_, ?_, ?_, h.stored⟩
  · exact Nat.le_trans (Nat.le_trans h.started hlt) hnext.symm.le
  · exact Nat.le_trans hnext.le he
  · have hbytes : dr ++ b.pending = slice S p₀ (b.next isn) := h.bytes
    change dr ++ (b.pending ++ _) = slice S p₀ (ReassemblyBuffer.next _ isn)
    rw [hnext, ← List.append_assoc, hbytes, slice_append h.started hlt]

theorem pull (h : Sound S isn p₀ ⟨b, dr⟩) {seg : List UInt8}
    (hg : b.segments.get? b.nextSeq = some seg) : Sound S isn p₀ ⟨b.pull seg, dr⟩ := by
  have hp := h.stored _ _ hg
  have hfits : b.next isn + seg.length ≤ S.length := hp.fits
  have hnext : (b.pull seg).next isn = b.next isn + seg.length := next_pull _ _ (by omega)
  refine ⟨h.anchored, ?_, ?_, ?_, ?_⟩
  · exact Nat.le_trans (Nat.le_trans h.started (Nat.le_add_right _ _)) hnext.symm.le
  · exact Nat.le_trans hnext.le hfits
  · have hbytes : dr ++ b.pending = slice S p₀ (b.next isn) := h.bytes
    have hseg : seg = slice S (b.next isn) (b.next isn + seg.length) := hp.bytes
    change dr ++ (b.pending ++ seg) = slice S p₀ (ReassemblyBuffer.next _ isn)
    rw [hnext, ← List.append_assoc, hbytes]
    nth_rewrite 1 [hseg]
    rw [slice_append h.started (Nat.le_add_right _ _)]
  · intro k d hk
    rw [ReassemblyBuffer.pull, OrderedMap.get?_remove] at hk
    split at hk
    · cases hk
    · exact h.stored k d hk

theorem pullAll (h : Sound S isn p₀ ⟨b, dr⟩) (n : ℕ) :
    Sound S isn p₀ ⟨ReassemblyBuffer.pullAll n b, dr⟩ :=
  ReassemblyBuffer.pullAll_induction (P := fun b => Sound S isn p₀ ⟨b, dr⟩)
    (fun _ _ hg h => h.pull hS hg) n b h

theorem store (h : Sound S isn p₀ ⟨b, dr⟩) (c : Cut S) (hc : 0 < c.len) :
    Sound S isn p₀ ⟨b.store (c.seq isn) c.data, dr⟩ := by
  refine ⟨h.anchored, h.started, h.fits, h.bytes, fun k d hk => ?_⟩
  rw [ReassemblyBuffer.store, OrderedMap.get?_insert] at hk
  split at hk
  · rename_i he
    cases hk
    exact he ▸ c.isPiece hS hc
  · exact h.stored k d hk

end Sound

/-- What the arrival of a piece does to a buffer that has its first segment. -/
inductive Outcome (isn : UInt32) (b : ReassemblyBuffer) (c : Cut S) : ReassemblyBuffer → Prop where
  | seen (h : c.stop ≤ b.next isn) : Outcome isn b c b
  | full (h : b.next isn < c.stop)
      (hfull : b.capped = true ∨ maxStreamBuffer < b.totalBuffered + c.len) :
      Outcome isn b c { b with capped := true }
  | joined (h : c.pos ≤ b.next isn) (hstop : b.next isn < c.stop) (hcap : b.capped = false) :
      Outcome isn b c (b.append (slice S (b.next isn) c.stop) |> .pullAll b.segments.len)
  | refused (h : b.next isn < c.pos) (hcap : b.capped = false)
      (hheld : (b.segments.get? (c.seq isn)).isSome) : Outcome isn b c b
  | held (h : b.next isn < c.pos) (hcap : b.capped = false)
      (hnew : b.segments.get? (c.seq isn) = none) : Outcome isn b c (b.store (c.seq isn) c.data)

variable (isn) in
theorem seqLt_iff (hS : S.length < 2 ^ 31) {a b : UInt32} (ha : offset isn a ≤ S.length)
    (hb : offset isn b ≤ S.length) : seqLt a b = true ↔ offset isn a < offset isn b :=
  serialLt_iff_offset (by omega) (by omega)

variable (isn) in
theorem Cut.offset_end (hS : S.length < 2 ^ 31) (c : Cut S) :
    offset isn (c.seq isn + UInt32.ofNat c.data.length) = c.stop := by
  have hfits := c.fits
  rw [offset_add (by rw [c.offset_seq _ hS, c.length_data]; omega), c.offset_seq _ hS, c.length_data, Cut.stop]

theorem outcome_capped {b : ReassemblyBuffer} (c : Cut S) (hstop : b.next isn < c.stop)
    (hcap : b.capped = true) (seq : UInt32) (data : List UInt8) :
    Outcome isn b c (b.place seq data).1 := by
  have hb : { b with capped := true } = b := by rw [← hcap]
  have hout : Outcome isn b c { b with capped := true } := .full hstop (Or.inl hcap)
  rw [ReassemblyBuffer.place, if_pos hcap]
  rwa [hb] at hout

theorem outcome_front {b : ReassemblyBuffer} (c : Cut S) (h : c.pos ≤ b.next isn)
    (hstop : b.next isn < c.stop) :
    Outcome isn b c (b.place b.nextSeq (slice S (b.next isn) c.stop)).1 := by
  have hlen : (slice S (b.next isn) c.stop).length = c.stop - b.next isn := length_slice c.fits
  by_cases hcap : b.capped = true
  · exact outcome_capped c hstop hcap _ _
  · rw [ReassemblyBuffer.place, if_neg hcap]
    by_cases hroom : b.totalBuffered + (slice S (b.next isn) c.stop).length > maxStreamBuffer
    · rw [if_pos hroom]
      refine .full hstop (Or.inr ?_)
      unfold Cut.stop at *
      omega
    · rw [if_neg hroom, if_pos rfl]
      exact .joined h hstop (by simpa using hcap)

theorem outcome_ahead (hS : S.length < 2 ^ 31) {b : ReassemblyBuffer} (c : Cut S) (hc : 0 < c.len)
    (h : b.next isn < c.pos) : Outcome isn b c (b.place (c.seq isn) c.data).1 := by
  have hstop : b.next isn < c.stop := by unfold Cut.stop; omega
  have hne : c.seq isn ≠ b.nextSeq := fun he => by
    have hpos := c.offset_seq isn hS
    rw [he] at hpos
    exact absurd hpos h.ne
  by_cases hcap : b.capped = true
  · exact outcome_capped c hstop hcap _ _
  · have hcap' : b.capped = false := by simpa using hcap
    rw [ReassemblyBuffer.place, if_neg hcap, c.length_data]
    by_cases hroom : b.totalBuffered + c.len > maxStreamBuffer
    · rw [if_pos hroom]
      exact .full hstop (Or.inr hroom)
    · rw [if_neg hroom, if_neg hne]
      cases hg : b.segments.get? (c.seq isn) with
      | none => exact .held h hcap' hg
      | some d => exact .refused h hcap' (by rw [hg]; rfl)

theorem outcome (hS : S.length < 2 ^ 31) {b : ReassemblyBuffer} (hb : b.baseSeq.isSome) (c : Cut S)
    (hq : b.next isn ≤ S.length) (hc : 0 < c.len) :
    Outcome isn b c (b.insertSegment (c.seq isn) c.data).1 := by
  have hne : c.data.isEmpty = false := by
    rw [List.isEmpty_eq_false_iff, ← List.length_pos_iff, c.length_data]
    exact hc
  have hanchor : b.anchor (c.seq isn) = b := by
    rw [ReassemblyBuffer.anchor, if_neg (by simp [Option.isSome_iff_ne_none.mp hb])]
  have hpos := c.offset_seq isn hS
  have hend := c.offset_end isn hS
  have hfits : c.stop ≤ S.length := c.fits
  have hlen := c.length_data
  have hseen := seqLt_iff isn hS hq (hend.trans_le hfits)
  have hfront := seqLt_iff isn hS
    (hpos.trans_le ((Nat.le_add_right _ _).trans hfits)) hq
  rw [hend] at hseen
  rw [hpos] at hfront
  unfold ReassemblyBuffer.insertSegment
  simp only [hne, hanchor, Bool.false_eq_true, if_false]
  by_cases h : c.stop ≤ b.next isn
  · rw [if_pos (by simpa using hseen.not.mpr (not_lt.mpr h))]
    exact .seen h
  · rw [if_neg (by simpa using hseen.mpr (not_le.mp h))]
    by_cases hlt : c.pos < b.next isn
    · -- what is already consumed is trimmed
      have hskip : (b.nextSeq - c.seq isn).toNat = b.next isn - c.pos := by
        rw [toNat_sub_eq (hpos.trans_le hlt.le), hpos]
        rfl
      have hlong : ¬c.data.length ≤ b.next isn - c.pos := by
        unfold Cut.stop at h
        omega
      rw [if_pos (hfront.mpr hlt), hskip, if_neg hlong, Cut.data, drop_slice,
        Nat.add_sub_cancel' hlt.le]
      exact outcome_front c hlt.le (not_le.mp h)
    · rw [if_neg (hfront.not.mpr hlt)]
      rcases (not_lt.mp hlt).eq_or_lt with he | hgt
      · have hseq : c.seq isn = b.nextSeq := offset_inj.mp (hpos.trans he.symm)
        rw [hseq, Cut.data, ← he]
        exact outcome_front c he.ge (not_le.mp h)
      · exact outcome_ahead hS c hc hgt

theorem insertSegment_empty (b : ReassemblyBuffer) {c : Cut S} (hc : c.len = 0) :
    (b.insertSegment (c.seq isn) c.data).1 = b := by
  have hnil : c.data = [] := List.eq_nil_of_length_eq_zero (c.length_data.trans hc)
  rw [hnil]
  rfl

theorem insertSegment_anchor (b : ReassemblyBuffer) (seq : UInt32) {data : List UInt8}
    (h : data.isEmpty = false) :
    b.insertSegment seq data = (b.anchor seq).insertSegment seq data := by
  have hanchor : (b.anchor seq).anchor seq = b.anchor seq := by
    unfold ReassemblyBuffer.anchor
    by_cases hb : b.baseSeq.isNone = true
    · simp [hb]
    · simp [hb]
  unfold ReassemblyBuffer.insertSegment
  simp only [h, hanchor, Bool.false_eq_true, if_false]

namespace Reader

theorem apply_insert (r : Reader) (c : Cut S) :
    r.apply isn (.insert c) = ⟨(r.buffer.insertSegment (c.seq isn) c.data).1, r.drained⟩ := rfl

theorem sound_insert (hS : S.length < 2 ^ 31) {r : Reader} (h : Sound S isn p₀ r) (c : Cut S) :
    Sound S isn p₀ (r.apply isn (.insert c)) := by
  rw [apply_insert]
  rcases Nat.eq_zero_or_pos c.len with hc | hc
  · rw [insertSegment_empty _ hc]
    exact h
  · have hout := outcome hS h.anchored c h.fits hc
    generalize (r.buffer.insertSegment (c.seq isn) c.data).1 = b at hout ⊢
    cases hout with
    | seen _ => exact h
    | full _ _ => exact ⟨h.anchored, h.started, h.fits, h.bytes, h.stored⟩
    | joined _ hstop _ => exact (h.append hS hstop.le c.fits).pullAll hS _
    | refused _ _ _ => exact h
    | held _ _ _ => exact h.store hS c hc

theorem apply_drain (r : Reader) :
    r.apply isn (.drain : ReadOp S) =
      ⟨{ r.buffer with
          pending := []
          totalBuffered := r.buffer.totalBuffered - r.buffer.pending.length },
        r.drained ++ r.buffer.pending⟩ := by
  obtain ⟨⟨pending, _, _, _, _, _, _⟩, _⟩ := r
  cases pending with
  | nil => rfl
  | cons x l => rfl

theorem sound_drain {r : Reader} (h : Sound S isn p₀ r) :
    Sound S isn p₀ (r.apply isn (.drain : ReadOp S)) := by
  rw [apply_drain]
  exact ⟨h.anchored, h.started, h.fits, (List.append_nil _).trans h.bytes, h.stored⟩

theorem sound_apply (hS : S.length < 2 ^ 31) {r : Reader} (h : Sound S isn p₀ r) (op : ReadOp S) :
    Sound S isn p₀ (r.apply isn op) := by
  cases op with
  | insert c => exact sound_insert hS h c
  | drain => exact sound_drain h

/-- A reader that knows where its stream starts. -/
def start (isn : UInt32) (c : Cut S) : Reader := ⟨ReassemblyBuffer.new.anchor (c.seq isn), []⟩

variable (isn) in
theorem next_start (hS : S.length < 2 ^ 31) (c : Cut S) : (start isn c).buffer.next isn = c.pos :=
  c.offset_seq _ hS

variable (isn) in
theorem sound_start (hS : S.length < 2 ^ 31) (c : Cut S) : Sound S isn c.pos (start isn c) := by
  have hnext := next_start isn hS c
  refine ⟨rfl, hnext.ge, hnext.trans_le ((Nat.le_add_right _ _).trans c.fits), ?_, ?_⟩
  · rw [hnext, slice_self]
    rfl
  · rintro k d ⟨⟩

theorem apply_first (c : Cut S) (hc : 0 < c.len) :
    new.apply isn (.insert c) = (start isn c).apply isn (.insert c) := by
  have hne : c.data.isEmpty = false := by
    rw [List.isEmpty_eq_false_iff, ← List.length_pos_iff, c.length_data]
    exact hc
  rw [apply_insert, apply_insert, start, new, insertSegment_anchor _ _ hne]

theorem run_concat (isn : UInt32) (ops : List (ReadOp S)) (op : ReadOp S) :
    run isn (ops ++ [op]) = (run isn ops).apply isn op := List.foldl_concat ..

theorem firstPos_concat (ops : List (ReadOp S)) (op : ReadOp S) :
    firstPos (ops ++ [op]) = (firstPos ops).or (firstPos [op]) := List.findSome?_append

/-- A reader is new until its first segment, and sound from it on. -/
theorem sound_run (hS : S.length < 2 ^ 31) (isn : UInt32) (ops : List (ReadOp S)) :
    (firstPos ops).elim (run isn ops = new) fun p₀ => Sound S isn p₀ (run isn ops) := by
  induction ops using List.reverseRecOn with
  | nil => rfl
  | append_singleton ops op ih =>
    rw [firstPos_concat, run_concat]
    cases hf : firstPos ops with
    | some p₀ =>
      rw [hf] at ih
      exact sound_apply hS ih op
    | none =>
      rw [hf, Option.elim_none] at ih
      rw [ih, Option.none_or]
      cases op with
      | drain => rfl
      | insert c =>
        rcases Nat.eq_zero_or_pos c.len with hc | hc
        · have hnone : firstPos [.insert c] = none := by simp [firstPos, hc]
          rw [hnone, Option.elim_none, apply_insert, insertSegment_empty _ hc]
        · have hsome : firstPos [.insert c] = some c.pos := by simp [firstPos, hc.ne']
          rw [hsome, Option.elim_some, apply_first c hc]
          exact sound_insert hS (sound_start _ hS c) c

/-- Whatever arrives and whenever the owner drains, what is delivered is a slice of the stream that
starts with the first segment. -/
theorem delivered_is_slice (S : List UInt8) (hS : S.length < 2 ^ 31) (isn : UInt32)
    (ops : List (ReadOp S)) :
    (firstPos ops).elim ((run isn ops).delivered = []) fun p =>
      ∃ q, p ≤ q ∧ q ≤ S.length ∧ (run isn ops).delivered = slice S p q := by
  have hrun := sound_run hS isn ops
  cases hf : firstPos ops with
  | none =>
    rw [hf] at hrun
    rw [Option.elim_none, show run isn ops = new from hrun]
    rfl
  | some p =>
    rw [hf] at hrun
    exact ⟨_, hrun.started, hrun.fits, hrun.bytes⟩

/-- Pieces that overlap out of order, across the wrap of the sequence numbers. -/
def reordered : List (ReadOp [1, 2, 3, 4, 5, 6]) :=
  [.insert ⟨2, 2, by decide⟩, .drain, .insert ⟨0, 3, by decide⟩, .insert ⟨5, 1, by decide⟩,
    .insert ⟨4, 2, by decide⟩]

theorem delivered_is_slice_reordered : ∃ q, 2 ≤ q ∧ q ≤ 6 ∧
    (run 0xfffffffd reordered).delivered = slice [1, 2, 3, 4, 5, 6] 2 q :=
  delivered_is_slice [1, 2, 3, 4, 5, 6] (by decide) 0xfffffffd reordered

end Reader

end Sound

end Pktscope

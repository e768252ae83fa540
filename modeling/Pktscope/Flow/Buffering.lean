import Pktscope.Flow.Reassembly

/-! # What a reassembly buffer holds

The counter of a buffer is the number of the bytes in it, whatever is done with the
buffer: consistent segments of one stream or not.
-/

namespace Pktscope

open Library

/-- What is done with a buffer; the segments need not be pieces of one stream. -/
inductive BufferOp where
  | insert (seq : UInt32) (data : List UInt8)
  | drain
  | fin

namespace ReassemblyBuffer

def apply (b : ReassemblyBuffer) : BufferOp → ReassemblyBuffer
  | .insert seq data => (b.insertSegment seq data).1
  | .drain => b.tryDrain.2
  | .fin => b.markFin

/-- A buffer after some operations. -/
def run (ops : List BufferOp) : ReassemblyBuffer := ops.foldl apply new

/-- The bytes in the two containers of a buffer. -/
def held (b : ReassemblyBuffer) : ℕ := b.pending.length + b.segments.total List.length

/-- The counter is right and within the cap. -/
structure Accounted (b : ReassemblyBuffer) : Prop where
  counted : b.bufferedLen = b.held
  within : b.bufferedLen ≤ maxStreamBuffer

/-- Nothing but the start of the stream and the cap has changed. -/
structure SameHeld (b b' : ReassemblyBuffer) : Prop where
  pending : b'.pending = b.pending
  segments : b'.segments = b.segments
  nextSeq : b.baseSeq.isSome → b'.nextSeq = b.nextSeq
  bufferedLen : b'.bufferedLen = b.bufferedLen

section Step

variable {b : ReassemblyBuffer}

theorem sameHeld_refl (b : ReassemblyBuffer) : b.SameHeld b := ⟨rfl, rfl, fun _ => rfl, rfl⟩

theorem sameHeld_anchor (b : ReassemblyBuffer) (seq : UInt32) : b.SameHeld (b.anchor seq) := by
  unfold anchor
  split
  · rename_i hb
    constructor
    · rfl
    · rfl
    · intro hs
      rw [Option.isNone_iff_eq_none] at hb
      rw [hb] at hs
      cases hs
    · rfl
  · exact sameHeld_refl b

theorem accounted_of_sameHeld {b' : ReassemblyBuffer} (hs : b.SameHeld b') (h : b.Accounted) :
    b'.Accounted := by
  constructor
  · rw [hs.bufferedLen, h.counted, held, held, hs.pending, hs.segments]
  · rw [hs.bufferedLen]
    exact h.within

theorem held_pull {seg : List UInt8} (hg : b.segments.get? b.nextSeq = some seg) :
    (b.pull seg).held = b.held := by
  have htotal : (b.segments.remove b.nextSeq).total List.length + seg.length =
      b.segments.total List.length := OrderedMap.total_remove hg
  simp only [held, pull, List.length_append]
  omega

theorem accounted_pullAll (n : ℕ) (h : b.Accounted) : (pullAll n b).Accounted := by
  apply pullAll_induction _ n b h
  intro b seg hg hb
  constructor
  · exact hb.counted.trans (held_pull hg).symm
  · exact hb.within

theorem accounted_append (h : b.Accounted) {data : List UInt8}
    (hroom : b.totalBuffered + data.length ≤ maxStreamBuffer) : (b.append data).Accounted := by
  have hcounted : b.totalBuffered = b.held := h.counted
  constructor
  · simp only [bufferedLen, append, held, List.length_append] at *
    omega
  · exact hroom

theorem accounted_store (h : b.Accounted) {seq : UInt32} {data : List UInt8}
    (hnew : b.segments.get? seq = none)
    (hroom : b.totalBuffered + data.length ≤ maxStreamBuffer) : (b.store seq data).Accounted := by
  have hcounted : b.totalBuffered = b.held := h.counted
  have htotal : (b.segments.insert seq data).total List.length =
      b.segments.total List.length + data.length := OrderedMap.total_insert hnew
  constructor
  · simp only [bufferedLen, store, held] at *
    omega
  · exact hroom

/-- A segment that is refused leaves the buffer as it was, one that is placed is counted. -/
theorem place_cases (b : ReassemblyBuffer) (seq : UInt32) (data : List UInt8) :
    ((b.place seq data).2 = .capped ∨ (b.place seq data).2 = .duplicate) ∧
        b.SameHeld (b.place seq data).1 ∨
      b.totalBuffered + data.length ≤ maxStreamBuffer ∧
        (b.place seq data = (pullAll b.segments.len (b.append data), .contiguous) ∨
          b.segments.get? seq = none ∧ b.place seq data = (b.store seq data, .gap)) := by
  unfold place
  split
  · exact Or.inl ⟨Or.inl rfl, sameHeld_refl b⟩
  · split
    · exact Or.inl ⟨Or.inl rfl, rfl, rfl, fun _ => rfl, rfl⟩
    · rename_i hroom
      split
      · exact Or.inr ⟨not_lt.mp hroom, Or.inl rfl⟩
      · cases hg : b.segments.get? seq with
        | none => exact Or.inr ⟨not_lt.mp hroom, Or.inr ⟨rfl, rfl⟩⟩
        | some d => exact Or.inl ⟨Or.inr rfl, sameHeld_refl b⟩

theorem sameHeld_trans {b₁ b₂ : ReassemblyBuffer} (h₁ : b.SameHeld b₁) (h₂ : b₁.SameHeld b₂)
    (hbase : b.baseSeq.isSome → b₁.baseSeq.isSome) : b.SameHeld b₂ := by
  constructor
  · exact h₂.pending.trans h₁.pending
  · exact h₂.segments.trans h₁.segments
  · intro hb
    exact (h₂.nextSeq (hbase hb)).trans (h₁.nextSeq hb)
  · exact h₂.bufferedLen.trans h₁.bufferedLen

theorem insertSegment_cases (b : ReassemblyBuffer) (seq : UInt32) (data : List UInt8) :
    b.insertSegment seq data = (b, .buffered) ∨
      b.insertSegment seq data = (b.anchor seq, .duplicate) ∨
        ∃ start part, b.insertSegment seq data = (b.anchor seq).place start part := by
  unfold insertSegment
  split
  · exact Or.inl rfl
  · right
    dsimp only
    split
    · exact Or.inl rfl
    · split
      · split
        · exact Or.inl rfl
        · exact Or.inr ⟨_, _, rfl⟩
      · exact Or.inr ⟨_, _, rfl⟩

theorem accounted_place (h : b.Accounted) (seq : UInt32) (data : List UInt8) :
    (b.place seq data).1.Accounted := by
  rcases place_cases b seq data with ⟨-, hsame⟩ | ⟨hroom, heq | ⟨hnew, heq⟩⟩
  · exact accounted_of_sameHeld hsame h
  · rw [heq]
    exact accounted_pullAll _ (accounted_append h hroom)
  · rw [heq]
    exact accounted_store h hnew hroom

theorem accounted_insertSegment (h : b.Accounted) (seq : UInt32) (data : List UInt8) :
    (b.insertSegment seq data).1.Accounted := by
  have hanchor := accounted_of_sameHeld (sameHeld_anchor b seq) h
  rcases insertSegment_cases b seq data with heq | heq | ⟨start, part, heq⟩
  · rw [heq]
    exact h
  · rw [heq]
    exact hanchor
  · rw [heq]
    exact accounted_place hanchor start part

theorem pending_le (h : b.Accounted) : b.pending.length ≤ b.totalBuffered := by
  have hcounted : b.totalBuffered = b.held := h.counted
  rw [hcounted]
  exact Nat.le_add_right _ _

theorem accounted_tryDrain (h : b.Accounted) : b.tryDrain.2.Accounted := by
  have hcounted : b.totalBuffered = b.held := h.counted
  have hwithin : b.totalBuffered ≤ maxStreamBuffer := h.within
  unfold tryDrain
  split
  · exact h
  · constructor
    · simp only [bufferedLen, held, List.length_nil] at *
      omega
    · simp only [bufferedLen]
      omega

theorem accounted_apply (h : b.Accounted) (op : BufferOp) : (b.apply op).Accounted := by
  cases op with
  | insert seq data => exact accounted_insertSegment h seq data
  | drain => exact accounted_tryDrain h
  | fin => exact ⟨h.counted, h.within⟩

/-- A call that refuses its segment changes nothing that the buffer holds. -/
theorem sameHeld_insertSegment (b : ReassemblyBuffer) (seq : UInt32) (data : List UInt8)
    (h : (b.insertSegment seq data).2 = .duplicate ∨ (b.insertSegment seq data).2 = .capped) :
    b.SameHeld (b.insertSegment seq data).1 := by
  have hbase : b.baseSeq.isSome → (b.anchor seq).baseSeq.isSome := by
    intro hb
    unfold anchor
    split
    · rfl
    · exact hb
  rcases insertSegment_cases b seq data with heq | heq | ⟨start, part, heq⟩
  · rw [heq]
    exact sameHeld_refl b
  · rw [heq]
    exact sameHeld_anchor b seq
  · rw [heq] at h ⊢
    rcases place_cases (b.anchor seq) start part with ⟨-, hsame⟩ | ⟨-, hplaced | ⟨-, hplaced⟩⟩
    · exact sameHeld_trans (sameHeld_anchor b seq) hsame hbase
    · rw [hplaced] at h
      rcases h with h | h <;> cases h
    · rw [hplaced] at h
      rcases h with h | h <;> cases h

end Step

theorem accounted_run (ops : List BufferOp) : (run ops).Accounted := by
  induction ops using List.reverseRecOn with
  | nil => exact ⟨rfl, Nat.zero_le _⟩
  | append_singleton ops op ih =>
    rw [run, List.foldl_concat]
    exact accounted_apply ih op

/-- After any operations the counter is right and within the cap, what is drained can be taken from
it, the release loop ends, and a refused segment leaves everything as it was. -/
theorem run_accounts (ops : List BufferOp) :
    (run ops).bufferedLen = (run ops).pending.length + (run ops).segments.total List.length ∧
      (run ops).bufferedLen ≤ maxStreamBuffer ∧
      (run ops).pending.length ≤ (run ops).totalBuffered ∧
      (∀ seq data,
        let b := ((run ops).anchor seq).append data
        (pullAll b.segments.len b).segments.get? (pullAll b.segments.len b).nextSeq = none) ∧
      ∀ seq data, ((run ops).insertSegment seq data).2 = .duplicate ∨
        ((run ops).insertSegment seq data).2 = .capped →
          (run ops).SameHeld ((run ops).insertSegment seq data).1 := by
  have hrun := accounted_run ops
  refine ⟨hrun.counted, hrun.within, pending_le hrun, ?_, ?_⟩
  · intro seq data
    exact get?_pullAll _ _ (Nat.le_refl _)
  · intro seq data
    exact sameHeld_insertSegment _ seq data

end ReassemblyBuffer

end Pktscope

import Mathlib.Data.List.Basic
import Mathlib.Tactic.Common

/-! # Buffered writing

A writer gathers small writes and hands them to its output in batches. The output may
fail after any number of bytes, and what was gathered is then still with the writer;
when the writer is dropped, what the output does not take is lost without a word.
-/

namespace Library

/-- An output, with the bytes that it has taken, and how many more it takes before it fails. -/
structure Output where
  taken : List UInt8
  room : Option ℕ

namespace Output

/-- How many bytes of a batch the output takes. -/
def takes (o : Output) (batch : List UInt8) : ℕ :=
  match o.room with
  | none => batch.length
  | some n => min n batch.length

def write (o : Output) (batch : List UInt8) : Output where
  taken := o.taken ++ batch.take (o.takes batch)
  room := o.room.map (· - o.takes batch)

theorem takes_of_room {o : Output} (h : o.room = none) (batch : List UInt8) :
    o.takes batch = batch.length := by rw [takes, h]

theorem room_write {o : Output} (h : o.room = none) (batch : List UInt8) :
    (o.write batch).room = none := by rw [write, h]; rfl

end Output

/-- A writer with the bytes that it has gathered. -/
structure BufWriter where
  inner : Output
  buffer : List UInt8

namespace BufWriter

def new : BufWriter := ⟨⟨[], none⟩, []⟩

/-- What the writer was handed, as far as it is not lost. -/
def written (w : BufWriter) : List UInt8 := w.inner.taken ++ w.buffer

/-- The writer, with an output that has room for some more bytes, or for all. -/
def under (w : BufWriter) (room : Option ℕ) : BufWriter :=
  { w with inner := { w.inner with room } }

/-- The batch is handed on; it has failed if some of it is left. -/
def flushBuf (w : BufWriter) : BufWriter where
  inner := w.inner.write w.buffer
  buffer := w.buffer.drop (w.inner.takes w.buffer)

/-- Bytes that would fill the buffer go past it. -/
def writeOrGather (capacity : ℕ) (w : BufWriter) (bytes : List UInt8) : Bool × BufWriter :=
  if capacity ≤ bytes.length then
    (w.inner.takes bytes == bytes.length, { w with inner := w.inner.write bytes })
  else (true, { w with buffer := w.buffer ++ bytes })

/-- A write, behind a flush if there is too little room for it. -/
def writeAll (capacity : ℕ) (w : BufWriter) (bytes : List UInt8) : Bool × BufWriter :=
  let spare := capacity - w.buffer.length
  if bytes.length < spare then (true, { w with buffer := w.buffer ++ bytes })
  else if bytes.length ≤ spare then w.writeOrGather capacity bytes
  else if w.flushBuf.buffer.isEmpty then w.flushBuf.writeOrGather capacity bytes
  else (false, w.flushBuf)

/-- Writes, up to the first that fails. -/
def writeEach (capacity : ℕ) (w : BufWriter) : List (List UInt8) → Bool × BufWriter
  | [] => (true, w)
  | bytes :: rest =>
    match w.writeAll capacity bytes with
    | (true, w) => w.writeEach capacity rest
    | (false, w) => (false, w)

/-- The bytes that an operation of the writer takes on: all of them if it succeeds, and otherwise the
first ones. What the output has taken stays, the buffer keeps within its capacity, and nothing fails
if the output takes everything. -/
structure Takes (capacity : ℕ) (w : BufWriter) (bytes : List UInt8) (r : Bool × BufWriter) : Prop where
  order : r.2.written <+: w.written ++ bytes
  grows : w.inner.taken <+: r.2.inner.taken
  whole : r.1 = true → r.2.written = w.written ++ bytes
  fits : w.buffer.length ≤ capacity → r.2.buffer.length ≤ capacity
  room : w.inner.room = none → r.1 = true ∧ r.2.inner.room = none

@[simp] theorem written_under (w : BufWriter) (room : Option ℕ) : (w.under room).written = w.written :=
  rfl

@[simp] theorem written_flushBuf (w : BufWriter) : w.flushBuf.written = w.written := by
  rw [written, flushBuf, Output.write, List.append_assoc, List.take_append_drop, written]

theorem buffer_flushBuf {w : BufWriter} (h : w.inner.room = none) : w.flushBuf.buffer = [] := by
  rw [flushBuf, w.inner.takes_of_room h, List.drop_length]

theorem taken_flushBuf (w : BufWriter) : w.inner.taken <+: w.flushBuf.inner.taken :=
  List.prefix_append _ _

theorem length_flushBuf_le (w : BufWriter) : w.flushBuf.buffer.length ≤ w.buffer.length := by
  rw [flushBuf, List.length_drop]
  exact Nat.sub_le _ _

variable {capacity : ℕ}

theorem takes_gather {w : BufWriter} {bytes : List UInt8}
    (hfits : bytes.length ≤ capacity - w.buffer.length) :
    Takes capacity w bytes (true, { w with buffer := w.buffer ++ bytes }) := by
  have hgather : ({ w with buffer := w.buffer ++ bytes } : BufWriter).written = w.written ++ bytes := by
    rw [written, written, List.append_assoc]
  constructor
  · exact hgather ▸ List.prefix_refl _
  · exact List.prefix_refl _
  · exact fun _ => hgather
  · intro h
    rw [List.length_append]
    omega
  · exact fun h => ⟨rfl, h⟩

theorem takes_writeOrGather {w : BufWriter} {bytes : List UInt8}
    (hfits : w.buffer = [] ∨ bytes.length ≤ capacity - w.buffer.length) :
    Takes capacity w bytes (w.writeOrGather capacity bytes) := by
  unfold writeOrGather
  split_ifs with hlarge
  · have hempty : bytes = [] ∨ w.buffer = [] := by
      rcases hfits with hempty | hfits
      · exact Or.inr hempty
      · cases hbuffer : w.buffer with
        | nil => exact Or.inr rfl
        | cons b l =>
          rw [hbuffer, List.length_cons] at hfits
          exact Or.inl (List.length_eq_zero_iff.mp (by omega))
    have hwritten : ({ w with inner := w.inner.write bytes } : BufWriter).written =
        w.written ++ bytes.take (w.inner.takes bytes) := by
      rcases hempty with rfl | hempty
      · rw [written, Output.write, written, List.take_nil, List.append_nil, List.append_nil]
      · rw [written, Output.write, written, hempty, List.append_nil, List.append_nil]
    constructor
    · rw [hwritten]
      exact (List.prefix_append_right_inj _).mpr (List.take_prefix _ _)
    · exact List.prefix_append _ _
    · intro hok
      rw [hwritten, beq_iff_eq.mp hok, List.take_length]
    · exact id
    · intro hroom
      exact ⟨beq_iff_eq.mpr (w.inner.takes_of_room hroom bytes), w.inner.room_write hroom bytes⟩
  · rcases hfits with hempty | hfits
    · refine takes_gather ?_
      rw [hempty, List.length_nil]
      omega
    · exact takes_gather hfits

theorem takes_writeAll (w : BufWriter) (bytes : List UInt8) :
    Takes capacity w bytes (w.writeAll capacity bytes) := by
  unfold writeAll
  dsimp only
  split_ifs with hlt hle hflushed
  · exact takes_gather (Nat.le_of_lt hlt)
  · exact takes_writeOrGather (Or.inr hle)
  · have hempty := List.isEmpty_iff.mp hflushed
    obtain ⟨horder, hgrows, hwhole, hfits, hroom⟩ :=
      @takes_writeOrGather capacity w.flushBuf bytes (Or.inl hempty)
    rw [written_flushBuf] at horder hwhole
    constructor
    · exact horder
    · exact w.taken_flushBuf.trans hgrows
    · exact hwhole
    · exact fun h => hfits (Nat.le_trans w.length_flushBuf_le h)
    · exact fun h => hroom (w.inner.room_write h _)
  · constructor
    · rw [written_flushBuf]
      exact List.prefix_append _ _
    · exact w.taken_flushBuf
    · rintro ⟨⟩
    · exact Nat.le_trans w.length_flushBuf_le
    · intro h
      rw [buffer_flushBuf h] at hflushed
      exact absurd rfl hflushed

theorem takes_writeEach (w : BufWriter) (chunks : List (List UInt8)) :
    Takes capacity w chunks.flatten (w.writeEach capacity chunks) := by
  induction chunks generalizing w with
  | nil =>
    rw [writeEach, List.flatten_nil]
    constructor
    · exact List.prefix_append _ _
    · exact List.prefix_refl _
    · rintro -
      rw [List.append_nil]
    · exact id
    · exact fun h => ⟨rfl, h⟩
  | cons bytes rest ih =>
    have hfirst := @takes_writeAll capacity w bytes
    rw [writeEach, List.flatten_cons]
    generalize w.writeAll capacity bytes = r at hfirst
    obtain ⟨ok, w'⟩ := r
    obtain ⟨horder, hgrows, hwhole, hfits, hroom⟩ := hfirst
    cases ok with
    | true =>
      obtain ⟨horder', hgrows', hwhole', hfits', hroom'⟩ := ih w'
      rw [hwhole rfl, List.append_assoc] at horder' hwhole'
      constructor
      · exact horder'
      · exact hgrows.trans hgrows'
      · exact hwhole'
      · exact fun h => hfits' (hfits h)
      · exact fun h => hroom' (hroom h).2
    | false =>
      constructor
      · rw [← List.append_assoc]
        exact horder.trans (List.prefix_append _ _)
      · exact hgrows
      · rintro ⟨⟩
      · exact hfits
      · exact fun h => absurd (hroom h).1 Bool.false_ne_true

end BufWriter

end Library

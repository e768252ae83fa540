import Mathlib.Data.Nat.Bitwise
import Pktscope.Library.Bytes

/-! # Parts at places

What a reader finds at a place is stated as a part that stands there. A part made
of parts stands where each of them stands behind the one before.
-/

namespace Library

open Parse

section Stands

variable {α : Type} {l part a b : List α} {pos n : ℕ} {x : α}

/-- A part of a list stands at a place. -/
def StandsAt (l : List α) (pos : ℕ) (part : List α) : Prop :=
  ∃ front back, front.length = pos ∧ l = front ++ (part ++ back)

theorem standsAt_of_append (front part back : List α) :
    StandsAt (front ++ (part ++ back)) front.length part := ⟨front, back, rfl, rfl⟩

theorem standsAt_whole (l : List α) : StandsAt l 0 l := ⟨[], [], rfl, (List.append_nil l).symm⟩

theorem standsAt_append : StandsAt l pos (a ++ b) ↔ StandsAt l pos a ∧ StandsAt l (pos + a.length) b := by
  constructor
  · rintro ⟨front, back, hlen, rfl⟩
    constructor
    · exact ⟨front, b ++ back, hlen, by rw [List.append_assoc]⟩
    · exact ⟨front ++ a, back, by rw [List.length_append, hlen], by simp⟩
  · rintro ⟨⟨front, back, hlen, rfl⟩, ⟨front', back', hlen', heq⟩⟩
    rw [← List.append_assoc] at heq
    obtain ⟨hfront, hback⟩ := List.append_inj heq (by rw [List.length_append, hlen, hlen'])
    exact ⟨front, back', hlen, by rw [hback, List.append_assoc]⟩

theorem standsAt_cons : StandsAt l pos (x :: a) ↔ StandsAt l pos [x] ∧ StandsAt l (pos + 1) a :=
  standsAt_append (a := [x])

theorem StandsAt.left (h : StandsAt l pos (a ++ b)) : StandsAt l pos a := (standsAt_append.mp h).1

theorem StandsAt.right (h : StandsAt l pos (a ++ b)) : StandsAt l (pos + a.length) b :=
  (standsAt_append.mp h).2

theorem StandsAt.tail (h : StandsAt l pos (x :: a)) : StandsAt l (pos + 1) a :=
  (standsAt_cons.mp h).2

theorem standsAt_slice {b : ℕ} (hab : pos ≤ b) (hb : b ≤ l.length) :
    StandsAt l pos (Library.slice l pos b) := by
  refine ⟨l.take pos, l.drop b, by rw [List.length_take]; omega, ?_⟩
  have hsplit : l = l.take b ++ l.drop b := (List.take_append_drop b l).symm
  have htake : l.take b = l.take pos ++ (l.take b).drop pos := by
    conv_lhs => rw [← List.take_append_drop pos (l.take b), List.take_take, min_eq_left hab]
  rw [Library.slice, ← List.append_assoc, ← htake]
  exact hsplit

/-- A part stands where it stood when more is put before and behind. -/
theorem StandsAt.extend (h : StandsAt l pos part) (before after : List α) :
    StandsAt (before ++ (l ++ after)) (before.length + pos) part := by
  obtain ⟨front, back, rfl, rfl⟩ := h
  refine ⟨before ++ front, back ++ after, List.length_append, ?_⟩
  simp only [List.append_assoc]

theorem standsAt_prefix_iff : StandsAt l pos part ↔ pos ≤ l.length ∧ part <+: l.drop pos := by
  constructor
  · rintro ⟨front, back, rfl, rfl⟩
    rw [List.drop_left]
    exact ⟨by simp, List.prefix_append _ _⟩
  · rintro ⟨hle, back, hback⟩
    refine ⟨l.take pos, back, List.length_take_of_le hle, ?_⟩
    rw [hback, List.take_append_drop]

instance [DecidableEq α] : Decidable (StandsAt l pos part) :=
  decidable_of_iff _ standsAt_prefix_iff.symm

/-- A part stands behind a front where it stands without it. -/
theorem standsAt_shift (front : List α) :
    StandsAt (front ++ l) (front.length + pos) part ↔ StandsAt l pos part := by
  rw [standsAt_prefix_iff, standsAt_prefix_iff, List.length_append, Nat.add_le_add_iff_left,
    List.drop_append, List.drop_of_length_le (Nat.le_add_right _ _), Nat.add_sub_cancel_left,
    List.nil_append]

theorem StandsAt.le (h : StandsAt l pos part) : pos + part.length ≤ l.length := by
  obtain ⟨front, back, rfl, rfl⟩ := h
  simp only [List.length_append]
  omega

theorem StandsAt.lt (h : StandsAt l pos (x :: a)) : pos < l.length :=
  Nat.lt_of_lt_of_le (Nat.lt_add_of_pos_right (Nat.succ_pos a.length)) h.le

theorem StandsAt.getElem? (h : StandsAt l pos (x :: a)) : l[pos]? = some x := by
  obtain ⟨front, back, rfl, rfl⟩ := h
  simp

theorem StandsAt.slice (h : StandsAt l pos part) : slice l pos (pos + part.length) = part := by
  obtain ⟨front, back, rfl, rfl⟩ := h
  simp [Library.slice, List.take_append, List.take_of_length_le]

/-- Parts of one length that stand at one place are the same. -/
theorem StandsAt.unique (h : StandsAt l pos a) (h' : StandsAt l pos b)
    (hlen : a.length = b.length) : a = b := by
  rw [← h.slice, ← h'.slice, hlen]

theorem StandsAt.index (h : StandsAt l pos (x :: a)) : index l pos = ok x := by
  rw [Library.index, h.getElem?]

theorem StandsAt.sliceAt (h : StandsAt l pos part) (hn : n = pos + part.length) :
    sliceAt l pos n = ok part := by
  have hle := h.le
  rw [Library.sliceAt, if_pos (by omega), hn, h.slice]

theorem StandsAt.getSlice (h : StandsAt l pos part) (hn : n = pos + part.length) :
    getSlice l pos n = ok part := by
  have hle := h.le
  rw [Library.getSlice, if_pos (by omega), hn, h.slice]

end Stands

section Numbers

variable {data rest : List UInt8} {o k pos : ℕ} {b : UInt8}

theorem standsAt_peek (h : pos < data.length) : StandsAt data pos [Library.peek data pos] := by
  have hslice := standsAt_slice (Nat.le_add_right pos 1) h
  rwa [slice_cons h (Nat.lt_succ_self pos), slice_self, ← peek_eq_getElem h] at hslice

theorem StandsAt.peek (h : StandsAt data pos (b :: rest)) : peek data pos = b := by
  rw [Library.peek, List.getD_eq_getElem?_getD, h.getElem?, Option.getD_some]

/-- A number as two bytes, the high one first. -/
def toBe16 (n : UInt16) : List UInt8 := [UInt8.ofNat (n.toNat / 2 ^ 8), UInt8.ofNat n.toNat]

def toBe24 (n : ℕ) : List UInt8 :=
  [UInt8.ofNat (n / 2 ^ 16), UInt8.ofNat (n / 2 ^ 8), UInt8.ofNat n]

def toBe32 (n : UInt32) : List UInt8 :=
  [UInt8.ofNat (n.toNat / 2 ^ 24), UInt8.ofNat (n.toNat / 2 ^ 16), UInt8.ofNat (n.toNat / 2 ^ 8),
    UInt8.ofNat n.toNat]

@[simp] theorem length_toBe16 (n : UInt16) : (toBe16 n).length = 2 := rfl

@[simp] theorem length_toBe24 (n : ℕ) : (toBe24 n).length = 3 := rfl

@[simp] theorem length_toBe32 (n : UInt32) : (toBe32 n).length = 4 := rfl

/-- A vector behind its length in one byte. -/
def vec8 (l : List UInt8) : List UInt8 := UInt8.ofNat l.length :: l

/-- A vector behind its length in two bytes. -/
def vec16 (l : List UInt8) : List UInt8 := toBe16 (UInt16.ofNat l.length) ++ l

@[simp] theorem length_vec8 (l : List UInt8) : (vec8 l).length = l.length + 1 := rfl

@[simp] theorem length_vec16 (l : List UInt8) : (vec16 l).length = l.length + 2 := by
  simp only [vec16, List.length_append, length_toBe16]
  omega

theorem be16_toBe16 (n : UInt16) :
    be16 (UInt8.ofNat (n.toNat / 2 ^ 8)) (UInt8.ofNat n.toNat) = n := by
  have hn : n.toNat < 2 ^ 16 := n.toNat_lt
  rw [← UInt16.toNat_inj]
  simp only [be16, UInt16.toNat_ofNat', UInt8.toNat_ofNat']
  omega

theorem toBe16_inj {m n : UInt16} (h : toBe16 m = toBe16 n) : m = n := by
  injection h with hhi hlo
  injection hlo with hlo
  rw [← be16_toBe16 m, ← be16_toBe16 n, hhi, hlo]

/-- Two bytes as the number that they give. -/
theorem toBe16_ofNat {hi lo : UInt8} {n : ℕ} (h : hi.toNat * 256 + lo.toNat = n) :
    toBe16 (UInt16.ofNat n) = [hi, lo] := by
  have hhi := hi.toNat_lt
  have hlo := lo.toNat_lt
  rw [toBe16, UInt16.toNat_ofNat', Nat.mod_eq_of_lt (by omega)]
  congr 2
  · rw [← UInt8.toNat_inj, UInt8.toNat_ofNat']
    omega
  · rw [← UInt8.toNat_inj, UInt8.toNat_ofNat']
    omega

theorem be32_toBe32 (n : UInt32) :
    be32 (UInt8.ofNat (n.toNat / 2 ^ 24)) (UInt8.ofNat (n.toNat / 2 ^ 16))
      (UInt8.ofNat (n.toNat / 2 ^ 8)) (UInt8.ofNat n.toNat) = n := by
  have hn : n.toNat < 2 ^ 32 := n.toNat_lt
  rw [← UInt32.toNat_inj]
  simp only [be32, UInt32.toNat_ofNat', UInt8.toNat_ofNat']
  omega

theorem toBe32_be32 (a b c d : UInt8) : toBe32 (be32 a b c d) = [a, b, c, d] := by
  have ha := a.toNat_lt
  have hb := b.toNat_lt
  have hc := c.toNat_lt
  have hd := d.toNat_lt
  simp only [toBe32, be32, List.cons.injEq, ← UInt8.toNat_inj, UInt8.toNat_ofNat',
    UInt32.toNat_ofNat', and_true]
  omega

section Read

variable (hs : data.length < maxBytes)
include hs

theorem StandsAt.byteAt (h : StandsAt data (o + k) (b :: rest)) : byteAt data o k = ok b := by
  rw [byteAt_eq hs h.lt, h.peek]

theorem StandsAt.be16At {n : UInt16} (h : StandsAt data (o + k) (toBe16 n ++ rest)) :
    be16At data o k = ok n := by
  have hlo := h.left.tail
  rw [be16At_eq hs hlo.lt, h.peek, hlo.peek, be16_toBe16]

theorem StandsAt.be24At {n : ℕ} (h : StandsAt data (o + k) (toBe24 n ++ rest)) (hn : n < 2 ^ 24) :
    be24At data o k = ok n := by
  have hmid := h.left.tail
  have hlo := hmid.tail
  rw [be24At_eq hs hlo.lt, h.peek, hmid.peek, hlo.peek]
  simp only [UInt8.toNat_ofNat']
  congr 1
  omega

theorem StandsAt.be32At {n : UInt32} (h : StandsAt data (o + k) (toBe32 n ++ rest)) :
    be32At data o k = ok n := by
  have hb := h.left.tail
  have hc := hb.tail
  have hd := hc.tail
  rw [be32At_eq hs hd.lt, h.peek, hb.peek, hc.peek, hd.peek, be32_toBe32]

end Read

theorem and_0x7f (b : UInt8) : (b &&& 0x7f).toNat = b.toNat % 128 := by
  rw [UInt8.toNat_and]
  exact Nat.and_two_pow_sub_one_eq_mod b.toNat 7

/-- The top bit of a word. -/
theorem and_0x8000_ne (w : UInt16) : (w &&& 0x8000 != 0) = decide (2 ^ 15 ≤ w.toNat) := by
  have hw := w.toNat_lt
  have hmask : (w &&& 0x8000).toNat = (w.toNat.testBit 15).toNat * 2 ^ 15 := by
    rw [UInt16.toNat_and]
    exact Nat.and_two_pow w.toNat 15
  have hbit : w.toNat.testBit 15 = decide (2 ^ 15 ≤ w.toNat) := by
    rw [Nat.testBit_eq_decide_div_mod_eq]
    exact decide_eq_decide.mpr (by omega)
  rw [← hbit]
  cases htop : w.toNat.testBit 15 with
  | false =>
    rw [htop] at hmask
    rw [UInt16.toNat_inj.mp (hmask.trans UInt16.toNat_zero.symm)]
    rfl
  | true =>
    rw [bne_iff_ne]
    intro hzero
    rw [hzero, htop] at hmask
    cases hmask

/-- The four low bits of a word. -/
theorem and_0x000f (w : UInt16) : (w &&& 0x000f).toUInt8 = UInt8.ofNat (w.toNat % 16) := by
  have hmask : (w &&& 0x000f).toNat = w.toNat % 2 ^ 4 := by
    rw [UInt16.toNat_and]
    exact Nat.and_two_pow_sub_one_eq_mod w.toNat 4
  rw [← UInt8.toNat_inj, UInt16.toNat_toUInt8, hmask, UInt8.toNat_ofNat']
  rfl

theorem and_mask_eq_zero (b : UInt8) {i : ℕ} (hi : i < 8) :
    b &&& UInt8.ofNat (2 ^ i) = 0 ↔ b.toNat / 2 ^ i % 2 = 0 := by
  have hpow : 2 ^ i < 2 ^ 8 := Nat.pow_lt_pow_right (by decide) hi
  rw [← UInt8.toNat_inj, UInt8.toNat_and, UInt8.toNat_ofNat', Nat.mod_eq_of_lt hpow,
    Nat.and_two_pow, Nat.testBit_eq_decide_div_mod_eq]
  rcases Nat.mod_two_eq_zero_or_one (b.toNat / 2 ^ i) with h | h
  · simp [h]
  · simp [h]

theorem and_0x80 (b : UInt8) : b &&& 0x80 = 0 ↔ b.toNat / 128 % 2 = 0 :=
  and_mask_eq_zero b (i := 7) (by decide)

theorem and_mask_ne_zero (b : UInt8) {i : ℕ} (hi : i < 8) :
    (b &&& UInt8.ofNat (2 ^ i) != 0) = true ↔ b.toNat / 2 ^ i % 2 = 1 := by
  rw [bne_iff_ne, Ne, and_mask_eq_zero b hi]
  omega

theorem and_0x80_ne (b : UInt8) : (b &&& 0x80 != 0) = true ↔ b.toNat / 128 % 2 = 1 :=
  and_mask_ne_zero b (i := 7) (by decide)

theorem and_0x40_ne (b : UInt8) : (b &&& 0x40 != 0) = true ↔ b.toNat / 64 % 2 = 1 :=
  and_mask_ne_zero b (i := 6) (by decide)

theorem and_0x20_ne (b : UInt8) : (b &&& 0x20 != 0) = true ↔ b.toNat / 32 % 2 = 1 :=
  and_mask_ne_zero b (i := 5) (by decide)

end Numbers

end Library

import Pktscope.Library.Checked

/-! # Reading bytes

Big-endian numbers read at an offset of a byte string. A read inside the string
meets no fault and depends only on the bytes it reads.
-/

namespace Library

open Parse

/-- The most bytes that a slice can have on a 64-bit target. -/
def maxBytes : ℕ := 2 ^ 63

def be16 (hi lo : UInt8) : UInt16 := UInt16.ofNat (hi.toNat * 256 + lo.toNat)

def be32 (a b c d : UInt8) : UInt32 :=
  UInt32.ofNat (((a.toNat * 256 + b.toNat) * 256 + c.toNat) * 256 + d.toNat)

/-- A number of any width, the most significant byte first. -/
def beNat (bytes : List UInt8) : ℕ := bytes.foldl (fun n b => n * 256 + b.toNat) 0

section Read

variable (data : List UInt8) (o k : ℕ)

/-- `data[o + k]` -/
def byteAt : Parse UInt8 := do
  let i ← addUsize o k
  index data i

/-- `u16::from_be_bytes([data[o + k], data[o + k + 1]])` -/
def be16At : Parse UInt16 := do
  let a ← byteAt data o k
  let b ← byteAt data o (k + 1)
  return be16 a b

def be32At : Parse UInt32 := do
  let a ← byteAt data o k
  let b ← byteAt data o (k + 1)
  let c ← byteAt data o (k + 2)
  let d ← byteAt data o (k + 3)
  return be32 a b c d

/-- Three bytes as a size. -/
def be24At : Parse ℕ := do
  let a ← byteAt data o k
  let b ← byteAt data o (k + 1)
  let c ← byteAt data o (k + 2)
  return (a.toNat * 256 + b.toNat) * 256 + c.toNat

/-- `n` bytes read one by one. -/
def bytesAt : ℕ → ℕ → Parse (List UInt8)
  | _, 0 => return []
  | k, n + 1 => do
    let b ← byteAt data o k
    let rest ← bytesAt (k + 1) n
    return b :: rest

/-- The byte at a place, zero past the end. -/
def peek (i : ℕ) : UInt8 := data.getD i 0

theorem accepts_byteAt : Accepts (byteAt data o k) :=
  (accepts_addUsize _ _).bind fun _ => accepts_index _ _

theorem accepts_be16At : Accepts (be16At data o k) :=
  (accepts_byteAt _ _ _).bind fun _ => (accepts_byteAt _ _ _).bind fun _ => accepts_ok _

theorem accepts_be32At : Accepts (be32At data o k) :=
  (accepts_byteAt _ _ _).bind fun _ => (accepts_byteAt _ _ _).bind fun _ =>
    (accepts_byteAt _ _ _).bind fun _ => (accepts_byteAt _ _ _).bind fun _ => accepts_ok _

theorem accepts_be24At : Accepts (be24At data o k) :=
  (accepts_byteAt _ _ _).bind fun _ => (accepts_byteAt _ _ _).bind fun _ =>
    (accepts_byteAt _ _ _).bind fun _ => accepts_ok _

end Read

section Inside

variable {data : List UInt8} {o k n : ℕ}

theorem peek_eq_getElem (h : o < data.length) : peek data o = data[o] := by
  rw [peek, List.getD_eq_getElem?_getD, List.getElem?_eq_getElem h, Option.getD_some]

theorem index_eq_peek (h : o < data.length) : index data o = ok (peek data o) := by
  rw [index, peek, List.getD_eq_getElem?_getD, List.getElem?_eq_getElem h]
  rfl

variable (hs : data.length < maxBytes)
include hs

theorem addUsize_eq (ho : o ≤ data.length) (hk : k ≤ maxBytes) : addUsize o k = ok (o + k) := by
  unfold maxBytes at hs hk
  rw [addUsize, if_pos (by omega)]

theorem byteAt_eq (h : o + k < data.length) : byteAt data o k = ok (peek data (o + k)) := by
  rw [byteAt, addUsize_eq hs (by omega) (by unfold maxBytes at *; omega)]
  exact index_eq_peek h

theorem be16At_eq (h : o + k + 1 < data.length) :
    be16At data o k = ok (be16 (peek data (o + k)) (peek data (o + k + 1))) := by
  rw [be16At, byteAt_eq hs (by omega), byteAt_eq hs (by omega)]
  rfl

theorem be32At_eq (h : o + k + 3 < data.length) :
    be32At data o k = ok (be32 (peek data (o + k)) (peek data (o + k + 1))
      (peek data (o + k + 2)) (peek data (o + k + 3))) := by
  rw [be32At, byteAt_eq hs (by omega), byteAt_eq hs (by omega), byteAt_eq hs (by omega),
    byteAt_eq hs (by omega)]
  rfl

theorem be24At_eq (h : o + k + 2 < data.length) :
    be24At data o k = ok (((peek data (o + k)).toNat * 256 + (peek data (o + k + 1)).toNat) * 256 +
      (peek data (o + k + 2)).toNat) := by
  rw [be24At, byteAt_eq hs (by omega), byteAt_eq hs (by omega), byteAt_eq hs (by omega)]
  rfl

theorem bytesAt_eq (h : o + k + n ≤ data.length) :
    bytesAt data o k n = ok (slice data (o + k) (o + k + n)) := by
  induction n generalizing k with
  | zero =>
    rw [Nat.add_zero, slice_self]
    rfl
  | succ n ih =>
    have hlt : o + k < data.length := by omega
    rw [bytesAt, byteAt_eq hs hlt, ih (by omega)]
    change ok (peek data (o + k) :: slice data (o + (k + 1)) (o + (k + 1) + n)) = _
    rw [slice_cons hlt (by omega), peek, List.getD_eq_getElem?_getD, List.getElem?_eq_getElem hlt,
      Option.getD_some, Nat.add_assoc o k 1]
    congr 3
    omega

end Inside

/-- A prefix has the bytes of the whole. -/
theorem peek_of_prefix {p data : List UInt8} {i : ℕ} (h : p <+: data) (hi : i < p.length) :
    peek data i = peek p i := by
  obtain ⟨t, rfl⟩ := h
  rw [peek, peek, List.getD_eq_getElem?_getD, List.getD_eq_getElem?_getD,
    List.getElem?_append_left hi]

section Extend

variable (data t : List UInt8) (o k n : ℕ)

/-- A read inside a string finds the same bytes when more follow. -/
theorem refines_index (i : ℕ) : Refines Eq (index data i) (index (data ++ t) i) := by
  intro b hb
  unfold index at hb ⊢
  by_cases hi : i < data.length
  · rw [List.getElem?_append_left hi]
    exact ⟨b, hb, rfl⟩
  · rw [List.getElem?_eq_none (Nat.le_of_not_lt hi)] at hb
    cases hb

theorem refines_getByte (i : ℕ) : Refines Eq (ofOption data[i]?) (ofOption (data ++ t)[i]?) := by
  intro b hb
  by_cases hi : i < data.length
  · rw [List.getElem?_append_left hi]
    exact ⟨b, hb, rfl⟩
  · rw [List.getElem?_eq_none (Nat.le_of_not_lt hi)] at hb
    cases hb

theorem refines_byteAt : Refines Eq (byteAt data o k) (byteAt (data ++ t) o k) :=
  (Refines.refl _).bind_eq (refines_index data t)

theorem refines_be16At : Refines Eq (be16At data o k) (be16At (data ++ t) o k) :=
  (refines_byteAt data t o k).bind_eq fun _ =>
    (refines_byteAt data t o (k + 1)).bind_eq fun _ => refines_ok rfl

theorem refines_be32At : Refines Eq (be32At data o k) (be32At (data ++ t) o k) :=
  (refines_byteAt data t o k).bind_eq fun _ =>
    (refines_byteAt data t o (k + 1)).bind_eq fun _ =>
      (refines_byteAt data t o (k + 2)).bind_eq fun _ =>
        (refines_byteAt data t o (k + 3)).bind_eq fun _ => refines_ok rfl

theorem refines_bytesAt : Refines Eq (bytesAt data o k n) (bytesAt (data ++ t) o k n) := by
  induction n generalizing k with
  | zero => exact Refines.refl _
  | succ n ih =>
    exact (refines_byteAt data t o k).bind_eq fun _ => (ih (k + 1)).bind_eq fun _ => refines_ok rfl

variable (a b : ℕ)

theorem refines_ite_slice {x : Parse (List UInt8)} (hx : ∀ bytes, x ≠ ok bytes) :
    Refines Eq (if a ≤ b ∧ b ≤ data.length then ok (slice data a b) else x)
      (if a ≤ b ∧ b ≤ (data ++ t).length then ok (slice (data ++ t) a b) else x) := by
  intro bytes hbytes
  by_cases hab : a ≤ b ∧ b ≤ data.length
  · rw [if_pos hab] at hbytes
    rw [if_pos ⟨hab.1, Nat.le_trans hab.2 (List.length_append ▸ Nat.le_add_right _ _)⟩,
      slice_append_of_le hab.2]
    exact ⟨bytes, hbytes, rfl⟩
  · rw [if_neg hab] at hbytes
    exact absurd hbytes (hx bytes)

theorem refines_sliceAt : Refines Eq (sliceAt data a b) (sliceAt (data ++ t) a b) :=
  refines_ite_slice data t a b nofun

theorem refines_getSlice : Refines Eq (getSlice data a b) (getSlice (data ++ t) a b) :=
  refines_ite_slice data t a b nofun

/-- The bytes from a place on, of which there are more. -/
theorem refines_checkedSub_length :
    Refines (fun r r' => r' = r + t.length) (checkedSub data.length o)
      (checkedSub (data ++ t).length o) := by
  intro r hr
  unfold checkedSub at hr ⊢
  rw [List.length_append]
  by_cases ho : o ≤ data.length
  · rw [if_pos ho] at hr
    cases hr
    rw [if_pos (by omega)]
    exact ⟨_, rfl, by omega⟩
  · rw [if_neg ho] at hr
    cases hr

end Extend

section Shift

variable (front data : List UInt8) {o k a b : ℕ}

/-- A read behind a front finds what it finds without it. -/
theorem index_shift (i : ℕ) : index (front ++ data) (front.length + i) = index data i := by
  unfold index
  rw [List.getElem?_append_right (Nat.le_add_right _ _), Nat.add_sub_cancel_left]

theorem sliceAt_shift :
    sliceAt (front ++ data) (front.length + a) (front.length + b) = sliceAt data a b := by
  unfold sliceAt
  rw [List.length_append]
  refine ite_congr (propext (by omega)) (fun _ => ?_) fun _ => rfl
  rw [slice, slice, List.take_append, List.take_of_length_le (Nat.le_add_right _ _),
    Nat.add_sub_cancel_left, List.drop_append, List.drop_of_length_le (Nat.le_add_right _ _),
    Nat.add_sub_cancel_left, List.nil_append]

variable {front data} (hs : (front ++ data).length < maxBytes) (ho : o ≤ data.length)
include hs ho

theorem addUsize_shift (hk : k ≤ 2 ^ 32) : addUsize (front.length + o) k = ok (front.length + (o + k)) ∧
    addUsize o k = ok (o + k) := by
  have hmax : maxBytes = 2 ^ 63 := rfl
  rw [List.length_append] at hs
  constructor
  · rw [addUsize, if_pos (by omega), Nat.add_assoc]
  · rw [addUsize, if_pos (by omega)]

theorem byteAt_shift (hk : k ≤ 2 ^ 32) :
    byteAt (front ++ data) (front.length + o) k = byteAt data o k := by
  obtain ⟨hmoved, hplain⟩ := addUsize_shift hs ho hk
  rw [byteAt, byteAt, hmoved, hplain, ok_bind, ok_bind, index_shift]

theorem be16At_shift (hk : k < 2 ^ 32) :
    be16At (front ++ data) (front.length + o) k = be16At data o k := by
  rw [be16At, be16At, byteAt_shift hs ho (by omega), byteAt_shift hs ho hk]

theorem be32At_shift (hk : k < 2 ^ 31) :
    be32At (front ++ data) (front.length + o) k = be32At data o k := by
  rw [be32At, be32At, byteAt_shift hs ho (by omega), byteAt_shift hs ho (by omega),
    byteAt_shift hs ho (by omega), byteAt_shift hs ho (by omega)]

end Shift

end Library

import Mathlib.Algebra.GroupWithZero.Nat
import Mathlib.Data.Nat.Notation
import Mathlib.Order.Defs.LinearOrder

/-! # Serial numbers

Sequence numbers wrap at `2 ^ 32`. Within half of that range their comparison is
the order of the offsets from a common base.
-/

namespace Library

/-- The order of the numbers themselves, in which a map keeps them. -/
instance instLinearOrderUInt32 : LinearOrder UInt32 where
  le_refl := UInt32.le_refl
  le_trans _ _ _ := UInt32.le_trans
  lt_iff_le_not_ge a b := by
    rw [UInt32.lt_iff_toNat_lt, UInt32.le_iff_toNat_le, UInt32.le_iff_toNat_le]
    omega
  le_antisymm _ _ := UInt32.le_antisymm
  le_total := UInt32.le_total
  toDecidableLE := inferInstance

/-- `a < b` for sequence numbers: their wrapped difference is negative. -/
def serialLt (a b : UInt32) : Bool := decide ((a - b).toInt32 < 0)

/-- How far a sequence number is past a base. -/
def offset (base a : UInt32) : ℕ := (a - base).toNat

section Offset

variable {base a b : UInt32} {n : ℕ}

theorem serialLt_iff (a b : UInt32) : serialLt a b = true ↔ 2 ^ 31 ≤ (a - b).toNat := by
  unfold serialLt
  rw [decide_eq_true_iff, Int32.lt_iff_toInt_lt]
  generalize a - b = x
  change x.toBitVec.toInt < 0 ↔ 2 ^ 31 ≤ x.toBitVec.toNat
  rw [BitVec.toInt_eq_toNat_cond]
  have hlt := x.toBitVec.isLt
  split <;> omega

theorem serialLt_iff_offset (ha : offset base a < 2 ^ 31) (hb : offset base b < 2 ^ 31) :
    serialLt a b = true ↔ offset base a < offset base b := by
  rw [serialLt_iff]
  unfold offset at *
  have hA := a.toNat_lt
  have hB := b.toNat_lt
  have hbase := base.toNat_lt
  simp only [UInt32.toNat_sub] at *
  omega

theorem offset_self (base : UInt32) : offset base base = 0 := by
  rw [offset, UInt32.sub_self]
  rfl

theorem offset_add (h : offset base a + n < 2 ^ 32) :
    offset base (a + UInt32.ofNat n) = offset base a + n := by
  have hn : (UInt32.ofNat n).toNat = n :=
    UInt32.toNat_ofNat_of_lt' (Nat.lt_of_le_of_lt (Nat.le_add_left n _) h)
  unfold offset at *
  have hA := a.toNat_lt
  have hbase := base.toNat_lt
  simp only [UInt32.toNat_sub, UInt32.toNat_add, hn] at *
  omega

theorem offset_base_add (base : UInt32) (h : n < 2 ^ 32) :
    offset base (base + UInt32.ofNat n) = n := by
  rw [offset_add (by rw [offset_self]; omega), offset_self, Nat.zero_add]

theorem eq_of_offset (h : offset base a = n) : a = base + UInt32.ofNat n := by
  rw [← h, offset, UInt32.ofNat_toNat, UInt32.add_comm, UInt32.sub_add_cancel]

theorem offset_inj : offset base a = offset base b ↔ a = b :=
  ⟨fun h => (eq_of_offset h).trans (eq_of_offset rfl).symm, fun h => h ▸ rfl⟩

theorem toNat_sub_eq (h : offset base a ≤ offset base b) :
    (b - a).toNat = offset base b - offset base a := by
  unfold offset at *
  have hA := a.toNat_lt
  have hB := b.toNat_lt
  have hbase := base.toNat_lt
  simp only [UInt32.toNat_sub] at *
  omega

end Offset

end Library

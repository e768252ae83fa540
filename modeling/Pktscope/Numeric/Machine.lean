import Mathlib.Algebra.GroupWithZero.Nat
import Mathlib.Algebra.Order.Ring.Unbundled.Rat
import Mathlib.Data.Int.Init
import Mathlib.Data.Rat.Init
import Mathlib.Order.Defs.LinearOrder
import Mathlib.Order.Lattice

/-! # Machine numbers

The `i64` operations that clock arithmetic uses, and the operations on `f64`
that the volume baseline and the round-trip estimates use. Floating point is an
interface: the code's own type is one instance, exact rationals are another.
-/

namespace Pktscope

namespace I64

def minValue : ℤ := -2 ^ 63

def maxValue : ℤ := 2 ^ 63 - 1

/-- The values of the type. -/
def InRange (x : ℤ) : Prop := minValue ≤ x ∧ x ≤ maxValue

instance (x : ℤ) : Decidable (InRange x) := inferInstanceAs (Decidable (_ ∧ _))

/-- Two's complement reduction, the effect of a cast or a wrapping operation. -/
def wrap (x : ℤ) : ℤ := Int.bmod x (2 ^ 64)

def saturatingAdd (x y : ℤ) : ℤ := max minValue (min maxValue (x + y))

def sub (x y : ℤ) : ℤ := wrap (x - y)

theorem saturatingAdd_inRange (x y : ℤ) : InRange (saturatingAdd x y) := by
  unfold InRange saturatingAdd minValue maxValue
  omega

theorem wrap_of_inRange {x : ℤ} (h : InRange x) : wrap x = x := by
  unfold InRange minValue maxValue at h
  unfold wrap
  rw [Int.bmod_eq_of_le] <;> omega

end I64

/-- The floating-point operations that the code uses. -/
class F64 (F : Type) extends Add F, Sub F, Mul F, Div F, OfScientific F where
  ofNat : ℕ → F
  sqrt : F → F
  max : F → F → F
  infinity : F
  isFinite : F → Bool
  lt : F → F → Bool
  le : F → F → Bool
  /-- The cast `as u64`. -/
  toU64 : F → ℕ
  /-- The format `{:.1}`. -/
  fmt1 : F → String

/-- Exact rationals; the root is exact on squares, and infinity is a large number. -/
instance : F64 ℚ where
  ofNat n := n
  sqrt q := mkRat q.num.toNat.sqrt q.den.sqrt
  max := Max.max
  infinity := 2 ^ 1024
  isFinite q := decide (-2 ^ 1024 < q ∧ q < 2 ^ 1024)
  lt a b := decide (a < b)
  le a b := decide (a ≤ b)
  toU64 q := q.floor.toNat
  fmt1 q := toString q.floor ++ "." ++ toString ((q * 10).floor % 10)

/-- A span of time in nanoseconds. -/
abbrev Duration := ℕ

namespace Duration

def fromSecs (n : ℕ) : Duration := n * 1000000000

def fromMillis (n : ℕ) : Duration := n * 1000000

/-- `as_millis() as i64`. -/
def millisI64 (d : Duration) : ℤ := I64.wrap (d / 1000000 : ℕ)

end Duration

/-- An instant in nanoseconds since the epoch. -/
abbrev DateTime := ℤ

namespace DateTime

def timestampMillis (t : DateTime) : ℤ := t / 1000000

/-- Whole seconds. -/
def timestamp (t : DateTime) : ℤ := t / 1000000000

def timestampMicros (t : DateTime) : ℤ := t / 1000

def timestampSubsecMicros (t : DateTime) : UInt32 := UInt32.ofNat (t % 1000000000 / 1000).toNat

/-- Microseconds of the difference of two instants, rounded towards zero. -/
def microsSince (t u : DateTime) : ℤ := (t - u).tdiv 1000

end DateTime

end Pktscope

import Mathlib.Algebra.GroupWithZero.Nat
import Mathlib.Data.List.Basic
import Mathlib.Data.Nat.Basic
import Mathlib.Data.Nat.Notation
import Mathlib.Order.Basic
import Mathlib.Order.Lattice

/-! # Addresses and endpoints

IP addresses with the order and the text form of the standard library, and the
order on endpoints that normalises a flow's two sides.
-/

namespace Pktscope

inductive IpAddr where
  | v4 (a : UInt32)
  | v6 (a : BitVec 128)
  deriving DecidableEq, Repr

namespace IpAddr

/-- An order embedding: every IPv4 address sorts before every IPv6 address. -/
def rank : IpAddr → ℕ
  | v4 a => a.toNat
  | v6 a => 2 ^ 32 + a.toNat

theorem rank_injective : Function.Injective rank := by
  intro a b h
  cases a with
  | v4 a =>
    cases b with
    | v4 b => exact congrArg v4 (UInt32.toNat_inj.mp h)
    | v6 b => have := a.toNat_lt; simp only [rank] at h; omega
  | v6 a =>
    cases b with
    | v4 b => have := b.toNat_lt; simp only [rank] at h; omega
    | v6 b => exact congrArg v6 (BitVec.eq_of_toNat_eq (by simpa [rank] using h))

instance : LinearOrder IpAddr := LinearOrder.lift' rank rank_injective

/-- Four octets, the most significant first. -/
def octets (a : UInt32) : ℕ × ℕ × ℕ × ℕ :=
  (a.toNat / 2 ^ 24, a.toNat / 2 ^ 16 % 256, a.toNat / 2 ^ 8 % 256, a.toNat % 256)

/-- Eight groups of sixteen bits, the most significant first. -/
def segments (a : BitVec 128) : List ℕ :=
  (List.range 8).map fun i => a.toNat / 2 ^ (16 * (7 - i)) % 2 ^ 16

def v4Text (a : UInt32) : String :=
  let (b, c, d, e) := octets a
  s!"{b}.{c}.{d}.{e}"

def hexText (n : ℕ) : String := String.ofList (Nat.toDigits 16 n)

/-- The start and the length of the first longest run of zero groups. -/
def longestZeroRun (segs : List ℕ) : ℕ × ℕ :=
  let step := fun (acc : (ℕ × ℕ) × (ℕ × ℕ)) (e : ℕ × ℕ) =>
    let (best, cur) := acc
    if e.1 = 0 then
      let cur := if cur.2 = 0 then (e.2, 1) else (cur.1, cur.2 + 1)
      (if best.2 < cur.2 then cur else best, cur)
    else (best, (0, 0))
  (segs.zipIdx.foldl step ((0, 0), (0, 0))).1

def v6Text (a : BitVec 128) : String :=
  let segs := segments a
  if segs.take 6 = [0, 0, 0, 0, 0, 0xffff] then
    "::ffff:" ++ v4Text (UInt32.ofNat (a.toNat % 2 ^ 32))
  else
    let (start, len) := longestZeroRun segs
    let join := fun l => ":".intercalate (l.map hexText)
    if 1 < len then join (segs.take start) ++ "::" ++ join (segs.drop (start + len))
    else join segs

/-- The text form of an address. -/
def display : IpAddr → String
  | v4 a => v4Text a
  | v6 a => v6Text a

/-- The address written `a.b.c.d`. -/
def ofOctets (a b c d : UInt8) : IpAddr :=
  v4 (UInt32.ofNat (((a.toNat * 256 + b.toNat) * 256 + c.toNat) * 256 + d.toNat))

end IpAddr

example : (IpAddr.ofOctets 93 184 216 34).display = "93.184.216.34" := by decide

/-- One side of a flow. -/
structure Endpoint where
  addr : IpAddr
  port : UInt16
  deriving DecidableEq, Repr

namespace Endpoint

/-- The lexicographic order of `(ip, port)` pairs. -/
def le (a b : Endpoint) : Bool := decide (a.addr < b.addr ∨ a.addr = b.addr ∧ a.port ≤ b.port)

theorem le_total (a b : Endpoint) : a.le b = true ∨ b.le a = true := by
  simp only [le, decide_eq_true_eq]
  rcases lt_trichotomy a.addr b.addr with h | h | h
  · exact Or.inl (Or.inl h)
  · rcases UInt16.le_total a.port b.port with hp | hp
    · exact Or.inl (Or.inr ⟨h, hp⟩)
    · exact Or.inr (Or.inr ⟨h.symm, hp⟩)
  · exact Or.inr (Or.inl h)

theorem le_antisymm {a b : Endpoint} (hab : a.le b = true) (hba : b.le a = true) : a = b := by
  simp only [le, decide_eq_true_eq] at hab hba
  obtain ⟨x, p⟩ := a
  obtain ⟨y, q⟩ := b
  rcases hab with h | ⟨rfl, h⟩
  · rcases hba with h' | ⟨rfl, _⟩
    · exact absurd h' (lt_asymm h)
    · exact absurd h (lt_irrefl _)
  · rcases hba with h' | ⟨_, h'⟩
    · exact absurd h' (lt_irrefl _)
    · exact congrArg _ (UInt16.le_antisymm h h')

end Endpoint

end Pktscope

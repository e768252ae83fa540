import Pktscope.Library.Text
import Pktscope.Decode.Fingerprint

/-! # The canonical JA3 string

Its five fields stand between commas and the numbers of a list between hyphens,
so the version and the lists can be read back.
-/

namespace Pktscope

open Library

/-- The values of a list that are not GREASE. -/
def ungreased (xs : List UInt16) : List UInt16 := xs.filter fun v => !isGrease v

/-- Numbers between hyphens. -/
def hyphenated {α : Type} (number : α → ℕ) (xs : List α) : String :=
  "-".intercalate (xs.map fun v => toString (number v))

section Hyphens

variable {α : Type} {number : α → ℕ}

theorem hyphenated_inj (h : Function.Injective number) : Function.Injective (hyphenated number) := by
  refine intercalate_map_inj (c := '-') rfl ?_ ?_
  · intro a b hab
    exact h (toString_nat_inj hab)
  · intro b
    rw [toList_toString_nat]
    constructor
    · exact Nat.toDigits_ne_nil
    · exact not_mem_toDigits rfl _

theorem comma_not_mem_hyphenated (xs : List α) : ',' ∉ (hyphenated number xs).toList := by
  intro h
  rw [hyphenated, String.toList_intercalate] at h
  rcases mem_intercalate h with h | ⟨l, hl, hc⟩
  · exact absurd h (by decide)
  · rw [List.map_map] at hl
    obtain ⟨v, -, rfl⟩ := List.mem_map.mp hl
    rw [Function.comp_apply, toList_toString_nat] at hc
    exact not_mem_toDigits rfl _ hc

end Hyphens

section Fields

variable {version version' : UInt16} {ciphers ciphers' exts exts' groups groups' : List UInt16}
  {formats formats' : List UInt8}

/-- The fields of the JA3 string, between its commas. -/
def ja3Fields (version : UInt16) (ciphers exts groups : List UInt16) (formats : List UInt8) :
    List String :=
  [toString version.toNat, hyphenated UInt16.toNat (ungreased ciphers),
    hyphenated UInt16.toNat (ungreased exts), hyphenated UInt16.toNat (ungreased groups),
    hyphenated UInt8.toNat formats]

theorem ja3String_eq (version : UInt16) (ciphers exts groups : List UInt16)
    (formats : List UInt8) :
    ja3String version ciphers exts groups formats =
      ",".intercalate (ja3Fields version ciphers exts groups formats) := rfl

theorem ja3String_congr (hciphers : ungreased ciphers = ungreased ciphers')
    (hexts : ungreased exts = ungreased exts') (hgroups : ungreased groups = ungreased groups') :
    ja3String version ciphers exts groups formats =
      ja3String version ciphers' exts' groups' formats := by
  rw [ja3String_eq, ja3String_eq, ja3Fields, ja3Fields, hciphers, hexts, hgroups]

theorem comma_not_mem_ja3Fields {field : String}
    (h : field ∈ ja3Fields version ciphers exts groups formats) : ',' ∉ field.toList := by
  rw [ja3Fields, List.mem_cons, List.mem_cons, List.mem_cons, List.mem_cons,
    List.mem_singleton] at h
  rcases h with rfl | rfl | rfl | rfl | rfl
  · rw [toList_toString_nat]
    exact not_mem_toDigits rfl _
  · exact comma_not_mem_hyphenated _
  · exact comma_not_mem_hyphenated _
  · exact comma_not_mem_hyphenated _
  · exact comma_not_mem_hyphenated _

theorem splitOn_ja3String (version : UInt16) (ciphers exts groups : List UInt16)
    (formats : List UInt8) :
    (ja3String version ciphers exts groups formats).toList.splitOn ',' =
      (ja3Fields version ciphers exts groups formats).map String.toList := by
  rw [ja3String_eq, String.toList_intercalate]
  apply List.splitOn_intercalate
  · intro l hl
    obtain ⟨field, hfield, rfl⟩ := List.mem_map.mp hl
    exact comma_not_mem_ja3Fields hfield
  · exact List.cons_ne_nil _ _

/-- Two JA3 strings are equal exactly when they say the same. -/
theorem ja3String_inj :
    ja3String version ciphers exts groups formats =
        ja3String version' ciphers' exts' groups' formats' ↔
      version = version' ∧ ungreased ciphers = ungreased ciphers' ∧
        ungreased exts = ungreased exts' ∧ ungreased groups = ungreased groups' ∧
        formats = formats' := by
  have h16 : Function.Injective UInt16.toNat := fun a b h => UInt16.toNat_inj.mp h
  have h8 : Function.Injective UInt8.toNat := fun a b h => UInt8.toNat_inj.mp h
  have hlist : Function.Injective (List.map String.toList) :=
    Function.Injective.list_map fun a b h => String.toList_inj.mp h
  constructor
  · intro h
    have hsplit := congrArg (fun s => s.toList.splitOn ',') h
    simp only [splitOn_ja3String] at hsplit
    have hfields := hlist hsplit
    simp only [ja3Fields, List.cons.injEq, and_true] at hfields
    obtain ⟨hversion, hciphers, hexts, hgroups, hformats⟩ := hfields
    exact ⟨h16 (toString_nat_inj hversion), hyphenated_inj h16 hciphers, hyphenated_inj h16 hexts,
      hyphenated_inj h16 hgroups, hyphenated_inj h8 hformats⟩
  · rintro ⟨rfl, hciphers, hexts, hgroups, rfl⟩
    exact ja3String_congr hciphers hexts hgroups

end Fields

end Pktscope

import Pktscope.Enrich.Spelling

/-! # Registrable domains

Taking the registrable domain of a name is a projection: what it gives is an end
of the name that it leaves alone. Labels in front of a name make no difference
once the name has enough labels for its suffix.
-/

namespace Pktscope

open Library

/-- A name without its trailing dots. -/
def trimDots (name : String) : List Char := name.toList.rdropWhile (· = '.')

theorem dnsLabels_eq (name : String) :
    dnsLabels name = ((trimDots name).splitOn '.').map String.ofList := rfl

theorem registrableDomainOf_suffix (name : String) :
    (registrableDomainOf name).toList <:+ trimDots name := by
  have hlabels : (keptLabels name).reverse.map String.toList =
      ((trimDots name).splitOn '.').drop
        ((dnsLabels name).length - depthOf (lastLabels name)) := by
    rw [keptLabels, lastLabels, List.take_reverse, List.reverse_reverse, List.map_drop, dnsLabels_eq,
      List.map_map]
    simp [Function.comp_def]
  have htail := intercalate_drop_suffix ['.'] ((trimDots name).splitOn '.')
    ((dnsLabels name).length - depthOf (lastLabels name))
  rw [← hlabels, List.intercalate_splitOn] at htail
  rw [registrableDomainOf_eq, String.toList_intercalate]
  exact htail

theorem trimDots_of_suffix {name : String} {cs : List Char} (h : cs <:+ trimDots name) :
    cs.rdropWhile (· = '.') = cs := by
  rw [List.rdropWhile_eq_self_iff]
  intro hne
  have hname : trimDots name ≠ [] := fun hnil => hne (List.suffix_nil.mp (hnil ▸ h))
  have hlast := List.rdropWhile_last_not _ _ hname
  rwa [h.getLast hne]

theorem lastLabels_registrableDomainOf (name : String) :
    lastLabels (registrableDomainOf name) = keptLabels name := by
  have htrim : trimDots (registrableDomainOf name) = (registrableDomainOf name).toList :=
    trimDots_of_suffix (registrableDomainOf_suffix name)
  rw [lastLabels, dnsLabels_eq, htrim, splitOn_registrableDomainOf, List.map_map]
  simp [Function.comp_def]

theorem registrableDomainOf_idem (name : String) :
    registrableDomainOf (registrableDomainOf name) = registrableDomainOf name := by
  have hdepth : depthOf (keptLabels name) = depthOf (lastLabels name) := by
    apply depthOf_congr
    rw [keptLabels, List.take_take, Nat.min_eq_left (two_le_depthOf _)]
  rw [registrableDomainOf_inj]
  conv_lhs => rw [keptLabels, lastLabels_registrableDomainOf, hdepth]
  rw [keptLabels, List.take_take, Nat.min_self]

theorem trimDots_dots (name : String) (n : ℕ) :
    trimDots (name ++ String.ofList (List.replicate n '.')) = trimDots name := by
  rw [trimDots, String.toList_append, String.toList_ofList]
  induction n with
  | zero => rw [List.replicate_zero, List.append_nil, trimDots]
  | succ n ih =>
    rw [List.replicate_succ', ← List.append_assoc, List.rdropWhile_concat_pos _ _ _ (by decide), ih]

theorem registrableDomainOf_dots (name : String) (n : ℕ) :
    registrableDomainOf (name ++ String.ofList (List.replicate n '.')) = registrableDomainOf name := by
  unfold registrableDomainOf
  rw [dnsLabels_eq, trimDots_dots, ← dnsLabels_eq]

/-- A name with enough labels for its suffix: at least three, also counting empty ones between
dots, or two that are no listed suffix. -/
def HasDomain (name : String) : Prop :=
  3 ≤ (dnsLabels name).length ∨ ∃ a b, dnsLabels name = [a, b] ∧ a ++ "." ++ b ∉ multiPartTlds

/-- Labels in front of a name stay in front of its labels. -/
theorem lastLabels_append {name : String} (h : 2 ≤ (lastLabels name).length) (front : String) :
    lastLabels (front ++ "." ++ name) =
      lastLabels name ++ ((front.toList.splitOn '.').map String.ofList).reverse := by
  have hne : trimDots name ≠ [] := by
    intro hnil
    rw [lastLabels, dnsLabels_eq, hnil] at h
    exact absurd h (by decide)
  have htrim : trimDots (front ++ "." ++ name) = front.toList ++ '.' :: trimDots name := by
    rw [trimDots, String.toList_append, rdropWhile_append hne, String.toList_append,
      List.append_assoc]
    rfl
  rw [lastLabels, lastLabels, dnsLabels_eq, htrim, List.splitOn_append_cons_self, List.map_append,
    List.reverse_append]
  rfl

theorem registrableDomainOf_append {name : String} (h : HasDomain name) (front : String) :
    registrableDomainOf (front ++ "." ++ name) = registrableDomainOf name := by
  have hlength : (lastLabels name).length = (dnsLabels name).length := List.length_reverse
  have htwo : 2 ≤ (lastLabels name).length := by
    rcases h with hthree | ⟨a, b, hlabels, -⟩
    · omega
    · rw [hlength, hlabels]
      exact le_rfl
  have hdepth : depthOf (lastLabels name) ≤ (lastLabels name).length := by
    rcases h with hthree | ⟨a, b, hlabels, hlisted⟩
    · have hle := depthOf_le_three (lastLabels name)
      omega
    · rw [lastLabels, hlabels]
      simp [depthOf, hlisted]
  have hsame : depthOf (lastLabels (front ++ "." ++ name)) = depthOf (lastLabels name) := by
    apply depthOf_congr
    rw [lastLabels_append htwo, List.take_append_of_le_length htwo]
  rw [registrableDomainOf_inj, keptLabels, hsame, lastLabels_append htwo,
    List.take_append_of_le_length hdepth, keptLabels]

/-- Registrable domains are their own, dots at the end of a name do not count, and neither do labels
in front of a name that has a domain. -/
theorem registrableDomainOf_projection :
    (∀ name, registrableDomainOf (registrableDomainOf name) = registrableDomainOf name) ∧
      (∀ name n, registrableDomainOf (name ++ String.ofList (List.replicate n '.')) =
        registrableDomainOf name) ∧
      ∀ name, HasDomain name → ∀ front,
        registrableDomainOf (front ++ "." ++ name) = registrableDomainOf name := by
  refine ⟨registrableDomainOf_idem, registrableDomainOf_dots, ?_⟩
  intro name h front
  exact registrableDomainOf_append h front

/-- Without enough labels the front counts. -/
example : registrableDomainOf "b.co.uk" ≠ registrableDomainOf "co.uk" := by decide

end Pktscope

import Pktscope.Enrich.Names
import Pktscope.Library.Text

/-! # Spellings of a domain

The registrable domain of a name is made of its last labels as they are spelled,
so two spellings of a name have the same one exactly when those labels agree.
-/

namespace Pktscope

/-- The labels of a name, the last one first. -/
def lastLabels (name : String) : List String := (dnsLabels name).reverse

/-- How many labels the registrable domain has: one more under a listed suffix. -/
def depthOf : List String → ℕ
  | c :: b :: _ => if b ++ "." ++ c ∈ multiPartTlds then 3 else 2
  | _ => 2

/-- The labels that the registrable domain is made of, the last one first. -/
def keptLabels (name : String) : List String := (lastLabels name).take (depthOf (lastLabels name))

theorem registrableDomainOf_eq (name : String) :
    registrableDomainOf name = ".".intercalate (keptLabels name).reverse := by
  unfold registrableDomainOf keptLabels lastLabels
  rcases (dnsLabels name).reverse with - | ⟨c, - | ⟨b, - | ⟨a, rest⟩⟩⟩
  · rfl
  · rfl
  · simp only [depthOf]
    split <;> rfl
  · simp only [depthOf]
    split
    · simp [String.intercalate_cons_cons, String.append_assoc]
    · simp [String.intercalate_cons_cons, String.append_assoc]

theorem not_mem_label {name label : String} (h : label ∈ dnsLabels name) : '.' ∉ label.toList := by
  obtain ⟨l, hl, rfl⟩ := List.mem_map.mp h
  rw [String.toList_ofList]
  exact Library.not_mem_of_mem_splitOn hl

theorem lastLabels_ne_nil (name : String) : lastLabels name ≠ [] := by
  rw [lastLabels, dnsLabels, List.reverse_ne_nil_iff]
  exact fun h => List.splitOn_ne_nil _ _ (List.map_eq_nil_iff.mp h)

theorem keptLabels_ne_nil (name : String) : keptLabels name ≠ [] := by
  obtain ⟨c, rest, hr⟩ := List.exists_cons_of_ne_nil (lastLabels_ne_nil name)
  rw [keptLabels, hr]
  cases rest with
  | nil => simp [depthOf]
  | cons b rest =>
    rw [depthOf]
    split <;> simp

theorem splitOn_registrableDomainOf (name : String) :
    (registrableDomainOf name).toList.splitOn '.' = (keptLabels name).reverse.map String.toList := by
  have hdot : ∀ l ∈ (keptLabels name).reverse.map String.toList, '.' ∉ l := by
    intro l hl
    obtain ⟨label, hlabel, rfl⟩ := List.mem_map.mp hl
    exact not_mem_label (List.mem_reverse.mp (List.mem_of_mem_take (List.mem_reverse.mp hlabel)))
  have hne : (keptLabels name).reverse.map String.toList ≠ [] := by
    simpa using keptLabels_ne_nil name
  rw [registrableDomainOf_eq, String.toList_intercalate]
  exact List.splitOn_intercalate '.' hdot hne

/-- Registrable domains are equal if their labels are. -/
theorem registrableDomainOf_inj {a b : String} :
    registrableDomainOf a = registrableDomainOf b ↔ keptLabels a = keptLabels b := by
  constructor
  · intro h
    have hmap := congrArg (fun s => s.toList.splitOn '.') h
    simp only [splitOn_registrableDomainOf] at hmap
    have hinj : Function.Injective String.toList := fun _ _ => String.toList_inj.mp
    exact List.reverse_injective (hinj.list_map hmap)
  · intro h
    rw [registrableDomainOf_eq, registrableDomainOf_eq, h]

theorem two_le_depthOf (l : List String) : 2 ≤ depthOf l := by
  unfold depthOf
  split
  · split <;> decide
  · exact le_rfl

theorem depthOf_le_three (l : List String) : depthOf l ≤ 3 := by
  unfold depthOf
  split
  · split <;> decide
  · decide

theorem depthOf_congr {l l' : List String} (h : l.take 2 = l'.take 2) : depthOf l = depthOf l' := by
  rcases l with - | ⟨c, - | ⟨b, rest⟩⟩ <;> rcases l' with - | ⟨c', - | ⟨b', rest'⟩⟩ <;>
    cases h <;> rfl

/-- Two names have one registrable domain exactly when the last labels that the first one keeps
are those of the other. -/
theorem registrableDomainOf_eq_iff {a b : String} :
    registrableDomainOf a = registrableDomainOf b ↔
      (lastLabels a).take (depthOf (lastLabels a)) =
        (lastLabels b).take (depthOf (lastLabels a)) := by
  have htwo {l l' : List String} {n m : ℕ} (hn : 2 ≤ n) (hm : 2 ≤ m) (h : l.take n = l'.take m) :
      depthOf l = depthOf l' := by
    apply depthOf_congr
    have htake := congrArg (List.take 2) h
    rwa [List.take_take, List.take_take, Nat.min_eq_left hn, Nat.min_eq_left hm] at htake
  rw [registrableDomainOf_inj, keptLabels, keptLabels]
  constructor
  · intro h
    have hdepth := htwo (two_le_depthOf _) (two_le_depthOf _) h
    rwa [← hdepth] at h
  · intro h
    have hdepth := htwo (two_le_depthOf _) (two_le_depthOf _) h
    rwa [← hdepth]

/-- Two spellings of one name: they differ in the case of ASCII letters and in trailing dots. -/
def SameName (a b : String) : Prop :=
  (a.toList.rdropWhile (· = '.')).map Char.toLower = (b.toList.rdropWhile (· = '.')).map Char.toLower

instance (a b : String) : Decidable (SameName a b) := inferInstanceAs (Decidable (_ = _))

end Pktscope

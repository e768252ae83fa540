import Pktscope.Filter.Reading
import Pktscope.Net.Display

/-! # The text of an endpoint

The text of an address determines it, dotted or not, and so does the text of an
endpoint: the port stands behind the last colon.
-/

namespace Pktscope

open Library

namespace IpAddr

theorem v4Text_inj {a b : UInt32} (h : v4Text a = v4Text b) : a = b := by
  have hread := FilterGrammar.parseV4_v4Text a
  rw [h, FilterGrammar.parseV4_v4Text] at hread
  exact (Option.some.inj hread).symm

theorem mem_v4Text {a : UInt32} {c : Char} (h : c ∈ (v4Text a).toList) :
    c.isDigit = true ∨ c = '.' := by
  rw [FilterGrammar.v4Text_toList] at h
  simp only [FilterGrammar.quad, List.mem_append, List.mem_cons] at h
  rcases h with h | rfl | h | rfl | h | rfl | h
  · exact Or.inl (FilterGrammar.isDigit_toDigits _ c h)
  · exact Or.inr rfl
  · exact Or.inl (FilterGrammar.isDigit_toDigits _ c h)
  · exact Or.inr rfl
  · exact Or.inl (FilterGrammar.isDigit_toDigits _ c h)
  · exact Or.inr rfl
  · exact Or.inl (FilterGrammar.isDigit_toDigits _ c h)

theorem dot_mem_v4Text (a : UInt32) : '.' ∈ (v4Text a).toList := by
  rw [FilterGrammar.v4Text_toList]
  simp [FilterGrammar.quad]

theorem colon_not_mem_v4Text (a : UInt32) : ':' ∉ (v4Text a).toList := by
  intro h
  rcases mem_v4Text h with hdigit | hdot
  · exact absurd hdigit (by decide)
  · exact absurd hdot (by decide)

theorem toNat_of_dotted {a : BitVec 128} (h : dotted (v6 a) = true) :
    a.toNat / 2 ^ 32 = 0xffff := by
  have hgroups := of_decide_eq_true h
  have ha := a.isLt
  simp [segments, List.range, List.range.loop] at hgroups
  omega

theorem v6Text_of_dotted {a : BitVec 128} (h : dotted (v6 a) = true) :
    v6Text a = "::ffff:" ++ v4Text (UInt32.ofNat (a.toNat % 2 ^ 32)) := by
  rw [v6Text, if_pos (of_decide_eq_true h)]

theorem eq_of_dotted {a b : BitVec 128} (ha : dotted (v6 a) = true) (hb : dotted (v6 b) = true)
    (h : v6Text a = v6Text b) : a = b := by
  rw [v6Text_of_dotted ha, v6Text_of_dotted hb, String.append_right_inj] at h
  have hlow := congrArg UInt32.toNat (v4Text_inj h)
  have hhigha := toNat_of_dotted ha
  have hhighb := toNat_of_dotted hb
  have hsize : UInt32.size = 2 ^ 32 := rfl
  rw [UInt32.toNat_ofNat_of_lt' (by omega), UInt32.toNat_ofNat_of_lt' (by omega)] at hlow
  apply BitVec.eq_of_toNat_eq
  omega

theorem v4Text_ne_v6Text (a : UInt32) (b : BitVec 128) : v4Text a ≠ v6Text b := by
  intro h
  cases hb : dotted (v6 b) with
  | true =>
    have hcolon := colon_not_mem_v4Text a
    rw [h, v6Text_of_dotted hb, String.toList_append] at hcolon
    exact hcolon (List.mem_append_left _ (by decide))
  | false =>
    have hdot := dot_mem_v4Text a
    rw [h] at hdot
    exact not_mem_v6Text hb hdot

/-- The text of an address determines it. -/
theorem display_injective : Function.Injective display := by
  intro ip ip' h
  cases ip with
  | v4 a =>
    cases ip' with
    | v4 b => exact congrArg v4 (v4Text_inj h)
    | v6 b => exact absurd h (v4Text_ne_v6Text a b)
  | v6 a =>
    cases ip' with
    | v4 b => exact absurd h.symm (v4Text_ne_v6Text b a)
    | v6 b =>
      refine congrArg v6 ?_
      have h : v6Text a = v6Text b := h
      have hdot (x : BitVec 128) (hx : dotted (v6 x) = true) : '.' ∈ (v6Text x).toList := by
        rw [v6Text_of_dotted hx, String.toList_append]
        exact List.mem_append_right _ (dot_mem_v4Text _)
      cases ha : dotted (v6 a) with
      | true =>
        cases hb : dotted (v6 b) with
        | true => exact eq_of_dotted ha hb h
        | false => exact absurd (h ▸ hdot a ha) (not_mem_v6Text hb)
      | false =>
        cases hb : dotted (v6 b) with
        | true => exact absurd (h ▸ hdot b hb) (not_mem_v6Text ha)
        | false => exact v6Text_inj ha hb h

theorem space_not_mem_display (ip : IpAddr) : ' ' ∉ ip.display.toList := by
  have hv4 (a : UInt32) : ' ' ∉ (v4Text a).toList := by
    intro h
    rcases mem_v4Text h with hdigit | hdot
    · exact absurd hdigit (by decide)
    · exact absurd hdot (by decide)
  cases ip with
  | v4 a => exact hv4 a
  | v6 a =>
    cases ha : dotted (v6 a) with
    | true =>
      rw [display, v6Text_of_dotted ha, String.toList_append]
      intro h
      rcases List.mem_append.mp h with hfront | hback
      · exact absurd hfront (by decide)
      · exact hv4 _ hback
    | false => exact char_not_mem_v6Text (by decide) (by decide) ha

end IpAddr

namespace Endpoint

/-- The address and the port with a colon between them. -/
def text (e : Endpoint) : String := s!"{e.addr.display}:{e.port.toNat}"

theorem toList_text (e : Endpoint) :
    e.text.toList = e.addr.display.toList ++ ':' :: Nat.toDigits 10 e.port.toNat := by
  simp [text, Nat.toList_repr, toString]

/-- The text of an endpoint determines it. -/
theorem text_injective : Function.Injective text := by
  intro e e' h
  have hlist : e.text.toList = e'.text.toList := by rw [h]
  rw [toList_text, toList_text] at hlist
  have hcolon (n : ℕ) : ':' ∉ Nat.toDigits 10 n := not_mem_toDigits (by decide) n
  obtain ⟨haddr, hport⟩ := append_cons_inj_right (hcolon _) (hcolon _) hlist
  have haddr : e.addr = e'.addr := IpAddr.display_injective (String.toList_injective haddr)
  have hport : e.port = e'.port :=
    UInt16.toNat_inj.mp (toDigits_inj (by decide) (by decide) hport)
  exact congrArg₂ mk haddr hport

theorem space_not_mem_text (e : Endpoint) : ' ' ∉ e.text.toList := by
  rw [toList_text, List.mem_append, List.mem_cons]
  rintro (haddr | hcolon | hport)
  · exact e.addr.space_not_mem_display haddr
  · exact absurd hcolon (by decide)
  · exact not_mem_toDigits (by decide) _ hport

end Endpoint

end Pktscope

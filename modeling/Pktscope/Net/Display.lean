import Mathlib.Data.List.Induction
import Pktscope.Library.Text
import Pktscope.Net.Addr

/-! # The text of an address

An IPv4 address, also one inside an IPv6 address, is written with dots. The text
of any other IPv6 address determines it: the parts between its colons are the
groups, but for one run of zeros that two colons stand for.
-/

namespace Pktscope.IpAddr

open Library

/-- Whether the text of an address has dots. -/
def dotted : IpAddr → Bool
  | v4 _ => true
  | v6 a => decide ((segments a).take 6 = [0, 0, 0, 0, 0, 0xffff])

section Groups

theorem segments_injective : Function.Injective segments := by
  intro a b h
  apply BitVec.eq_of_toNat_eq
  apply Nat.eq_of_testBit_eq
  intro j
  by_cases hj : j < 128
  · have hgroup : a.toNat / 2 ^ (16 * (j / 16)) % 2 ^ 16 = b.toNat / 2 ^ (16 * (j / 16)) % 2 ^ 16 := by
      have hget := congrArg (fun l => l[7 - j / 16]?) h
      have hlt : 7 - j / 16 < 8 := by omega
      have hback : 7 - (7 - j / 16) = j / 16 := by omega
      simpa [segments, List.getElem?_range hlt, hback] using hget
    have hbit (n : ℕ) : (n / 2 ^ (16 * (j / 16)) % 2 ^ 16).testBit (j % 16) = n.testBit j := by
      have hmod : j % 16 < 16 := Nat.mod_lt j (by decide)
      rw [Nat.testBit_mod_two_pow, Nat.testBit_div_two_pow, decide_eq_true hmod, Bool.true_and,
        Nat.add_comm, Nat.div_add_mod]
    rw [← hbit a.toNat, hgroup, hbit]
  · have hpow : 2 ^ 128 ≤ 2 ^ j := Nat.pow_le_pow_right (by decide) (by omega)
    rw [Nat.testBit_lt_two_pow (lt_of_lt_of_le a.isLt hpow),
      Nat.testBit_lt_two_pow (lt_of_lt_of_le b.isLt hpow)]

theorem length_segments (a : BitVec 128) : (segments a).length = 8 := by
  rw [segments, List.length_map, List.length_range]

end Groups

section ZeroRuns

/-- The groups of a run, its start and its length, are zero. -/
def ZeroRun (l : List ℕ) (run : ℕ × ℕ) : Prop :=
  (l.drop run.1).take run.2 = List.replicate run.2 0

variable {l : List ℕ} {run : ℕ × ℕ}

theorem ZeroRun.append (h : ZeroRun l run) (l' : List ℕ) : ZeroRun (l ++ l') run := by
  have hlen := congrArg List.length h
  rw [List.length_take, List.length_drop, List.length_replicate] at hlen
  rw [ZeroRun]
  rcases Nat.eq_zero_or_pos run.2 with hzero | hpos
  · rw [hzero, List.take_zero, List.replicate_zero]
  · rw [List.drop_append_of_le_length (by omega), List.take_append_of_le_length]
    · exact h
    · rw [List.length_drop]
      omega

theorem ZeroRun.split (h : ZeroRun l run) :
    l = l.take run.1 ++ (List.replicate run.2 0 ++ l.drop (run.1 + run.2)) := by
  rw [← h, ← List.drop_drop, List.take_append_drop, List.take_append_drop]

/-- The run that a zero group continues or begins. -/
def nextRun (cur : ℕ × ℕ) (i : ℕ) : ℕ × ℕ := if cur.2 = 0 then (i, 1) else (cur.1, cur.2 + 1)

/-- One group of the search for the longest run. -/
def zeroRunStep (acc : (ℕ × ℕ) × (ℕ × ℕ)) (e : ℕ × ℕ) : (ℕ × ℕ) × (ℕ × ℕ) :=
  if e.1 = 0 then
    (if acc.1.2 < (nextRun acc.2 e.2).2 then nextRun acc.2 e.2 else acc.1, nextRun acc.2 e.2)
  else (acc.1, (0, 0))

theorem longestZeroRun_eq (segs : List ℕ) :
    longestZeroRun segs = (segs.zipIdx.foldl zeroRunStep ((0, 0), (0, 0))).1 := rfl

/-- The best run so far, and the run that the groups so far end with. -/
structure RunsOf (l : List ℕ) (acc : (ℕ × ℕ) × (ℕ × ℕ)) : Prop where
  best : ZeroRun l acc.1
  cur : ZeroRun l acc.2
  last : acc.2.2 ≠ 0 → acc.2.1 + acc.2.2 = l.length

theorem RunsOf.nextRun {acc : (ℕ × ℕ) × (ℕ × ℕ)} (h : RunsOf l acc) :
    ZeroRun (l ++ [0]) (nextRun acc.2 l.length) ∧
      (IpAddr.nextRun acc.2 l.length).1 + (IpAddr.nextRun acc.2 l.length).2 = (l ++ [0]).length := by
  unfold IpAddr.nextRun
  split_ifs with hn
  · simp [ZeroRun]
  · have hlast := h.last hn
    have hall : l.drop acc.2.1 = List.replicate acc.2.2 0 := by
      have hcur := h.cur
      rwa [ZeroRun, List.take_of_length_le (by rw [List.length_drop]; omega)] at hcur
    constructor
    · rw [ZeroRun, List.drop_append_of_le_length (by omega), hall, List.replicate_succ',
        List.take_of_length_le (by simp)]
    · rw [List.length_append, List.length_singleton, ← hlast, Nat.add_assoc]

theorem RunsOf.step {acc : (ℕ × ℕ) × (ℕ × ℕ)} (h : RunsOf l acc) (x : ℕ) :
    RunsOf (l ++ [x]) (zeroRunStep acc (x, l.length)) := by
  by_cases hx : x = 0
  · subst hx
    obtain ⟨hcur, hlast⟩ := h.nextRun
    rw [zeroRunStep, if_pos rfl]
    constructor
    · dsimp only
      split
      · exact hcur
      · exact h.best.append [0]
    · exact hcur
    · exact fun _ => hlast
  · rw [zeroRunStep, if_neg hx]
    constructor
    · exact h.best.append [x]
    · rfl
    · exact fun hne => absurd rfl hne

theorem runsOf_foldl (l : List ℕ) : RunsOf l (l.zipIdx.foldl zeroRunStep ((0, 0), (0, 0))) := by
  induction l using List.reverseRecOn with
  | nil => exact ⟨rfl, rfl, fun hne => absurd rfl hne⟩
  | append_singleton l x ih =>
    rw [List.zipIdx_append, List.foldl_append]
    simpa using ih.step x

theorem zeroRun_longestZeroRun (segs : List ℕ) : ZeroRun segs (longestZeroRun segs) := by
  rw [longestZeroRun_eq]
  exact (runsOf_foldl segs).best

end ZeroRuns

section Parts

/-- The parts of some groups between their colons. -/
def partsOf (groups : List ℕ) : List (List Char) :=
  if groups = [] then [[]] else groups.map (Nat.toDigits 16)

theorem not_mem_toDigits_hex {c : Char} (hc : ∀ d < 16, c ≠ d.digitChar) (n : ℕ) :
    c ∉ Nat.toDigits 16 n := by
  intro h
  obtain ⟨d, hd, hdigit⟩ := exists_digit (by decide) h
  exact hc d hd hdigit

theorem splitOn_join (groups : List ℕ) :
    (":".intercalate (groups.map hexText)).toList.splitOn ':' = partsOf groups := by
  unfold partsOf
  split_ifs with h
  · rw [h]
    rfl
  · have hmap : (groups.map hexText).map String.toList = groups.map (Nat.toDigits 16) := by
      rw [List.map_map]
      exact List.map_congr_left fun n _ => String.toList_ofList
    rw [String.toList_intercalate, hmap]
    apply List.splitOn_intercalate
    · intro part hpart
      obtain ⟨n, -, rfl⟩ := List.mem_map.mp hpart
      exact not_mem_toDigits_hex (by decide) n
    · simpa using h

theorem nil_not_mem_map (groups : List ℕ) : [] ∉ groups.map (Nat.toDigits 16) := by
  intro h
  obtain ⟨n, -, hn⟩ := List.mem_map.mp h
  exact Nat.toDigits_ne_nil hn

theorem map_toDigits_inj {A A' : List ℕ} (h : A.map (Nat.toDigits 16) = A'.map (Nat.toDigits 16)) :
    A = A' := by
  have hinj : Function.Injective (Nat.toDigits 16) :=
    fun m n h => toDigits_inj (by decide) (by decide) h
  exact hinj.list_map h

theorem partsOf_inj {A A' : List ℕ} (h : partsOf A = partsOf A') : A = A' := by
  have hempty (l : List ℕ) : [[]] ≠ l.map (Nat.toDigits 16) := fun h' =>
    nil_not_mem_map l (h' ▸ List.mem_singleton_self [])
  unfold partsOf at h
  split_ifs at h with hA hA' hA'
  · rw [hA, hA']
  · exact absurd h (hempty A')
  · exact absurd h.symm (hempty A)
  · exact map_toDigits_inj h

theorem shortened_inj {A A' B B' : List ℕ}
    (h : partsOf A ++ [] :: partsOf B = partsOf A' ++ [] :: partsOf B') : A = A' ∧ B = B' := by
  have hhead {l : List ℕ} {rest rest' : List (List Char)} (hl : l ≠ []) :
      [[]] ++ rest ≠ l.map (Nat.toDigits 16) ++ rest' := by
    obtain ⟨n, l, rfl⟩ := List.exists_cons_of_ne_nil hl
    intro h'
    exact Nat.toDigits_ne_nil (List.cons.inj h').1.symm
  by_cases hA : A = [] <;> by_cases hA' : A' = []
  · rw [hA, hA'] at h
    exact ⟨hA.trans hA'.symm, partsOf_inj (List.cons.inj (List.append_cancel_left h)).2⟩
  · rw [hA, partsOf.eq_def [], partsOf.eq_def A', if_pos rfl, if_neg hA'] at h
    exact absurd h (hhead hA')
  · rw [hA', partsOf.eq_def [], partsOf.eq_def A, if_pos rfl, if_neg hA] at h
    exact absurd h.symm (hhead hA)
  · rw [partsOf.eq_def A, partsOf.eq_def A', if_neg hA, if_neg hA'] at h
    obtain ⟨hfront, hback⟩ := append_cons_inj (nil_not_mem_map A) (nil_not_mem_map A') h
    exact ⟨map_toDigits_inj hfront, partsOf_inj hback⟩

end Parts

section Texts

variable {a b : BitVec 128}

theorem splitOn_v6Text (h : dotted (v6 a) = false) :
    (v6Text a).toList.splitOn ':' =
      let run := longestZeroRun (segments a)
      if 1 < run.2 then
        partsOf ((segments a).take run.1) ++ [] :: partsOf ((segments a).drop (run.1 + run.2))
      else partsOf (segments a) := by
  unfold v6Text
  rw [if_neg (of_decide_eq_false h)]
  dsimp only
  split_ifs
  · have hcolons : ("::" : String).toList = [':', ':'] := rfl
    rw [String.toList_append, String.toList_append, hcolons, List.append_assoc, List.cons_append,
      List.splitOn_append_cons_self, List.cons_append, List.nil_append, ← List.nil_append (':' :: _),
      List.splitOn_append_cons_self, splitOn_join, splitOn_join]
    rfl
  · exact splitOn_join (segments a)

/-- The text of an address without dots has colons and hexadecimal digits only. -/
theorem char_not_mem_v6Text {c : Char} (hcolon : c ≠ ':') (hhex : ∀ d < 16, c ≠ d.digitChar)
    (h : dotted (v6 a) = false) : c ∉ (v6Text a).toList := by
  intro hc
  have hparts (groups : List ℕ) : ∀ part ∈ partsOf groups, c ∉ part := by
    intro part hpart
    unfold partsOf at hpart
    split_ifs at hpart
    · rw [List.mem_singleton.mp hpart]
      exact List.not_mem_nil
    · obtain ⟨n, -, rfl⟩ := List.mem_map.mp hpart
      exact not_mem_toDigits_hex hhex n
  have htext : [':'].intercalate ((v6Text a).toList.splitOn ':') = (v6Text a).toList :=
    List.intercalate_splitOn ':'
  rw [← htext, splitOn_v6Text h] at hc
  rcases mem_intercalate hc with hsep | ⟨part, hpart, hc⟩
  · exact hcolon (List.mem_singleton.mp hsep)
  · dsimp only at hpart
    split_ifs at hpart
    · rcases List.mem_append.mp hpart with hpart | hpart
      · exact hparts _ part hpart hc
      · rcases List.mem_cons.mp hpart with rfl | hpart
        · exact absurd hc List.not_mem_nil
        · exact hparts _ part hpart hc
    · exact hparts _ part hpart hc

/-- Only an embedded IPv4 address puts dots into the text. -/
theorem not_mem_v6Text (h : dotted (v6 a) = false) : '.' ∉ (v6Text a).toList :=
  char_not_mem_v6Text (by decide) (by decide) h

theorem v6Text_inj (ha : dotted (v6 a) = false) (hb : dotted (v6 b) = false)
    (h : v6Text a = v6Text b) : a = b := by
  have hparts := congrArg (fun s => s.toList.splitOn ':') h
  have hmem {A B l : List ℕ} (hl : l.length = 8) : partsOf A ++ [] :: partsOf B ≠ partsOf l := by
    intro h'
    have hne : l ≠ [] := fun hnil => by simp [hnil] at hl
    rw [partsOf.eq_def l, if_neg hne] at h'
    exact nil_not_mem_map l (h' ▸ List.mem_append_right _ List.mem_cons_self)
  rw [splitOn_v6Text ha, splitOn_v6Text hb] at hparts
  dsimp only at hparts
  apply segments_injective
  split_ifs at hparts
  · obtain ⟨hfront, hback⟩ := shortened_inj hparts
    have hsa := (zeroRun_longestZeroRun (segments a)).split
    have hsb := (zeroRun_longestZeroRun (segments b)).split
    -- Both have eight groups, so the runs left out are of one length.
    have hlen : (longestZeroRun (segments a)).2 = (longestZeroRun (segments b)).2 := by
      have hla := congrArg List.length hsa
      have hlb := congrArg List.length hsb
      rw [hfront, hback] at hla
      simp only [List.length_append, List.length_replicate, length_segments] at hla hlb
      omega
    rw [hsa, hsb, hfront, hback, hlen]
  · exact absurd hparts (hmem (length_segments b))
  · exact absurd hparts.symm (hmem (length_segments a))
  · exact partsOf_inj hparts

/-- The text of an address with dots has at least four parts between them. -/
theorem four_le_splitOn_display {ip : IpAddr} (h : ip.dotted = true) :
    4 ≤ (ip.display.toList.splitOn '.').length := by
  have hpos (l : List Char) : 0 < (l.splitOn '.').length :=
    List.length_pos_iff.mpr (List.splitOn_ne_nil '.' l)
  have hfour (l : List Char) (b c d e : ℕ) :
      4 ≤ ((l ++ (s!"{b}.{c}.{d}.{e}").toList).splitOn '.').length := by
    have hdot : (toString ".").toList = ['.'] := rfl
    have hdots : l ++ (s!"{b}.{c}.{d}.{e}").toList = (l ++ (toString b).toList) ++ '.' ::
        ((toString c).toList ++ '.' :: ((toString d).toList ++ '.' :: (toString e).toList)) := by
      simp only [String.toList_append, hdot, List.append_assoc, List.cons_append,
        List.nil_append]
    have h₁ := hpos (l ++ (toString b).toList)
    have h₂ := hpos (toString c).toList
    have h₃ := hpos (toString d).toList
    have h₄ := hpos (toString e).toList
    rw [hdots, List.splitOn_append_cons_self, List.splitOn_append_cons_self,
      List.splitOn_append_cons_self, List.length_append, List.length_append, List.length_append]
    omega
  have hv4 (l : List Char) (a : UInt32) : 4 ≤ ((l ++ (v4Text a).toList).splitOn '.').length :=
    hfour l (octets a).1 (octets a).2.1 (octets a).2.2.1 (octets a).2.2.2
  cases ip with
  | v4 a =>
    rw [display, ← List.nil_append (v4Text a).toList]
    exact hv4 [] a
  | v6 a =>
    have htext : (v6 a).display =
        "::ffff:" ++ v4Text (UInt32.ofNat (a.toNat % 2 ^ 32)) := by
      rw [display, v6Text, if_pos (of_decide_eq_true h)]
    rw [htext, String.toList_append]
    exact hv4 _ _

end Texts

end Pktscope.IpAddr

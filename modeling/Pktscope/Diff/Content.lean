import Mathlib.Algebra.GroupWithZero.Nat
import Mathlib.Algebra.BigOperators.Group.Finset.Basic
import Pktscope.Library.Tally
import Pktscope.Decode.Layers

/-! # Comparing two captures

Two captures are compared by the hashes of their packets, each packet of one
matched with one of the other. Where the hash tells the contents apart, what
remains on either side is the difference of the two multisets of contents.
-/

namespace Pktscope

open Library

structure DiffResult where
  onlyA : List ℕ
  onlyB : List ℕ
  common : ℕ
  deriving DecidableEq, Repr

def DiffResult.swap (d : DiffResult) : DiffResult := ⟨d.onlyB, d.onlyA, d.common⟩

section Pass

variable (contentHash : List UInt8 → UInt64)

/-- How often each hash occurs. -/
def contentCounts (ps : List DecodedPacket) : Tally UInt64 :=
  ps.foldl (fun m p => m.bump (contentHash p.data)) (∅ : Tally UInt64)

/-- One side of the comparison under way. -/
structure DiffPass where
  remaining : Tally UInt64
  only : List ℕ
  common : ℕ

def DiffPass.see (s : DiffPass) (e : DecodedPacket × ℕ) : DiffPass :=
  let h := contentHash e.1.data
  match s.remaining.lookup h with
  | some c =>
    if 0 < c then
      { s with remaining := s.remaining.set h (c - 1), common := s.common + 1 }
    else { s with only := s.only ++ [e.2] }
  | none => { s with only := s.only ++ [e.2] }

/-- Match the packets of one capture with the counts of the other. -/
def diffPass (counts : Tally UInt64) (ps : List DecodedPacket) : DiffPass :=
  ps.zipIdx.foldl (DiffPass.see contentHash) ⟨counts, [], 0⟩

/-- Compare two captures by content. The second pass counts no matches. -/
def diffByContent (a b : List DecodedPacket) : DiffResult :=
  let forA := diffPass contentHash (contentCounts contentHash b) a
  let forB := diffPass contentHash (contentCounts contentHash a) b
  ⟨forA.only, forB.only, forA.common⟩

end Pass

def contents (ps : List DecodedPacket) : List (List UInt8) := ps.map DecodedPacket.data

/-- How many of the indices are those of a content. -/
def countAt (ps : List DecodedPacket) (indices : List ℕ) (x : List UInt8) : ℕ :=
  indices.countP fun i => decide ((ps[i]?).map DecodedPacket.data = some x)

/-- What is left of two captures when equal contents are struck out in pairs. -/
structure IsMultisetDiff (a b : List DecodedPacket) (d : DiffResult) : Prop where
  onlyA : ∀ x, countAt a d.onlyA x = (contents a).count x - (contents b).count x
  onlyB : ∀ x, countAt b d.onlyB x = (contents b).count x - (contents a).count x
  common : d.common =
    ∑ x ∈ (contents a ++ contents b).toFinset, min ((contents a).count x) ((contents b).count x)
  increasingA : d.onlyA.Pairwise (· < ·)
  increasingB : d.onlyB.Pairwise (· < ·)
  validA : ∀ i ∈ d.onlyA, i < a.length
  validB : ∀ i ∈ d.onlyB, i < b.length
  lengthA : d.common + d.onlyA.length = a.length
  lengthB : d.common + d.onlyB.length = b.length

/-- The hash has no collision among the packets of a list. -/
def CollisionFree (contentHash : List UInt8 → UInt64) (ps : List DecodedPacket) : Prop :=
  ∀ p ∈ ps, ∀ q ∈ ps, contentHash p.data = contentHash q.data → p.data = q.data

section Counting

variable {contentHash : List UInt8 → UInt64} {a b ps : List DecodedPacket} {counts : Tally UInt64}

def hashOf (contentHash : List UInt8 → UInt64) (e : DecodedPacket × ℕ) : UInt64 :=
  contentHash e.1.data

theorem count_contentCounts (ps : List DecodedPacket) (h : UInt64) :
    (contentCounts contentHash ps).count h =
      ps.countP fun p => decide (contentHash p.data = h) := by
  have hfold : contentCounts contentHash ps =
      Tally.ofKeys (ps.map fun p => contentHash p.data) := by
    rw [contentCounts, Tally.ofKeys, List.foldl_map]
  rw [hfold, Tally.count_ofKeys, List.count, List.countP_map]
  rfl

theorem see_eq (s : DiffPass) (e : DecodedPacket × ℕ) :
    s.see contentHash e =
      match s.remaining.take? (hashOf contentHash e) with
      | some rest => ⟨rest, s.only, s.common + 1⟩
      | none => ⟨s.remaining, s.only ++ [e.2], s.common⟩ := by
  unfold DiffPass.see Tally.take? hashOf
  dsimp only
  cases s.remaining.lookup (contentHash e.1.data) with
  | none => rfl
  | some c => by_cases hc : 0 < c <;> simp [hc]

/-- A pass appends the indices of the packets that find no match, and counts the others. -/
theorem foldl_see (es : List (DecodedPacket × ℕ)) (s : DiffPass) :
    (es.foldl (DiffPass.see contentHash) s).only =
        s.only ++ (Tally.unmatched (hashOf contentHash) s.remaining es).map Prod.snd ∧
      (es.foldl (DiffPass.see contentHash) s).common +
        (Tally.unmatched (hashOf contentHash) s.remaining es).length = s.common + es.length := by
  induction es generalizing s with
  | nil => simp [Tally.unmatched]
  | cons e es ih =>
    obtain ⟨honly, hcommon⟩ := ih (s.see contentHash e)
    rw [List.foldl_cons, honly]
    cases ht : s.remaining.take? (hashOf contentHash e) with
    | some rest =>
      have hs : s.see contentHash e = ⟨rest, s.only, s.common + 1⟩ := by rw [see_eq, ht]
      rw [hs] at hcommon ⊢
      rw [Tally.unmatched_cons_of_some ht]
      constructor
      · rfl
      · simp only [List.length_cons] at hcommon ⊢
        omega
    | none =>
      have hs : s.see contentHash e = ⟨s.remaining, s.only ++ [e.2], s.common⟩ := by
        rw [see_eq, ht]
      rw [hs] at hcommon ⊢
      rw [Tally.unmatched_cons_of_none ht]
      constructor
      · simp
      · simp only [List.length_cons] at hcommon ⊢
        omega

/-- The enumerated packets of a capture that the other leaves over. -/
def leftOver (contentHash : List UInt8 → UInt64) (a b : List DecodedPacket) :
    List (DecodedPacket × ℕ) :=
  Tally.unmatched (hashOf contentHash) (contentCounts contentHash b) a.zipIdx

theorem leftOver_sublist (a b : List DecodedPacket) :
    (leftOver contentHash a b).Sublist a.zipIdx := Tally.unmatched_sublist _ _ _

theorem diffPass_only (a b : List DecodedPacket) :
    (diffPass contentHash (contentCounts contentHash b) a).only =
      (leftOver contentHash a b).map Prod.snd := by
  rw [diffPass, (foldl_see a.zipIdx _).1]
  rfl

theorem diffPass_common (a b : List DecodedPacket) :
    (diffPass contentHash (contentCounts contentHash b) a).common +
      (leftOver contentHash a b).length = a.length := by
  have h := (@foldl_see contentHash a.zipIdx ⟨contentCounts contentHash b, [], 0⟩).2
  rw [List.length_zipIdx, Nat.zero_add] at h
  exact h

theorem diffByContent_onlyA (a b : List DecodedPacket) :
    (diffByContent contentHash a b).onlyA = (leftOver contentHash a b).map Prod.snd :=
  diffPass_only a b

theorem diffByContent_onlyB (a b : List DecodedPacket) :
    (diffByContent contentHash a b).onlyB = (leftOver contentHash b a).map Prod.snd :=
  diffPass_only b a

theorem increasing_leftOver (a b : List DecodedPacket) :
    ((leftOver contentHash a b).map Prod.snd).Pairwise (· < ·) := by
  have hidx : (a.zipIdx.map Prod.snd).Pairwise (· < ·) := by
    rw [List.zipIdx_map_snd]
    exact List.pairwise_lt_range'
  exact hidx.sublist ((leftOver_sublist a b).map Prod.snd)

theorem index_leftOver_lt {a b : List DecodedPacket} {i : ℕ}
    (hi : i ∈ (leftOver contentHash a b).map Prod.snd) : i < a.length := by
  obtain ⟨e, he, rfl⟩ := List.mem_map.mp hi
  exact List.snd_lt_of_mem_zipIdx ((leftOver_sublist a b).subset he)

theorem countAt_leftOver (a b : List DecodedPacket) (x : List UInt8) :
    countAt a ((leftOver contentHash a b).map Prod.snd) x =
      (leftOver contentHash a b).countP fun e => decide (e.1.data = x) := by
  rw [countAt, List.countP_map]
  refine List.countP_congr fun e he => ?_
  have hget : a[e.2]? = some e.1 :=
    List.mem_zipIdx_iff_getElem?.mp ((leftOver_sublist a b).subset he)
  simp [hget]

theorem count_contents (ps : List DecodedPacket) (x : List UInt8) :
    (contents ps).count x = ps.countP fun p => decide (p.data = x) := by
  rw [contents, List.count, List.countP_map]
  exact List.countP_congr fun p _ => by simp

theorem countP_zipIdx (ps : List DecodedPacket) (P : DecodedPacket → Bool) :
    (ps.zipIdx.countP fun e => P e.1) = ps.countP P := by
  conv_rhs => rw [← List.zipIdx_map_fst 0 ps, List.countP_map]
  rfl

/-- Under a hash without collisions, what is left over of a content is the difference of its
counts. -/
theorem countP_leftOver (h : CollisionFree contentHash (a ++ b)) (x : List UInt8) :
    ((leftOver contentHash a b).countP fun e => decide (e.1.data = x)) =
      (contents a).count x - (contents b).count x := by
  rw [count_contents, count_contents]
  by_cases hx : ∃ q ∈ a ++ b, q.data = x
  · obtain ⟨q, hq, rfl⟩ := hx
    have hkey : ∀ p ∈ a ++ b, p.data = q.data ↔ contentHash p.data = contentHash q.data := by
      intro p hp
      exact ⟨congrArg contentHash, h p hp q hq⟩
    have hleft : ((leftOver contentHash a b).countP fun e => decide (e.1.data = q.data)) =
        (leftOver contentHash a b).countP fun e =>
          decide (hashOf contentHash e = contentHash q.data) := by
      refine List.countP_congr fun e he => ?_
      have hmem : e.1 ∈ a := List.fst_mem_of_mem_zipIdx ((leftOver_sublist a b).subset he)
      rw [decide_eq_true_iff, decide_eq_true_iff]
      exact hkey e.1 (List.mem_append_left b hmem)
    have hside : ∀ ps : List DecodedPacket, ps ⊆ a ++ b →
        (ps.countP fun p => decide (p.data = q.data)) =
          ps.countP fun p => decide (contentHash p.data = contentHash q.data) := by
      intro ps hps
      refine List.countP_congr fun p hp => ?_
      simp only [decide_eq_true_eq]
      exact hkey p (hps hp)
    rw [hleft, leftOver, Tally.countP_unmatched, count_contentCounts,
      hside a (List.subset_append_left a b), hside b (List.subset_append_right a b)]
    refine congrArg (· - _) ?_
    exact countP_zipIdx a fun p => decide (contentHash p.data = contentHash q.data)
  · push Not at hx
    have hleft : ((leftOver contentHash a b).countP fun e => decide (e.1.data = x)) = 0 := by
      rw [List.countP_eq_zero]
      intro e he
      have hmem : e.1 ∈ a := List.fst_mem_of_mem_zipIdx ((leftOver_sublist a b).subset he)
      simpa using hx e.1 (List.mem_append_left b hmem)
    have ha : (a.countP fun p => decide (p.data = x)) = 0 := by
      rw [List.countP_eq_zero]
      intro p hp
      simpa using hx p (List.mem_append_left b hp)
    rw [hleft, ha, Nat.zero_sub]

theorem CollisionFree.symm (h : CollisionFree contentHash (a ++ b)) :
    CollisionFree contentHash (b ++ a) := by
  have hmem : ∀ p ∈ b ++ a, p ∈ a ++ b := by
    intro p hp
    exact List.mem_append.mpr (List.mem_append.mp hp).symm
  intro p hp q hq
  exact h p (hmem p hp) q (hmem q hq)

theorem length_leftOver (h : CollisionFree contentHash (a ++ b)) :
    ∑ x ∈ (contents a ++ contents b).toFinset, ((contents a).count x - (contents b).count x) =
      (leftOver contentHash a b).length := by
  have hsum := Tally.sum_count_eq_length (s := (contents a ++ contents b).toFinset)
    (l := (leftOver contentHash a b).map fun e => e.1.data) (by
      intro x hx
      obtain ⟨e, he, rfl⟩ := List.mem_map.mp hx
      have hmem : e.1 ∈ a := List.fst_mem_of_mem_zipIdx ((leftOver_sublist a b).subset he)
      rw [List.mem_toFinset]
      exact List.mem_append_left _ (List.mem_map_of_mem hmem))
  rw [List.length_map] at hsum
  rw [← hsum]
  refine Finset.sum_congr rfl fun x _ => ?_
  rw [← countP_leftOver h, List.count, List.countP_map]
  exact List.countP_congr fun e _ => by simp

theorem common_eq_sum (h : CollisionFree contentHash (a ++ b)) :
    (diffByContent contentHash a b).common = ∑ x ∈ (contents a ++ contents b).toFinset,
      min ((contents a).count x) ((contents b).count x) := by
  have hlen := @diffPass_common contentHash a b
  have hall : ∑ x ∈ (contents a ++ contents b).toFinset, (contents a).count x = a.length := by
    rw [Tally.sum_count_eq_length fun x hx => List.mem_toFinset.mpr (List.mem_append_left _ hx),
      contents, List.length_map]
  have hsplit : ∑ x ∈ (contents a ++ contents b).toFinset, (contents a).count x =
      ∑ x ∈ (contents a ++ contents b).toFinset,
          min ((contents a).count x) ((contents b).count x) +
        (leftOver contentHash a b).length := by
    rw [← length_leftOver h, ← Finset.sum_add_distrib]
    refine Finset.sum_congr rfl fun x _ => ?_
    omega
  have hdef : (diffByContent contentHash a b).common =
      (diffPass contentHash (contentCounts contentHash b) a).common := rfl
  omega

theorem common_comm (h : CollisionFree contentHash (a ++ b)) :
    (diffByContent contentHash b a).common = (diffByContent contentHash a b).common := by
  rw [common_eq_sum h, common_eq_sum h.symm, List.toFinset_append, List.toFinset_append,
    Finset.union_comm]
  exact Finset.sum_congr rfl fun x _ => Nat.min_comm _ _

end Counting

section Difference

variable {contentHash : List UInt8 → UInt64} {a b : List DecodedPacket}

theorem diffByContent_swap (h : CollisionFree contentHash (a ++ b)) :
    diffByContent contentHash b a = (diffByContent contentHash a b).swap := by
  have hcommon : (diffPass contentHash (contentCounts contentHash a) b).common =
      (diffPass contentHash (contentCounts contentHash b) a).common := common_comm h
  rw [diffByContent, hcommon]
  rfl

theorem diffByContent_isMultisetDiff (h : CollisionFree contentHash (a ++ b)) :
    IsMultisetDiff a b (diffByContent contentHash a b) where
  onlyA x := by rw [diffByContent_onlyA, countAt_leftOver, countP_leftOver h]
  onlyB x := by rw [diffByContent_onlyB, countAt_leftOver, countP_leftOver h.symm]
  common := common_eq_sum h
  increasingA := by
    rw [diffByContent_onlyA]
    exact increasing_leftOver a b
  increasingB := by
    rw [diffByContent_onlyB]
    exact increasing_leftOver b a
  validA i hi := index_leftOver_lt (diffByContent_onlyA a b ▸ hi)
  validB i hi := index_leftOver_lt (diffByContent_onlyB a b ▸ hi)
  lengthA := by
    rw [diffByContent_onlyA, List.length_map]
    exact diffPass_common a b
  lengthB := by
    rw [← common_comm h, diffByContent_onlyB, List.length_map]
    exact diffPass_common b a

/-- The comparison is the difference of the two multisets of contents, whichever capture comes
first. -/
theorem diffByContent_difference (h : CollisionFree contentHash (a ++ b)) :
    IsMultisetDiff a b (diffByContent contentHash a b) ∧
      diffByContent contentHash b a = (diffByContent contentHash a b).swap :=
  ⟨diffByContent_isMultisetDiff h, diffByContent_swap h⟩

end Difference

/-- A packet of which only the content matters. -/
def barePacket (data : List UInt8) : DecodedPacket where
  number := 0
  timestamp := 0
  wireLen := UInt32.ofNat data.length
  data := data
  layers := []
  summary := ⟨"", "", "", 0, "", .other⟩
  process := none
  retransmission := false

def rollingHash (data : List UInt8) : UInt64 := data.foldl (fun h b => 31 * h + b.toUInt64) 7

theorem diffByContent_difference_duplicates :
    diffByContent rollingHash ([[1], [2], [2], [3]].map barePacket) ([[2], [3], [4]].map barePacket) =
        ⟨[0, 2], [2], 2⟩ ∧
      IsMultisetDiff ([[1], [2], [2], [3]].map barePacket) ([[2], [3], [4]].map barePacket)
        (diffByContent rollingHash ([[1], [2], [2], [3]].map barePacket)
          ([[2], [3], [4]].map barePacket)) := by
  have hfree : CollisionFree rollingHash
      ([[1], [2], [2], [3]].map barePacket ++ [[2], [3], [4]].map barePacket) := by
    unfold CollisionFree
    decide
  constructor
  · decide
  · exact (diffByContent_difference hfree).1

end Pktscope

import Pktscope.Library.Utf8

/-! # The ends of lossy text

A byte that is a character of its own stays one when text is read lossily, and no
other byte becomes one. So the first and the last byte of the text that is read
agree with the first and the last byte that were given.
-/

namespace Library

section Edges

variable {b c : UInt8} {rest : List UInt8}

theorem utf8EncodeChar_of_lt {c : Char} (h : c.toNat < 0x80) :
    String.utf8EncodeChar c = [UInt8.ofNat c.toNat] := by
  have hv : c.val.toNat ≤ 0x7f := Nat.le_of_lt_succ h
  unfold String.utf8EncodeChar
  dsimp only
  rw [if_pos hv]
  rfl

/-- A character beyond the first 128 has only bytes beyond them. -/
theorem le_of_mem_utf8EncodeChar {c : Char} (h : 0x80 ≤ c.toNat) (hb : b ∈ String.utf8EncodeChar c) :
    0x80 ≤ b.toNat := by
  have hv : 0x80 ≤ c.val.toNat := h
  unfold String.utf8EncodeChar at hb
  dsimp only at hb
  generalize c.val.toNat = v at hv hb
  have hbyte : ∀ n, 0x80 ≤ n → n < 256 → b = UInt8.ofNat n → 0x80 ≤ b.toNat := by
    rintro n hlow hhigh rfl
    rwa [toNat_ofNat_byte hhigh]
  rw [if_neg (by omega)] at hb
  split_ifs at hb
  · simp only [List.mem_cons, List.not_mem_nil, or_false] at hb
    rcases hb with hb | hb
    · exact hbyte _ (by omega) (by omega) hb
    · exact hbyte _ (by omega) (by omega) hb
  · simp only [List.mem_cons, List.not_mem_nil, or_false] at hb
    rcases hb with hb | hb | hb
    · exact hbyte _ (by omega) (by omega) hb
    · exact hbyte _ (by omega) (by omega) hb
    · exact hbyte _ (by omega) (by omega) hb
  · simp only [List.mem_cons, List.not_mem_nil, or_false] at hb
    rcases hb with hb | hb | hb | hb
    · exact hbyte _ (by omega) (by omega) hb
    · exact hbyte _ (by omega) (by omega) hb
    · exact hbyte _ (by omega) (by omega) hb
    · exact hbyte _ (by omega) (by omega) hb

theorem utf8Head_of_lt (h : b.toNat < 0x80) (rest : List UInt8) :
    utf8Head b rest = (some (Char.ofNat b.toNat), 1) := by
  have hwidth : utf8Width b = 1 := by
    rw [utf8Width, if_pos (UInt8.lt_iff_toNat_lt.mpr h)]
  simp [utf8Head, hwidth]

theorem toNat_ofNat_char {n : ℕ} (h : n.isValidChar) : (Char.ofNat n).toNat = n := by
  rw [Char.ofNat, dif_pos h]
  rfl

theorem isTail_iff : isTail c = true ↔ 0x80 ≤ c.toNat ∧ c.toNat ≤ 0xbf := by
  simp only [isTail, Bool.and_eq_true, decide_eq_true_eq, UInt8.le_iff_toNat_le]
  rfl

theorem isSecond_bounds (h : isSecond b c = true) :
    0x80 ≤ c.toNat ∧ c.toNat ≤ 0xbf ∧ (b.toNat = 0xe0 → 0xa0 ≤ c.toNat) ∧
      (b.toNat = 0xed → c.toNat ≤ 0x9f) ∧ (b.toNat = 0xf0 → 0x90 ≤ c.toNat) ∧
      (b.toNat = 0xf4 → c.toNat ≤ 0x8f) := by
  simp only [isSecond, isTail, ← UInt8.toNat_inj, UInt8.reduceToNat] at h
  split_ifs at h
  all_goals
    simp only [Bool.and_eq_true, decide_eq_true_eq, UInt8.le_iff_toNat_le, UInt8.reduceToNat] at h
    omega

theorem utf8Width_cases (h : 0x80 ≤ b.toNat) :
    utf8Width b = 0 ∨ utf8Width b = 2 ∧ 0xc2 ≤ b.toNat ∧ b.toNat < 0xe0 ∨
      utf8Width b = 3 ∧ 0xe0 ≤ b.toNat ∧ b.toNat < 0xf0 ∨
      utf8Width b = 4 ∧ 0xf0 ≤ b.toNat ∧ b.toNat < 0xf5 := by
  unfold utf8Width
  simp only [UInt8.lt_iff_toNat_lt, UInt8.reduceToNat]
  split_ifs
  all_goals omega

/-- A chunk that gives none of the first 128 characters and takes none of the first 128 bytes after
its first one. -/
def Beyond (rest : List UInt8) (chunk : Option Char × ℕ) : Prop :=
  0x80 ≤ (chunk.1.getD (Char.ofNat 0xfffd)).toNat ∧
    ∀ i < chunk.2 - 1, 0x80 ≤ (rest.getD i 0).toNat

theorem beyond_invalid {skip : ℕ} (h : ∀ i < skip - 1, 0x80 ≤ (rest.getD i 0).toNat) :
    Beyond rest (none, skip) := by
  refine ⟨?_, h⟩
  rw [Option.getD_none]
  decide

theorem beyond_char {n width : ℕ} (hn : n.isValidChar) (hlow : 0x80 ≤ n)
    (h : ∀ i < width - 1, 0x80 ≤ (rest.getD i 0).toNat) :
    Beyond rest (some (Char.ofNat n), width) := by
  refine ⟨?_, h⟩
  rw [Option.getD_some, toNat_ofNat_char hn]
  exact hlow

theorem forall_lt_one {P : ℕ → Prop} (h0 : P 0) : ∀ i < 1, P i := by
  intro i hi
  rwa [Nat.lt_one_iff.mp hi]

theorem forall_lt_two {P : ℕ → Prop} (h0 : P 0) (h1 : P 1) : ∀ i < 2, P i := by
  intro i hi
  obtain rfl | rfl : i = 0 ∨ i = 1 := by omega
  · exact h0
  · exact h1

/-- Invalid heads and characters of several bytes are beyond the first 128. -/
theorem utf8Head_beyond (h : 0x80 ≤ b.toNat) (rest : List UInt8) :
    Beyond rest (utf8Head b rest) := by
  have hnone : Beyond rest (none, 1) := beyond_invalid (by simp)
  unfold utf8Head
  obtain hw | ⟨hw, hlow, hhigh⟩ | ⟨hw, hlow, hhigh⟩ | ⟨hw, hlow, hhigh⟩ := utf8Width_cases h
  · rw [hw]
    exact hnone
  · rw [hw]
    change Beyond rest (if _ then _ else _)
    split_ifs with hc
    · have hc' := isTail_iff.mp hc
      refine beyond_char ?_ ?_ (forall_lt_one hc'.1)
      · unfold tailBits Nat.isValidChar
        omega
      · omega
    · exact hnone
  · rw [hw]
    change Beyond rest (if _ then _ else if _ then _ else _)
    split_ifs with hc hd
    · exact hnone
    · exact beyond_invalid (forall_lt_one (isSecond_bounds (b := b) (by simpa using hc)).1)
    · have hc' := isSecond_bounds (b := b) (c := rest.getD 0 0) (by simpa using hc)
      have hd' := (isTail_iff (c := rest.getD 1 0)).mp (by simpa using hd)
      refine beyond_char ?_ ?_ (forall_lt_two hc'.1 hd'.1)
      · unfold tailBits Nat.isValidChar
        omega
      · unfold tailBits
        omega
  · rw [hw]
    change Beyond rest (if _ then _ else if _ then _ else if _ then _ else _)
    split_ifs with hc hd he
    · exact hnone
    · exact beyond_invalid (forall_lt_one (isSecond_bounds (b := b) (by simpa using hc)).1)
    · have hc' := isSecond_bounds (b := b) (c := rest.getD 0 0) (by simpa using hc)
      have hd' := (isTail_iff (c := rest.getD 1 0)).mp (by simpa using hd)
      exact beyond_invalid (forall_lt_two hc'.1 hd'.1)
    · have hc' := isSecond_bounds (b := b) (c := rest.getD 0 0) (by simpa using hc)
      have hd' := (isTail_iff (c := rest.getD 1 0)).mp (by simpa using hd)
      have he' := (isTail_iff (c := rest.getD 2 0)).mp (by simpa using he)
      refine beyond_char ?_ ?_ ?_
      · unfold tailBits Nat.isValidChar
        omega
      · unfold tailBits
        omega
      · intro i hi
        obtain rfl | rfl | rfl : i = 0 ∨ i = 1 ∨ i = 2 := by omega
        · exact hc'.1
        · exact hd'.1
        · exact he'.1

/-- A byte of the lossy text agrees with a byte that was read: they are the same, or both are beyond
the first 128. -/
def SameEdge (b x : UInt8) : Prop := if b.toNat < 0x80 then x = b else 0x80 ≤ x.toNat

/-- The character of a chunk agrees with a byte that it took. -/
def EdgeChar (b : UInt8) (c : Option Char) : Prop :=
  if b.toNat < 0x80 then c = some (Char.ofNat b.toNat)
  else 0x80 ≤ (c.getD (Char.ofNat 0xfffd)).toNat

theorem edgeChar_head (b : UInt8) (rest : List UInt8) : EdgeChar b (utf8Head b rest).1 := by
  unfold EdgeChar
  split_ifs with h
  · rw [utf8Head_of_lt h]
  · exact (utf8Head_beyond (Nat.not_lt.mp h) rest).1

theorem utf8Chunks_of_le {bytes : List UInt8} {skip : ℕ} (h : bytes.length ≤ skip) :
    utf8Chunks skip bytes = [] := by
  induction bytes generalizing skip with
  | nil => exact utf8Chunks.eq_1 skip
  | cons a rest ih =>
    cases skip with
    | zero => cases h
    | succ skip => exact ih (Nat.le_of_succ_le_succ h)

/-- The last chunk agrees with the last byte, whether or not that byte starts it. -/
theorem edgeChar_last {bytes : List UInt8} {skip : ℕ} (hskip : skip < bytes.length)
    (hb : bytes.getLast? = some b) : ∃ c, (utf8Chunks skip bytes).getLast? = some c ∧ EdgeChar b c := by
  induction bytes generalizing skip with
  | nil => cases hb
  | cons a rest ih =>
    have hrest : rest ≠ [] → rest.getLast? = some b := by
      intro hne
      rwa [List.getLast?_cons_of_ne_nil hne] at hb
    cases skip with
    | succ skip =>
      have hlt : skip < rest.length := Nat.lt_of_succ_lt_succ hskip
      exact ih hlt (hrest (List.ne_nil_of_length_pos (Nat.zero_lt_of_lt hlt)))
    | zero =>
      rw [utf8Chunks]
      rcases Nat.lt_or_ge ((utf8Head a rest).2 - 1) rest.length with hlt | hge
      · obtain ⟨c, hc, hedge⟩ := ih hlt (hrest (List.ne_nil_of_length_pos (Nat.zero_lt_of_lt hlt)))
        refine ⟨c, ?_, hedge⟩
        rw [List.getLast?_cons, hc]
        rfl
      · -- the chunk takes all that is left
        have hnil : utf8Chunks ((utf8Head a rest).2 - 1) rest = [] := utf8Chunks_of_le hge
        refine ⟨(utf8Head a rest).1, by rw [hnil]; rfl, ?_⟩
        rcases List.eq_nil_or_concat' rest with rfl | ⟨init, z, rfl⟩
        · cases hb
          exact edgeChar_head a []
        · obtain rfl : z = b := by
            have hlast := hrest (by simp)
            rw [List.getLast?_concat] at hlast
            exact Option.some.inj hlast
          have ha : 0x80 ≤ a.toNat := by
            by_contra hlt
            rw [utf8Head_of_lt (Nat.not_le.mp hlt), List.length_append] at hge
            cases hge
          obtain ⟨hchar, htail⟩ := utf8Head_beyond ha (init ++ [z])
          have hz := htail init.length (by
            rw [List.length_append] at hge
            exact hge)
          rw [List.getD_eq_getElem?_getD, List.getElem?_concat_length, Option.getD_some] at hz
          rw [EdgeChar, if_neg (Nat.not_lt.mpr hz)]
          exact hchar

theorem sameEdge_of_mem {c : Option Char} (hc : EdgeChar b c) {x : UInt8}
    (hx : x ∈ String.utf8EncodeChar (c.getD (Char.ofNat 0xfffd))) : SameEdge b x := by
  unfold EdgeChar at hc
  unfold SameEdge
  split_ifs at hc ⊢ with h
  · have hchar : (Char.ofNat b.toNat).toNat = b.toNat :=
      toNat_ofNat_char (Or.inl (h.trans (by decide)))
    rw [hc, Option.getD_some, utf8EncodeChar_of_lt (by rwa [hchar]), hchar, List.mem_singleton] at hx
    rw [hx, UInt8.ofNat_toNat]
  · exact le_of_mem_utf8EncodeChar hc hx

theorem utf8Bytes_fromUtf8Lossy (bytes : List UInt8) :
    utf8Bytes (fromUtf8Lossy bytes) = (utf8Chunks 0 bytes).flatMap fun c =>
      String.utf8EncodeChar (c.getD (Char.ofNat 0xfffd)) := by
  rw [utf8Bytes, fromUtf8Lossy, String.toList_ofList, List.flatMap_map]

theorem head?_lossy (b : UInt8) (rest : List UInt8) :
    ∃ x, (utf8Bytes (fromUtf8Lossy (b :: rest))).head? = some x ∧ SameEdge b x := by
  rw [utf8Bytes_fromUtf8Lossy, utf8Chunks, List.flatMap_cons]
  obtain ⟨x, more, hx⟩ := List.exists_cons_of_ne_nil
    (String.utf8EncodeChar_ne_nil (c := (utf8Head b rest).1.getD (Char.ofNat 0xfffd)))
  rw [hx]
  refine ⟨x, rfl, sameEdge_of_mem (edgeChar_head b rest) ?_⟩
  rw [hx]
  exact List.mem_cons_self

theorem getLast?_lossy {bytes : List UInt8} (hb : bytes.getLast? = some b) :
    ∃ x, (utf8Bytes (fromUtf8Lossy bytes)).getLast? = some x ∧ SameEdge b x := by
  have hpos : 0 < bytes.length := List.length_pos_of_mem (List.mem_of_getLast? hb)
  obtain ⟨c, hc, hedge⟩ := edgeChar_last hpos hb
  obtain ⟨init, hinit⟩ := List.getLast?_eq_some_iff.mp hc
  obtain ⟨x, hx⟩ := List.getLast?_isSome.mpr
    (String.utf8EncodeChar_ne_nil (c := c.getD (Char.ofNat 0xfffd))) |> Option.isSome_iff_exists.mp
  refine ⟨x, ?_, sameEdge_of_mem hedge (List.mem_of_getLast? hx)⟩
  rw [utf8Bytes_fromUtf8Lossy, hinit, List.flatMap_append, List.flatMap_singleton,
    List.getLast?_append, hx, Option.some_or]

end Edges

end Library

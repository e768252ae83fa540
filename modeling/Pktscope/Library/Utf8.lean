import Mathlib.Data.List.Basic
import Mathlib.Order.Basic
import Mathlib.Data.Nat.Basic

/-! # UTF-8 text

Bytes are read as text by splitting them into characters and longest invalid
heads. Strict reading refuses an invalid head, lossy reading puts a replacement
character in its place.
-/

namespace Library

/-- A byte that continues a character. -/
def isTail (b : UInt8) : Bool := decide (0x80 ≤ b) && decide (b ≤ 0xbf)

/-- How many bytes a character takes that starts with a byte, or zero for none. -/
def utf8Width (b : UInt8) : ℕ :=
  if b < 0x80 then 1
  else if b < 0xc2 then 0
  else if b < 0xe0 then 2
  else if b < 0xf0 then 3
  else if b < 0xf5 then 4
  else 0

/-- The second byte of a character of three or four bytes, which must not make it overlong, a
surrogate or too large. -/
def isSecond (b c : UInt8) : Bool :=
  if b = 0xe0 then decide (0xa0 ≤ c) && decide (c ≤ 0xbf)
  else if b = 0xed then decide (0x80 ≤ c) && decide (c ≤ 0x9f)
  else if b = 0xf0 then decide (0x90 ≤ c) && decide (c ≤ 0xbf)
  else if b = 0xf4 then decide (0x80 ≤ c) && decide (c ≤ 0x8f)
  else isTail c

/-- The six low bits of a byte that continues a character. -/
def tailBits (b : UInt8) : ℕ := b.toNat % 64

/-- The character at the start of some bytes with its width, or no character with the length of the
invalid head. -/
def utf8Head (b : UInt8) (rest : List UInt8) : Option Char × ℕ :=
  let c := rest.getD 0 0
  let d := rest.getD 1 0
  let e := rest.getD 2 0
  match utf8Width b with
  | 1 => (some (Char.ofNat b.toNat), 1)
  | 2 =>
    if isTail c then (some (Char.ofNat (b.toNat % 32 * 64 + tailBits c)), 2) else (none, 1)
  | 3 =>
    if !isSecond b c then (none, 1)
    else if !isTail d then (none, 2)
    else (some (Char.ofNat ((b.toNat % 16 * 64 + tailBits c) * 64 + tailBits d)), 3)
  | 4 =>
    if !isSecond b c then (none, 1)
    else if !isTail d then (none, 2)
    else if !isTail e then (none, 3)
    else (some (Char.ofNat (((b.toNat % 8 * 64 + tailBits c) * 64 + tailBits d) * 64 + tailBits e)), 4)
  | _ => (none, 1)

/-- The characters and invalid heads of some bytes, of which the first few are already read. -/
def utf8Chunks : ℕ → List UInt8 → List (Option Char)
  | _, [] => []
  | skip + 1, _ :: rest => utf8Chunks skip rest
  | 0, b :: rest => (utf8Head b rest).1 :: utf8Chunks ((utf8Head b rest).2 - 1) rest

/-- `String::from_utf8_lossy` -/
def fromUtf8Lossy (bytes : List UInt8) : String :=
  String.ofList ((utf8Chunks 0 bytes).map fun c => c.getD (Char.ofNat 0xfffd))

/-- `String::from_utf8` -/
def fromUtf8 (bytes : List UInt8) : Option String :=
  if (utf8Chunks 0 bytes).all Option.isSome then
    some (String.ofList ((utf8Chunks 0 bytes).filterMap id))
  else none

/-- `str::as_bytes` -/
def utf8Bytes (s : String) : List UInt8 := s.toList.flatMap String.utf8EncodeChar

section Size

theorem utf8ByteSize_ofList_cons (c : Char) (l : List Char) :
    (String.ofList (c :: l)).utf8ByteSize = c.utf8Size + (String.ofList l).utf8ByteSize := by
  rw [String.ofList_cons, String.utf8ByteSize_append, String.utf8ByteSize_singleton]

theorem length_utf8Chunks (skip : ℕ) (bytes : List UInt8) :
    (utf8Chunks skip bytes).length ≤ bytes.length := by
  induction bytes generalizing skip with
  | nil => exact (congrArg List.length (utf8Chunks.eq_1 skip)).le
  | cons b rest ih =>
    cases skip with
    | zero => exact Nat.succ_le_succ (ih _)
    | succ skip => exact (ih skip).trans (Nat.le_succ _)

theorem utf8ByteSize_ofList_le (l : List Char) : (String.ofList l).utf8ByteSize ≤ 4 * l.length := by
  induction l with
  | nil => exact Nat.le_refl 0
  | cons c l ih =>
    have hc := c.utf8Size_le_four
    rw [utf8ByteSize_ofList_cons, List.length_cons]
    omega

theorem utf8ByteSize_ofList_append (l m : List Char) :
    (String.ofList (l ++ m)).utf8ByteSize =
      (String.ofList l).utf8ByteSize + (String.ofList m).utf8ByteSize := by
  rw [String.ofList_append, String.utf8ByteSize_append]

/-- Text of characters of one byte. -/
theorem utf8ByteSize_ofList_of_ascii {l : List Char} (h : ∀ c ∈ l, c.utf8Size = 1) :
    (String.ofList l).utf8ByteSize = l.length := by
  induction l with
  | nil => rfl
  | cons c l ih =>
    rw [utf8ByteSize_ofList_cons, h c List.mem_cons_self,
      ih fun d hd => h d (List.mem_cons_of_mem c hd), List.length_cons, Nat.add_comm]

theorem utf8ByteSize_lossy_le (bytes : List UInt8) :
    (fromUtf8Lossy bytes).utf8ByteSize ≤ 4 * bytes.length := by
  have hsize := utf8ByteSize_ofList_le ((utf8Chunks 0 bytes).map fun c => c.getD (Char.ofNat 0xfffd))
  have hlen := length_utf8Chunks 0 bytes
  rw [List.length_map] at hsize
  exact hsize.trans (Nat.mul_le_mul_left 4 hlen)

end Size

section Boundaries

/-- `str::is_char_boundary`: the bytes before the index are those of some characters. -/
def IsCharBoundary (s : String) (i : ℕ) : Prop :=
  ∃ front, front <+: s.toList ∧ i = (String.ofList front).utf8ByteSize

variable {s : String} {i : ℕ}

theorem IsCharBoundary.le (h : IsCharBoundary s i) : i ≤ s.utf8ByteSize := by
  obtain ⟨front, ⟨back, hs⟩, rfl⟩ := h
  rw [← String.ofList_toList (s := s), ← hs, utf8ByteSize_ofList_append]
  exact Nat.le_add_right _ _

theorem isCharBoundary_of_ascii (hs : ∀ c ∈ s.toList, c.utf8Size = 1) (hi : i ≤ s.toList.length) :
    IsCharBoundary s i := by
  refine ⟨s.toList.take i, List.take_prefix _ _, ?_⟩
  rw [utf8ByteSize_ofList_of_ascii fun c hc => hs c (List.mem_of_mem_take hc), List.length_take]
  omega

/-- No boundary is inside of a character. -/
theorem not_isCharBoundary {front back : List Char} {c : Char} (hc : c.utf8Size ≠ 1) :
    ¬IsCharBoundary (String.ofList (front ++ c :: back))
      ((String.ofList front).utf8ByteSize + 1) := by
  rintro ⟨other, hother, hsize⟩
  rw [String.toList_ofList] at hother
  have hpos := c.utf8Size_pos
  rcases List.prefix_or_prefix_of_prefix hother (List.prefix_append front (c :: back)) with hle | hle
  · obtain ⟨rest, rfl⟩ := hle
    rw [utf8ByteSize_ofList_append] at hsize
    omega
  · obtain ⟨rest, rfl⟩ := hle
    rw [utf8ByteSize_ofList_append] at hsize
    rw [List.prefix_append_right_inj] at hother
    cases rest with
    | nil =>
      have hnil : (String.ofList []).utf8ByteSize = 0 := rfl
      omega
    | cons d rest =>
      obtain ⟨rfl, -⟩ := List.cons_prefix_cons.mp hother
      rw [utf8ByteSize_ofList_cons] at hsize
      omega

/-- The characters in front of a byte and those behind, if it is a boundary. -/
def splitBytes : List Char → ℕ → Option (List Char × List Char)
  | cs, 0 => some ([], cs)
  | [], _ + 1 => none
  | c :: cs, n + 1 =>
    if c.utf8Size ≤ n + 1 then
      (splitBytes cs (n + 1 - c.utf8Size)).map fun halves => (c :: halves.1, halves.2)
    else none

theorem splitBytes_of_ascii {cs : List Char} (h : ∀ c ∈ cs, c.utf8Size = 1) {n : ℕ}
    (hn : n ≤ cs.length) : splitBytes cs n = some (cs.take n, cs.drop n) := by
  induction cs generalizing n with
  | nil =>
    obtain rfl : n = 0 := by simpa using hn
    rfl
  | cons c cs ih =>
    cases n with
    | zero => rfl
    | succ n =>
      have hc := h c List.mem_cons_self
      have hrest := ih (fun d hd => h d (List.mem_cons_of_mem c hd)) (Nat.le_of_succ_le_succ hn)
      simp [splitBytes, hc, hrest]

end Boundaries

section RoundTrip

variable {b c d e : UInt8} {rest : List UInt8} {n m : ℕ}

theorem toNat_ofNat_byte (h : n < 256) : (UInt8.ofNat n).toNat = n := by
  rw [UInt8.toNat_ofNat', Nat.mod_eq_of_lt h]

theorem ofNat_lt_iff (hn : n < 256) : UInt8.ofNat n < b ↔ n < b.toNat := by
  rw [UInt8.lt_iff_toNat_lt, toNat_ofNat_byte hn]

theorem ofNat_le_iff (hn : n < 256) : UInt8.ofNat n ≤ b ↔ n ≤ b.toNat := by
  rw [UInt8.le_iff_toNat_le, toNat_ofNat_byte hn]

theorem le_ofNat_iff (hn : n < 256) : b ≤ UInt8.ofNat n ↔ b.toNat ≤ n := by
  rw [UInt8.le_iff_toNat_le, toNat_ofNat_byte hn]

theorem ofNat_eq_iff (hn : n < 256) : UInt8.ofNat n = b ↔ n = b.toNat := by
  rw [← UInt8.toNat_inj, toNat_ofNat_byte hn]

theorem between_ofNat (hn : n < 256) (hb : b.toNat ≤ n) (hc : n ≤ c.toNat) :
    (decide (b ≤ UInt8.ofNat n) && decide (UInt8.ofNat n ≤ c)) = true := by
  simp [le_ofNat_iff hn, ofNat_le_iff hn, hb, hc]

theorem isTail_ofNat (h : m < 64) : isTail (UInt8.ofNat (m + 0x80)) = true :=
  between_ofNat (by omega) (Nat.le_add_left 0x80 m) (Nat.add_le_add_right (Nat.le_of_lt_succ h) 0x80)

theorem tailBits_ofNat (h : m < 64) : tailBits (UInt8.ofNat (m + 0x80)) = m := by
  rw [tailBits, toNat_ofNat_byte (by omega)]
  omega

theorem utf8Width_ofNat (h : n < 256) :
    utf8Width (UInt8.ofNat n) = if n < 0x80 then 1 else if n < 0xc2 then 0 else if n < 0xe0 then 2
      else if n < 0xf0 then 3 else if n < 0xf5 then 4 else 0 := by
  simp only [utf8Width, ofNat_lt_iff h]
  rfl

theorem isSecond_ofNat (hn : n < 256) (hm : m < 64) (he0 : n = 0xe0 → 0x20 ≤ m)
    (hed : n = 0xed → m < 0x20) (hf0 : n = 0xf0 → 0x10 ≤ m) (hf4 : n = 0xf4 → m < 0x10) :
    isSecond (UInt8.ofNat n) (UInt8.ofNat (m + 0x80)) = true := by
  have hbyte : m + 0x80 < 256 := by omega
  have hlow : (0x80 : UInt8).toNat ≤ m + 0x80 := Nat.le_add_left 0x80 m
  have hhigh : m + 0x80 ≤ (0xbf : UInt8).toNat := Nat.le_of_lt_succ (Nat.add_lt_add_right hm 0x80)
  simp only [isSecond, ofNat_eq_iff hn]
  split
  · rename_i heq
    exact between_ofNat hbyte (Nat.add_le_add_right (he0 heq) 0x80) hhigh
  split
  · rename_i heq
    exact between_ofNat hbyte hlow (Nat.le_pred_of_lt (Nat.add_lt_add_right (hed heq) 0x80))
  split
  · rename_i heq
    exact between_ofNat hbyte (Nat.add_le_add_right (hf0 heq) 0x80) hhigh
  split
  · rename_i heq
    exact between_ofNat hbyte hlow (Nat.le_pred_of_lt (Nat.add_lt_add_right (hf4 heq) 0x80))
  · exact isTail_ofNat hm

theorem utf8Head_two (hb : utf8Width b = 2) (hc : isTail c = true) :
    utf8Head b (c :: rest) = (some (Char.ofNat (b.toNat % 32 * 64 + tailBits c)), 2) := by
  simp [utf8Head, hb, hc]

theorem utf8Head_three (hb : utf8Width b = 3) (hc : isSecond b c = true) (hd : isTail d = true) :
    utf8Head b (c :: d :: rest) =
      (some (Char.ofNat ((b.toNat % 16 * 64 + tailBits c) * 64 + tailBits d)), 3) := by
  simp [utf8Head, hb, hc, hd]

theorem utf8Head_four (hb : utf8Width b = 4) (hc : isSecond b c = true) (hd : isTail d = true)
    (he : isTail e = true) : utf8Head b (c :: d :: e :: rest) =
      (some (Char.ofNat (((b.toNat % 8 * 64 + tailBits c) * 64 + tailBits d) * 64 + tailBits e)), 4) := by
  simp [utf8Head, hb, hc, hd, he]

/-- A character is read back from its bytes. -/
theorem utf8Chunks_utf8EncodeChar (c : Char) (rest : List UInt8) :
    utf8Chunks 0 (String.utf8EncodeChar c ++ rest) = some c :: utf8Chunks 0 rest := by
  have hback : Char.ofNat c.val.toNat = c := Char.ofNat_toNat c
  have hvalid : c.val.toNat < 0xd800 ∨ 0xdfff < c.val.toNat ∧ c.val.toNat < 0x110000 := c.valid
  unfold String.utf8EncodeChar
  dsimp only
  generalize c.val.toNat = v at hback hvalid ⊢
  have hlow : v % 64 < 64 := Nat.mod_lt v (by decide)
  have hmid : v / 64 % 64 < 64 := Nat.mod_lt _ (by decide)
  have hhigh : v / 4096 % 64 < 64 := Nat.mod_lt _ (by decide)
  split
  · have hwidth : utf8Width (UInt8.ofNat v) = 1 := by
      rw [utf8Width_ofNat (by omega), if_pos (by omega)]
    change (utf8Head (UInt8.ofNat v) rest).1 ::
      utf8Chunks ((utf8Head (UInt8.ofNat v) rest).2 - 1) rest = _
    have hhead : utf8Head (UInt8.ofNat v) rest = (some (Char.ofNat (UInt8.ofNat v).toNat), 1) := by
      simp [utf8Head, hwidth]
    rw [hhead, toNat_ofNat_byte (by omega), hback]
    rfl
  split
  · have hwidth : utf8Width (UInt8.ofNat (v / 64 % 0x20 + 0xc0)) = 2 := by
      rw [utf8Width_ofNat (by omega), if_neg (by omega), if_neg (by omega), if_pos (by omega)]
    change (utf8Head _ (_ :: rest)).1 :: utf8Chunks ((utf8Head _ (_ :: rest)).2 - 1) (_ :: rest) = _
    rw [utf8Head_two hwidth (isTail_ofNat hlow), tailBits_ofNat hlow, toNat_ofNat_byte (by omega)]
    have hvalue : (v / 64 % 0x20 + 0xc0) % 32 * 64 + v % 64 = v := by omega
    rw [hvalue, hback]
    rfl
  split
  · have hwidth : utf8Width (UInt8.ofNat (v / 4096 % 0x10 + 0xe0)) = 3 := by
      rw [utf8Width_ofNat (by omega), if_neg (by omega), if_neg (by omega), if_neg (by omega),
        if_pos (by omega)]
    have hsecond := isSecond_ofNat (n := v / 4096 % 0x10 + 0xe0) (by omega) hmid (by omega)
      (by omega) (by omega) (by omega)
    change (utf8Head _ (_ :: _ :: rest)).1 ::
      utf8Chunks ((utf8Head _ (_ :: _ :: rest)).2 - 1) (_ :: _ :: rest) = _
    rw [utf8Head_three hwidth hsecond (isTail_ofNat hlow), tailBits_ofNat hlow, tailBits_ofNat hmid,
      toNat_ofNat_byte (by omega)]
    have hvalue : ((v / 4096 % 0x10 + 0xe0) % 16 * 64 + v / 64 % 64) * 64 + v % 64 = v := by omega
    rw [hvalue, hback]
    rfl
  · have hwidth : utf8Width (UInt8.ofNat (v / 262144 % 0x08 + 0xf0)) = 4 := by
      rw [utf8Width_ofNat (by omega), if_neg (by omega), if_neg (by omega), if_neg (by omega),
        if_neg (by omega), if_pos (by omega)]
    have hsecond := isSecond_ofNat (n := v / 262144 % 0x08 + 0xf0) (by omega) hhigh (by omega)
      (by omega) (by omega) (by omega)
    change (utf8Head _ (_ :: _ :: _ :: rest)).1 ::
      utf8Chunks ((utf8Head _ (_ :: _ :: _ :: rest)).2 - 1) (_ :: _ :: _ :: rest) = _
    rw [utf8Head_four hwidth hsecond (isTail_ofNat hmid) (isTail_ofNat hlow), tailBits_ofNat hlow,
      tailBits_ofNat hmid, tailBits_ofNat hhigh, toNat_ofNat_byte (by omega)]
    have hvalue : (((v / 262144 % 0x08 + 0xf0) % 8 * 64 + v / 4096 % 64) * 64 + v / 64 % 64) * 64 +
        v % 64 = v := by omega
    rw [hvalue, hback]
    rfl

theorem utf8Chunks_flatMap (l : List Char) :
    utf8Chunks 0 (l.flatMap String.utf8EncodeChar) = l.map some := by
  induction l with
  | nil => rfl
  | cons c l ih => rw [List.flatMap_cons, utf8Chunks_utf8EncodeChar, ih, List.map_cons]

/-- Text is read back from its bytes. -/
theorem fromUtf8Lossy_utf8Bytes (s : String) : fromUtf8Lossy (utf8Bytes s) = s := by
  rw [fromUtf8Lossy, utf8Bytes, utf8Chunks_flatMap, List.map_map]
  exact (congrArg String.ofList (List.map_id s.toList)).trans String.ofList_toList

theorem utf8Bytes_injective : Function.Injective utf8Bytes := by
  intro s t h
  rw [← fromUtf8Lossy_utf8Bytes s, h, fromUtf8Lossy_utf8Bytes]

theorem fromUtf8Lossy_replicate {c : Char} {b : UInt8} (h : String.utf8EncodeChar c = [b])
    (n : ℕ) : fromUtf8Lossy (List.replicate n b) = String.ofList (List.replicate n c) := by
  have hbytes : utf8Bytes (String.ofList (List.replicate n c)) = List.replicate n b := by
    rw [utf8Bytes, String.toList_ofList, List.flatMap_replicate, h,
      List.flatten_replicate_singleton]
  rw [← hbytes, fromUtf8Lossy_utf8Bytes]

theorem fromUtf8_utf8Bytes (s : String) : fromUtf8 (utf8Bytes s) = some s := by
  rw [fromUtf8, utf8Bytes, utf8Chunks_flatMap]
  simp [List.filterMap_map]

theorem length_flatMap_utf8EncodeChar (l : List Char) :
    (l.flatMap String.utf8EncodeChar).length = (String.ofList l).utf8ByteSize := by
  induction l with
  | nil => rfl
  | cons c l ih =>
    rw [List.flatMap_cons, List.length_append, ih, utf8ByteSize_ofList_cons,
      String.length_utf8EncodeChar]

theorem length_utf8Bytes (s : String) : (utf8Bytes s).length = s.utf8ByteSize := by
  rw [utf8Bytes, length_flatMap_utf8EncodeChar, String.ofList_toList]

end RoundTrip

end Library

import Pktscope.Decode.Dns
import Pktscope.Library.DomainNames

/-! # Names in DNS messages

`parse_dns_name` reads a name exactly where one is written and takes at most 128
pointers to its end. A pointer behind labels contributes the text of its whole name, so
one to the root leaves a dot at the end.
-/

namespace Pktscope

open Library Parse

/-- The texts that are joined for a name: those of its labels, and that of the name behind a pointer
as a whole. -/
def nameParts : NameForm → List String
  | .root => []
  | .label text rest => fromUtf8Lossy text :: nameParts rest
  | .pointer _ name => [".".intercalate (nameParts name)]

/-- The text of a name. -/
def nameText (w : NameForm) : String := ".".intercalate (nameParts w)

section Lead

theorem and_0xc0_eq_iff (b : UInt8) : b &&& 0xc0 = 0xc0 ↔ 192 ≤ b.toNat := by
  have hall : ∀ n : Fin 256, UInt8.ofNat n.val &&& 0xc0 = 0xc0 ↔ 192 ≤ n.val := by
    decide +kernel
  have hb := hall ⟨b.toNat, b.toNat_lt⟩
  rwa [UInt8.ofNat_toNat] at hb

theorem and_0x3f (b : UInt8) : (b &&& 0x3f).toNat = b.toNat % 64 := by
  rw [UInt8.toNat_and]
  exact Nat.and_two_pow_sub_one_eq_mod b.toNat 6

theorem pointer_number {hi : ℕ} (h : 192 ≤ hi) (hlt : hi < 256) (lo : ℕ) :
    hi * 256 + lo = 0xc000 + (hi % 64 * 256 + lo) := by
  omega

end Lead

section Shapes

variable {data : List UInt8} {base pos : ℕ} {w : NameForm}

theorem exists_pointer (hw : w.Written data base pos) (h : 192 ≤ (peek data pos).toNat) :
    ∃ offset name, w = .pointer offset name := by
  have hlead := hw.lead_eq
  cases w with
  | root =>
    rw [NameForm.lead] at hlead
    omega
  | label text rest =>
    have hshort := hw.2.1
    rw [NameForm.lead] at hlead
    omega
  | pointer offset name => exact ⟨offset, name, rfl⟩

theorem exists_label (hw : w.Written data base pos) (hne : (peek data pos).toNat ≠ 0)
    (h : (peek data pos).toNat < 192) : ∃ text rest, w = .label text rest := by
  have hlead := hw.lead_eq
  cases w with
  | root => exact absurd hlead hne
  | label text rest => exact ⟨text, rest, rfl⟩
  | pointer offset name =>
    rw [NameForm.lead] at hlead
    omega

theorem standsAt_pointer (hptr : 192 ≤ (peek data pos).toNat) (h : pos + 1 < data.length) :
    StandsAt data pos (toBe16 (UInt16.ofNat
      (0xc000 + ((peek data pos).toNat % 64 * 256 + (peek data (pos + 1)).toNat)))) := by
  have hnumber := pointer_number hptr (peek data pos).toNat_lt (peek data (pos + 1)).toNat
  rw [toBe16_ofNat hnumber]
  exact standsAt_cons.mpr ⟨standsAt_peek (by omega), standsAt_peek h⟩

theorem joined_eq (labels : List String) (s : String) (stop : ℕ) :
    (if labels.isEmpty then return (s, stop)
      else return (".".intercalate (labels ++ [s]), stop) : Parse (String × ℕ)) =
      ok (".".intercalate (labels ++ [s]), stop) := by
  cases labels with
  | nil => rw [List.nil_append, String.intercalate_singleton]; rfl
  | cons _ _ => rfl

end Shapes

section Names

variable {data : List UInt8} {base pos : ℕ} (hs : data.length < maxBytes) (hb : base ≤ data.length)

section Rounds

variable {call : ℕ → Parse (String × ℕ)} {depth rounds : ℕ} {labels : List String}
  {r : String × ℕ}

include hs

theorem nameLoop_root_iff (hdepth : depth ≤ 128) (hin : pos < data.length)
    (hzero : peek data pos = 0) :
    nameLoop data base call (rounds + 1) pos labels = ok r ↔
      ∃ w : NameForm, w.Written data base pos ∧ depth + w.pointers ≤ 128 ∧
        r = (".".intercalate (labels ++ nameParts w), pos + w.bytes.length) := by
  have hmax : maxBytes = 2 ^ 63 := rfl
  have hlead := standsAt_peek hin
  rw [hzero] at hlead
  rw [nameLoop, if_neg (by omega), index_eq_peek hin, ok_bind, if_pos hzero,
    addUsize_eq hs (by omega) (by omega)]
  constructor
  · rintro ⟨⟩
    refine ⟨.root, hlead, hdepth, ?_⟩
    rw [nameParts, List.append_nil]
    rfl
  · rintro ⟨w, hw, -, rfl⟩
    obtain rfl : w = .root := hw.unique (show NameForm.root.Written data base pos from hlead)
    rw [nameParts, List.append_nil]
    rfl

theorem nameLoop_label_iff (hin : pos < data.length) (hne : peek data pos ≠ 0)
    (hshort : (peek data pos).toNat < 192)
    (ih : ∀ text : List UInt8, text.length = (peek data pos).toNat →
      (nameLoop data base call rounds (pos + 1 + text.length) (labels ++ [fromUtf8Lossy text]) = ok r ↔
        ∃ w : NameForm, w.Written data base (pos + 1 + text.length) ∧ depth + w.pointers ≤ 128 ∧
          r = (".".intercalate (labels ++ [fromUtf8Lossy text] ++ nameParts w),
            pos + 1 + text.length + w.bytes.length))) :
    nameLoop data base call (rounds + 1) pos labels = ok r ↔
      ∃ w : NameForm, w.Written data base pos ∧ depth + w.pointers ≤ 128 ∧
        r = (".".intercalate (labels ++ nameParts w), pos + w.bytes.length) := by
  have hmax : maxBytes = 2 ^ 63 := rfl
  have hnat : (peek data pos).toNat ≠ 0 := fun h => hne (UInt8.toNat_inj.mp h)
  have hptr : ¬peek data pos &&& 0xc0 = 0xc0 := by
    rw [and_0xc0_eq_iff]
    omega
  rw [nameLoop, if_neg (by omega), index_eq_peek hin, ok_bind, if_neg hne, if_neg hptr,
    addUsize_eq hs (by omega) (by omega), ok_bind, addUsize, if_pos (by omega), ok_bind]
  by_cases hstop : data.length < pos + 1 + (peek data pos).toNat
  · rw [if_pos hstop]
    constructor
    · rintro ⟨⟩
    · rintro ⟨w, hw, -⟩
      obtain ⟨text, rest, rfl⟩ := exists_label hw hnat hshort
      have hle := hw.2.2.1.le
      have hlen := hw.lead_eq
      rw [NameForm.lead] at hlen
      rw [length_vec8] at hle
      omega
  rw [if_neg hstop, sliceAt, if_pos ⟨by omega, by omega⟩, ok_bind]
  generalize htext : slice data (pos + 1) (pos + 1 + (peek data pos).toNat) = text
  have hlength : text.length = (peek data pos).toNat := by
    rw [← htext, length_slice (by omega)]
    omega
  have hlabel : StandsAt data pos (vec8 text) := by
    rw [vec8, hlength, UInt8.ofNat_toNat]
    exact standsAt_cons.mpr ⟨standsAt_peek hin, htext ▸ standsAt_slice (by omega) (by omega)⟩
  rw [← hlength]
  apply (ih text hlength).trans
  constructor
  · rintro ⟨rest, hrest, hfits, rfl⟩
    refine ⟨.label text rest, ⟨?_, by omega, hlabel, ?_⟩, hfits, ?_⟩
    · intro hnil
      rw [hnil] at hlength
      exact hnat hlength.symm
    · rwa [Nat.add_comm text.length, ← Nat.add_assoc]
    · rw [nameParts, NameForm.bytes, List.length_append, length_vec8, List.append_assoc,
        List.singleton_append]
      congr 1
      omega
  · rintro ⟨w, hw, hfits, rfl⟩
    obtain ⟨text', rest, rfl⟩ := exists_label hw hnat hshort
    have hlen := hw.lead_eq
    rw [NameForm.lead] at hlen
    obtain ⟨-, -, hlabel', hrest⟩ := hw
    obtain rfl : text = text' := hlabel.tail.unique hlabel'.tail (hlength.trans hlen)
    refine ⟨rest, ?_, hfits, ?_⟩
    · rwa [Nat.add_assoc, Nat.add_comm 1]
    · rw [nameParts, NameForm.bytes, List.length_append, length_vec8, List.append_assoc,
        List.singleton_append]
      congr 1
      omega

include hb

/-- A round at a pointer calls for the name that it leads to. -/
theorem nameLoop_pointer_iff
    (hcall : ∀ target r, call target = ok r ↔ ∃ w : NameForm, w.Written data base target ∧
      depth + 1 + w.pointers ≤ 128 ∧ r = (nameText w, target + w.bytes.length))
    (hin : pos < data.length) (hptr : 192 ≤ (peek data pos).toNat) :
    nameLoop data base call (rounds + 1) pos labels = ok r ↔
      ∃ w : NameForm, w.Written data base pos ∧ depth + w.pointers ≤ 128 ∧
        r = (".".intercalate (labels ++ nameParts w), pos + w.bytes.length) := by
  have hmax : maxBytes = 2 ^ 63 := rfl
  have hne : ¬peek data pos = 0 := by
    intro h
    rw [h, UInt8.toNat_zero] at hptr
    omega
  rw [nameLoop, if_neg (by omega), index_eq_peek hin, ok_bind, if_neg hne,
    if_pos ((and_0xc0_eq_iff _).mpr hptr), addUsize_eq hs (by omega) (by omega), ok_bind]
  by_cases hsecond : data.length ≤ pos + 1
  · rw [if_pos hsecond]
    constructor
    · rintro ⟨⟩
    · rintro ⟨w, hw, -⟩
      obtain ⟨offset, name, rfl⟩ := exists_pointer hw hptr
      have hle : pos + 2 ≤ data.length := hw.2.1.le
      omega
  have hbytes := standsAt_pointer hptr (by omega)
  have hlow := (peek data (pos + 1)).toNat_lt
  rw [if_neg hsecond, byteAt_eq hs (by omega), ok_bind]
  dsimp only
  rw [and_0x3f, addUsize_eq hs (by omega) (by omega), ok_bind, addUsize_eq hs hb (by omega), ok_bind]
  generalize hoffset : (peek data pos).toNat % 64 * 256 + (peek data (pos + 1)).toNat = offset
    at hbytes
  constructor
  · intro h
    cases htarget : call (base + offset) with
    | refuse => rw [htarget] at h; cases h
    | fault f => rw [htarget] at h; cases h
    | ok p =>
      obtain ⟨name, hname, hfits, rfl⟩ := (hcall _ _).mp htarget
      rw [htarget, ok_bind] at h
      dsimp only at h
      rw [joined_eq] at h
      cases h
      refine ⟨.pointer offset name, ⟨by omega, hbytes, hname⟩, ?_, rfl⟩
      rw [NameForm.pointers]
      omega
  · rintro ⟨w, hw, hfits, rfl⟩
    obtain ⟨offset', name, rfl⟩ := exists_pointer hw hptr
    obtain ⟨hoffset', hbytes', hname⟩ := hw
    have hsame : offset = offset' := by
      have hnumbers := congrArg UInt16.toNat (toBe16_inj (hbytes.unique hbytes' rfl))
      rw [UInt16.toNat_ofNat', UInt16.toNat_ofNat'] at hnumbers
      omega
    rw [← hsame] at hname
    rw [NameForm.pointers] at hfits
    rw [(hcall _ _).mpr ⟨name, hname, by omega, rfl⟩, ok_bind]
    dsimp only
    rw [joined_eq]
    rfl

end Rounds

include hs hb

theorem nameLoop_ok_iff {call : ℕ → Parse (String × ℕ)} {depth : ℕ} (hdepth : depth ≤ 128)
    (hcall : ∀ target r, call target = ok r ↔ ∃ w : NameForm, w.Written data base target ∧
      depth + 1 + w.pointers ≤ 128 ∧ r = (nameText w, target + w.bytes.length))
    {rounds : ℕ} (labels : List String) (hpos : 0 < rounds) (hr : data.length < pos + rounds)
    (r : String × ℕ) : nameLoop data base call rounds pos labels = ok r ↔
      ∃ w : NameForm, w.Written data base pos ∧ depth + w.pointers ≤ 128 ∧
        r = (".".intercalate (labels ++ nameParts w), pos + w.bytes.length) := by
  induction rounds generalizing pos labels with
  | zero => exact absurd hpos (Nat.lt_irrefl 0)
  | succ rounds ih =>
    by_cases hend : data.length ≤ pos
    · rw [nameLoop, if_pos hend]
      constructor
      · rintro ⟨⟩
      · rintro ⟨w, hw, -⟩
        have hle := hw.le
        have hlen := w.length_bytes_pos
        omega
    have hin : pos < data.length := not_le.mp hend
    by_cases hzero : peek data pos = 0
    · exact nameLoop_root_iff hs hdepth hin hzero
    by_cases hptr : 192 ≤ (peek data pos).toNat
    · exact nameLoop_pointer_iff hs hb hcall hin hptr
    · apply nameLoop_label_iff hs hin hzero (not_le.mp hptr)
      intro text _
      exact ih _ (by omega) (by omega)

theorem parseDnsName_ok_iff {calls depth : ℕ} (hcalls : depth + calls = maxNameCalls)
    (hdepth : depth < maxNameCalls) (pos : ℕ) (r : String × ℕ) :
    parseDnsName data base calls pos depth = ok r ↔ ∃ w : NameForm, w.Written data base pos ∧
      depth + w.pointers ≤ 128 ∧ r = (nameText w, pos + w.bytes.length) := by
  induction calls generalizing depth pos r with
  | zero => exact absurd hcalls hdepth.ne
  | succ calls ih =>
    rw [parseDnsName]
    by_cases hdeep : 128 < depth
    · rw [if_pos hdeep]
      constructor
      · rintro ⟨⟩
      · rintro ⟨w, -, hfits, -⟩
        omega
    rw [if_neg hdeep]
    have hmax : maxNameCalls = 130 := rfl
    refine nameLoop_ok_iff hs hb (not_lt.mp hdeep) ?_ [] (Nat.succ_pos _) (by omega) r
    intro target r
    rw [addUsize, if_pos (by omega), ok_bind]
    exact ih (by omega) (by omega) target r

/-- A name is read where one is written, unless it takes more than 128 pointers. -/
theorem dnsName_ok_iff (pos : ℕ) (r : String × ℕ) :
    dnsName data base pos = ok r ↔ ∃ w : NameForm, w.Written data base pos ∧
      w.pointers ≤ 128 ∧ r = (nameText w, pos + w.bytes.length) := by
  have hread := parseDnsName_ok_iff hs hb (show 0 + maxNameCalls = maxNameCalls from rfl)
    (by decide) pos r
  simp only [Nat.zero_add] at hread
  exact hread

theorem dnsName_written {w : NameForm} (hw : w.Written data base pos) (hfits : w.pointers ≤ 128) :
    dnsName data base pos = ok (nameText w, pos + w.bytes.length) :=
  (dnsName_ok_iff hs hb pos _).mpr ⟨w, hw, hfits, rfl⟩

theorem dnsName_deep {w : NameForm} (hw : w.Written data base pos) (hdeep : 128 < w.pointers) :
    dnsName data base pos = refuse := by
  cases hread : dnsName data base pos with
  | ok r =>
    obtain ⟨w', hw', hfits, -⟩ := (dnsName_ok_iff hs hb pos r).mp hread
    rw [hw.unique hw'] at hdeep
    omega
  | refuse => rfl
  | fault f => exact absurd hread ((holds_dnsName hs hb pos).not_fault f)

end Names

end Pktscope

import Mathlib.Algebra.GroupWithZero.Nat
import Pktscope.Library.DnsFormat

/-! # Header diagrams

A header is drawn as fields of some bits each, the most significant bit first. The
bytes of a diagram are those of the one number that its fields make. A diagram whose
fields fit is told by its bytes.
-/

namespace Library

section ToBe

variable {m n x y : ℕ}

theorem toBe_mod (n x : ℕ) : toBe n (x % 256 ^ n) = toBe n x := by
  induction n generalizing x with
  | zero => rfl
  | succ n ih =>
    have hhigh : UInt8.ofNat (x % 256 ^ (n + 1) / 256 ^ n) = UInt8.ofNat (x / 256 ^ n) := by
      rw [← UInt8.toNat_inj, UInt8.toNat_ofNat', UInt8.toNat_ofNat', Nat.pow_succ,
        Nat.mod_mul_right_div_self, Nat.mod_mod]
    have hlow : x % 256 ^ (n + 1) % 256 ^ n = x % 256 ^ n := by
      rw [Nat.pow_succ, Nat.mod_mul_right_mod]
    rw [toBe, toBe, hhigh, ← ih, hlow, ih]

theorem toBe_add (m : ℕ) (hy : y < 256 ^ n) :
    toBe (m + n) (x * 256 ^ n + y) = toBe m x ++ toBe n y := by
  induction m with
  | zero =>
    have hlow : (x * 256 ^ n + y) % 256 ^ n = y := by
      rw [Nat.add_comm, Nat.add_mul_mod_self_right, Nat.mod_eq_of_lt hy]
    rw [Nat.zero_add, ← toBe_mod, hlow]
    rfl
  | succ m ih =>
    have hhigh : (x * 256 ^ n + y) / 256 ^ (m + n) = x / 256 ^ m := by
      rw [Nat.add_comm m n, Nat.pow_add, ← Nat.div_div_eq_div_mul, Nat.add_comm (x * 256 ^ n),
        Nat.add_mul_div_right _ _ (Nat.pow_pos (by decide)), Nat.div_eq_of_lt hy, Nat.zero_add]
    rw [Nat.add_right_comm, toBe, hhigh, ih]
    rfl

theorem toBe_one (b : UInt8) : toBe 1 b.toNat = [b] := by simp [toBe]

theorem foldl_beNat (l : List UInt8) (acc : ℕ) :
    l.foldl (fun n b => n * 256 + b.toNat) acc = acc * 256 ^ l.length + beNat l := by
  induction l generalizing acc with
  | nil => simp [beNat]
  | cons c l ih =>
    have hcons : beNat (c :: l) = c.toNat * 256 ^ l.length + beNat l := by
      rw [beNat, List.foldl_cons, ih, Nat.zero_mul, Nat.zero_add]
    rw [List.foldl_cons, ih, hcons, List.length_cons, Nat.pow_succ, Nat.add_mul, Nat.mul_assoc,
      Nat.mul_comm 256, Nat.add_assoc]

theorem beNat_cons (b : UInt8) (l : List UInt8) :
    beNat (b :: l) = b.toNat * 256 ^ l.length + beNat l := by
  rw [beNat, List.foldl_cons, foldl_beNat, Nat.zero_mul, Nat.zero_add]

theorem beNat_lt (l : List UInt8) : beNat l < 256 ^ l.length := by
  induction l with
  | nil => decide
  | cons b l ih =>
    have hb : (b.toNat + 1) * 256 ^ l.length ≤ 256 * 256 ^ l.length :=
      Nat.mul_le_mul_right _ b.toNat_lt
    rw [Nat.add_mul, Nat.one_mul] at hb
    rw [beNat_cons, List.length_cons, Nat.pow_succ, Nat.mul_comm _ 256]
    omega

theorem toBe_beNat (l : List UInt8) : toBe l.length (beNat l) = l := by
  induction l with
  | nil => rfl
  | cons b l ih =>
    rw [beNat_cons, List.length_cons, Nat.add_comm, toBe_add 1 (beNat_lt l), toBe_one, ih]
    rfl

theorem beNat_inj {l l' : List UInt8} (hlen : l.length = l'.length) (h : beNat l = beNat l') :
    l = l' := by
  rw [← toBe_beNat l, ← toBe_beNat l', hlen, h]

end ToBe

/-- A field of a diagram: its bits, and the number they are to hold. -/
structure BitField where
  width : ℕ
  value : ℕ

def BitField.Fits (f : BitField) : Prop := f.value < 2 ^ f.width

instance (f : BitField) : Decidable f.Fits := inferInstanceAs (Decidable (_ < _))

/-- The bits of a diagram. -/
def bitsOf (fs : List BitField) : ℕ := (fs.map BitField.width).sum

/-- The number that the fields of a diagram make. -/
def packed : List BitField → ℕ
  | [] => 0
  | f :: fs => f.value * 2 ^ bitsOf fs + packed fs

def diagramBytes (fs : List BitField) : List UInt8 := toBe (bitsOf fs / 8) (packed fs)

@[simp] theorem length_diagramBytes (fs : List BitField) :
    (diagramBytes fs).length = bitsOf fs / 8 := length_toBe _ _

section Diagrams

variable {fs gs : List BitField}

@[simp] theorem bitsOf_nil : bitsOf [] = 0 := rfl

@[simp] theorem bitsOf_cons (f : BitField) (fs : List BitField) :
    bitsOf (f :: fs) = f.width + bitsOf fs := rfl

@[simp] theorem bitsOf_append (fs gs : List BitField) :
    bitsOf (fs ++ gs) = bitsOf fs + bitsOf gs := by
  rw [bitsOf, List.map_append, List.sum_append]
  rfl

theorem packed_append (fs gs : List BitField) :
    packed (fs ++ gs) = packed fs * 2 ^ bitsOf gs + packed gs := by
  induction fs with
  | nil => simp [packed]
  | cons f fs ih =>
    rw [List.cons_append, packed, ih, packed, bitsOf_append, Nat.pow_add, Nat.add_mul,
      Nat.mul_assoc, Nat.add_assoc]

theorem packed_lt (h : ∀ f ∈ fs, f.Fits) : packed fs < 2 ^ bitsOf fs := by
  induction fs with
  | nil => decide
  | cons f fs ih =>
    obtain ⟨hf, hfs⟩ := List.forall_mem_cons.mp h
    have hlow := ih hfs
    have hhigh : (f.value + 1) * 2 ^ bitsOf fs ≤ 2 ^ f.width * 2 ^ bitsOf fs :=
      Nat.mul_le_mul_right _ hf
    rw [Nat.add_mul, Nat.one_mul] at hhigh
    rw [packed, bitsOf_cons, Nat.pow_add]
    omega

/-- Diagrams of the same widths are told by their numbers. -/
theorem packed_inj (hwidth : fs.map BitField.width = gs.map BitField.width)
    (hfs : ∀ f ∈ fs, f.Fits) (hgs : ∀ g ∈ gs, g.Fits) (h : packed fs = packed gs) : fs = gs := by
  induction fs generalizing gs with
  | nil =>
    cases gs with
    | nil => rfl
    | cons g gs => cases hwidth
  | cons f fs ih =>
    cases gs with
    | nil => cases hwidth
    | cons g gs =>
      obtain ⟨hwf, hwfs⟩ := List.cons.inj hwidth
      obtain ⟨hf, hfs⟩ := List.forall_mem_cons.mp hfs
      obtain ⟨hg, hgs⟩ := List.forall_mem_cons.mp hgs
      have hbits : bitsOf fs = bitsOf gs := congrArg List.sum hwfs
      have hlow := packed_lt hfs
      have hlow' := packed_lt hgs
      rw [packed, packed, hbits] at h
      rw [hbits] at hlow
      have hpos : 0 < 2 ^ bitsOf gs := Nat.two_pow_pos _
      have hvalue : f.value = g.value := by
        have hdiv := congrArg (· / 2 ^ bitsOf gs) h
        simp only [Nat.add_comm (_ * _), Nat.add_mul_div_right _ _ hpos] at hdiv
        rwa [Nat.div_eq_of_lt hlow, Nat.div_eq_of_lt hlow', Nat.zero_add, Nat.zero_add] at hdiv
      have hrest : packed fs = packed gs := by
        rw [hvalue] at h
        exact Nat.add_left_cancel h
      rw [ih hwfs hfs hgs hrest]
      congr 1
      cases f
      cases g
      cases hwf
      cases hvalue
      rfl

end Diagrams

/-- A diagram of whole bytes whose fields fit stands at a place. -/
structure DrawnAt (data : List UInt8) (pos : ℕ) (fs : List BitField) : Prop where
  aligned : 8 ∣ bitsOf fs
  fits : ∀ f ∈ fs, f.Fits
  stands : StandsAt data pos (diagramBytes fs)

section Drawn

variable {data : List UInt8} {pos n : ℕ} {fs gs : List BitField}

theorem diagramBytes_append (hfs : 8 ∣ bitsOf fs) (hgs : 8 ∣ bitsOf gs) (h : ∀ g ∈ gs, g.Fits) :
    diagramBytes (fs ++ gs) = diagramBytes fs ++ diagramBytes gs := by
  obtain ⟨m, hm⟩ := hfs
  obtain ⟨n, hn⟩ := hgs
  have hlt := packed_lt h
  have hpow : 2 ^ (8 * n) = 256 ^ n := Nat.pow_mul 2 8 n
  rw [hn, hpow] at hlt
  rw [diagramBytes, diagramBytes, diagramBytes, packed_append, bitsOf_append, hm, hn, hpow,
    ← Nat.mul_add, Nat.mul_div_cancel_left _ (by decide), Nat.mul_div_cancel_left _ (by decide),
    Nat.mul_div_cancel_left _ (by decide), toBe_add m hlt]

theorem drawnAt_nil (h : pos ≤ data.length) : DrawnAt data pos [] where
  aligned := ⟨0, rfl⟩
  fits := nofun
  stands := standsAt_prefix_iff.mpr ⟨h, by simp [diagramBytes, toBe]⟩

/-- Diagrams that meet make one. -/
theorem DrawnAt.append (hfs : DrawnAt data pos fs) (n : ℕ) (hgs : DrawnAt data (pos + n) gs)
    (hn : bitsOf fs = 8 * n := by simp) : DrawnAt data pos (fs ++ gs) where
  aligned := by
    rw [bitsOf_append]
    exact Nat.dvd_add hfs.aligned hgs.aligned
  fits := List.forall_mem_append.mpr ⟨hfs.fits, hgs.fits⟩
  stands := by
    rw [diagramBytes_append hfs.aligned hgs.aligned hgs.fits, standsAt_append,
      length_diagramBytes, hn, Nat.mul_div_cancel_left _ (by decide)]
    exact ⟨hfs.stands, hgs.stands⟩

/-- A diagram of given widths is told by its place. -/
theorem DrawnAt.unique (hfs : DrawnAt data pos fs) (hgs : DrawnAt data pos gs)
    (hwidth : fs.map BitField.width = gs.map BitField.width) : fs = gs := by
  have hbits : bitsOf fs = bitsOf gs := congrArg List.sum hwidth
  have hbytes := hfs.stands.unique hgs.stands (by rw [length_diagramBytes, length_diagramBytes, hbits])
  have hpow : 2 ^ bitsOf gs = 256 ^ (bitsOf gs / 8) := by
    rw [← Nat.mul_div_cancel' hgs.aligned, Nat.pow_mul, Nat.mul_div_cancel_left _ (by decide)]
  have hnumber := congrArg beNat hbytes
  rw [diagramBytes, diagramBytes, beNat_toBe, beNat_toBe] at hnumber
  · exact packed_inj hwidth hfs.fits hgs.fits hnumber
  · exact hpow ▸ packed_lt hgs.fits
  · exact hbits ▸ hpow ▸ hbits ▸ packed_lt hfs.fits

theorem drawnAt_of_packed {bytes : List UInt8} (h : StandsAt data pos bytes)
    (hfits : ∀ f ∈ fs, f.Fits) (hbits : bitsOf fs = 8 * bytes.length)
    (hpacked : packed fs = beNat bytes) : DrawnAt data pos fs where
  aligned := ⟨_, hbits⟩
  fits := hfits
  stands := by
    rw [diagramBytes, hpacked, hbits, Nat.mul_div_cancel_left _ (by decide), toBe_beNat]
    exact h

theorem drawnAt_bytes {bytes : List UInt8} (h : StandsAt data pos bytes) (hn : n = 8 * bytes.length) :
    DrawnAt data pos [⟨n, beNat bytes⟩] := by
  refine drawnAt_of_packed h ?_ ?_ ?_
  · rintro f hf
    cases List.mem_singleton.mp hf
    rw [BitField.Fits, hn, Nat.pow_mul]
    exact beNat_lt bytes
  · exact hn
  · simp [packed]

theorem forall_fits_cons {f : BitField} :
    (∀ g ∈ f :: fs, g.Fits) ↔ f.value < 2 ^ f.width ∧ ∀ g ∈ fs, g.Fits :=
  List.forall_mem_cons

theorem drawnAt_byte (h : pos < data.length) (hfits : ∀ f ∈ fs, f.Fits) (hbits : bitsOf fs = 8)
    (hpacked : packed fs = (peek data pos).toNat) : DrawnAt data pos fs := by
  refine drawnAt_of_packed (standsAt_peek h) hfits hbits (hpacked.trans ?_)
  simp [beNat]

theorem drawnAt_word (h : pos + 1 < data.length) (hfits : ∀ f ∈ fs, f.Fits)
    (hbits : bitsOf fs = 16)
    (hpacked : packed fs = (be16 (peek data pos) (peek data (pos + 1))).toNat) :
    DrawnAt data pos fs := by
  have hstands : StandsAt data pos [peek data pos, peek data (pos + 1)] :=
    standsAt_cons.mpr ⟨standsAt_peek (by omega), standsAt_peek h⟩
  refine drawnAt_of_packed hstands hfits hbits (hpacked.trans ?_)
  have hhi := (peek data pos).toNat_lt
  have hlo := (peek data (pos + 1)).toNat_lt
  simp only [be16, UInt16.toNat_ofNat', beNat, List.foldl_cons, List.foldl_nil]
  omega

theorem drawnAt_dword (h : pos + 3 < data.length) (hfits : ∀ f ∈ fs, f.Fits)
    (hbits : bitsOf fs = 32)
    (hpacked : packed fs = (be32 (peek data pos) (peek data (pos + 1)) (peek data (pos + 2))
      (peek data (pos + 3))).toNat) : DrawnAt data pos fs := by
  have hstands : StandsAt data pos [peek data pos, peek data (pos + 1), peek data (pos + 2),
      peek data (pos + 3)] := by
    refine standsAt_cons.mpr ⟨standsAt_peek (by omega), ?_⟩
    refine standsAt_cons.mpr ⟨standsAt_peek (by omega), ?_⟩
    exact standsAt_cons.mpr ⟨standsAt_peek (by omega), standsAt_peek h⟩
  refine drawnAt_of_packed hstands hfits hbits (hpacked.trans ?_)
  have ha := (peek data pos).toNat_lt
  have hb := (peek data (pos + 1)).toNat_lt
  have hc := (peek data (pos + 2)).toNat_lt
  have hd := (peek data (pos + 3)).toNat_lt
  simp only [be32, UInt32.toNat_ofNat', beNat, List.foldl_cons, List.foldl_nil]
  omega

theorem drawnAt_u8 (h : pos < data.length) :
    DrawnAt data pos [⟨8, (peek data pos).toNat⟩] := by
  refine drawnAt_byte h ?_ rfl (by simp [packed])
  simpa [BitField.Fits] using (peek data pos).toNat_lt

theorem drawnAt_u16 (h : pos + 1 < data.length) :
    DrawnAt data pos [⟨16, (be16 (peek data pos) (peek data (pos + 1))).toNat⟩] := by
  refine drawnAt_word h ?_ rfl (by simp [packed])
  simpa [BitField.Fits] using UInt16.toNat_lt _

theorem drawnAt_u32 (h : pos + 3 < data.length) :
    DrawnAt data pos [⟨32, (be32 (peek data pos) (peek data (pos + 1)) (peek data (pos + 2))
      (peek data (pos + 3))).toNat⟩] := by
  refine drawnAt_dword h ?_ rfl (by simp [packed])
  simpa [BitField.Fits] using UInt32.toNat_lt _

theorem drawnAt_slice {stop : ℕ} (hpos : pos ≤ stop) (hstop : stop ≤ data.length)
    (hn : n = 8 * (stop - pos)) :
    DrawnAt data pos [⟨n, beNat (slice data pos stop)⟩] :=
  drawnAt_bytes (standsAt_slice hpos hstop) (by rw [length_slice hstop, hn])

end Drawn

section Masks

variable {k : ℕ}

theorem toNat_and_low8 (b : UInt8) (hk : k ≤ 8) :
    (b &&& UInt8.ofNat (2 ^ k - 1)).toNat = b.toNat % 2 ^ k := by
  have hpow : 2 ^ k ≤ 2 ^ 8 := Nat.pow_le_pow_right (by decide) hk
  have hpos : 0 < 2 ^ k := Nat.two_pow_pos k
  rw [UInt8.toNat_and, UInt8.toNat_ofNat', Nat.mod_eq_of_lt (by omega),
    Nat.and_two_pow_sub_one_eq_mod]

theorem toNat_and_low16 (w : UInt16) (hk : k ≤ 16) :
    (w &&& UInt16.ofNat (2 ^ k - 1)).toNat = w.toNat % 2 ^ k := by
  have hpow : 2 ^ k ≤ 2 ^ 16 := Nat.pow_le_pow_right (by decide) hk
  have hpos : 0 < 2 ^ k := Nat.two_pow_pos k
  rw [UInt16.toNat_and, UInt16.toNat_ofNat', Nat.mod_eq_of_lt (by omega),
    Nat.and_two_pow_sub_one_eq_mod]

theorem toNat_and_low32 (w : UInt32) (hk : k ≤ 32) :
    (w &&& UInt32.ofNat (2 ^ k - 1)).toNat = w.toNat % 2 ^ k := by
  have hpow : 2 ^ k ≤ 2 ^ 32 := Nat.pow_le_pow_right (by decide) hk
  have hpos : 0 < 2 ^ k := Nat.two_pow_pos k
  rw [UInt32.toNat_and, UInt32.toNat_ofNat', Nat.mod_eq_of_lt (by omega),
    Nat.and_two_pow_sub_one_eq_mod]

/-- One bit of a byte as a number. -/
theorem toNat_and_bit (b : UInt8) (hk : k < 8) :
    (b &&& UInt8.ofNat (2 ^ k) != 0).toNat = b.toNat / 2 ^ k % 2 := by
  have hbit := and_mask_ne_zero b hk
  have htwo : b.toNat / 2 ^ k % 2 = 0 ∨ b.toNat / 2 ^ k % 2 = 1 := Nat.mod_two_eq_zero_or_one _
  cases hb : (b &&& UInt8.ofNat (2 ^ k) != 0) with
  | true => rw [hbit.mp hb]; rfl
  | false =>
    rcases htwo with hzero | hone
    · rw [hzero]
      rfl
    · rw [hbit.mpr hone] at hb
      cases hb

end Masks

end Library

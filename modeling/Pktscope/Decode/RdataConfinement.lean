import Pktscope.Decode.DnsNames

/-! # The bytes of a record's data

The data of a record ends where its length says. The strings of a TXT record are read up
to that end; the names in other data, and the numbers behind those of an SOA, are read
up to the end of the buffer.
-/

namespace Pktscope

open Library Parse

/-- A name that the decoder reads stands at a place. -/
def HasName (data : List UInt8) (base pos : ℕ) : Prop :=
  ∃ w : NameForm, w.Written data base pos ∧ w.pointers ≤ 128

/-- Two names stand at a place, with the five numbers behind them. -/
def HasSoa (data : List UInt8) (base pos : ℕ) : Prop :=
  ∃ m r : NameForm, m.Written data base pos ∧ m.pointers ≤ 128 ∧
    r.Written data base (pos + m.bytes.length) ∧ r.pointers ≤ 128 ∧
    pos + m.bytes.length + r.bytes.length + 20 ≤ data.length

/-- What the data of a record of a type is made of stands at a place. -/
def HasForm (rtype : UInt16) (rdlen : ℕ) (data : List UInt8) (base pos : ℕ) : Prop :=
  if rtype = 5 ∨ rtype = 2 ∨ rtype = 12 then HasName data base pos
  else if rtype = 15 ∧ 3 ≤ rdlen then HasName data base (pos + 2)
  else if rtype = 33 ∧ 6 ≤ rdlen then HasName data base (pos + 6)
  else if rtype = 6 then HasSoa data base pos
  else True

/-- Bytes that end with the data of a record. -/
structure RdataPrefix where
  bytes : List UInt8
  base : ℕ
  pos : ℕ
  rdlen : ℕ
  rtype : UInt16
  behind : base ≤ pos
  whole : bytes.length = pos + rdlen
  fits : bytes.length < maxBytes

section Refines

variable {data : List UInt8} {base : ℕ}

variable (hb : base ≤ data.length) {after : List UInt8} (hs : (data ++ after).length < maxBytes)
include hb hs

theorem refines_dnsName (pos : ℕ) :
    Refines Eq (dnsName data base pos) (dnsName (data ++ after) base pos) := by
  have hs' : data.length < maxBytes := by
    rw [List.length_append] at hs
    omega
  have hb' : base ≤ (data ++ after).length := by
    rw [List.length_append]
    omega
  intro r hr
  obtain ⟨w, hw, hfits, rfl⟩ := (dnsName_ok_iff hs' hb pos r).mp hr
  exact ⟨_, dnsName_written hs hb' (hw.append after) hfits, rfl⟩

theorem refines_soaRdata (pos : ℕ) :
    Refines Eq (soaRdata data pos base) (soaRdata (data ++ after) pos base) := by
  refine (refines_dnsName hb hs pos).bind_eq fun m => (refines_dnsName hb hs m.2).bind_eq fun r => ?_
  refine (Refines.refl _).bind_eq fun stop => refines_guard ?_ fun _ => ?_
  · rw [List.length_append]
    omega
  · exact (refines_be32At data after _ 0).bind_eq fun _ =>
      (refines_be32At data after _ 4).bind_eq fun _ =>
        (refines_be32At data after _ 8).bind_eq fun _ =>
          (refines_be32At data after _ 12).bind_eq fun _ =>
            (refines_be32At data after _ 16).bind_eq fun _ => refines_ok rfl

omit hb hs in
theorem refines_txtLoop (stop rounds p : ℕ) (strings : List String) :
    Refines Eq (txtLoop data stop rounds p strings) (txtLoop (data ++ after) stop rounds p strings) := by
  induction rounds generalizing p strings with
  | zero => exact Refines.refl _
  | succ rounds ih =>
    refine refines_ite ?_ (Refines.refl _)
    refine (refines_index data after p).bind_eq fun len => (Refines.refl _).bind_eq fun start =>
      (Refines.refl _).bind_eq fun next => refines_ite (Refines.refl _) ?_
    exact (refines_sliceAt data after _ _).bind_eq fun bytes => ih _ _

end Refines

section Accepts

theorem accepts_txtLoop (data : List UInt8) (stop rounds p : ℕ) (strings : List String) :
    Accepts (txtLoop data stop rounds p strings) := by
  induction rounds generalizing p strings with
  | zero => exact accepts_fault _
  | succ rounds ih =>
    refine accepts_ite ?_ (accepts_ok _)
    refine (accepts_index _ _).bind fun len => (accepts_addUsize _ _).bind fun start =>
      (accepts_addUsize _ _).bind fun next => accepts_ite (accepts_ok _) ?_
    exact (accepts_sliceAt _ _ _).bind fun bytes => ih _ _

variable {data : List UInt8} {base : ℕ} (hs : data.length < maxBytes) (hb : base ≤ data.length)
include hs hb

theorem dnsName_accepts_iff (pos : ℕ) : Accepts (dnsName data base pos) ↔ HasName data base pos := by
  constructor
  · intro h
    cases hread : dnsName data base pos with
    | ok r =>
      obtain ⟨w, hw, hfits, -⟩ := (dnsName_ok_iff hs hb pos r).mp hread
      exact ⟨w, hw, hfits⟩
    | refuse => exact absurd hread h
    | fault f => exact absurd hread ((holds_dnsName hs hb pos).not_fault f)
  · rintro ⟨w, hw, hfits⟩
    rw [dnsName_written hs hb hw hfits]
    exact accepts_ok _

theorem soaRdata_accepts_iff (pos : ℕ) :
    Accepts (soaRdata data pos base) ↔ HasSoa data base pos := by
  have hmax : maxBytes = 2 ^ 63 := rfl
  constructor
  · intro h
    have hm : Accepts (dnsName data base pos) := by
      intro hm
      apply h
      rw [soaRdata, hm]
      rfl
    obtain ⟨m, hm, hmfits⟩ := (dnsName_accepts_iff hs hb pos).mp hm
    have hreadm := dnsName_written hs hb hm hmfits
    have hr : Accepts (dnsName data base (pos + m.bytes.length)) := by
      intro hr
      apply h
      rw [soaRdata, hreadm, ok_bind]
      dsimp only
      rw [hr]
      rfl
    obtain ⟨r, hr, hrfits⟩ := (dnsName_accepts_iff hs hb _).mp hr
    have hreadr := dnsName_written hs hb hr hrfits
    have hle := hr.le
    refine ⟨m, r, hm, hmfits, hr, hrfits, ?_⟩
    by_contra hcut
    apply h
    rw [soaRdata, hreadm, ok_bind]
    dsimp only
    rw [hreadr, ok_bind]
    dsimp only
    rw [addUsize_eq hs hle (by omega), ok_bind, if_pos (not_le.mp hcut)]
  · rintro ⟨m, r, hm, hmfits, hr, hrfits, hle⟩
    rw [soaRdata, dnsName_written hs hb hm hmfits, ok_bind]
    dsimp only
    rw [dnsName_written hs hb hr hrfits, ok_bind]
    dsimp only
    rw [addUsize_eq hs (by omega) (by omega), ok_bind, if_neg (not_lt.mpr hle)]
    simp (disch := omega) only [be32At_eq hs, ok_bind]
    exact accepts_ok _

end Accepts

namespace RdataPrefix

variable (r : RdataPrefix)

/-- `parse_rdata` on the data of the record. -/
def parse (data : List UInt8) : Parse DnsRdata := parseRdata data r.pos r.rdlen r.base r.rtype

/-- Two buffers that begin with the bytes up to the end of the data decode it alike. -/
def Confined : Prop :=
  ∀ data data' : List UInt8, data.length < maxBytes → data'.length < maxBytes →
    r.bytes <+: data → r.bytes <+: data' → r.parse data = r.parse data'

/-- No bytes behind the data complete what it is made of. -/
def FormInside : Prop :=
  ∀ after : List UInt8, (r.bytes ++ after).length < maxBytes →
    HasForm r.rtype r.rdlen (r.bytes ++ after) r.base r.pos →
    HasForm r.rtype r.rdlen r.bytes r.base r.pos

theorem confined_of_refines {d : DnsRdata} (hok : r.parse r.bytes = ok d)
    (h : ∀ after, Refines Eq (r.parse r.bytes) (r.parse (r.bytes ++ after))) : r.Confined := by
  have hsame : ∀ after, r.parse (r.bytes ++ after) = ok d := by
    intro after
    obtain ⟨_, hread, rfl⟩ := h after d hok
    exact hread
  rintro _ _ - - ⟨after, rfl⟩ ⟨after', rfl⟩
  rw [hsame, hsame]

theorem unknownRdata_eq (after : List UInt8) :
    unknownRdata (r.bytes ++ after) r.pos r.rdlen r.rtype =
      ok (.unknown r.rtype (slice r.bytes r.pos (r.pos + r.rdlen))) := by
  have hmax : maxBytes = 2 ^ 63 := rfl
  have hwhole := r.whole
  have hfits := r.fits
  rw [unknownRdata, addUsize, if_pos (by omega), ok_bind, sliceAt,
    if_pos ⟨by omega, by rw [List.length_append]; omega⟩, slice_append_of_le hwhole.ge]
  rfl

theorem confined_orUnknown_iff (read : List UInt8 → Parse DnsRdata)
    (hparse : ∀ after, (r.bytes ++ after).length < maxBytes → r.parse (r.bytes ++ after) =
      orUnknown (r.bytes ++ after) r.pos r.rdlen r.rtype (read (r.bytes ++ after)))
    (hread : ∀ after, (r.bytes ++ after).length < maxBytes →
      Refines Eq (read r.bytes) (read (r.bytes ++ after)))
    (hform : ∀ after, (r.bytes ++ after).length < maxBytes →
      Holds (read (r.bytes ++ after)) fun d => ∀ t b, d ≠ .unknown t b) :
    r.Confined ↔ ∀ after, (r.bytes ++ after).length < maxBytes →
      Accepts (read (r.bytes ++ after)) → Accepts (read r.bytes) := by
  have hself : (r.bytes ++ []).length < maxBytes := by
    rw [List.append_nil]
    exact r.fits
  have hrefused {after : List UInt8} (hs : (r.bytes ++ after).length < maxBytes)
      (hrefuse : read (r.bytes ++ after) = refuse) : r.parse (r.bytes ++ after) =
        ok (.unknown r.rtype (slice r.bytes r.pos (r.pos + r.rdlen))) := by
    rw [hparse after hs, hrefuse, ← r.unknownRdata_eq after]
    rfl
  have haccepted {after : List UInt8} (hs : (r.bytes ++ after).length < maxBytes) {d : DnsRdata}
      (hok : read (r.bytes ++ after) = ok d) : r.parse (r.bytes ++ after) = ok d := by
    rw [hparse after hs, hok]
    rfl
  constructor
  · intro h after hs haccepts hrefuse
    obtain ⟨d, hok, hd⟩ := (hform after hs).returns haccepts
    have hsame := h (r.bytes ++ []) (r.bytes ++ after) hself hs (List.prefix_append _ _)
      (List.prefix_append _ _)
    rw [hrefused hself (by rwa [List.append_nil]), haccepted hs hok] at hsame
    cases hsame
    exact hd _ _ rfl
  · rintro h _ _ hs hs' ⟨after, rfl⟩ ⟨after', rfl⟩
    cases hbytes : read r.bytes with
    | ok d =>
      obtain ⟨_, hok, rfl⟩ := hread after hs d hbytes
      obtain ⟨_, hok', rfl⟩ := hread after' hs' d hbytes
      rw [haccepted hs hok, haccepted hs' hok']
    | refuse =>
      have hrefuse {after : List UInt8} (hs : (r.bytes ++ after).length < maxBytes) :
          read (r.bytes ++ after) = refuse := by
        by_contra haccepts
        exact h after hs haccepts hbytes
      rw [hrefused hs (hrefuse hs), hrefused hs' (hrefuse hs')]
    | fault f =>
      have hfault := hform [] hself
      rw [List.append_nil, hbytes] at hfault
      exact hfault.elim

theorem base_le (after : List UInt8) : r.base ≤ (r.bytes ++ after).length := by
  have hbehind := r.behind
  have hwhole := r.whole
  rw [List.length_append]
  omega

theorem confined_name_iff (start : ℕ) (mk : String → DnsRdata)
    (hparse : ∀ after, (r.bytes ++ after).length < maxBytes → r.parse (r.bytes ++ after) =
      nameRdata (r.bytes ++ after) r.pos r.rdlen r.base r.rtype start mk)
    (hmk : ∀ s t b, mk s ≠ .unknown t b) :
    r.Confined ↔ ∀ after, (r.bytes ++ after).length < maxBytes →
      HasName (r.bytes ++ after) r.base start → HasName r.bytes r.base start := by
  have hb : r.base ≤ r.bytes.length := List.append_nil r.bytes ▸ r.base_le []
  have haccepts {data : List UInt8} (hs : data.length < maxBytes) (hb : r.base ≤ data.length) :
      Accepts (dnsName data r.base start >>= fun p => ok (mk p.1)) ↔
        HasName data r.base start := by
    rw [← dnsName_accepts_iff hs hb]
    constructor
    · intro h hrefuse
      rw [hrefuse] at h
      exact h rfl
    · exact fun h => h.bind fun _ => accepts_ok _
  refine (r.confined_orUnknown_iff (fun data => dnsName data r.base start >>= fun p =>
    ok (mk p.1)) hparse ?_ ?_).trans ?_
  · exact fun after hs => (refines_dnsName hb hs start).bind_eq fun _ => refines_ok rfl
  · exact fun after hs => (holds_dnsName hs (r.base_le after) start).bind fun _ _ => hmk _
  · exact forall₂_congr fun after hs =>
      imp_congr (haccepts hs (r.base_le after)) (haccepts r.fits hb)

theorem confined_soa_iff (htype : r.rtype = 6) :
    r.Confined ↔ ∀ after, (r.bytes ++ after).length < maxBytes →
      HasSoa (r.bytes ++ after) r.base r.pos → HasSoa r.bytes r.base r.pos := by
  have hb : r.base ≤ r.bytes.length := List.append_nil r.bytes ▸ r.base_le []
  refine (r.confined_orUnknown_iff (fun data => soaRdata data r.pos r.base) ?_ ?_ ?_).trans ?_
  · intro after hs
    rw [parse, htype]
    rfl
  · exact fun after hs => refines_soaRdata hb hs r.pos
  · intro after hs
    apply (holds_soaRdata hs (r.base_le after)).of_yields
    refine (Yields.any _).bind fun _ _ => (Yields.any _).bind fun _ _ => (Yields.any _).bind fun _ _ => ?_
    refine yields_ite (fun _ => yields_refuse) fun _ => ?_
    exact (Yields.any _).bind fun _ _ => (Yields.any _).bind fun _ _ => (Yields.any _).bind fun _ _ =>
      (Yields.any _).bind fun _ _ => (Yields.any _).bind fun _ _ => yields_ok nofun
  · exact forall₂_congr fun after hs =>
      imp_congr (soaRdata_accepts_iff hs (r.base_le after) _) (soaRdata_accepts_iff r.fits hb _)

theorem confined_nameless (hname : ¬(r.rtype = 5 ∨ r.rtype = 2 ∨ r.rtype = 12))
    (hmx : ¬(r.rtype = 15 ∧ 3 ≤ r.rdlen)) (hsrv : ¬(r.rtype = 33 ∧ 6 ≤ r.rdlen))
    (hsoa : ¬r.rtype = 6) : r.Confined := by
  push Not at hname
  have hparse (data : List UInt8) : r.parse data =
      if r.rtype = 1 ∧ r.rdlen = 4 then do
        let ip ← be32At data r.pos 0
        return .a ip
      else if r.rtype = 28 ∧ r.rdlen = 16 then do
        let stop ← addUsize r.pos 16
        let octets ← sliceAt data r.pos stop
        return .aaaa (BitVec.ofNat 128 (beNat octets))
      else if r.rtype = 16 then do
        let stop ← addUsize r.pos r.rdlen
        let strings ← txtLoop data stop (r.rdlen + 1) r.pos []
        return .txt strings
      else unknownRdata data r.pos r.rdlen r.rtype := by
    rw [parse, parseRdata, if_neg hname.1, if_neg hname.2.1, if_neg hname.2.2, if_neg hmx,
      if_neg hsrv, if_neg hsoa]
  have haccepts : Accepts (r.parse r.bytes) := by
    rw [hparse]
    refine accepts_ite ?_ (accepts_ite ?_ (accepts_ite ?_ ?_))
    · exact (accepts_be32At _ _ _).bind fun _ => accepts_ok _
    · exact (accepts_addUsize _ _).bind fun _ => (accepts_sliceAt _ _ _).bind fun _ => accepts_ok _
    · exact (accepts_addUsize _ _).bind fun _ => (accepts_txtLoop _ _ _ _ _).bind fun _ => accepts_ok _
    · exact (accepts_addUsize _ _).bind fun _ => (accepts_sliceAt _ _ _).bind fun _ => accepts_ok _
  have hb : r.base ≤ r.bytes.length := List.append_nil r.bytes ▸ r.base_le []
  obtain ⟨d, hok, -⟩ := (holds_parseRdata r.fits hb r.whole.ge r.rtype).returns haccepts
  apply r.confined_of_refines hok
  intro after
  rw [hparse, hparse]
  refine refines_ite ?_ (refines_ite ?_ (refines_ite ?_ ?_))
  · exact (refines_be32At _ _ _ 0).bind_eq fun _ => refines_ok rfl
  · exact (Refines.refl _).bind_eq fun _ => (refines_sliceAt _ _ _ _).bind_eq fun _ => refines_ok rfl
  · exact (Refines.refl _).bind_eq fun _ => (refines_txtLoop _ _ _ _).bind_eq fun _ => refines_ok rfl
  · exact (Refines.refl _).bind_eq fun _ => (refines_sliceAt _ _ _ _).bind_eq fun _ => refines_ok rfl

/-- The data of a record is confined to its bytes exactly if no bytes behind it complete a name that is
read from it, or the numbers behind the names of an SOA. -/
theorem confined_iff_formInside : r.Confined ↔ r.FormInside := by
  have hmax : maxBytes = 2 ^ 63 := rfl
  have hwhole := r.whole
  have hfits := r.fits
  have hpeek {after : List UInt8} {i : ℕ} (hi : i < r.bytes.length) :
      peek (r.bytes ++ after) i = peek r.bytes i := peek_of_prefix (List.prefix_append _ _) hi
  have hlen (after : List UInt8) : r.pos + r.rdlen ≤ (r.bytes ++ after).length := by
    rw [List.length_append]
    omega
  unfold FormInside HasForm
  by_cases hname : r.rtype = 5 ∨ r.rtype = 2 ∨ r.rtype = 12
  · simp only [if_pos hname]
    rcases hname with htype | htype | htype
    · exact r.confined_name_iff r.pos .cname (fun after _ => by rw [parse, htype]; rfl) nofun
    · exact r.confined_name_iff r.pos .ns (fun after _ => by rw [parse, htype]; rfl) nofun
    · exact r.confined_name_iff r.pos .ptr (fun after _ => by rw [parse, htype]; rfl) nofun
  by_cases hmx : r.rtype = 15 ∧ 3 ≤ r.rdlen
  · simp only [if_neg hname, if_pos hmx]
    refine r.confined_name_iff (r.pos + 2)
      (.mx (be16 (peek r.bytes (r.pos + 0)) (peek r.bytes (r.pos + 0 + 1)))) ?_ nofun
    intro after hs
    have hend := hlen after
    rw [parse, hmx.1, parseRdata, if_neg fun h => absurd h.1 (by decide),
      if_neg fun h => absurd h.1 (by decide), if_neg (by decide), if_neg (by decide),
      if_neg (by decide), if_pos ⟨rfl, hmx.2⟩, be16At_eq hs (by omega), ok_bind,
      addUsize_eq hs (by omega) (by omega), ok_bind, hpeek (by omega), hpeek (by omega)]
  by_cases hsrv : r.rtype = 33 ∧ 6 ≤ r.rdlen
  · simp only [if_neg hname, if_neg hmx, if_pos hsrv]
    refine r.confined_name_iff (r.pos + 6)
      (.srv (be16 (peek r.bytes (r.pos + 0)) (peek r.bytes (r.pos + 0 + 1)))
        (be16 (peek r.bytes (r.pos + 2)) (peek r.bytes (r.pos + 2 + 1)))
        (be16 (peek r.bytes (r.pos + 4)) (peek r.bytes (r.pos + 4 + 1)))) ?_ nofun
    intro after hs
    have hend := hlen after
    rw [parse, hsrv.1, parseRdata, if_neg fun h => absurd h.1 (by decide),
      if_neg fun h => absurd h.1 (by decide), if_neg (by decide), if_neg (by decide),
      if_neg (by decide), if_neg fun h => absurd h.1 (by decide), if_neg (by decide),
      if_pos ⟨rfl, hsrv.2⟩, be16At_eq hs (by omega), ok_bind, be16At_eq hs (by omega), ok_bind,
      be16At_eq hs (by omega), ok_bind, addUsize_eq hs (by omega) (by omega), ok_bind]
    simp (disch := omega) only [hpeek]
  by_cases hsoa : r.rtype = 6
  · simp only [if_neg hname, if_neg hmx, if_neg hsrv, if_pos hsoa]
    exact r.confined_soa_iff hsoa
  · simp only [if_neg hname, if_neg hmx, if_neg hsrv, if_neg hsoa]
    exact iff_of_true (r.confined_nameless hname hmx hsrv hsoa) fun _ _ _ => trivial

end RdataPrefix

section Records

variable {data : List UInt8} {base start stop : ℕ} {rec : DnsRecord} (hs : data.length < maxBytes)
  (hb : base ≤ data.length)
include hs hb

theorem parseRr_prefix (hbase : base ≤ start) (h : parseRr data start base = ok (rec, stop)) :
    ∃ r : RdataPrefix, r.bytes = data.take stop ∧ r.base = base ∧ r.rtype = rec.rtype ∧
      dnsName data base start = ok (rec.name, r.pos - 10) ∧ r.parse data = ok rec.rdata := by
  have hmax : maxBytes = 2 ^ 63 := rfl
  have hinside := holds_dnsName hs hb start
  obtain ⟨⟨name, pos⟩, hname, h⟩ := bind_eq_ok.mp h
  rw [hname] at hinside
  obtain ⟨hbehind, hle⟩ : start < pos ∧ pos ≤ data.length := hinside
  dsimp only at h
  rw [addUsize_eq hs hle (by omega), ok_bind] at h
  by_cases hhead : data.length < pos + 10
  · rw [if_pos hhead] at h
    cases h
  rw [if_neg hhead] at h
  obtain ⟨rtype, -, h⟩ := bind_eq_ok.mp h
  obtain ⟨rclass, -, h⟩ := bind_eq_ok.mp h
  obtain ⟨ttl, -, h⟩ := bind_eq_ok.mp h
  obtain ⟨rdlen, -, h⟩ := bind_eq_ok.mp h
  have hlen := rdlen.toNat_lt
  rw [addUsize_eq hs (not_lt.mp hhead) (by omega), ok_bind] at h
  by_cases hstop : data.length < pos + 10 + rdlen.toNat
  · rw [if_pos hstop] at h
    cases h
  rw [if_neg hstop] at h
  obtain ⟨rdata, hrdata, h⟩ := bind_eq_ok.mp h
  cases h
  have htake : (data.take (pos + 10 + rdlen.toNat)).length = pos + 10 + rdlen.toNat :=
    List.length_take_of_le (not_lt.mp hstop)
  exact ⟨⟨_, base, pos + 10, rdlen.toNat, rtype, by omega, htake, by omega⟩, rfl, rfl, rfl, hname,
    hrdata⟩

end Records

/-- A CNAME of two bytes, the second of which is a label that the name goes on behind. -/
def cutName : RdataPrefix where
  bytes := [0, 0, 5, 0, 1, 0, 0, 0, 0, 0, 2, 1, 0x61]
  base := 0
  pos := 11
  rdlen := 2
  rtype := 5
  behind := by decide
  whole := by decide
  fits := by decide

/-- The record is accepted in both buffers, and its name goes on with what stands behind it. -/
theorem cutName_not_confined :
    parseRr (cutName.bytes ++ [0]) 0 0 = ok (⟨"", 5, 1, 0, .cname "a"⟩, 13) ∧
      parseRr (cutName.bytes ++ [1, 0x62, 0]) 0 0 = ok (⟨"", 5, 1, 0, .cname "a.b"⟩, 13) ∧
      ¬cutName.Confined := by
  have hread : cutName.parse (cutName.bytes ++ [0]) = ok (.cname "a") := by decide +kernel
  have hread' : cutName.parse (cutName.bytes ++ [1, 0x62, 0]) = ok (.cname "a.b") := by
    decide +kernel
  refine ⟨by decide +kernel, by decide +kernel, ?_⟩
  intro h
  have hsame := h (cutName.bytes ++ [0]) (cutName.bytes ++ [1, 0x62, 0]) (by decide) (by decide)
    (List.prefix_append _ _) (List.prefix_append _ _)
  rw [hread, hread'] at hsame
  exact absurd hsame (by decide)

end Pktscope

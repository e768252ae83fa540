import Pktscope.Decode.DynamicTable
import Pktscope.Library.HeaderCoding
import Pktscope.Library.Spans

/-! # Header blocks read back

The decompressor follows an encoder of RFC 7541 field by field: it reads each
representation at the place where it stands, and its table stays that of the encoder.
-/

namespace Pktscope

open Library Parse Dictionary HeaderCoding

namespace Hpack

theorem staticTable_eq : staticTable = staticEntries := by decide

theorem cost_eq (e : Header) : e.cost = entrySize e := by
  rw [Header.cost, entrySize, length_utf8Bytes, length_utf8Bytes]

theorem cost_eq_entrySize : Header.cost = entrySize := funext cost_eq

/-- The decompressor that has the table of an encoder. -/
def ofTable (t : Table) : Hpack := holding t.limit t.entries

/-- What the decompressor makes of a representation. An index without an entry is passed over, but
a literal whose name has none ends the block, and so does the index zero. -/
def read (t : Table) : Rep → Option (Table × List Header)
  | .indexed i => if i = 0 then none else some (t, (t.lookup i).toList)
  | .literal mode n value => (t.name n).map fun s => (t.keep mode (s, value), [(s, value)])
  | .resize n => some (t.resize n, [])

theorem read_of_step {t t' : Table} {rep : Rep} {shown : List Header}
    (h : t.step rep = some (t', shown)) : read t rep = some (t', shown) := by
  cases rep with
  | indexed i =>
    obtain ⟨e, he, heq⟩ := Option.map_eq_some_iff.mp h
    cases heq
    have hi : i ≠ 0 := by
      rintro rfl
      cases he
    rw [read, if_neg hi, he]
    rfl
  | literal mode n value => exact h
  | resize n => exact h

section Reads

variable {buf l : List UInt8} {pos n : ℕ} (hs : buf.length < maxBytes)
include hs

theorem addUsize_at (h : StandsAt buf pos l) {k : ℕ} (hk : k ≤ maxBytes) :
    addUsize pos k = ok (pos + k) :=
  addUsize_eq hs ((Nat.le_add_right pos l.length).trans h.le) hk

theorem intLoop_eq {rounds value shift : ℕ} (hn : Varint n l) (hat : StandsAt buf pos l)
    (hlen : l.length ≤ rounds) (hr : shift + 7 * rounds = 35) (hv : value < 2 ^ shift * 256) :
    intLoop buf rounds pos value shift = ok (value + n * 2 ^ shift, pos + l.length) := by
  have hmax : maxBytes = 2 ^ 63 := rfl
  induction hn generalizing rounds pos value shift with
  | @last b hb =>
    obtain ⟨rounds, rfl⟩ := Nat.exists_eq_succ_of_ne_zero (Nat.ne_of_gt hlen)
    have hpow : 2 ^ shift ≤ 2 ^ 28 := Nat.pow_le_pow_right (by decide) (by omega)
    have hbyte : (UInt8.ofNat b).toNat = b := toNat_ofNat_byte (by omega)
    have hmark : UInt8.ofNat b &&& 0x80 = 0 := by
      rw [and_0x80, hbyte]
      omega
    have hmul : b * 2 ^ shift ≤ 127 * 2 ^ shift := Nat.mul_le_mul_right _ (by omega)
    unfold intLoop
    rw [hat.getElem?, ofOption, ok_bind, addUsize_at hs hat (by omega), ok_bind, and_0x7f, hbyte,
      Nat.mod_eq_of_lt hb, addUsize, if_pos (by omega), ok_bind]
    dsimp only
    rw [if_pos hmark]
    rfl
  | @more b n l hb hrest ih =>
    obtain ⟨rounds, rfl⟩ := Nat.exists_eq_succ_of_ne_zero
      (Nat.ne_of_gt (Nat.lt_of_lt_of_le (Nat.succ_pos l.length) hlen))
    rw [List.length_cons] at hlen
    have hpow : 2 ^ shift ≤ 2 ^ 28 := Nat.pow_le_pow_right (by decide) (by omega)
    have hnext : 2 ^ (shift + 7) = 2 ^ shift * 128 := Nat.pow_add 2 shift 7
    have hbyte : (UInt8.ofNat (b + 128)).toNat = b + 128 := toNat_ofNat_byte (by omega)
    have hmark : UInt8.ofNat (b + 128) &&& 0x80 ≠ 0 := by
      rw [Ne, and_0x80, hbyte]
      omega
    have hmul : b * 2 ^ shift ≤ 127 * 2 ^ shift := Nat.mul_le_mul_right _ (by omega)
    have hsome : 0 < l.length := by
      cases hrest with
      | last _ => exact Nat.one_pos
      | more _ _ => exact Nat.succ_pos _
    unfold intLoop
    rw [hat.getElem?, ofOption, ok_bind, addUsize_at hs hat (by omega), ok_bind, and_0x7f, hbyte,
      Nat.add_mod_right, Nat.mod_eq_of_lt hb, addUsize, if_pos (by omega), ok_bind]
    dsimp only
    rw [if_neg hmark, if_neg (by omega), ih hat.tail (by omega) (by omega) (by omega), hnext,
      List.length_cons]
    have hsum : (b + 128 * n) * 2 ^ shift = b * 2 ^ shift + n * (2 ^ shift * 128) := by
      rw [Nat.add_mul, Nat.mul_comm 128 n, Nat.mul_assoc, Nat.mul_comm 128]
    congr 2
    · omega
    · omega

theorem decodeInt_eq {bits mark : ℕ} (hn : PrefixInt bits mark n l) (hat : StandsAt buf pos l)
    (hbits : bits ≤ 7) (hmark : mark % 2 ^ bits = 0) (hbyte : mark + 2 ^ bits ≤ 256) :
    decodeInt buf pos bits = ok (n, pos + l.length) := by
  have hmax : maxBytes = 2 ^ 63 := rfl
  have hpow : 2 ^ bits ≤ 2 ^ 7 := Nat.pow_le_pow_right (by decide) hbits
  have hone : 0 < 2 ^ bits := Nat.two_pow_pos bits
  unfold decodeInt
  dsimp only
  cases hn with
  | short hlt =>
    rw [hat.getElem?, ofOption, ok_bind, addUsize_at hs hat (by omega), ok_bind,
      toNat_ofNat_byte (by omega), Nat.add_mod, hmark, Nat.zero_add, Nat.mod_mod,
      Nat.mod_eq_of_lt (by omega), if_pos hlt]
    rfl
  | @long n l hv hlen =>
    rw [hat.getElem?, ofOption, ok_bind, addUsize_at hs hat (by omega), ok_bind,
      toNat_ofNat_byte (by omega), Nat.add_mod, hmark, Nat.zero_add, Nat.mod_mod,
      Nat.mod_eq_of_lt (by omega), if_neg (Nat.lt_irrefl _),
      intLoop_eq hs hv hat.tail hlen rfl (by omega), List.length_cons]
    congr 2
    · omega
    · omega

theorem decodeStr_eq {s : String} (hstr : StringBytes s l) (hat : StandsAt buf pos l) :
    decodeStr buf pos = ok (s, pos + l.length) := by
  have hmax : maxBytes = 2 ^ 63 := rfl
  cases hstr with
  | @plain l hint =>
    have hlen := hint.lt (Nat.le_refl 7)
    obtain ⟨low, rest, hlow, hl⟩ := hint.first
    have hbyte : (UInt8.ofNat (0 + low)).toNat = low := by
      rw [Nat.zero_add, toNat_ofNat_byte (by omega)]
    have hplain : UInt8.ofNat (0 + low) &&& 0x80 = 0 := by
      rw [and_0x80, hbyte]
      omega
    have hfirst : buf[pos]? = some (UInt8.ofNat (0 + low)) := by
      have hhead := hat.left
      rw [hl] at hhead
      exact hhead.getElem?
    unfold decodeStr
    rw [hfirst, ofOption, ok_bind, decodeInt_eq hs hint hat.left (Nat.le_refl 7) rfl (by decide),
      ok_bind]
    dsimp only
    rw [addUsize_at hs hat.right (by omega), ok_bind, hat.right.getSlice rfl, ok_bind, hplain]
    rw [if_neg (by decide), fromUtf8Lossy_utf8Bytes, List.length_append, Nat.add_assoc]
    rfl

end Reads

section Tables

variable {t : Table} {buf l : List UInt8} {pos : ℕ}

theorem indexed_eq (t : Table) {i : ℕ} : (ofTable t).indexed i = ofOption (t.lookup i) := by
  unfold indexed Table.lookup
  rw [staticTable_eq]
  by_cases hzero : i = 0
  · rw [if_pos hzero, if_pos hzero]
    rfl
  rw [if_neg hzero, if_neg hzero]
  by_cases hstatic : i ≤ staticEntries.length
  · have hlt : i - 1 < staticEntries.length := by omega
    rw [if_pos hstatic, subUsize, if_pos (by omega), ok_bind, index,
      List.getElem?_append_left hlt, List.getElem?_eq_getElem hlt]
    rfl
  · rw [if_neg hstatic, subUsize, if_pos (by omega), ok_bind, subUsize, if_pos (by omega), ok_bind,
      List.getElem?_append_right (by omega), Nat.sub_right_comm]
    rfl

variable (hs : buf.length < maxBytes)
include hs

theorem literalName_eq {mode : Mode} {n : Name} (hname : NameBytes mode n l)
    (hat : StandsAt buf pos l) : (ofTable t).literalName buf pos mode.bits =
      match t.name n with
      | some s => ok (s, pos + l.length)
      | none => refuse := by
  have hbits : mode.bits ≤ 7 := by cases mode <;> decide
  have hmark : mode.mark % 2 ^ mode.bits = 0 := by cases mode <;> rfl
  have hbyte : mode.mark + 2 ^ mode.bits ≤ 256 := by cases mode <;> decide
  unfold literalName
  cases hname with
  | @entry i l hi hint =>
    rw [decodeInt_eq hs hint hat hbits hmark hbyte, ok_bind]
    dsimp only
    rw [if_neg (Nat.ne_of_gt hi), indexed_eq, Table.name]
    cases t.lookup i with
    | none => rfl
    | some e => rfl
  | @text s l k hint hstr =>
    rw [decodeInt_eq hs hint hat.left hbits hmark hbyte, ok_bind]
    dsimp only
    rw [if_pos rfl, decodeStr_eq hs hstr hat.right, List.length_append, Nat.add_assoc]
    rfl

theorem literal_eq {mode : Mode} {n : Name} {value : String} {k : List UInt8}
    (hname : NameBytes mode n l) (hvalue : StringBytes value k) (hat : StandsAt buf pos (l ++ k)) :
    (ofTable t).literal buf pos mode.bits =
      match t.name n with
      | some s => ok ((s, value), pos + (l ++ k).length)
      | none => refuse := by
  unfold literal
  rw [literalName_eq hs hname hat.left]
  cases t.name n with
  | none => rfl
  | some s =>
    rw [ok_bind]
    dsimp only
    rw [decodeStr_eq hs hvalue hat.right, List.length_append, Nat.add_assoc]
    rfl

omit hs in
theorem insert_eq (ht : t.Bounded) {mode : Mode} {n : Name} {s value : String} {k : List UInt8}
    (hname : NameBytes mode n l) (hn : t.name n = some s) (hvalue : StringBytes value k) :
    (ofTable t).insert (s, value) = ok (ofTable (t.keep .incremental (s, value))) := by
  have hsize := ht.name_lt hname hn
  have hlen := hvalue.size_lt
  have htotal := ht.total
  have hlimit := ht.limit
  have hcost : entrySize (s, value) = (utf8Bytes s).length + (utf8Bytes value).length + 32 := rfl
  have hfit : tableSize t.entries + Header.cost (s, value) < 2 ^ 64 := by
    rw [tableSize_eq_total, cost_eq_entrySize, hcost]
    omega
  unfold ofTable
  rw [insert_holding hfit, cost_eq_entrySize]
  rfl

omit hs in
theorem evict_eq (t : Table) (n : ℕ) :
    evict { ofTable t with maxSize := n } = ok (ofTable (t.resize n)) := by
  rw [ofTable, evict_holding, cost_eq_entrySize]
  rfl

omit hs in
theorem index_first {n : ℕ} {rest : List UInt8} (hat : StandsAt buf pos l)
    (hl : l = UInt8.ofNat n :: rest) (hn : n < 256) : ∃ b, index buf pos = ok b ∧ b.toNat = n := by
  subst hl
  exact ⟨_, hat.index, toNat_ofNat_byte hn⟩

variable {headers : List Header}

theorem field_indexed {i : ℕ} (hint : PrefixInt 7 128 i l) (hat : StandsAt buf pos l) :
    field buf (ofTable t) pos headers =
      if i = 0 then refuse
      else ok (ofTable t, pos + l.length, headers ++ (t.lookup i).toList) := by
  obtain ⟨low, rest, hlow, hl⟩ := hint.first
  obtain ⟨b, hb, hval⟩ := index_first hat hl (by omega)
  have hmark : (b &&& 0x80 != 0) = true := (and_0x80_ne b).mpr (by omega)
  unfold field
  rw [hb, ok_bind, if_pos hmark, decodeInt_eq hs hint hat (Nat.le_refl 7) rfl (by decide), ok_bind]
  dsimp only
  by_cases hi : i = 0
  · rw [if_pos hi, if_pos hi]
  · rw [if_neg hi, if_neg hi, indexed_eq]
    cases t.lookup i with
    | none =>
      dsimp only [Option.toList]
      rw [List.append_nil]
      rfl
    | some e => rfl

omit hs in
theorem field_plain {h : Hpack} {b : UInt8} (hb : index buf pos = ok b) (hlow : b.toNat < 32) :
    field buf h pos headers = (do
      let (header, ni) ← h.literal buf pos 4
      return (h, ni, headers ++ [header])) := by
  have hindexed : ¬(b &&& 0x80 != 0) = true := mt (and_0x80_ne b).mp (by omega)
  have hmark : ¬(b &&& 0x40 != 0) = true := mt (and_0x40_ne b).mp (by omega)
  have hresize : ¬(b &&& 0x20 != 0) = true := mt (and_0x20_ne b).mp (by omega)
  unfold field
  rw [hb, ok_bind, if_neg hindexed, if_neg hmark, if_neg hresize]

theorem field_literal (ht : t.Bounded) {mode : Mode} {n : Name} {value : String} {k : List UInt8}
    (hname : NameBytes mode n l) (hvalue : StringBytes value k) (hat : StandsAt buf pos (l ++ k)) :
    field buf (ofTable t) pos headers =
      match t.name n with
      | some s => ok (ofTable (t.keep mode (s, value)), pos + (l ++ k).length, headers ++ [(s, value)])
      | none => refuse := by
  obtain ⟨low, rest, hlow, hl⟩ := hname.first
  have hread := literal_eq (t := t) hs hname hvalue hat
  have hlt : mode.mark + low < 256 := by
    cases mode with
    | incremental => exact Nat.lt_trans (Nat.add_lt_add_left hlow 64) (by decide)
    | without => exact Nat.lt_trans (Nat.add_lt_add_left hlow 0) (by decide)
    | never => exact Nat.lt_trans (Nat.add_lt_add_left hlow 16) (by decide)
  obtain ⟨b, hb, hval⟩ := index_first hat.left hl hlt
  cases mode with
  | incremental =>
    have hlow : low < 64 := hlow
    have hval : b.toNat = 64 + low := hval
    have hindexed : ¬(b &&& 0x80 != 0) = true := mt (and_0x80_ne b).mp (by omega)
    have hmark : (b &&& 0x40 != 0) = true := (and_0x40_ne b).mpr (by omega)
    unfold field
    rw [hb, ok_bind, if_neg hindexed, if_pos hmark]
    change ((ofTable t).literal buf pos Mode.incremental.bits >>= _) = _
    rw [hread]
    cases hn : t.name n with
    | none => rfl
    | some s =>
      rw [ok_bind]
      dsimp only
      rw [insert_eq ht hname hn hvalue]
      rfl
  | without =>
    have hlow : low < 16 := hlow
    have hval : b.toNat = 0 + low := hval
    rw [field_plain hb (by omega)]
    change ((ofTable t).literal buf pos Mode.without.bits >>= _) = _
    rw [hread]
    cases t.name n with
    | none => rfl
    | some s => rfl
  | never =>
    have hlow : low < 16 := hlow
    have hval : b.toNat = 16 + low := hval
    rw [field_plain hb (by omega)]
    change ((ofTable t).literal buf pos Mode.never.bits >>= _) = _
    rw [hread]
    cases t.name n with
    | none => rfl
    | some s => rfl

theorem field_resize {n : ℕ} (hint : PrefixInt 5 32 n l) (hat : StandsAt buf pos l) :
    field buf (ofTable t) pos headers = ok (ofTable (t.resize n), pos + l.length, headers) := by
  obtain ⟨low, rest, hlow, hl⟩ := hint.first
  have hlow : low < 32 := hlow
  obtain ⟨b, hb, hval⟩ := index_first hat hl (by omega)
  have hindexed : ¬(b &&& 0x80 != 0) = true := mt (and_0x80_ne b).mp (by omega)
  have hliteral : ¬(b &&& 0x40 != 0) = true := mt (and_0x40_ne b).mp (by omega)
  have hmark : (b &&& 0x20 != 0) = true := (and_0x20_ne b).mpr (by omega)
  unfold field
  rw [hb, ok_bind, if_neg hindexed, if_neg hliteral, if_pos hmark,
    decodeInt_eq hs hint hat (by decide) rfl (by decide), ok_bind]
  dsimp only
  rw [evict_eq, ok_bind]
  rfl

/-- A field of a block is read where it stands. -/
theorem field_eq (ht : t.Bounded) {rep : Rep} (hrep : RepBytes rep l) (hat : StandsAt buf pos l) :
    field buf (ofTable t) pos headers =
      match read t rep with
      | some (t', shown) => ok (ofTable t', pos + l.length, headers ++ shown)
      | none => refuse := by
  cases hrep with
  | @indexed i l hint =>
    rw [field_indexed hs hint hat]
    dsimp only [read]
    by_cases hi : i = 0
    · rw [if_pos hi, if_pos hi]
    · rw [if_neg hi, if_neg hi]
  | @literal mode n value l k hname hvalue =>
    rw [field_literal hs ht hname hvalue hat]
    dsimp only [read]
    cases t.name n with
    | none => rfl
    | some s => rfl
  | resize hint =>
    rw [field_resize hs hint hat]
    dsimp only [read]
    rw [List.append_nil]

end Tables

/-- What the decompressor makes of a block. -/
def readAll (t : Table) : List Rep → Table × List Header
  | [] => (t, [])
  | rep :: rest =>
    match read t rep with
    | some (t', shown) => ((readAll t' rest).1, shown ++ (readAll t' rest).2)
    | none => (t, [])

section Blocks

variable {t t' : Table} {reps : List Rep} {block bytes : List UInt8} {i : ℕ}

theorem bounded_read (ht : t.Bounded) {rep : Rep} {l : List UInt8} (hrep : RepBytes rep l)
    {shown : List Header} (h : read t rep = some (t', shown)) : t'.Bounded := by
  cases hrep with
  | @indexed i l _ =>
    dsimp only [read] at h
    by_cases hi : i = 0
    · rw [if_pos hi] at h
      cases h
    · rw [if_neg hi] at h
      cases h
      exact ht
  | literal _ _ =>
    obtain ⟨s, -, heq⟩ := Option.map_eq_some_iff.mp h
    cases heq
    exact ht.keep _ _
  | resize hint =>
    cases h
    exact Table.bounded_resize (hint.lt (by decide)) t

theorem bounded_readAll (ht : t.Bounded) (hbytes : BlockBytes reps bytes) :
    (readAll t reps).1.Bounded := by
  induction hbytes generalizing t with
  | nil => exact ht
  | @cons rep reps l k hrep _ ih =>
    unfold readAll
    cases h : read t rep with
    | none => exact ht
    | some r => exact ih (bounded_read ht hrep h)

theorem readAll_of_run {shown : List Header} (h : t.run reps = some (t', shown)) :
    readAll t reps = (t', shown) := by
  induction reps generalizing t shown with
  | nil =>
    cases h
    rfl
  | cons rep reps ih =>
    obtain ⟨⟨t₁, first⟩, hstep, hrest⟩ := Option.bind_eq_some_iff.mp h
    obtain ⟨⟨t₂, more⟩, hrun, heq⟩ := Option.map_eq_some_iff.mp hrest
    cases heq
    rw [readAll, read_of_step hstep]
    dsimp only
    rw [ih hrun]

variable (hs : block.length < maxBytes)
include hs

/-- The loop over a block reads the representations that stand in it, up to where no field is left
to decode. -/
theorem fieldLoop_eq (ht : t.Bounded) (hbytes : BlockBytes reps bytes) (hat : StandsAt block i bytes)
    (hend : ∀ t headers, t.Bounded → Ended block (ofTable t, i + bytes.length, headers))
    {rounds : ℕ} (hr : bytes.length < rounds) (headers : List Header) :
    fieldLoop block rounds (ofTable t, i, headers) =
      ok (ofTable (readAll t reps).1, headers ++ (readAll t reps).2) := by
  induction hbytes generalizing t i rounds headers with
  | nil =>
    obtain ⟨rounds, rfl⟩ := Nat.exists_eq_succ_of_ne_zero (Nat.ne_of_gt hr)
    unfold fieldLoop readAll
    rw [List.append_nil]
    rcases hend t headers ht with hdone | hrefused
    · have hle : block.length ≤ i := hdone
      rw [if_neg (Nat.not_lt.mpr hle)]
      rfl
    · change field block (ofTable t) i headers = refuse at hrefused
      rw [hrefused]
      by_cases hi : i < block.length
      · rw [if_pos hi]
        rfl
      · rw [if_neg hi]
        rfl
  | @cons rep reps l k hrep hk ih =>
    have hpos := hrep.length_pos
    have hle := hat.le
    rw [List.length_append] at hr hle
    obtain ⟨rounds, rfl⟩ := Nat.exists_eq_succ_of_ne_zero (Nat.ne_of_gt (Nat.zero_lt_of_lt hr))
    unfold fieldLoop readAll
    rw [if_pos (by omega), field_eq hs ht hrep hat.left]
    cases h : read t rep with
    | none =>
      dsimp only
      rw [List.append_nil]
      rfl
    | some r =>
      change fieldLoop block rounds (ofTable r.1, i + l.length, headers ++ r.2) = _
      rw [ih (bounded_read ht hrep h) hat.right _ (by omega), List.append_assoc]
      rw [List.length_append, ← Nat.add_assoc] at hend
      exact hend

theorem decode_eq (ht : t.Bounded) (hbytes : BlockBytes reps block) :
    (ofTable t).decode block = ok (ofTable (readAll t reps).1, (readAll t reps).2) :=
  fieldLoop_eq hs ht hbytes (standsAt_whole block)
    (fun _ _ _ => Or.inl (Nat.zero_add block.length).ge) (Nat.lt_succ_self _) []

end Blocks

theorem ofTable_eq (t : Table) : ofTable t = ⟨t.entries, t.limit, total entrySize t.entries⟩ := by
  rw [ofTable, holding, tableSize_eq_total, cost_eq_entrySize]

theorem decodeEach_of_session {t : Table} (ht : t.Bounded) {blocks : List (List UInt8)}
    {outcomes : List (List Header × Table)} (hsession : Session t blocks outcomes)
    (hs : ∀ b ∈ blocks, b.length < maxBytes) :
    decodeEach (ofTable t) blocks = ok (outcomes.map fun o => (o.1, ofTable o.2)) := by
  induction hsession with
  | nil t => rfl
  | @cons t t' reps block headers blocks outcomes hblock hrun _ ih =>
    have hread := readAll_of_run hrun
    have hnext := bounded_readAll ht hblock
    rw [hread] at hnext
    rw [decodeEach, decode_eq (hs block List.mem_cons_self) ht hblock, ok_bind, hread]
    dsimp only
    rw [ih hnext fun b hb => hs b (List.mem_cons_of_mem block hb)]
    rfl

/-- One decompressor on the blocks of an encoder gives its header lists, and after each block it has
the table of the encoder, with its size. -/
theorem decodeEach_session {blocks : List (List UInt8)} {outcomes : List (List Header × Table)}
    (hsession : Session .new blocks outcomes) (hs : ∀ b ∈ blocks, b.length < maxBytes) :
    decodeEach .new blocks =
      ok (outcomes.map fun o => (o.1, ⟨o.2.entries, o.2.limit, total entrySize o.2.entries⟩)) := by
  simp only [← ofTable_eq]
  exact decodeEach_of_session Table.bounded_new hsession hs

/-- `:method: GET`, then `x: y` to be indexed, then that entry. -/
theorem decodeEach_session_xy : Session .new [[0x82, 0x40, 1, 120, 1, 121], [0xbe]]
      [([(":method", "GET"), ("x", "y")], ⟨[("x", "y")], 4096⟩), ([("x", "y")], ⟨[("x", "y")], 4096⟩)] ∧
    decodeEach .new [[0x82, 0x40, 1, 120, 1, 121], [0xbe]] =
      ok [([(":method", "GET"), ("x", "y")], ⟨[("x", "y")], 4096, 34⟩),
        ([("x", "y")], ⟨[("x", "y")], 4096, 34⟩)] := by
  have hx : StringBytes "x" [1, 120] := .plain (l := [1]) (.short (n := 1) (by decide))
  have hy : StringBytes "y" [1, 121] := .plain (l := [1]) (.short (n := 1) (by decide))
  have hget : RepBytes (.indexed 2) [0x82] := .indexed (.short (n := 2) (by decide))
  have hlit : RepBytes (.literal .incremental (.text "x") "y") [0x40, 1, 120, 1, 121] :=
    .literal (.text (.short (n := 0) (by decide)) hx) hy
  have hxy : RepBytes (.indexed 62) [0xbe] := .indexed (.short (n := 62) (by decide))
  have hsession : Session .new [[0x82, 0x40, 1, 120, 1, 121], [0xbe]]
      [([(":method", "GET"), ("x", "y")], ⟨[("x", "y")], 4096⟩), ([("x", "y")], ⟨[("x", "y")], 4096⟩)] :=
    .cons (.cons hget (.cons hlit .nil)) (by decide) (.cons (.cons hxy .nil) (by decide) (.nil _))
  exact ⟨hsession, decodeEach_session hsession (by decide)⟩

end Hpack

end Pktscope

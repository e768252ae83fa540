import Pktscope.Decode.HeaderBlocks
import Pktscope.Library.Framing

/-! # The frames of a client read back

All frames of a connection share one table, but only a HEADERS frame without padding and
priority is decoded, and of it only what the frame itself carries. What the other frames
add to the table is missing when a later frame refers to it.
-/

namespace Pktscope

open Library Parse Dictionary HeaderCoding Framing

namespace Hpack

section Truncated

variable (buf t : List UInt8) (pos : ℕ)

theorem refines_intLoop (rounds value shift : ℕ) :
    Refines Eq (intLoop buf rounds pos value shift) (intLoop (buf ++ t) rounds pos value shift) := by
  induction rounds generalizing pos value shift with
  | zero => exact Refines.refl _
  | succ rounds ih =>
    apply (refines_getByte buf t pos).bind_eq
    intro b
    apply (Refines.refl _).bind_eq
    intro next
    apply (Refines.refl _).bind_eq
    intro value
    exact refines_ite (Refines.refl _) (refines_ite (Refines.refl _) (ih _ _ _))

theorem refines_decodeInt (bits : ℕ) :
    Refines Eq (decodeInt buf pos bits) (decodeInt (buf ++ t) pos bits) := by
  apply (refines_getByte buf t pos).bind_eq
  intro b
  apply (Refines.refl _).bind_eq
  intro next
  exact refines_ite (Refines.refl _) (refines_intLoop buf t _ _ _ _)

theorem refines_decodeStr : Refines Eq (decodeStr buf pos) (decodeStr (buf ++ t) pos) := by
  apply (refines_getByte buf t pos).bind_eq
  intro b
  apply (refines_decodeInt buf t pos 7).bind_eq
  intro r
  apply (Refines.refl _).bind_eq
  intro stop
  apply (refines_getSlice buf t _ _).bind_eq
  intro bytes
  exact Refines.refl _

theorem refines_literal (h : Hpack) (bits : ℕ) :
    Refines Eq (h.literal buf pos bits) (h.literal (buf ++ t) pos bits) := by
  have hname : Refines Eq (h.literalName buf pos bits) (h.literalName (buf ++ t) pos bits) := by
    apply (refines_decodeInt buf t pos bits).bind_eq
    intro r
    exact refines_ite (refines_decodeStr buf t _) (Refines.refl _)
  apply hname.bind_eq
  intro n
  apply (refines_decodeStr buf t _).bind_eq
  intro v
  exact Refines.refl _

theorem refines_field (h : Hpack) (headers : List Header) :
    Refines Eq (field buf h pos headers) (field (buf ++ t) h pos headers) := by
  apply (refines_index buf t pos).bind_eq
  intro b
  apply refines_ite
  · exact (refines_decodeInt buf t pos 7).bind_eq fun r => Refines.refl _
  apply refines_ite
  · exact (refines_literal buf t pos h 6).bind_eq fun r => Refines.refl _
  apply refines_ite
  · exact (refines_decodeInt buf t pos 5).bind_eq fun r => Refines.refl _
  · exact (refines_literal buf t pos h 4).bind_eq fun r => Refines.refl _

end Truncated

theorem sized_ofTable {t : Table} (ht : t.Bounded) : (ofTable t).Sized textBound := by
  have htotal := ht.total
  have hlimit := ht.limit
  refine ⟨rfl, ?_, Nat.lt_trans hlimit (by decide), fun e he => ?_⟩
  · change tableSize t.entries ≤ t.limit
    rwa [tableSize_eq_total, cost_eq_entrySize]
  · have hle : entrySize e ≤ total entrySize t.entries := cost_le_total he
    have hsize : entrySize e = e.1.utf8ByteSize + e.2.utf8ByteSize + 32 := (cost_eq e).symm
    unfold Header.Fits textBound
    omega

/-- A field that is cut short ends the block. -/
theorem ended_truncated {block part more : List UInt8} {rep : Rep} {pos : ℕ}
    (hs : (block ++ more).length < maxBytes) (hrep : RepBytes rep (part ++ more)) (hmore : more ≠ [])
    (hat : StandsAt block pos part) (hlen : pos + part.length = block.length) {t : Table}
    (ht : t.Bounded) (headers : List Header) : Ended block (ofTable t, pos, headers) := by
  rw [List.length_append] at hs
  by_cases hpart : block.length ≤ pos
  · exact Or.inl hpart
  refine Or.inr ?_
  have hbound : 4 * min block.length (2 ^ 43) + 64 ≤ textBound := by
    unfold textBound
    omega
  have hinside := holds_field (by omega) hbound (by decide) (sized_ofTable ht) (not_le.mp hpart)
    headers
  dsimp only
  cases hf : field block (ofTable t) pos headers with
  | refuse => rfl
  | fault f =>
    rw [hf] at hinside
    exact hinside.elim
  | ok r =>
    -- with its missing bytes the field would end behind the block
    obtain ⟨_, hwhole, rfl⟩ := refines_field block more pos (ofTable t) headers r hf
    have hstands : StandsAt (block ++ more) pos (part ++ more) := by
      obtain ⟨front, back, rfl, rfl⟩ := hat
      have hback : back = [] := by
        simp only [List.length_append] at hlen
        exact List.eq_nil_of_length_eq_zero (by omega)
      exact ⟨front, [], rfl, by simp [hback]⟩
    rw [hf] at hinside
    rw [field_eq (by rwa [List.length_append]) ht hrep hstands] at hwhole
    cases hread : read t rep with
    | none =>
      rw [hread] at hwhole
      cases hwhole
    | some q =>
      rw [hread] at hwhole
      cases hwhole
      obtain ⟨-, -, hle⟩ := hinside
      have hpos := List.length_pos_of_ne_nil hmore
      dsimp only at hle
      rw [List.length_append] at hle
      omega

end Hpack

section Frames

/-- A header block in a HEADERS frame without padding and priority. -/
def plainBlock (b : Block) : Bool := b.head.flags &&& 0x08 = 0 ∧ b.head.flags &&& 0x20 = 0

/-- A header block that is all in one such frame. -/
def shownBlock (b : Block) : Bool := plainBlock b && b.head.flags &&& 0x04 != 0

/-- The fields that the decompressor is given: those that are whole in the HEADERS frame. -/
def seenFields (b : Block) : List Rep :=
  if plainBlock b then
    (fitting (fun f => f.2.length) b.fragment.length b.fields).map Prod.fst
  else []

/-- What is reported of a frame. -/
def reported (f : Frame) (headers : List Header) : Http2Frame :=
  ⟨f.stream &&& 0x7fffffff, f.frameType, f.flags, UInt32.ofNat f.payload.length, headers⟩

/-- What is reported of the frames of a connection, by a decompressor with a table. -/
def reports (t : Table) : List Part → List Http2Frame
  | [] => []
  | .other f _ :: parts => reported f [] :: reports t parts
  | .block b :: parts =>
    reported b.head (Hpack.readAll t (seenFields b)).2 ::
      (b.rest.map fun f => reported f []) ++ reports (Hpack.readAll t (seenFields b)).1 parts

def framesBytes (frames : List Frame) : List UInt8 := frames.flatMap Frame.bytes

def connectionFrames (parts : List Part) : List Frame := parts.flatMap Part.frames

/-- The stream of a client. -/
def clientStream (parts : List Part) : List UInt8 :=
  preface ++ framesBytes (connectionFrames parts)

theorem decode_fragment {t : Table} (ht : t.Bounded) (b : Block) (hplain : plainBlock b = true) :
    (Hpack.ofTable t).decode b.fragment =
      ok (Hpack.ofTable (Hpack.readAll t (seenFields b)).1, (Hpack.readAll t (seenFields b)).2) := by
  obtain ⟨part, hfragment, hpart⟩ := fitting_cut b.cut
  have hseen : seenFields b =
      (fitting (fun f => f.2.length) b.fragment.length b.fields).map Prod.fst := if_pos hplain
  have hwritten : BlockBytes (seenFields b) _ := hseen ▸ Block.blockBytes fun f hf =>
    b.written f ((fitting_head b.fragment.length b.fields).mem hf)
  generalize (fitting (fun f => f.2.length) b.fragment.length b.fields).flatMap Prod.snd = whole
    at hfragment hwritten
  obtain ⟨padLength, priority, padding, hpayload, -, -⟩ := b.headPayload.layout
  have hsmall : b.fragment.length < 2 ^ 24 := by
    have hpay := b.head.small
    rw [hpayload] at hpay
    simp only [List.length_append] at hpay
    omega
  have hmax : maxBytes = 2 ^ 63 := rfl
  have hlen : whole.length + part.length = b.fragment.length := by
    rw [← List.length_append, ← hfragment]
  refine Hpack.fieldLoop_eq (by omega) ht hwritten ⟨[], part, rfl, hfragment⟩ (fun t headers ht => ?_)
    (by omega) []
  change Hpack.Ended b.fragment (Hpack.ofTable t, 0 + whole.length, headers)
  rw [Nat.zero_add]
  rcases hpart with rfl | ⟨f, hf, more, hmore, hne⟩
  · exact Or.inl hlen.ge
  · have hstands : StandsAt b.fragment whole.length part :=
      ⟨whole, [], rfl, by rw [List.append_nil, hfragment]⟩
    have hfield := (b.written f hf).length_lt
    rw [hmore, List.length_append] at hfield
    refine Hpack.ended_truncated ?_ (hmore ▸ b.written f hf) hne hstands hlen ht headers
    rw [List.length_append]
    omega

theorem frameLoop_step {stream : List UInt8} (hs : stream.length < maxBytes) {pos : ℕ} {f : Frame}
    (hat : StandsAt stream pos f.bytes) {frames : List Http2Frame} (hcount : frames.length < 128)
    {hpack hpack' : Hpack} {headers : List Header}
    (hdec : frameHeaders hpack f.frameType f.flags f.payload = ok (hpack', headers)) (rounds : ℕ) :
    frameLoop stream (rounds + 1) pos hpack frames =
      frameLoop stream rounds (pos + f.bytes.length) hpack' (frames ++ [reported f headers]) := by
  have hmax : maxBytes = 2 ^ 63 := rfl
  have hsmall := f.small
  have hle := hat.le
  rw [f.length_bytes] at hle ⊢
  have htype := hat.right
  have hflags := htype.tail
  have hstream := hflags.tail
  have hpayload := hstream.right
  rw [length_toBe24] at htype hflags hstream hpayload
  rw [length_toBe32] at hpayload
  have hlength : be24At stream pos 0 = ok f.payload.length := StandsAt.be24At hs (k := 0) hat hsmall
  rw [frameLoop, addUsize_eq hs (by omega) (by omega), ok_bind, if_pos ⟨by omega, hcount⟩,
    hlength, ok_bind, StandsAt.byteAt hs htype, ok_bind,
    StandsAt.byteAt hs (k := 4) hflags, ok_bind, StandsAt.be32At hs (k := 5) hstream, ok_bind,
    addUsize_eq hs (by omega) (by omega), ok_bind, hpayload.getSlice (by omega)]
  change (frameHeaders hpack f.frameType f.flags f.payload >>= _) = _
  rw [hdec, ok_bind, Nat.add_assoc]
  rfl

theorem frameLoop_skip {stream : List UInt8} (hs : stream.length < maxBytes) {pos : ℕ} {hpack : Hpack}
    {skipped : List Frame} (hat : StandsAt stream pos (framesBytes skipped))
    (htype : ∀ f ∈ skipped, f.frameType ≠ 0x1) {frames : List Http2Frame}
    (hcount : frames.length + skipped.length ≤ 128) (rounds : ℕ) :
    frameLoop stream (rounds + skipped.length) pos hpack frames =
      frameLoop stream rounds (pos + (framesBytes skipped).length) hpack
        (frames ++ skipped.map fun f => reported f []) := by
  induction skipped generalizing pos frames with
  | nil => simp [framesBytes]
  | cons f skipped ih =>
    have hskip : frameHeaders hpack f.frameType f.flags f.payload = ok (hpack, []) :=
      if_neg fun h => htype f List.mem_cons_self h.1
    have hbytes : framesBytes (f :: skipped) = f.bytes ++ framesBytes skipped := List.flatMap_cons
    rw [hbytes] at hat ⊢
    rw [List.length_cons] at hcount
    rw [List.length_cons, ← Nat.add_assoc, frameLoop_step hs hat.left (by omega) hskip,
      ih hat.right (fun g hg => htype g (List.mem_cons_of_mem f hg)) (by
        rw [List.length_append, List.length_singleton]
        omega), List.length_append, Nat.add_assoc, List.append_assoc]
    rfl

theorem seenFields_of_shown {b : Block} (h : shownBlock b = true) : seenFields b = b.reps := by
  obtain ⟨hplain, hend⟩ := Bool.and_eq_true_iff.mp h
  have hrest : b.rest = [] := by
    have hlast := b.endsLast
    cases hr : b.rest with
    | nil => rfl
    | cons f rest =>
      rw [hr, List.map_cons, hend] at hlast
      cases hlast
  have hcut := b.cut
  rw [hrest, List.flatMap_nil, List.append_nil] at hcut
  have htotal : total (fun f : Rep × List UInt8 => f.2.length) b.fields = b.fragment.length := by
    rw [hcut, List.length_flatMap]
    rfl
  rw [seenFields, if_pos hplain, fitting_eq_self htotal.le]
  rfl

theorem frameHeaders_head {t : Table} (ht : t.Bounded) (b : Block) :
    frameHeaders (Hpack.ofTable t) b.head.frameType b.head.flags b.head.payload =
      ok (Hpack.ofTable (Hpack.readAll t (seenFields b)).1, (Hpack.readAll t (seenFields b)).2) := by
  unfold frameHeaders
  by_cases hplain : plainBlock b = true
  · have hflags := of_decide_eq_true hplain
    obtain ⟨padLength, priority, padding, hpayload, hpad, hprio⟩ := b.headPayload.layout
    rw [if_pos hflags.1] at hpad
    rw [if_pos hflags.2] at hprio
    obtain ⟨rfl, rfl⟩ := hpad
    subst hprio
    rw [List.append_nil, List.nil_append, List.nil_append] at hpayload
    rw [if_pos ⟨b.headType, hflags⟩, hpayload, decode_fragment ht b hplain]
  · have hseen : seenFields b = [] := if_neg hplain
    rw [if_neg fun h => hplain (decide_eq_true h.2), hseen]
    rfl

theorem bounded_seen {t : Table} (ht : t.Bounded) (b : Block) :
    (Hpack.readAll t (seenFields b)).1.Bounded := by
  unfold seenFields
  by_cases hplain : plainBlock b = true
  · rw [if_pos hplain]
    exact Hpack.bounded_readAll ht (Block.blockBytes fun f hf =>
      b.written f ((fitting_head b.fragment.length b.fields).mem hf))
  · rw [if_neg hplain]
    exact ht

/-- The frames of a connection are read one after the other, each for what it carries itself. -/
theorem frameLoop_eq {stream : List UInt8} (hs : stream.length < maxBytes) {parts : List Part}
    {pos : ℕ} (hat : StandsAt stream pos (framesBytes (connectionFrames parts)))
    (hend : pos + (framesBytes (connectionFrames parts)).length = stream.length)
    {t : Table} (ht : t.Bounded) {frames : List Http2Frame}
    (hcount : frames.length + (connectionFrames parts).length ≤ 128) {rounds : ℕ} (hr : 0 < rounds) :
    frameLoop stream (rounds + (connectionFrames parts).length) pos (Hpack.ofTable t) frames =
      ok (frames ++ reports t parts) := by
  have hmax : maxBytes = 2 ^ 63 := rfl
  induction parts generalizing pos t frames with
  | nil =>
    obtain ⟨rounds, rfl⟩ := Nat.exists_eq_succ_of_ne_zero (Nat.ne_of_gt hr)
    change pos + 0 = stream.length at hend
    change frameLoop stream (rounds + 1) pos (Hpack.ofTable t) frames = _
    rw [frameLoop, addUsize_eq hs (by omega) (by omega), ok_bind, if_neg (by omega), reports,
      List.append_nil]
    rfl
  | cons part parts ih =>
    have hframes : connectionFrames (part :: parts) = part.frames ++ connectionFrames parts :=
      List.flatMap_cons
    have hbytes (a b : List Frame) : framesBytes (a ++ b) = framesBytes a ++ framesBytes b :=
      List.flatMap_append
    rw [hframes, hbytes] at hat hend
    rw [hframes, List.length_append] at hcount
    rw [hframes, List.length_append]
    rw [List.length_append] at hend
    have hrest := hat.right
    cases part with
    | other f hf =>
      have hskip : ∀ g ∈ (Part.other f hf).frames, g.frameType ≠ 0x1 := by
        intro g hg
        cases List.mem_singleton.mp hg
        exact hf.1
      have hone : (Part.other f hf).frames.length = 1 := rfl
      rw [Nat.add_comm _ (connectionFrames parts).length, ← Nat.add_assoc,
        frameLoop_skip hs hat.left hskip (by omega), ih hrest (by omega) ht, List.append_assoc]
      · rfl
      · rw [List.length_append, List.length_map]
        omega
    | block b =>
      have hhead : framesBytes (b.head :: b.rest) = b.head.bytes ++ framesBytes b.rest :=
        List.flatMap_cons
      have hlen : (Part.block b).frames.length = b.rest.length + 1 := rfl
      have hblock : (Part.block b).frames = b.head :: b.rest := rfl
      have hskip : ∀ g ∈ b.rest, g.frameType ≠ 0x1 := by
        intro g hg
        rw [(b.restType g hg).1]
        decide
      rw [hblock, hhead] at hat hend hrest
      rw [List.append_assoc] at hat
      rw [List.length_append, ← Nat.add_assoc] at hrest
      rw [List.length_append] at hend
      have hrounds : rounds + ((Part.block b).frames.length + (connectionFrames parts).length) =
          rounds + (connectionFrames parts).length + b.rest.length + 1 := by omega
      rw [hrounds, frameLoop_step hs hat.left (by omega) (frameHeaders_head ht b),
        frameLoop_skip hs hat.right.left hskip, ih hrest (by omega) (bounded_seen ht b)]
      · rw [List.append_assoc, List.append_assoc]
        rfl
      · simp only [List.length_append, List.length_map, List.length_singleton]
        omega
      · rw [List.length_append, List.length_singleton]
        omega

theorem length_framesBytes_le (frames : List Frame) :
    (framesBytes frames).length ≤ frames.length * 2 ^ 25 := by
  induction frames with
  | nil => exact Nat.le_refl 0
  | cons f frames ih =>
    have hsmall := f.small
    have hbytes : framesBytes (f :: frames) = f.bytes ++ framesBytes frames := List.flatMap_cons
    rw [hbytes, List.length_append, f.length_bytes, List.length_cons]
    omega

theorem tryDecodeHttp2_eq {parts : List Part} (hcount : (connectionFrames parts).length ≤ 128) :
    tryDecodeHttp2 (clientStream parts) = ok (reports .new parts) := by
  have hlen := length_framesBytes_le (connectionFrames parts)
  have hpreface : preface.length = 24 := by decide
  have hmax : maxBytes = 2 ^ 63 := rfl
  have hs : (clientStream parts).length < maxBytes := by
    rw [clientStream, List.length_append]
    omega
  have hat : StandsAt (clientStream parts) preface.length (framesBytes (connectionFrames parts)) :=
    ⟨preface, [], rfl, by rw [clientStream, List.append_nil]⟩
  have hrounds : 129 = 129 - (connectionFrames parts).length + (connectionFrames parts).length := by
    omega
  have hpos : 0 < 129 - (connectionFrames parts).length := by omega
  have hempty : ([] : List Http2Frame).length + (connectionFrames parts).length ≤ 128 := by
    rwa [List.length_nil, Nat.zero_add]
  have hframes := frameLoop_eq hs hat (by rw [clientStream, List.length_append])
    Table.bounded_new hempty hpos
  rw [← hrounds, List.nil_append] at hframes
  have hprefix : preface.isPrefixOf (clientStream parts) = true :=
    List.isPrefixOf_iff_prefix.mpr (List.prefix_append _ _)
  unfold tryDecodeHttp2
  rw [if_pos hprefix]
  exact hframes

end Frames

section Steps

/-- A field refers to the same entry, or a literal to the same name, in two tables. -/
def SameReference (t t' : Table) : Rep → Prop
  | .indexed i => t.lookup i = t'.lookup i
  | .literal _ n _ => t.name n = t'.name n
  | .resize _ => True

/-- The table behind a field, or behind some. -/
def tableAfter (t : Table) (rep : Rep) : Table := ((t.step rep).map Prod.fst).getD t

def tableBehind (t : Table) (reps : List Rep) : Table := ((t.run reps).map Prod.fst).getD t

/-- The fields of a block refer to the same in two tables that both follow the block. -/
def SameReferences : Table → Table → List Rep → Prop
  | _, _, [] => True
  | t, t', rep :: rest =>
    SameReference t t' rep ∧ SameReferences (tableAfter t rep) (tableAfter t' rep) rest

/-- The blocks that are shown refer to the same in the table of the connection and in the one that
only the fields seen by the decompressor make. -/
def InStep : Table → Table → List Part → Prop
  | _, _, [] => True
  | t, t', .other _ _ :: parts => InStep t t' parts
  | t, t', .block b :: parts =>
    (shownBlock b = true → SameReferences t t' b.reps) ∧
      InStep (tableBehind t b.reps) (Hpack.readAll t' (seenFields b)).1 parts

/-- What is to be reported of each frame: the header list of a block that is shown. -/
def wanted : List Part → List (List Header) → List (Option (List Header))
  | .other _ _ :: parts, lists => none :: wanted parts lists
  | .block b :: parts, headers :: lists =>
    (if shownBlock b then some headers else none) :: (b.rest.map fun _ => none) ++
      wanted parts lists
  | _, _ => []

/-- A frame is reported with the header list that is wanted of it, if one is. -/
def Meets (want : Option (List Header)) (got : Http2Frame) : Prop :=
  ∀ headers ∈ want, got.headers = headers

/-- Every frame whose header list is shown has the right one. -/
def AllShown (parts : List Part) (lists : List (List Header)) (frames : List Http2Frame) : Prop :=
  List.Forall₂ Meets (wanted parts lists) frames

variable {t t' t₁ : Table} {reps : List Rep} {headers : List Header}

theorem read_of_same {rep : Rep} {first : List Header} (hstep : t.step rep = some (t₁, first))
    (hsame : SameReference t t' rep) : Hpack.read t' rep = some (tableAfter t' rep, first) := by
  unfold tableAfter
  cases rep with
  | indexed i =>
    obtain ⟨e, he, heq⟩ := Option.map_eq_some_iff.mp hstep
    cases heq
    have he' : t'.lookup i = some e := hsame.symm.trans he
    have hstep' : t'.step (.indexed i) = some (t', [e]) := by rw [Table.step, he']; rfl
    rw [hstep']
    exact Hpack.read_of_step hstep'
  | literal mode n value =>
    obtain ⟨s, hs, heq⟩ := Option.map_eq_some_iff.mp hstep
    cases heq
    have hs' : t'.name n = some s := hsame.symm.trans hs
    have hstep' : t'.step (.literal mode n value) = some (t'.keep mode (s, value), [(s, value)]) := by
      rw [Table.step, hs']
      rfl
    rw [hstep']
    exact Hpack.read_of_step hstep'
  | resize n =>
    cases hstep
    rfl

theorem read_of_not_same {rep : Rep} {first : List Header} (hstep : t.step rep = some (t₁, first))
    (hsame : ¬SameReference t t' rep) : first.length = 1 ∧
      ∀ r ∈ Hpack.read t' rep, r.2.length ≤ 1 ∧ r.2 ≠ first := by
  cases rep with
  | indexed i =>
    obtain ⟨e, he, heq⟩ := Option.map_eq_some_iff.mp hstep
    cases heq
    refine ⟨rfl, fun r hr => ?_⟩
    dsimp only [Hpack.read] at hr
    by_cases hi : i = 0
    · rw [if_pos hi] at hr
      cases hr
    · rw [if_neg hi] at hr
      cases hr
      cases he' : t'.lookup i with
      | none => exact ⟨Nat.zero_le 1, (List.cons_ne_nil e []).symm⟩
      | some e' =>
        refine ⟨Nat.le_refl 1, fun heq => hsame ?_⟩
        cases heq
        exact he.trans he'.symm
  | literal mode n value =>
    obtain ⟨s, hs, heq⟩ := Option.map_eq_some_iff.mp hstep
    cases heq
    refine ⟨rfl, fun r hr => ?_⟩
    obtain ⟨s', hs', heq⟩ := Option.map_eq_some_iff.mp hr
    cases heq
    refine ⟨Nat.le_refl 1, fun heq => hsame ?_⟩
    cases heq
    exact hs.trans hs'.symm
  | resize n => exact absurd trivial hsame

theorem length_readAll_le (hrun : t.run reps = some (t₁, headers)) (t' : Table) :
    (Hpack.readAll t' reps).2.length ≤ headers.length := by
  induction reps generalizing t t' headers with
  | nil => exact Nat.zero_le _
  | cons rep reps ih =>
    obtain ⟨⟨t₂, first⟩, hstep, hrest⟩ := Option.bind_eq_some_iff.mp hrun
    obtain ⟨⟨t₃, more⟩, hrun', heq⟩ := Option.map_eq_some_iff.mp hrest
    cases heq
    unfold Hpack.readAll
    cases hread : Hpack.read t' rep with
    | none => exact Nat.zero_le _
    | some r =>
      have hmore := ih hrun' r.1
      have hfirst : r.2.length ≤ first.length := by
        by_cases hsame : SameReference t t' rep
        · rw [read_of_same hstep hsame] at hread
          cases hread
          exact Nat.le_refl _
        · obtain ⟨hone, hother⟩ := read_of_not_same hstep hsame
          exact hone ▸ (hother r hread).1
      dsimp only
      rw [List.length_append, List.length_append]
      omega

theorem readAll_eq_iff (hrun : t.run reps = some (t₁, headers)) (t' : Table) :
    (Hpack.readAll t' reps).2 = headers ↔ SameReferences t t' reps := by
  induction reps generalizing t t' headers with
  | nil =>
    cases hrun
    exact iff_of_true rfl trivial
  | cons rep reps ih =>
    obtain ⟨⟨t₂, first⟩, hstep, hrest⟩ := Option.bind_eq_some_iff.mp hrun
    obtain ⟨⟨t₃, more⟩, hrun', heq⟩ := Option.map_eq_some_iff.mp hrest
    cases heq
    have hafter : tableAfter t rep = t₂ := by rw [tableAfter, hstep]; rfl
    unfold Hpack.readAll SameReferences
    by_cases hsame : SameReference t t' rep
    · rw [read_of_same hstep hsame, hafter, and_iff_right hsame, ← ih hrun']
      exact List.append_right_inj first
    · refine iff_of_false (fun heq => ?_) fun h => hsame h.1
      obtain ⟨hone, hother⟩ := read_of_not_same hstep hsame
      cases hread : Hpack.read t' rep with
      | none =>
        rw [hread] at heq
        have hlen := congrArg List.length heq
        rw [List.length_append, hone] at hlen
        exact absurd hlen (by rw [List.length_nil]; omega)
      | some r =>
        rw [hread] at heq
        obtain ⟨hle, hne⟩ := hother r hread
        dsimp only at heq
        have hmore := length_readAll_le hrun' r.1
        have hlen := congrArg List.length heq
        rw [List.length_append, List.length_append, hone] at hlen
        exact hne (List.append_inj heq (by omega)).1

theorem forall₂_skipped (rest : List Frame) {wants : List (Option (List Header))}
    {frames : List Http2Frame} :
    List.Forall₂ Meets ((rest.map fun _ => none) ++ wants) ((rest.map fun f => reported f []) ++ frames) ↔
      List.Forall₂ Meets wants frames := by
  induction rest with
  | nil => exact Iff.rfl
  | cons f rest ih =>
    rw [List.map_cons, List.map_cons, List.cons_append, List.cons_append, List.forall₂_cons, ih]
    exact and_iff_right fun headers hh => absurd hh (Option.not_mem_none headers)

theorem meets_head {b : Block} (hrun : t.run b.reps = some (t₁, headers)) (t' : Table) :
    Meets (if shownBlock b then some headers else none)
      (reported b.head (Hpack.readAll t' (seenFields b)).2) ↔
      (shownBlock b = true → SameReferences t t' b.reps) := by
  cases hshown : shownBlock b with
  | false =>
    exact iff_of_true (fun headers hh => absurd hh (Option.not_mem_none headers)) fun h => nomatch h
  | true =>
    rw [seenFields_of_shown hshown, ← readAll_eq_iff hrun]
    constructor
    · intro h _
      exact h headers rfl
    · rintro h _ ⟨⟩
      exact h rfl

theorem allShown_iff {parts : List Part} {lists : List (List Header)} (hsends : Sends t parts lists)
    (t' : Table) : AllShown parts lists (reports t' parts) ↔ InStep t t' parts := by
  induction hsends generalizing t' with
  | nil t => exact iff_of_true .nil trivial
  | @other t f h parts lists _ ih =>
    unfold AllShown wanted reports InStep
    rw [List.forall₂_cons]
    exact (and_iff_right fun headers hh => absurd hh (Option.not_mem_none headers)).trans (ih t')
  | @block t t₁ b headers parts lists hrun _ ih =>
    have hbehind : tableBehind t b.reps = t₁ := by rw [tableBehind, hrun]; rfl
    unfold AllShown wanted reports InStep
    rw [List.cons_append, List.cons_append, List.forall₂_cons, forall₂_skipped, meets_head hrun,
      hbehind, ← ih]
    rfl

/-- What a client sends is reported as it was meant, wherever a header list is shown, exactly when
the shown blocks refer to the same in the table of the connection and in the decompressor's. -/
theorem tryDecodeHttp2_iff {parts : List Part} {lists : List (List Header)}
    (hsends : Sends .new parts lists) (hcount : (connectionFrames parts).length ≤ 128) :
    (∃ frames, tryDecodeHttp2 (clientStream parts) = ok frames ∧ AllShown parts lists frames) ↔
      InStep .new .new parts := by
  rw [tryDecodeHttp2_eq hcount, ← allShown_iff hsends]
  constructor
  · rintro ⟨frames, heq, hall⟩
    cases heq
    exact hall
  · intro hall
    exact ⟨_, rfl, hall⟩

section Requests

/-- `:method: GET`, `:scheme: http`, `:path: /` and `:authority: a`, which is to be indexed. -/
def firstRequest : List (Rep × List UInt8) :=
  [(.indexed 2, [0x82]), (.indexed 6, [0x86]), (.indexed 4, [0x84]),
    (.literal .incremental (.entry 1) "a", [0x41, 1, 97])]

/-- The same fields, the last one by its index in the dynamic table. -/
def secondRequest : List (Rep × List UInt8) :=
  [(.indexed 2, [0x82]), (.indexed 6, [0x86]), (.indexed 4, [0x84]), (.indexed 62, [0xbe])]

theorem firstRequest_written : ∀ f ∈ firstRequest, RepBytes f.1 f.2 := by
  have hvalue : StringBytes "a" [1, 97] := .plain (l := [1]) (.short (n := 1) (by decide))
  have hname : NameBytes .incremental (.entry 1) [0x41] :=
    .entry (by decide) (.short (n := 1) (by decide))
  simp only [firstRequest, List.forall_mem_cons]
  exact ⟨.indexed (.short (n := 2) (by decide)), .indexed (.short (n := 6) (by decide)),
    .indexed (.short (n := 4) (by decide)), .literal hname hvalue, fun _ h => absurd h List.not_mem_nil⟩

theorem secondRequest_written : ∀ f ∈ secondRequest, RepBytes f.1 f.2 := by
  simp only [secondRequest, List.forall_mem_cons]
  exact ⟨.indexed (.short (n := 2) (by decide)), .indexed (.short (n := 6) (by decide)),
    .indexed (.short (n := 4) (by decide)), .indexed (.short (n := 62) (by decide)),
    fun _ h => absurd h List.not_mem_nil⟩

/-- The SETTINGS frame that a client begins with. -/
def settings : Frame := ⟨0x4, 0, 0, [], by decide⟩

/-- The first request, with END_STREAM, END_HEADERS and PRIORITY. -/
def prioritised : Block where
  head := ⟨0x1, 0x25, 1, [0, 0, 0, 0, 15, 0x82, 0x86, 0x84, 0x41, 1, 97], by decide⟩
  fragment := [0x82, 0x86, 0x84, 0x41, 1, 97]
  rest := []
  fields := firstRequest
  headType := rfl
  headPayload := ⟨[], [0, 0, 0, 0, 15], [], rfl, by decide, by decide⟩
  restType := fun _ h => absurd h List.not_mem_nil
  endsLast := rfl
  written := firstRequest_written
  cut := rfl

/-- The first request, with END_STREAM and END_HEADERS. -/
def plain : Block where
  head := ⟨0x1, 0x05, 1, [0x82, 0x86, 0x84, 0x41, 1, 97], by decide⟩
  fragment := [0x82, 0x86, 0x84, 0x41, 1, 97]
  rest := []
  fields := firstRequest
  headType := rfl
  headPayload := ⟨[], [], [], rfl, by decide, by decide⟩
  restType := fun _ h => absurd h List.not_mem_nil
  endsLast := rfl
  written := firstRequest_written
  cut := rfl

/-- The second request, with END_STREAM and END_HEADERS. -/
def followUp : Block where
  head := ⟨0x1, 0x05, 3, [0x82, 0x86, 0x84, 0xbe], by decide⟩
  fragment := [0x82, 0x86, 0x84, 0xbe]
  rest := []
  fields := secondRequest
  headType := rfl
  headPayload := ⟨[], [], [], rfl, by decide, by decide⟩
  restType := fun _ h => absurd h List.not_mem_nil
  endsLast := rfl
  written := secondRequest_written
  cut := rfl

/-- A client that sends one of two forms of the first request, and then the second. -/
def twoRequests (b : Block) : List Part :=
  [.other settings (by decide), .block b, .block followUp]

def requestList : List Header :=
  [(":method", "GET"), (":scheme", "http"), (":path", "/"), (":authority", "a")]

theorem sends_twoRequests {b : Block} (h : b.fields = firstRequest) :
    Sends .new (twoRequests b) [requestList, requestList] := by
  have hfirst : Table.run .new b.reps = some (⟨[(":authority", "a")], 4096⟩, requestList) := by
    rw [Block.reps, h]
    decide
  have hsecond : Table.run ⟨[(":authority", "a")], 4096⟩ followUp.reps =
      some (⟨[(":authority", "a")], 4096⟩, requestList) := by decide
  exact .other (.block hfirst (.block hsecond (.nil _)))

/-- The first request with a priority is not decoded, and the second one is short of its header. -/
theorem tryDecodeHttp2_drifts : ∃ parts lists, Sends .new parts lists ∧
    (connectionFrames parts).length ≤ 128 ∧
    ¬∃ frames, tryDecodeHttp2 (clientStream parts) = ok frames ∧ AllShown parts lists frames := by
  have hsends := sends_twoRequests (b := prioritised) rfl
  refine ⟨twoRequests prioritised, _, hsends, by decide, ?_⟩
  rw [tryDecodeHttp2_eq (by decide)]
  rintro ⟨frames, heq, hall⟩
  cases heq
  obtain ⟨-, hsame, -⟩ := (allShown_iff hsends .new).mp hall
  obtain ⟨-, -, -, hauthority, -⟩ := hsame rfl
  revert hauthority
  change Table.lookup ⟨[(":authority", "a")], 4096⟩ 62 ≠ Table.lookup ⟨[], 4096⟩ 62
  decide

end Requests

theorem sameReferences_self (t : Table) (reps : List Rep) : SameReferences t t reps := by
  induction reps generalizing t with
  | nil => trivial
  | cons rep reps ih =>
    refine ⟨?_, ih _⟩
    cases rep with
    | indexed i => rfl
    | literal mode n value => rfl
    | resize n => trivial

theorem inStep_of_shown {parts : List Part} {lists : List (List Header)} (hsends : Sends t parts lists)
    (hshown : ∀ b, Part.block b ∈ parts → shownBlock b = true) : InStep t t parts := by
  induction hsends with
  | nil t => trivial
  | other _ ih => exact ih fun b hb => hshown b (List.mem_cons_of_mem _ hb)
  | @block t t₁ b headers parts lists hrun _ ih =>
    have hseen := seenFields_of_shown (hshown b List.mem_cons_self)
    have hbehind : tableBehind t b.reps = t₁ := by rw [tableBehind, hrun]; rfl
    refine ⟨fun _ => sameReferences_self t b.reps, ?_⟩
    rw [hseen, Hpack.readAll_of_run hrun, hbehind]
    exact ih fun b' hb => hshown b' (List.mem_cons_of_mem _ hb)

theorem tryDecodeHttp2_iff_plain : Sends .new (twoRequests plain) [requestList, requestList] ∧
    (∃ frames, tryDecodeHttp2 (clientStream (twoRequests plain)) = ok frames ∧
      AllShown (twoRequests plain) [requestList, requestList] frames) := by
  have hsends := sends_twoRequests (b := plain) rfl
  refine ⟨hsends, (tryDecodeHttp2_iff hsends (by decide)).mpr (inStep_of_shown hsends fun b hb => ?_)⟩
  simp only [twoRequests, List.mem_cons, List.not_mem_nil, reduceCtorEq, Part.block.injEq, or_false,
    false_or] at hb
  rcases hb with rfl | rfl
  · rfl
  · rfl

end Steps

end Pktscope

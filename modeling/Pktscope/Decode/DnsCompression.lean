import Pktscope.Decode.DnsRecords
import Pktscope.Library.DnsPacking

/-! # Compressed names

A pointer contributes the text of its name to the labels in front of it. The text is
that of the name in full unless the last label is followed by a pointer: a name
without labels has an empty text, and a dot is put before it.
-/

namespace Pktscope

open Library Parse

section Text

/-- The text of labels, without regard to how they are written. -/
def labelsText (labels : List (List UInt8)) : String := ".".intercalate (labels.map fromUtf8Lossy)

/-- The text of a name is that of its labels, with a dot behind it if it dangles. -/
theorem nameText_eq (w : NameForm) :
    nameText w = labelsText w.labels ++ if w.Dangling then "." else "" := by
  induction w with
  | root =>
    have hroot : ¬NameForm.root.Dangling := id
    rw [if_neg hroot, String.append_empty]
    rfl
  | label text rest ih =>
    by_cases hroot : rest = .root
    · subst hroot
      have hlast : ¬(NameForm.label text .root).Dangling := by
        rintro (⟨hne, -⟩ | h)
        · exact hne rfl
        · exact h
      rw [if_neg hlast, String.append_empty]
      rfl
    have hparts : nameParts rest ≠ [] := by
      cases rest with
      | root => exact absurd rfl hroot
      | label => exact List.cons_ne_nil _ _
      | pointer => exact List.cons_ne_nil _ _
    have htext : nameText (.label text rest) = fromUtf8Lossy text ++ "." ++ nameText rest :=
      String.intercalate_cons_of_ne_nil hparts
    rw [htext, ih, NameForm.labels, labelsText, labelsText, List.map_cons]
    by_cases hnil : rest.labels = []
    · have hdangling : (NameForm.label text rest).Dangling := .inl ⟨hroot, hnil⟩
      rw [if_pos hdangling, if_neg (NameForm.not_dangling_of_labels_eq_nil hnil), hnil,
        List.map_nil, String.intercalate_nil, String.intercalate_singleton]
      simp only [String.append_empty]
    · have hdangling : (NameForm.label text rest).Dangling ↔ rest.Dangling := by
        constructor
        · rintro (⟨-, h⟩ | h)
          · exact absurd h hnil
          · exact h
        · exact .inr
      rw [String.intercalate_cons_of_ne_nil (mt List.map_eq_nil_iff.mp hnil),
        if_congr hdangling rfl rfl]
      simp only [String.append_assoc]
  | pointer offset name ih =>
    have htext : nameText (.pointer offset name) = nameText name := String.intercalate_singleton
    rw [htext, ih]
    rfl

theorem nameText_full (w : NameForm) : nameText w.full = labelsText w.labels := by
  have hfull : ¬w.full.Dangling := by
    rw [NameForm.full]
    induction w.labels with
    | nil => exact id
    | cons text l ih =>
      rintro (⟨hne, hnil⟩ | h)
      · rw [NameForm.labels_ofLabels] at hnil
        rw [hnil] at hne
        exact hne rfl
      · exact ih h
  rw [nameText_eq, NameForm.labels_full, if_neg hfull, String.append_empty]

theorem nameText_eq_full_iff (w : NameForm) : nameText w = nameText w.full ↔ ¬w.Dangling := by
  rw [nameText_eq, nameText_full]
  constructor
  · intro h hdangling
    rw [if_pos hdangling] at h
    have hlength := congrArg String.length h
    rw [String.length_append] at hlength
    have hdot : ".".length = 1 := rfl
    omega
  · intro h
    rw [if_neg h, String.append_empty]

end Text

section Shown

/-- A name that the decoder reads as it is written in full. -/
def Plain (w : NameForm) : Prop := w.pointers ≤ 128 ∧ ¬w.Dangling

instance (w : NameForm) : Decidable (Plain w) :=
  inferInstanceAs (Decidable (w.pointers ≤ 128 ∧ ¬w.Dangling))

theorem rdataShown_shallow {d : WireData NameForm} (h : ∀ w ∈ d.names, w.pointers ≤ 128) :
    rdataShown d = rdataInfo (d.map nameText) := by
  rw [rdataShown, if_neg]
  rintro ⟨x, hx, hdeep⟩
  have hx := h x.2 (d.map_places 0 ▸ List.mem_map_of_mem hx)
  omega

theorem rdataShown_deep {d : WireData NameForm} {w : NameForm} (hw : w ∈ d.names)
    (hdeep : 128 < w.pointers) : rdataShown d = .unknown d.rtype d.bytes := by
  rw [rdataShown, if_pos]
  rw [← d.map_places 0, List.mem_map] at hw
  obtain ⟨x, hx, rfl⟩ := hw
  exact ⟨x, hx, hdeep⟩

theorem rdataShown_full (d : WireData NameForm) :
    rdataShown (d.map NameForm.full) = rdataInfo (d.map (nameText ∘ NameForm.full)) := by
  rw [rdataShown_shallow, WireData.map_map]
  intro w hw
  rw [WireData.names_map, List.mem_map] at hw
  obtain ⟨w, -, rfl⟩ := hw
  rw [NameForm.pointers_full]
  exact Nat.zero_le _

theorem rdataShown_eq_full_iff (d : WireData NameForm) :
    rdataShown d = rdataShown (d.map NameForm.full) ↔ ∀ w ∈ d.names, Plain w := by
  constructor
  · intro h
    rw [rdataShown_full] at h
    have hshallow : ∀ w ∈ d.names, w.pointers ≤ 128 := by
      intro w hw
      by_contra hdeep
      rw [rdataShown_deep hw (not_le.mp hdeep)] at h
      cases d with
      | other => cases hw
      | _ => cases h
    rw [rdataShown_shallow hshallow] at h
    intro w hw
    refine ⟨hshallow w hw, (nameText_eq_full_iff w).mp ?_⟩
    cases d with
    | a | aaaa | txt | other => cases hw
    | cname name | ns name | ptr name =>
      rw [List.mem_singleton.mp hw]
      injection h
    | mx preference exchange =>
      rw [List.mem_singleton.mp hw]
      injection h
    | srv priority weight port target =>
      rw [List.mem_singleton.mp hw]
      injection h
    | soa mname rname serial refresh retry expire minimum =>
      injection h with hm hr
      rcases List.mem_cons.mp hw with rfl | hw
      · exact hm
      · rw [List.mem_singleton.mp hw]
        exact hr
  · intro h
    have htext : ∀ w ∈ d.names, nameText w = (nameText ∘ NameForm.full) w :=
      fun w hw => (nameText_eq_full_iff w).mpr (h w hw).2
    rw [rdataShown_full, rdataShown_shallow fun w hw => (h w hw).1, WireData.map_congr htext]

theorem recordShown_eq_full_iff (r : WireRecord NameForm) (hpointers : r.name.pointers ≤ 128) :
    recordShown r = recordShown (r.map NameForm.full) ↔ ∀ w ∈ r.names, Plain w := by
  rw [WireRecord.names, List.forall_mem_cons, ← rdataShown_eq_full_iff]
  have hname : Plain r.name ↔ nameText r.name = nameText r.name.full := by
    rw [nameText_eq_full_iff]
    exact ⟨fun h => h.2, fun h => ⟨hpointers, h⟩⟩
  rw [hname]
  have hrtype : (r.data.map NameForm.full).rtype = r.data.rtype := by
    cases r.data <;> rfl
  constructor
  · intro h
    injection h with hname _ _ _ hdata
    exact ⟨hname, hdata⟩
  · rintro ⟨hname, hdata⟩
    rw [recordShown, recordShown, WireRecord.map]
    dsimp only
    rw [hname, hdata, hrtype]

end Shown

/-- Two messages are shown alike, wherever they end. -/
def DnsInfo.SameMessage (i i' : DnsInfo) : Prop := i' = { i with headerRange := i'.headerRange }

section Message

theorem shallow_of_names {m : WireMessage NameForm} (h : ∀ w ∈ m.names, w.pointers ≤ 128) :
    Shallow m := by
  obtain ⟨hquestions, hrecords⟩ := WireMessage.forall_names.mp h
  exact ⟨hquestions, fun r hr => hrecords r hr r.name List.mem_cons_self⟩

theorem messageShown_same_iff {m : WireMessage NameForm} (hshallow : Shallow m)
    (range range' : ByteRange) :
    (messageShown m range).SameMessage (messageShown (m.map NameForm.full) range') ↔
      ∀ w ∈ m.names, Plain w := by
  have hquestions : (m.questions.map (WireQuestion.map NameForm.full)).map questionShown =
      m.questions.map questionShown ↔ ∀ q ∈ m.questions, Plain q.qname := by
    rw [List.map_map, List.map_inj_left]
    refine forall₂_congr fun q hq => ?_
    constructor
    · intro h
      injection h with hname
      exact ⟨hshallow.questions q hq, (nameText_eq_full_iff _).mp hname.symm⟩
    · rintro ⟨-, hplain⟩
      rw [Function.comp_apply, questionShown, questionShown,
        (nameText_eq_full_iff _).mpr hplain]
      rfl
  have hsection {l : List (WireRecord NameForm)} (hl : ∀ r ∈ l, r ∈ m.records) :
      (l.map (WireRecord.map NameForm.full)).map recordShown = l.map recordShown ↔
        ∀ r ∈ l, ∀ w ∈ r.names, Plain w := by
    rw [List.map_map, List.map_inj_left]
    refine forall₂_congr fun r hr => ?_
    rw [← recordShown_eq_full_iff r (hshallow.records r (hl r hr))]
    exact eq_comm
  have hanswers := hsection (l := m.answers) fun r hr => List.mem_append_left _ hr
  have hauthorities := hsection (l := m.authorities) fun r hr =>
    List.mem_append_right _ (List.mem_append_left _ hr)
  have hadditionals := hsection (l := m.additionals) fun r hr =>
    List.mem_append_right _ (List.mem_append_right _ hr)
  rw [WireMessage.forall_names, WireMessage.records, List.forall_mem_append,
    List.forall_mem_append, ← hquestions, ← hanswers, ← hauthorities, ← hadditionals]
  constructor
  · intro h
    injection h with _ _ _ hq ha hu hd
    exact ⟨hq, ha, hu, hd⟩
  · rintro ⟨hq, ha, hu, hd⟩
    rw [DnsInfo.SameMessage, messageShown, messageShown, WireMessage.map]
    dsimp only
    rw [hq, ha, hu, hd]

end Message

section Packed

variable (p : PackedMessage) {before after : List UInt8}
  (hs : (before ++ (p.form.bytes ++ after)).length < maxBytes)

include hs

theorem tryDecodeDns_packed (hshallow : Shallow p.form) :
    tryDecodeDns (before ++ (p.form.bytes ++ after)) before.length =
      ok (messageShown p.form (before.length, before.length + p.form.bytes.length)) :=
  tryDecodeDns_written hs p.form p.fits (standsAt_of_append _ _ _)
    (p.written_extend _ _) hshallow

/-- A packed message is shown as it is written in full exactly if no name takes more than 128 pointers
and none has labels right in front of a pointer to a name without labels. -/
theorem tryDecodeDns_transparent_iff {before' after' : List UInt8}
    (hs' : (before' ++ (p.full.form.bytes ++ after')).length < maxBytes) :
    (∃ i i', tryDecodeDns (before ++ (p.form.bytes ++ after)) before.length = ok i ∧
      tryDecodeDns (before' ++ (p.full.form.bytes ++ after')) before'.length = ok i' ∧
      i.SameMessage i') ↔ ∀ w ∈ p.form.names, w.pointers ≤ 128 ∧ ¬w.Dangling := by
  have hfull : Shallow p.full.form := by
    apply shallow_of_names
    intro w hw
    obtain ⟨w', -, rfl⟩ := p.name_of_full hw
    rw [NameForm.pointers_full]
    exact Nat.zero_le _
  have hdecodeFull := tryDecodeDns_packed p.full hs' hfull
  constructor
  · rintro ⟨i, i', hdecode, hdecode', hsame⟩
    cases hdecode'.symm.trans hdecodeFull
    have hsections := hsame
    injection hsections with _ _ _ _ ha hu hd
    have hlength {l : List (WireRecord NameForm)} {l' : List DnsRecord}
        (h : (l.map (WireRecord.map NameForm.full)).map recordShown = l') :
        l'.length = l.length := by
      rw [← h, List.length_map, List.length_map]
    have hshallow := shallow_of_decode hs p.form p.fits (standsAt_of_append _ _ _)
      (p.written_extend _ _) hdecode (hlength ha) (hlength hu) (hlength hd)
    cases hdecode.symm.trans (tryDecodeDns_packed p hs hshallow)
    exact (messageShown_same_iff hshallow _ _).mp hsame
  · intro hplain
    have hshallow := shallow_of_names fun w hw => (hplain w hw).1
    exact ⟨_, _, tryDecodeDns_packed p hs hshallow, hdecodeFull,
      (messageShown_same_iff hshallow _ _).mpr hplain⟩

end Packed

/-- A question for the root, and one for a name that ends with a pointer to it. -/
def rootPointed : PackedMessage where
  form := ⟨⟨0x1234, true, ⟨0, by decide⟩, ⟨0, by decide⟩⟩, [⟨.root, 1, 1⟩, ⟨.label [0x77, 0x77, 0x77] (.pointer 12 .root), 1, 1⟩],
    [], [], []⟩
  fits := ⟨by decide, by decide, by decide, by decide, by decide, nofun⟩
  written := by decide
  backward := by decide
  short := by
    intro w hw
    rcases List.mem_cons.mp hw with rfl | hw
    · exact ⟨by decide, by decide⟩
    · rw [List.mem_singleton.mp hw]
      exact ⟨by decide, by decide⟩

theorem tryDecodeDns_rootPointed :
    (∃ i, tryDecodeDns rootPointed.form.bytes 0 = ok i ∧
      i.questions.map DnsQuestion.qname = ["", "www."]) ∧
    ∃ i, tryDecodeDns rootPointed.full.form.bytes 0 = ok i ∧
      i.questions.map DnsQuestion.qname = ["", "www"] := by
  have hdecode (p : PackedMessage) (hs : p.form.bytes.length < maxBytes)
      (hnames : ∀ w ∈ p.form.names, w.pointers ≤ 128) : ∃ i, tryDecodeDns p.form.bytes 0 = ok i ∧
        i.questions.map DnsQuestion.qname =
          (p.form.questions.map questionShown).map DnsQuestion.qname := by
    have h : tryDecodeDns ([] ++ (p.form.bytes ++ [])) 0 = _ :=
      tryDecodeDns_packed p (by rwa [List.nil_append, List.append_nil]) (shallow_of_names hnames)
    rw [List.nil_append, List.append_nil] at h
    exact ⟨_, h, rfl⟩
  constructor
  · exact hdecode rootPointed (by decide) (by decide)
  · exact hdecode rootPointed.full (by decide) (by decide)

theorem tryDecodeDns_transparent_rootPointed :
    ¬∃ i i', tryDecodeDns ([] ++ (rootPointed.form.bytes ++ [])) ([] : List UInt8).length = ok i ∧
      tryDecodeDns ([] ++ (rootPointed.full.form.bytes ++ [])) ([] : List UInt8).length = ok i' ∧
      i.SameMessage i' := by
  rw [tryDecodeDns_transparent_iff rootPointed (by decide) (by decide)]
  decide

end Pktscope

import Pktscope.Decode.DnsCompression

/-! # Limits of decoded names

`parse_dns_name` knows no limit on the length of a name, and takes every byte without
both top bits for the length of a label. What bounds a name is the data it is read
from and the number of pointers.
-/

namespace Pktscope

open Library Parse

section Decoded

def DnsRdata.names : DnsRdata → List String
  | .cname name | .ns name | .ptr name => [name]
  | .mx _ exchange => [exchange]
  | .srv _ _ _ target => [target]
  | .soa mname rname .. => [mname, rname]
  | _ => []

def DnsRecord.names (r : DnsRecord) : List String := r.name :: r.rdata.names

/-- Every name that a decoded message has. -/
def DnsInfo.names (i : DnsInfo) : List String :=
  i.questions.map DnsQuestion.qname ++
    (i.answers ++ (i.authorities ++ i.additionals)).flatMap DnsRecord.names

/-- Where a decoded name is written, and the limits that it keeps. -/
structure NameOrigin (data : List UInt8) (base : ℕ) (name : String) (w : NameForm) (pos : ℕ) :
    Prop where
  written : w.Written data base pos
  text : name = nameText w
  labels : ∀ text ∈ w.labels, 1 ≤ text.length ∧ text.length ≤ 191
  pointers : w.pointers ≤ 128
  wire : w.wireLength ≤ 129 * data.length

/-- A name is read from somewhere in the data. -/
def HasOrigin (data : List UInt8) (base : ℕ) (name : String) : Prop :=
  ∃ w pos, NameOrigin data base name w pos

variable {data : List UInt8} {base : ℕ} (hs : data.length < maxBytes) (hb : base ≤ data.length)
include hs hb

theorem yields_dnsName (pos : ℕ) :
    Yields (dnsName data base pos) fun r => HasOrigin data base r.1 := by
  intro r hr
  obtain ⟨w, hw, hfits, rfl⟩ := (dnsName_ok_iff hs hb pos r).mp hr
  refine ⟨w, pos, hw, rfl, ?_, hfits, ?_⟩
  · intro text ht
    obtain ⟨hne, hshort⟩ := hw.label_lt text ht
    have hlen := List.length_pos_iff.mpr hne
    omega
  · exact hw.wireLength_le.trans (Nat.mul_le_mul_right _ (by omega))

omit hs hb in
theorem yields_orUnknown {P : DnsRdata → Prop} (pos rdlen : ℕ) (rtype : UInt16)
    {parsed : Parse DnsRdata} (h : Yields parsed P) (hP : ∀ bytes, P (.unknown rtype bytes)) :
    Yields (orUnknown data pos rdlen rtype parsed) P := by
  refine h.attempt.bind fun o ho => ?_
  cases o with
  | some rdata => exact yields_ok (ho rdata rfl)
  | none =>
    exact (Yields.any _).bind fun _ _ => (Yields.any _).bind fun bytes _ => yields_ok (hP bytes)

theorem yields_parseRdata (pos rdlen : ℕ) (rtype : UInt16) :
    Yields (parseRdata data pos rdlen base rtype) fun rdata =>
      ∀ name ∈ rdata.names, HasOrigin data base name := by
  have hname (start : ℕ) (mk : String → DnsRdata) (hmk : ∀ s, (mk s).names = [s]) :
      Yields (nameRdata data pos rdlen base rtype start mk) fun rdata =>
        ∀ name ∈ rdata.names, HasOrigin data base name := by
    refine yields_orUnknown pos rdlen rtype ((yields_dnsName hs hb start).bind fun r hr =>
      yields_ok ?_) fun _ => nofun
    intro name hmem
    rw [hmk, List.mem_singleton] at hmem
    rwa [hmem]
  unfold parseRdata
  refine yields_ite (fun _ => ?_) fun _ => yields_ite (fun _ => ?_) fun _ => yields_ite
    (fun _ => hname _ _ fun _ => rfl) fun _ => yields_ite (fun _ => hname _ _ fun _ => rfl)
    fun _ => yields_ite (fun _ => hname _ _ fun _ => rfl) fun _ => yields_ite (fun _ => ?_)
    fun _ => yields_ite (fun _ => ?_) fun _ => yields_ite (fun _ => ?_) fun _ => yields_ite
    (fun _ => ?_) fun _ => ?_
  · exact (Yields.any _).bind fun _ _ => yields_ok nofun
  · exact (Yields.any _).bind fun _ _ => (Yields.any _).bind fun _ _ => yields_ok nofun
  · exact (Yields.any _).bind fun _ _ => (Yields.any _).bind fun _ _ => hname _ _ fun _ => rfl
  · exact (Yields.any _).bind fun _ _ => (Yields.any _).bind fun _ _ => yields_ok nofun
  · exact (Yields.any _).bind fun _ _ => (Yields.any _).bind fun _ _ =>
      (Yields.any _).bind fun _ _ => (Yields.any _).bind fun _ _ => hname _ _ fun _ => rfl
  · refine yields_orUnknown pos rdlen rtype ?_ fun _ => nofun
    refine (yields_dnsName hs hb pos).bind fun m hm => (yields_dnsName hs hb m.2).bind fun r hr => ?_
    refine (Yields.any _).bind fun _ _ => yields_ite (fun _ => yields_refuse) fun _ => ?_
    refine (Yields.any _).bind fun _ _ => (Yields.any _).bind fun _ _ =>
      (Yields.any _).bind fun _ _ => (Yields.any _).bind fun _ _ =>
      (Yields.any _).bind fun _ _ => yields_ok ?_
    intro name hmem
    rcases List.mem_cons.mp hmem with rfl | hmem
    · exact hm
    · rwa [List.mem_singleton.mp hmem]
  · exact (Yields.any _).bind fun _ _ => (Yields.any _).bind fun _ _ => yields_ok nofun

theorem yields_parseRr (start : ℕ) : Yields (parseRr data start base) fun r =>
    ∀ name ∈ r.1.names, HasOrigin data base name := by
  refine (yields_dnsName hs hb start).bind fun r hr => (Yields.any _).bind fun _ _ => ?_
  refine yields_ite (fun _ => yields_refuse) fun _ => ?_
  refine (Yields.any _).bind fun rtype _ => (Yields.any _).bind fun _ _ =>
    (Yields.any _).bind fun _ _ => (Yields.any _).bind fun rdlen _ => (Yields.any _).bind fun _ _ => ?_
  refine yields_ite (fun _ => yields_refuse) fun _ => ?_
  refine (yields_parseRdata hs hb _ _ rtype).bind fun rdata hrdata => yields_ok ?_
  intro name hmem
  rcases List.mem_cons.mp hmem with rfl | hmem
  · exact hr
  · exact hrdata name hmem

theorem yields_parseRecords (count pos : ℕ) {out : List DnsRecord}
    (hout : ∀ rec ∈ out, ∀ name ∈ rec.names, HasOrigin data base name) :
    Yields (parseRecords data base count pos out) fun r =>
      ∀ rec ∈ r.1, ∀ name ∈ rec.names, HasOrigin data base name := by
  induction count generalizing pos out with
  | zero => exact yields_ok hout
  | succ count ih =>
    refine (yields_parseRr hs hb pos).attempt.bind fun o ho => ?_
    cases o with
    | none => exact yields_ok hout
    | some r =>
      apply ih
      intro rec hrec
      rcases List.mem_append.mp hrec with hrec | hrec
      · exact hout rec hrec
      · rw [List.mem_singleton.mp hrec]
        exact ho r rfl

theorem yields_parseQuestions (count pos : ℕ) {questions : List DnsQuestion}
    (hquestions : ∀ q ∈ questions, HasOrigin data base q.qname) :
    Yields (parseQuestions data base count pos questions) fun r =>
      ∀ q ∈ r.1, HasOrigin data base q.qname := by
  induction count generalizing pos questions with
  | zero => exact yields_ok hquestions
  | succ count ih =>
    refine (yields_dnsName hs hb pos).bind fun r hr => (Yields.any _).bind fun _ _ => ?_
    refine yields_ite (fun _ => yields_ok hquestions) fun _ => ?_
    refine (Yields.any _).bind fun _ _ => (Yields.any _).bind fun _ _ => ih _ ?_
    intro q hq
    rcases List.mem_append.mp hq with hq | hq
    · exact hquestions q hq
    · rw [List.mem_singleton.mp hq]
      exact hr

end Decoded

/-- Every name of a decoded message comes from labels of at most 191 bytes and takes at most 128
pointers, which bounds its length on the wire by that of the data. -/
theorem tryDecodeDns_origin {data : List UInt8} {offset : ℕ} {i : DnsInfo}
    (hs : data.length < maxBytes) (h : tryDecodeDns data offset = ok i) :
    ∀ name ∈ i.names, HasOrigin data offset name := by
  have hnone : ∀ rec ∈ ([] : List DnsRecord), ∀ name ∈ rec.names, HasOrigin data offset name := by
    intro rec hrec
    cases hrec
  have hyields : Yields (tryDecodeDns data offset) fun i =>
      ∀ name ∈ i.names, HasOrigin data offset name := by
    unfold tryDecodeDns
    rw [checkedSub]
    split
    · rename_i ho
      rw [ok_bind]
      refine yields_ite (fun _ => yields_refuse) fun _ => ?_
      refine (Yields.any _).bind fun _ _ => (Yields.any _).bind fun _ _ =>
        (Yields.any _).bind fun _ _ => (Yields.any _).bind fun _ _ =>
        (Yields.any _).bind fun _ _ => (Yields.any _).bind fun _ _ => ?_
      refine yields_ite (fun _ => yields_refuse) fun _ => (Yields.any _).bind fun _ _ => ?_
      have hempty : ∀ q ∈ ([] : List DnsQuestion), HasOrigin data offset q.qname := by
        intro q hq
        cases hq
      refine (yields_parseQuestions hs ho _ _ hempty).bind fun q hq => ?_
      refine yields_ite (fun _ => yields_refuse) fun _ => ?_
      refine (yields_parseRecords hs ho _ _ hnone).bind fun r₁ h₁ =>
        (yields_parseRecords hs ho _ _ hnone).bind fun r₂ h₂ =>
        (yields_parseRecords hs ho _ _ hnone).bind fun r₃ h₃ => yields_ok ?_
      intro name hmem
      rcases List.mem_append.mp hmem with hmem | hmem
      · obtain ⟨question, hquestion, rfl⟩ := List.mem_map.mp hmem
        exact hq question hquestion
      · obtain ⟨rec, hrec, hname⟩ := List.mem_flatMap.mp hmem
        rcases List.mem_append.mp hrec with hrec | hrec
        · exact h₁ rec hrec name hname
        rcases List.mem_append.mp hrec with hrec | hrec
        · exact h₂ rec hrec name hname
        · exact h₃ rec hrec name hname
    · exact yields_refuse
  exact hyields i h

theorem tryDecodeDns_origin_rootPointed : HasOrigin rootPointed.form.bytes 0 "www." := by
  have hdecode : tryDecodeDns ([] ++ (rootPointed.form.bytes ++ [])) 0 = _ :=
    tryDecodeDns_packed rootPointed (by decide) (shallow_of_names (by decide))
  rw [List.nil_append, List.append_nil] at hdecode
  exact tryDecodeDns_origin (by decide) hdecode "www." (by decide +kernel)

section Long

theorem length_fromUtf8Lossy_le (bytes : List UInt8) :
    (fromUtf8Lossy bytes).length ≤ bytes.length := by
  have hchunks := length_utf8Chunks 0 bytes
  rwa [fromUtf8Lossy, String.length_ofList, List.length_map]

theorem length_labelsText_le (l : List (List UInt8)) :
    (labelsText l).length ≤ (l.map (·.length + 1)).sum := by
  induction l with
  | nil => exact Nat.le_refl 0
  | cons text l ih =>
    have htext := length_fromUtf8Lossy_le text
    have hdot : ".".length = 1 := rfl
    rw [List.map_cons, List.sum_cons]
    cases l with
    | nil =>
      rw [labelsText, List.map_singleton, String.intercalate_singleton]
      omega
    | cons next l =>
      have hsplit : labelsText (text :: next :: l) =
          fromUtf8Lossy text ++ "." ++ labelsText (next :: l) := String.intercalate_cons_cons
      rw [hsplit, String.length_append, String.length_append]
      omega

/-- The text of a name is not longer than the name in full. -/
theorem length_nameText_le (w : NameForm) : (nameText w).length ≤ w.wireLength := by
  have hlabels := length_labelsText_le w.labels
  have hdot : (if w.Dangling then "." else "").length ≤ 1 := by
    split
    · exact Nat.le_refl 1
    · exact Nat.zero_le 1
  rw [nameText_eq, String.length_append, NameForm.wireLength]
  omega

/-- Two labels of 191 bytes. Their length bytes begin with the bits 10. -/
def longName : NameForm := .ofLabels [List.replicate 191 0x61, List.replicate 191 0x62]

theorem length_nameText_longName : (nameText longName).length = 383 := by
  have ha := fromUtf8Lossy_replicate (c := 'a') (b := 0x61) rfl 191
  have hb := fromUtf8Lossy_replicate (c := 'b') (b := 0x62) rfl 191
  have hdot : ¬longName.Dangling := by decide
  rw [nameText_eq, if_neg hdot, longName, NameForm.labels_ofLabels, labelsText, List.map_cons,
    List.map_singleton, ha, hb, String.intercalate_cons_cons, String.intercalate_singleton]
  simp only [String.length_append, String.length_ofList, List.length_replicate]
  rfl

def longForm : WireMessage NameForm :=
  ⟨⟨0x1234, false, ⟨0, Nat.succ_pos _⟩, ⟨0, Nat.succ_pos _⟩⟩, [⟨longName, 1, 1⟩], [], [], []⟩

theorem tryDecodeDns_longName :
    (∃ i, tryDecodeDns longForm.bytes 0 = ok i ∧ i.names = [nameText longName]) ∧
      ¬∃ w pos, w.Written longForm.bytes 0 pos ∧ nameText w = nameText longName ∧
        (∀ text ∈ w.labels, text.length ≤ 63) ∧ w.wireLength ≤ 255 := by
  constructor
  · have hlabels : ∀ text ∈ longName.labels, text ≠ [] ∧ text.length < 192 := by
      decide +kernel
    have hnames : ∀ x ∈ longForm.places, x.2.Written longForm.bytes 0 (0 + x.1) := by
      intro x hx
      have hat := longForm.standsAt_places x hx
      rw [Nat.zero_add]
      rw [List.mem_singleton.mp hx] at hat ⊢
      exact NameForm.written_ofLabels hlabels hat
    have hfits : longForm.Fits := by
      refine ⟨List.cons_ne_nil _ _, by decide, by decide, by decide, by decide, ?_⟩
      intro r hr
      cases hr
    have hfit : longForm.bytes.length < maxBytes := by decide +kernel
    have hdecode := tryDecodeDns_written hfit longForm hfits (standsAt_whole _) hnames
      (shallow_of_names (by decide))
    exact ⟨_, hdecode, rfl⟩
  · rintro ⟨w, pos, -, htext, -, hwire⟩
    have hle := length_nameText_le w
    rw [htext, length_nameText_longName] at hle
    omega

end Long

end Pktscope

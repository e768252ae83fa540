import Pktscope.Library.DnsFormat

/-! # Packed DNS messages

A message can write a name once and lead to it by pointers. A packed message carries the
proof that its names stand where the pointers lead, and can be written in full.
-/

namespace Library

/-- A name keeps the limits on labels and on its whole length. -/
structure NameForm.Short (w : NameForm) : Prop where
  labels : ∀ text ∈ w.labels, text.length ≤ 63
  wire : w.wireLength ≤ 255

/-- A message whose names stand in it. Their pointers lead back. -/
structure PackedMessage where
  form : WireMessage NameForm
  fits : form.Fits
  written : ∀ x ∈ form.places, x.2.Written form.bytes 0 x.1
  backward : ∀ x ∈ form.places, x.2.Backward x.1
  short : ∀ w ∈ form.names, w.Short

section Full

theorem NameForm.Short.full {w : NameForm} (h : w.Short) : w.full.Short := by
  constructor
  · rw [labels_full]
    exact h.labels
  · rw [wireLength, labels_full]
    exact h.wire

/-- Data still fits when its names are written in full. -/
theorem WireData.Fits.full {d : WireData NameForm} (h : d.Fits) (hshort : ∀ w ∈ d.names, w.Short) :
    (d.map NameForm.full).Fits := by
  have hname (w : NameForm) (hw : w ∈ d.names) : w.full.bytes.length ≤ 255 := by
    rw [NameForm.length_bytes_full]
    exact (hshort w hw).wire
  constructor
  · cases d with
    | a | aaaa | txt | other => exact h.length
    | cname name | ns name | ptr name =>
      exact Nat.lt_of_le_of_lt (hname name List.mem_cons_self) (by decide)
    | mx preference exchange =>
      have hlen := hname exchange List.mem_cons_self
      simp only [map, bytes, List.length_append, length_toBe16]
      omega
    | srv priority weight port target =>
      have hlen := hname target List.mem_cons_self
      simp only [map, bytes, List.length_append, length_toBe16]
      omega
    | soa mname rname serial refresh retry expire minimum =>
      have hm := hname mname List.mem_cons_self
      have hr := hname rname (List.mem_cons_of_mem _ List.mem_cons_self)
      simp only [map, bytes, List.length_append, length_toBe32]
      omega
  · intro l hl
    cases d with
    | txt strings => exact h.strings l hl
    | _ => cases hl
  · intro t l hl
    cases d with
    | other rtype data => exact h.type t l hl
    | _ => cases hl

variable (p : PackedMessage)

theorem PackedMessage.name_of_full {w : NameForm} (hw : w ∈ (p.form.map NameForm.full).names) :
    ∃ w' ∈ p.form.names, w = w'.full := by
  rw [WireMessage.names_map, List.mem_map] at hw
  obtain ⟨w', hw', rfl⟩ := hw
  exact ⟨w', hw', rfl⟩

theorem PackedMessage.label_lt {w : NameForm} (hw : w ∈ p.form.names) :
    ∀ text ∈ w.labels, text ≠ [] ∧ text.length < 192 := by
  rw [← WireMessage.map_places, List.mem_map] at hw
  obtain ⟨x, hx, rfl⟩ := hw
  exact (p.written x hx).label_lt

theorem PackedMessage.written_extend (before after : List UInt8) : ∀ x ∈ p.form.places,
    x.2.Written (before ++ (p.form.bytes ++ after)) before.length (before.length + x.1) :=
  fun x hx => (p.written x hx).extend before after

/-- The message with all its names written in full. -/
def PackedMessage.full : PackedMessage where
  form := p.form.map NameForm.full
  fits := by
    obtain ⟨hasks, hquestions, hanswers, hauthorities, hadditionals, hdata⟩ := p.fits
    refine ⟨?_, ?_, ?_, ?_, ?_, ?_⟩
    · exact fun hnil => hasks (List.map_eq_nil_iff.mp hnil)
    · exact (List.length_map _).trans_le hquestions
    · exact (List.length_map _).trans_le hanswers
    · exact (List.length_map _).trans_le hauthorities
    · exact (List.length_map _).trans_le hadditionals
    · intro r hr
      rw [WireMessage.records_map, List.mem_map] at hr
      obtain ⟨r, hr, rfl⟩ := hr
      apply (hdata r hr).full
      intro w hw
      exact p.short w (List.mem_append_right _
        (List.mem_flatMap.mpr ⟨r, hr, List.mem_cons_of_mem _ hw⟩))
  written := by
    intro x hx
    obtain ⟨w, hw, hfull⟩ := p.name_of_full
      (WireMessage.map_places _ ▸ List.mem_map_of_mem hx)
    have hat := WireMessage.standsAt_places _ x hx
    rw [hfull] at hat ⊢
    exact NameForm.written_ofLabels (p.label_lt hw) hat
  backward := by
    intro x hx
    obtain ⟨w, -, hfull⟩ := p.name_of_full
      (WireMessage.map_places _ ▸ List.mem_map_of_mem hx)
    rw [hfull]
    exact NameForm.backward_ofLabels _
  short := by
    intro w hw
    obtain ⟨w', hw', rfl⟩ := p.name_of_full hw
    exact (p.short w' hw').full

end Full

end Library

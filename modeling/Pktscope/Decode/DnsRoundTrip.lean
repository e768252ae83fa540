import Pktscope.Decode.DnsCompression

/-! # Encoded DNS messages

Decoding gives back what a message says, with or without compression, as long as no
name takes more than 128 pointers.
-/

namespace Pktscope

open Library Parse

/-- A message whose names are lists of labels, as it is encoded. Every pointer leads to a name with
labels, and no label has a dot in it. -/
structure DnsEncoding (m : WireMessage (List String)) extends PackedMessage where
  same : form.map NameForm.labels = m.map (List.map utf8Bytes)
  avoidsRoot : ∀ w ∈ form.names, w.AvoidsRoot
  dotless : ∀ name ∈ m.names, ∀ label ∈ name, '.' ∉ label.toList

section RoundTrip

theorem messageShown_shallow {m : WireMessage NameForm} (h : ∀ w ∈ m.names, w.pointers ≤ 128)
    (range : ByteRange) : messageShown m range = messageInfo (m.map nameText) range := by
  obtain ⟨-, hrecords⟩ := WireMessage.forall_names.mp h
  have hsection {l : List (WireRecord NameForm)} (hl : ∀ r ∈ l, r ∈ m.records) :
      l.map recordShown = (l.map (WireRecord.map nameText)).map recordInfo := by
    rw [List.map_map]
    apply List.map_congr_left
    intro r hr
    have hrtype : (r.data.map nameText).rtype = r.data.rtype := by
      cases r.data <;> rfl
    rw [Function.comp_apply, recordShown, rdataShown_shallow fun w hw =>
      hrecords r (hl r hr) w (List.mem_cons_of_mem _ hw), recordInfo, WireRecord.map]
    dsimp only
    rw [hrtype]
  have hquestions : m.questions.map questionShown =
      (m.questions.map (WireQuestion.map nameText)).map questionInfo := by
    rw [List.map_map]
    rfl
  rw [messageShown, messageInfo, WireMessage.map]
  dsimp only
  rw [← hquestions, ← hsection fun r hr => List.mem_append_left _ hr,
    ← hsection fun r hr => List.mem_append_right _ (List.mem_append_left _ hr),
    ← hsection fun r hr => List.mem_append_right _ (List.mem_append_right _ hr)]

theorem DnsEncoding.map_nameText {m : WireMessage (List String)} (e : DnsEncoding m) :
    e.form.map nameText = m.map fun name => ".".intercalate name := by
  have hnames : ∀ w ∈ e.form.names, nameText w = (labelsText ∘ NameForm.labels) w := by
    intro w hw
    rw [nameText_eq, if_neg (e.avoidsRoot w hw).not_dangling, String.append_empty]
    rfl
  have htexts : labelsText ∘ List.map utf8Bytes = fun name => ".".intercalate name := by
    funext name
    have hlabels : fromUtf8Lossy ∘ utf8Bytes = id := funext fromUtf8Lossy_utf8Bytes
    rw [Function.comp_apply, labelsText, List.map_map, hlabels, List.map_id]
  calc e.form.map nameText
      = (e.form.map NameForm.labels).map labelsText := by
        rw [WireMessage.map_congr hnames, WireMessage.map_map]
    _ = m.map fun name => ".".intercalate name := by
        rw [e.same, WireMessage.map_map, htexts]

/-- Decoding an encoded message gives back its header, its questions and its records, and the range of
the message ends with it. -/
theorem tryDecodeDns_encoded {m : WireMessage (List String)} (e : DnsEncoding m)
    {before after : List UInt8} (hs : (before ++ (e.form.bytes ++ after)).length < maxBytes)
    (hpointers : ∀ w ∈ e.form.names, w.pointers ≤ 128) :
    tryDecodeDns (before ++ (e.form.bytes ++ after)) before.length =
      ok (messageInfo (m.map fun name => ".".intercalate name)
        (before.length, before.length + e.form.bytes.length)) := by
  rw [tryDecodeDns_packed e.toPackedMessage hs (shallow_of_names hpointers),
    messageShown_shallow hpointers, e.map_nameText]

end RoundTrip

section Chain

/-- The names of a chain of records: each is a pointer to the one before. -/
def chainName : ℕ → NameForm
  | 0 => .pointer 12 (.label [0x61] .root)
  | k + 1 => .pointer (19 + 12 * k) (chainName k)

def chainRecord (k : ℕ) : WireRecord NameForm := ⟨chainName k, 1, 0, .other 99 []⟩

/-- A message with a question and a chain of records. -/
def chainForm (n : ℕ) : WireMessage NameForm :=
  ⟨⟨0x1234, true, ⟨0, Nat.two_pow_pos 11⟩, ⟨0, Nat.two_pow_pos 4⟩⟩,
    [⟨.label [0x61] .root, 1, 1⟩], (List.range' 0 n).map chainRecord, [], []⟩

def chainMessage (n : ℕ) : WireMessage (List String) :=
  ⟨⟨0x1234, true, ⟨0, Nat.two_pow_pos 11⟩, ⟨0, Nat.two_pow_pos 4⟩⟩, [⟨["a"], 1, 1⟩],
    (List.range' 0 n).map fun _ => ⟨["a"], 1, 0, .other 99 []⟩, [], []⟩

theorem labels_chainName (k : ℕ) : (chainName k).labels = [[0x61]] := by
  induction k with
  | zero => rfl
  | succ k ih => exact ih

theorem pointers_chainName (k : ℕ) : (chainName k).pointers = k + 1 := by
  induction k with
  | zero => rfl
  | succ k ih => rw [chainName, NameForm.pointers, ih]

theorem length_bytes_chainRecord (k : ℕ) : (chainRecord k).bytes.length = 12 := by
  cases k <;> rfl

theorem avoidsRoot_chainName (k : ℕ) : (chainName k).AvoidsRoot := by
  induction k with
  | zero => exact ⟨List.cons_ne_nil _ _, trivial⟩
  | succ k ih =>
    refine ⟨?_, ih⟩
    rw [labels_chainName]
    exact List.cons_ne_nil _ _

theorem backward_chainName (k : ℕ) : (chainName k).Backward (19 + 12 * k) := by
  induction k with
  | zero => exact ⟨by decide, trivial⟩
  | succ k ih => exact ⟨by omega, ih⟩

theorem mem_names_chainForm {n : ℕ} {w : NameForm} (hw : w ∈ (chainForm n).names) :
    w.labels = [[0x61]] ∧ w.AvoidsRoot := by
  rcases List.mem_cons.mp hw with rfl | hw
  · exact ⟨rfl, trivial⟩
  obtain ⟨r, hr, hname⟩ := List.mem_flatMap.mp hw
  rcases List.mem_append.mp hr with hr | hr
  · obtain ⟨k, -, rfl⟩ := List.mem_map.mp hr
    rw [List.mem_singleton.mp hname]
    exact ⟨labels_chainName k, avoidsRoot_chainName k⟩
  · cases hr

theorem length_bytes_chainForm (n : ℕ) : (chainForm n).bytes.length = 19 + 12 * n := by
  have hanswers (s : ℕ) :
      (((List.range' s n).map chainRecord).flatMap WireRecord.bytes).length = 12 * n := by
    induction n generalizing s with
    | zero => rfl
    | succ n ih =>
      rw [List.range'_succ, List.map_cons, List.flatMap_cons, List.length_append, ih,
        length_bytes_chainRecord]
      omega
  rw [WireMessage.bytes, List.length_append, List.length_append, List.length_append, chainForm,
    hanswers, length_headBytes]
  simp only [List.flatMap_nil, List.append_nil, List.length_nil, Nat.add_zero]
  exact (Nat.add_assoc 12 7 _).symm

theorem places_chainForm (n : ℕ) : (chainForm n).places =
    (12, .label [0x61] .root) :: (List.range' 0 n).map fun k => (19 + 12 * k, chainName k) := by
  have hanswers (s : ℕ) : placesFrom WireRecord.bytes WireRecord.places (19 + 12 * s)
      ((List.range' s n).map chainRecord) =
        (List.range' s n).map fun k => (19 + 12 * k, chainName k) := by
    induction n generalizing s with
    | zero => rfl
    | succ n ih =>
      have hnext : 19 + 12 * s + 12 = 19 + 12 * (s + 1) := by omega
      rw [List.range'_succ, List.map_cons, placesFrom, length_bytes_chainRecord, hnext, ih]
      rfl
  have hplaces := hanswers 0
  rw [WireMessage.places]
  change _ :: (placesFrom _ _ 19 _ ++ []) = _
  rw [List.append_nil]
  exact congrArg _ hplaces

theorem places_chainForm_cases {n : ℕ} {x : ℕ × NameForm} (hx : x ∈ (chainForm n).places) :
    x = (12, .label [0x61] .root) ∨ ∃ k < n, x = (19 + 12 * k, chainName k) := by
  rw [places_chainForm] at hx
  rcases List.mem_cons.mp hx with hx | hx
  · exact .inl hx
  · obtain ⟨k, hk, rfl⟩ := List.mem_map.mp hx
    rw [List.mem_range'_1] at hk
    exact .inr ⟨k, by omega, rfl⟩

theorem written_chainName {n : ℕ} (hn : n ≤ 1024) {k : ℕ} (hk : k < n) :
    (chainName k).Written (chainForm n).bytes 0 (19 + 12 * k) := by
  have hat (k : ℕ) (hk : k < n) :
      StandsAt (chainForm n).bytes (19 + 12 * k) (chainName k).bytes := by
    apply WireMessage.standsAt_places (chainForm n) (19 + 12 * k, chainName k)
    rw [places_chainForm]
    apply List.mem_cons_of_mem
    exact List.mem_map.mpr ⟨k, List.mem_range'_1.mpr ⟨Nat.zero_le k, by omega⟩, rfl⟩
  induction k with
  | zero =>
    have hfirst : StandsAt (chainForm n).bytes 12 (NameForm.ofLabels [[0x61]]).bytes := by
      apply WireMessage.standsAt_places (chainForm n) (12, .label [0x61] .root)
      rw [places_chainForm]
      exact List.mem_cons_self
    exact ⟨by decide, hat 0 hk, NameForm.written_ofLabels (by decide) hfirst⟩
  | succ k ih =>
    refine ⟨by omega, hat (k + 1) hk, ?_⟩
    rw [Nat.zero_add]
    exact ih (by omega)

/-- The chain is the encoding of a question and records with one name. -/
def chainEncoding (n : ℕ) (hn : n ≤ 1024) : DnsEncoding (chainMessage n) where
  form := chainForm n
  fits := by
    refine ⟨List.cons_ne_nil _ _, Nat.succ_le_succ (Nat.zero_le _), ?_, Nat.zero_le _, Nat.zero_le _, ?_⟩
    · rw [chainForm, List.length_map, List.length_range']
      omega
    · intro r hr
      rcases List.mem_append.mp hr with hr | hr
      · obtain ⟨k, -, rfl⟩ := List.mem_map.mp hr
        refine ⟨Nat.two_pow_pos 16, nofun, ?_⟩
        rintro _ _ ⟨⟩
        decide
      · cases hr
  written := by
    intro x hx
    rcases places_chainForm_cases hx with rfl | ⟨k, hk, rfl⟩
    · exact NameForm.written_ofLabels (l := [[0x61]]) (by decide)
        (WireMessage.standsAt_places _ _ hx)
    · exact written_chainName hn hk
  backward := by
    intro x hx
    rcases places_chainForm_cases hx with rfl | ⟨k, -, rfl⟩
    · trivial
    · exact backward_chainName k
  short := by
    intro w hw
    have hlabels := (mem_names_chainForm hw).1
    constructor
    · rw [hlabels]
      decide
    · rw [NameForm.wireLength, hlabels]
      decide
  same := by
    have hrecord : WireRecord.map NameForm.labels ∘ chainRecord =
        WireRecord.map (List.map utf8Bytes) ∘ fun _ => ⟨["a"], 1, 0, .other 99 []⟩ := by
      funext k
      rw [Function.comp_apply, WireRecord.map, chainRecord, labels_chainName]
      rfl
    rw [WireMessage.map, WireMessage.map, chainForm, chainMessage]
    dsimp only
    rw [List.map_map, List.map_map, hrecord]
    rfl
  avoidsRoot := fun w hw => (mem_names_chainForm hw).2
  dotless := by
    intro name hname
    have hlabels : name = ["a"] := by
      rcases List.mem_cons.mp hname with rfl | hname
      · rfl
      obtain ⟨r, hr, hname⟩ := List.mem_flatMap.mp hname
      rcases List.mem_append.mp hr with hr | hr
      · obtain ⟨k, -, rfl⟩ := List.mem_map.mp hr
        exact List.mem_singleton.mp hname
      · cases hr
    rw [hlabels]
    decide

/-- A chain of 129 records is not read in full: the owner of the last one takes 129 pointers. -/
theorem tryDecodeDns_chain :
    tryDecodeDns ([] ++ ((chainEncoding 129 (by decide)).form.bytes ++ [])) 0 ≠
      ok (messageInfo ((chainMessage 129).map fun name => ".".intercalate name)
        (0, (chainEncoding 129 (by decide)).form.bytes.length)) := by
  intro hdecode
  have hlen := length_bytes_chainForm 129
  have hs : ([] ++ ((chainForm 129).bytes ++ [])).length < maxBytes := by
    rw [List.nil_append, List.append_nil, hlen]
    decide
  have hmax := shallow_of_decode hs (chainForm 129) (chainEncoding 129 (by decide)).fits
    (standsAt_of_append [] _ _) ((chainEncoding 129 (by decide)).written_extend _ _) hdecode
    (by simp [messageInfo, WireMessage.map, chainMessage, chainForm]) rfl rfl
  have hlast := hmax.records (chainRecord 128) (List.mem_append_left _
    (List.mem_map_of_mem (List.mem_range'_1.mpr ⟨Nat.zero_le _, by decide⟩)))
  rw [chainRecord, pointers_chainName] at hlast
  exact absurd hlast (by decide)

theorem tryDecodeDns_encoded_chain :
    tryDecodeDns ([0xff] ++ ((chainEncoding 2 (by decide)).form.bytes ++ [0xff])) 1 =
      ok (messageInfo ((chainMessage 2).map fun name => ".".intercalate name) (1, 44)) := by
  have hs : ([0xff] ++ ((chainEncoding 2 (by decide)).form.bytes ++ [0xff])).length < maxBytes := by
    decide
  exact tryDecodeDns_encoded (chainEncoding 2 (by decide)) hs (by decide)

end Chain

end Pktscope

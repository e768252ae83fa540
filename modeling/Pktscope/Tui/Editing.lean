import Pktscope.Tui.Cursor

/-! # Editing the filter bar

The cursor of the filter bar is a byte index that every key moves by one. It stays
at the characters of the text, and no edit and no drawing of the bar panics, exactly
in the runs where only ASCII characters are typed.
-/

namespace Pktscope

open Library

section Edits

variable {front back : List Char} {c d : Char}

theorem insertChar_cons (i : ℕ) (cs : List Char) :
    insertChar c (d.utf8Size + i) (d :: cs) = (insertChar c i cs).map (d :: ·) := by
  have hpos := d.utf8Size_pos
  obtain ⟨k, hk⟩ : ∃ k, d.utf8Size + i = k + 1 := ⟨d.utf8Size + i - 1, by omega⟩
  rw [hk, insertChar, if_neg (by omega)]
  congr 2
  omega

theorem removeChar_cons (i : ℕ) (cs : List Char) :
    removeChar (d.utf8Size + i) (d :: cs) = (removeChar i cs).map (d :: ·) := by
  have hpos := d.utf8Size_pos
  obtain ⟨k, hk⟩ : ∃ k, d.utf8Size + i = k + 1 := ⟨d.utf8Size + i - 1, by omega⟩
  rw [hk, removeChar, if_neg (by omega)]
  congr 2
  omega

theorem insertChar_append : insertChar c (String.ofList front).utf8ByteSize (front ++ back) =
    some (front ++ c :: back) := by
  induction front with
  | nil => cases back <;> rfl
  | cons d front ih =>
    rw [utf8ByteSize_ofList_cons, List.cons_append, insertChar_cons, ih]
    rfl

theorem removeChar_append : removeChar (String.ofList front).utf8ByteSize (front ++ c :: back) =
    some (front ++ back) := by
  induction front with
  | nil => rfl
  | cons d front ih =>
    rw [utf8ByteSize_ofList_cons, List.cons_append, removeChar_cons, ih]
    rfl

theorem insertChar_of_boundary {input : String} {i : ℕ} (h : IsCharBoundary input i) (c : Char) :
    ∃ front back, input.toList = front ++ back ∧ i = (String.ofList front).utf8ByteSize ∧
      insertChar c i input.toList = some (front ++ c :: back) := by
  obtain ⟨front, ⟨back, hinput⟩, rfl⟩ := h
  refine ⟨front, back, hinput.symm, rfl, ?_⟩
  rw [← hinput]
  exact insertChar_append

end Edits

namespace App

variable {R : Type}

/-- The text of the filter bar, with the cursor drawn at its byte index. -/
def renderFilterBar (app : App R) : Option String :=
  let input := app.filterInput
  match app.mode with
  | .filterInput =>
    (if app.filterCursor ≤ input.utf8ByteSize then
      (insertChar '│' app.filterCursor input.toList).map String.ofList
    else some input).map ("Filter: " ++ ·)
  | .search => some "Filter: (Ctrl-F search active — see status bar)"
  | .normal =>
    some (if app.activeFilter.isSome then "Filter: " ++ input ++ " [Applied]"
      else "Filter: (press \x27/\x27 to filter)")

/-- The cursor is inside the text, before or behind a character. -/
def CursorOk (app : App R) : Prop :=
  app.filterCursor ≤ app.filterInput.utf8ByteSize ∧
    IsCharBoundary app.filterInput app.filterCursor

/-- The text is ASCII, and the cursor inside of it. -/
structure Ascii (app : App R) : Prop where
  text : ∀ c ∈ app.filterInput.toList, c.utf8Size = 1
  cursor : app.filterCursor ≤ app.filterInput.toList.length

/-- What is edited in the filter bar. -/
def edited (app : App R) : String × ℕ := (app.filterInput, app.filterCursor)

section Frame

variable {app app' : App R}

theorem Ascii.congr (ha : app.Ascii) (h : app'.edited = app.edited) : app'.Ascii := by
  obtain ⟨htext, hcursor⟩ := Prod.mk.inj h
  constructor
  · rw [htext]
    exact ha.text
  · rw [htext, hcursor]
    exact ha.cursor

theorem Ascii.cursorOk (ha : app.Ascii) : app.CursorOk := by
  have hbound := isCharBoundary_of_ascii ha.text ha.cursor
  exact ⟨hbound.le, hbound⟩

/-- The bar can be drawn if the cursor is at a character. -/
theorem CursorOk.drawn (h : app.CursorOk) : app.renderFilterBar.isSome := by
  unfold renderFilterBar
  dsimp only
  split
  · obtain ⟨front, back, -, -, hinsert⟩ := insertChar_of_boundary h.2 '│'
    rw [if_pos h.1, hinsert]
    rfl
  · rfl
  · rfl

theorem edited_moveDown (app : App R) : app.moveDown.edited = app.edited := by
  unfold moveDown
  dsimp only
  split_ifs <;> rfl

theorem edited_moveUp (app : App R) : app.moveUp.edited = app.edited := by
  unfold moveUp
  split_ifs <;> rfl

theorem edited_moveToEnd (app : App R) : app.moveToEnd.edited = app.edited := by
  unfold moveToEnd
  dsimp only
  split_ifs <;> rfl

theorem edited_toggleOverlay (app : App R) (kind : OverlayKind) :
    (app.toggleOverlay kind).edited = app.edited := by
  unfold toggleOverlay
  split_ifs <;> rfl

theorem edited_openStream (app : App R) : app.openStream.edited = app.edited := by
  unfold openStream
  split <;> rfl

theorem edited_toggleBookmark (app : App R) : app.toggleBookmark.edited = app.edited := by
  unfold toggleBookmark
  split <;> rfl

theorem edited_nextSearchMatch [RegexEngine R] (app : App R) :
    app.nextSearchMatch.edited = app.edited := by
  unfold nextSearchMatch
  split
  · rfl
  · dsimp only
    split <;> rfl

theorem edited_normalKey [RegexEngine R] {code : KeyCode} (h : app.normalKey code = .ok app') :
    app'.edited = app.edited ∨ app'.edited = ("", 0) := by
  unfold normalKey at h
  split at h <;> cases h
  · exact Or.inl (edited_moveDown app)
  · exact Or.inl (edited_moveDown app)
  · exact Or.inl (edited_moveUp app)
  · exact Or.inl (edited_moveUp app)
  · exact Or.inl (edited_toggleOverlay app _)
  · exact Or.inl (edited_toggleOverlay app _)
  · exact Or.inl (edited_toggleOverlay app _)
  · exact Or.inl (edited_toggleOverlay app _)
  · exact Or.inl (edited_openStream app)
  · exact Or.inl (edited_toggleBookmark app)
  · exact Or.inl (edited_toggleOverlay app _)
  · exact Or.inl (edited_nextSearchMatch app)
  · exact Or.inl rfl
  · exact Or.inl (edited_moveToEnd app)
  · exact Or.inl (edited_moveToEnd app)
  · exact Or.inl rfl
  · exact Or.inl rfl
  · exact Or.inl rfl
  · exact Or.inl rfl
  · exact Or.inl rfl
  · exact Or.inr rfl
  · exact Or.inl rfl
  · exact Or.inl rfl

theorem normalKey_ne_panicked [RegexEngine R] {code : KeyCode} :
    app.normalKey code ≠ .error .panicked := by
  intro h
  unfold normalKey at h
  split at h <;> cases h

theorem edited_searchKey [RegexEngine R] (app : App R) (code : KeyCode) :
    (app.searchKey code).edited = app.edited := by
  unfold searchKey
  split
  · split
    · exact edited_nextSearchMatch _
    · rfl
  · rfl
  · rfl
  · rfl
  · rfl

theorem edited_enter [Nom] (app : App R) : app.enter.edited = app.edited := by
  unfold enter
  split
  · rfl
  · split
    · rfl
    · split <;> rfl

theorem ascii_start (size : ℕ) (saved : String → Option String) (writer : Option SaveWriter) :
    (start size saved writer : App R).Ascii :=
  ⟨fun _ hc => absurd hc List.not_mem_nil, Nat.le_refl 0⟩

theorem edited_drainPackets (app : App R) (pkts : List DecodedPacket) :
    (app.drainPackets pkts).edited = app.edited := by
  have hfold (st : App R × ℕ) : (pkts.foldl drainPacket st).1.edited = st.1.edited := by
    induction pkts generalizing st with
    | nil => rfl
    | cons pkt pkts ih =>
      rw [List.foldl_cons, ih]
      unfold drainPacket
      dsimp only
      split_ifs <;> rfl
  by_cases h : app.ScrollsToBottom pkts
  · rw [drainPackets_of_scrolls h]
    exact hfold (app, 0)
  · rw [drainPackets_of_not_scrolls h]
    exact hfold (app, 0)

end Frame

section Step

variable {app app' : App R}

theorem utf8Size_eq_one_iff {c : Char} : c.utf8Size = 1 ↔ c.toNat < 128 := by
  rw [Char.utf8Size_eq_one_iff, UInt32.le_iff_toNat_le]
  exact Nat.lt_succ_iff.symm

theorem split_of_ascii {cs : List Char} (hcs : ∀ c ∈ cs, c.utf8Size = 1) {i : ℕ}
    (hi : i ≤ cs.length) :
    ∃ front back, cs = front ++ back ∧ (String.ofList front).utf8ByteSize = i ∧ front.length = i := by
  have hlen : (cs.take i).length = i := List.length_take_of_le hi
  refine ⟨cs.take i, cs.drop i, (List.take_append_drop i cs).symm, ?_, hlen⟩
  rw [utf8ByteSize_ofList_of_ascii fun c hc => hcs c (List.mem_of_mem_take hc), hlen]

theorem ascii_setFilterInput {cs : List Char} (hcs : ∀ c ∈ cs, c.utf8Size = 1) {cursor : ℕ}
    (hle : cursor ≤ cs.length) : (app.setFilterInput (String.ofList cs) cursor).Ascii := by
  constructor
  · rw [setFilterInput, String.toList_ofList]
    exact hcs
  · rw [setFilterInput, String.toList_ofList]
    exact hle

variable [Nom]

/-- A key in an ASCII filter bar does not panic, and leaves it ASCII unless another character is
typed. -/
theorem ascii_filterKey (ha : app.Ascii) {code : KeyCode}
    (htyped : ∀ c, code = .char c → c.utf8Size = 1) :
    ∃ app', app.filterKey code = .ok app' ∧ app'.Ascii := by
  have hsame {cursor : ℕ} (h : cursor ≤ app.filterInput.toList.length) :
      (app.setFilterInput app.filterInput cursor).Ascii := ⟨ha.text, h⟩
  have hcursor := ha.cursor
  unfold filterKey
  dsimp only
  split
  · exact ⟨_, rfl, ha.congr (edited_enter app)⟩
  · exact ⟨_, rfl, ha.congr rfl⟩
  · split_ifs with hpos
    · obtain ⟨front, back, hinput, hsize, hlen⟩ :=
        split_of_ascii ha.text (i := app.filterCursor - 1) (by omega)
      cases back with
      | nil =>
        have hlength := congrArg List.length hinput
        rw [List.length_append, List.length_nil] at hlength
        omega
      | cons d back =>
        rw [← hsize, hinput, removeChar_append]
        refine ⟨_, rfl, ascii_setFilterInput ?_ ?_⟩
        · intro c hc
          apply ha.text c
          rw [hinput]
          exact ((List.sublist_cons_self d back).append_left front).subset hc
        · rw [List.length_append]
          omega
    · exact ⟨_, rfl, ha⟩
  · split_ifs
    · exact ⟨_, rfl, hsame (by omega)⟩
    · exact ⟨_, rfl, ha⟩
  · split_ifs with hlt
    · have hsize := utf8ByteSize_ofList_of_ascii ha.text
      rw [String.ofList_toList] at hsize
      exact ⟨_, rfl, hsame (by omega)⟩
    · exact ⟨_, rfl, ha⟩
  · rename_i c
    obtain ⟨front, back, hinput, hsize, hlen⟩ := split_of_ascii ha.text hcursor
    rw [← hsize, hinput, insertChar_append]
    refine ⟨_, rfl, ascii_setFilterInput ?_ ?_⟩
    · intro d hd
      rw [List.mem_append, List.mem_cons] at hd
      rcases hd with hd | rfl | hd
      · exact ha.text d (hinput ▸ List.mem_append_left _ hd)
      · exact htyped d rfl
      · exact ha.text d (hinput ▸ List.mem_append_right _ hd)
    · rw [List.length_append, List.length_cons]
      omega
  · exact ⟨_, rfl, ha⟩

variable [RegexEngine R]

/-- The character that an event types into the filter bar. -/
def typed (app : App R) : UiEvent → Option Char
  | .key ⟨.char c, _⟩ => if app.mode = .filterInput then some c else none
  | _ => none

omit [Nom] [RegexEngine R] in
theorem typed_key {k : KeyEvent} {c : Char} (hmode : app.mode = .filterInput)
    (hc : k.code = .char c) : app.typed (.key k) = some c := by
  obtain ⟨code, control⟩ := k
  cases hc
  exact if_pos hmode

theorem ascii_step (ha : app.Ascii) {ev : UiEvent}
    (htyped : ∀ c ∈ app.typed ev, c.utf8Size = 1) :
    app.step ev ≠ .error .panicked ∧ ∀ app', app.step ev = .ok app' → app'.Ascii := by
  cases ev with
  | drain pkts =>
    constructor
    · rintro ⟨⟩
    · rintro _ ⟨⟩
      exact ha.congr (edited_drainPackets app pkts)
  | key k =>
    rw [step, handleKeyEvent]
    split_ifs
    · constructor
      · rintro ⟨⟩
      · rintro _ ⟨⟩
    · constructor
      · rintro ⟨⟩
      · rintro _ ⟨⟩
        exact ha.congr rfl
    · split
      · constructor
        · exact normalKey_ne_panicked
        · intro app' h
          rcases edited_normalKey h with hsame | hempty
          · exact ha.congr hsame
          · obtain ⟨htext, hcursor⟩ := Prod.mk.inj hempty
            exact ⟨by simp [htext], hcursor.trans_le (Nat.zero_le _)⟩
      · rename_i hmode
        obtain ⟨app', hok, ha'⟩ := ascii_filterKey ha fun c hc =>
          htyped c (typed_key hmode hc)
        rw [hok]
        constructor
        · rintro ⟨⟩
        · rintro _ ⟨⟩
          exact ha'
      · constructor
        · rintro ⟨⟩
        · rintro _ ⟨⟩
          exact ha.congr (edited_searchKey app k.code)

theorem not_cursorOk_of_typed (h : app.CursorOk) {ev : UiEvent} {c : Char}
    (hc : app.typed ev = some c) (hsize : c.utf8Size ≠ 1) :
    ∃ app', app.step ev = .ok app' ∧ ¬app'.CursorOk := by
  unfold typed at hc
  split at hc
  · rename_i d control
    split_ifs at hc with hmode
    obtain rfl := Option.some.inj hc
    obtain ⟨front, back, hinput, hcursor, hinsert⟩ := insertChar_of_boundary h.2 d
    have hctrl (e : Char) (he : e.utf8Size = 1) : ¬(control = true ∧ KeyCode.char d = .char e) := by
      rintro ⟨-, hde⟩
      cases hde
      exact hsize he
    refine ⟨app.setFilterInput (String.ofList (front ++ d :: back)) (app.filterCursor + 1), ?_, ?_⟩
    · rw [step, handleKeyEvent, if_neg (hctrl 'c' rfl), if_neg (hctrl 'f' rfl), hmode]
      dsimp only
      rw [filterKey, hinsert]
    · rintro ⟨-, hbound⟩
      rw [hcursor] at hbound
      exact not_isCharBoundary hsize hbound
  · cases hc

end Step

section Run

variable [Nom] [RegexEngine R]

/-- In every state of a run the cursor is at a character and the bar can be drawn, and no edit
panics. -/
structure SafeEditing (app : App R) (events : List UiEvent) : Prop where
  cursor : ∀ n ≤ events.length, ∀ app', stateAt step app events n = .ok app' → app'.CursorOk
  drawn : ∀ n ≤ events.length, ∀ app', stateAt step app events n = .ok app' →
    app'.renderFilterBar.isSome
  goesOn : ∀ n ≤ events.length, stateAt step app events n ≠ .error .panicked

/-- Only ASCII characters are typed into the filter bar. -/
def TypesAscii (app : App R) (events : List UiEvent) : Prop :=
  ∀ n ev app' c, events[n]? = some ev → stateAt step app events n = .ok app' →
    app'.typed ev = some c → c.toNat < 128

variable {app : App R} {events : List UiEvent}

theorem ascii_run (ha : app.Ascii) (htypes : TypesAscii app events) {n : ℕ}
    (hn : n ≤ events.length) {app' : App R} (h : stateAt step app events n = .ok app') :
    app'.Ascii := by
  refine stateAt_induction (P := fun _ app => app.Ascii) ha ?_ hn h
  intro n ev app app' hev hstate ha hstep
  refine (ascii_step ha fun c hc => ?_).2 app' hstep
  exact utf8Size_eq_one_iff.mpr (htypes n ev app c hev hstate hc)

theorem goesOn_run (ha : app.Ascii) (htypes : TypesAscii app events) {n : ℕ}
    (hn : n ≤ events.length) : stateAt step app events n ≠ .error .panicked := by
  induction n with
  | zero => rintro ⟨⟩
  | succ n ih =>
    have hev : events[n]? = some events[n] := List.getElem?_eq_getElem hn
    rw [stateAt_succ hev]
    cases hstate : stateAt step app events n with
    | error stop =>
      intro hstop
      exact ih (Nat.le_of_lt hn) (hstate.trans hstop)
    | ok app' =>
      refine (ascii_step (ascii_run ha htypes (Nat.le_of_lt hn) hstate) fun c hc => ?_).1
      exact utf8Size_eq_one_iff.mpr (htypes n _ app' c hev hstate hc)

/-- In a run the cursor of the filter bar stays at the characters of its text, and no edit and no
drawing panics, exactly when only ASCII characters are typed. -/
theorem safeEditing_iff (size : ℕ) (saved : String → Option String) (writer : Option SaveWriter)
    (events : List UiEvent) :
    SafeEditing (.start size saved writer : App R) events ↔
      TypesAscii (.start size saved writer : App R) events := by
  constructor
  · intro hsafe n ev app' c hev hstate htyped
    have hn : n < events.length := (List.getElem?_eq_some_iff.mp hev).1
    by_contra hc
    obtain ⟨app'', hstep, hbad⟩ := not_cursorOk_of_typed (hsafe.cursor n hn.le app' hstate) htyped
      (utf8Size_eq_one_iff.not.mpr hc)
    apply hbad
    apply hsafe.cursor (n + 1) hn
    rw [stateAt_succ hev, hstate]
    exact hstep
  · intro htypes
    have ha : (start size saved writer : App R).Ascii := ascii_start size saved writer
    constructor
    · exact fun n hn app' h => (ascii_run ha htypes hn h).cursorOk
    · exact fun n hn app' h => (ascii_run ha htypes hn h).cursorOk.drawn
    · exact fun n hn => goesOn_run ha htypes hn

end Run

/-- Two accented characters are typed. -/
def accentEvents : List UiEvent := [pressed (.char '/'), pressed (.char 'é'), pressed (.char 'é')]

/-- The cursor is inside the first character: the bar cannot be drawn, and the second edit
panics. -/
theorem cursor_inside_character :
    (∃ app, smallRun 1 accentEvents 2 = .ok app ∧ ¬app.CursorOk ∧
      app.renderFilterBar = none) ∧
      smallRun 1 accentEvents 3 = .error .panicked := by
  refine ⟨⟨_, rfl, ?_, ?_⟩, ?_⟩
  · rintro ⟨-, hbound⟩
    exact @not_isCharBoundary [] [] 'é' (by decide) hbound
  · decide
  · rfl

end App

end Pktscope

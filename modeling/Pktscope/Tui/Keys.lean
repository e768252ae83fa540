import Pktscope.Tui.FilterBar
import Pktscope.Tui.Stream

/-! # Keys of the capture view

What each key does in the packet list, in the filter bar and in the search bar.
A key that is handled leaves the ring and the places as they are, unless it
submits a filter, and keeps the selection inside the list.
-/

namespace Pktscope

open Library

/-- The regular expressions of a search. -/
class RegexEngine (R : Type) where
  new : String → Except String R
  isMatch : R → String → Bool

/-- The keys that have a meaning. -/
inductive KeyCode
  | char (c : Char)
  | enter | esc | backspace | left | right | up | down | homeKey | endKey | pageUp | pageDown
  | other
  deriving DecidableEq

structure KeyEvent where
  code : KeyCode
  control : Bool
  deriving DecidableEq

/-- Why the loop ends: the user quits, or an edit between the bytes of a character panics. -/
inductive Stop
  | quit | panicked
  deriving DecidableEq

/-- `String::insert`, which panics unless the byte index is at a character. -/
def insertChar (c : Char) : ℕ → List Char → Option (List Char)
  | 0, cs => some (c :: cs)
  | _ + 1, [] => none
  | i + 1, d :: cs =>
    if i + 1 < d.utf8Size then none
    else (insertChar c (i + 1 - d.utf8Size) cs).map (d :: ·)

/-- `String::remove`, which panics unless the byte index is that of a character. -/
def removeChar : ℕ → List Char → Option (List Char)
  | _, [] => none
  | 0, _ :: cs => some cs
  | i + 1, d :: cs =>
    if i + 1 < d.utf8Size then none
    else (removeChar (i + 1 - d.utf8Size) cs).map (d :: ·)

def maxUsize : ℕ := 2 ^ 64 - 1

namespace App

variable {R : Type} (app : App R)

def select (i : ℕ) : App R := { app with selected := i }

/-- Select a packet and show it from its top. -/
def showSelected (i : ℕ) : App R := { app.select i with detailScroll := 0, hexScroll := 0 }

def setMode (mode : InputMode) : App R := { app with mode := mode }

def setFilterInput (input : String) (cursor : ℕ) : App R :=
  { app with filterInput := input, filterCursor := cursor }

def toggleBookmark : App R :=
  match app.selectedPacket with
  | some p =>
    { app with
      bookmarks :=
        if p.number ∈ app.bookmarks then app.bookmarks.erase p.number
        else insert p.number app.bookmarks }
  | none => app

def toggleOverlay (kind : OverlayKind) : App R :=
  if app.overlay = some kind then { app with overlay := none }
  else { app with overlay := some kind, overlayScroll := 0 }

/-- Open the conversation of the selected packet. -/
def openStream : App R :=
  match app.buildStream with
  | some stream => { app with stream := some stream, overlayScroll := 0, overlay := some .stream }
  | none => { app with statusMessage := some .notTcp }

/-- Whether a search finds a packet. -/
def found [RegexEngine R] (re : R) (p : DecodedPacket) : Bool :=
  RegexEngine.isMatch re p.summary.info || RegexEngine.isMatch re p.summary.source ||
    RegexEngine.isMatch re p.summary.destination

/-- Jump to the next packet after the selected one that the search finds. -/
def nextSearchMatch [RegexEngine R] : App R :=
  match app.searchRe with
  | none => app
  | some re =>
    let count := app.visibleCount
    let place := fun off => (app.selected + (off + 1)) % max count 1
    match (List.range count).find? fun off =>
        (app.visiblePacket (place off)).any (found re) with
    | some off => app.select (place off)
    | none => app

def moveDown : App R :=
  if app.overlay.isSome then { app with overlayScroll := min (app.overlayScroll + 1) maxUsize }
  else
    let count := app.visibleCount
    if 0 < count ∧ app.selected < count - 1 then
      app.showSelected (app.selected + 1)
    else app

def moveUp : App R :=
  if app.overlay.isSome then { app with overlayScroll := app.overlayScroll - 1 }
  else if 0 < app.selected then app.showSelected (app.selected - 1)
  else app

def moveToEnd : App R :=
  let count := app.visibleCount
  if 0 < count then app.showSelected (count - 1) else app

/-- A key in the packet list. -/
def normalKey [RegexEngine R] : KeyCode → Except Stop (App R)
  | .char 'q' => .error .quit
  | .char 'j' | .down => .ok app.moveDown
  | .char 'k' | .up => .ok app.moveUp
  | .char 't' => .ok (app.toggleOverlay .topTalkers)
  | .char 'P' => .ok (app.toggleOverlay .protocolDist)
  | .char 'F' => .ok (app.toggleOverlay .flows)
  | .char 'T' => .ok (app.toggleOverlay .timeline)
  | .char 'f' => .ok app.openStream
  | .char 'm' => .ok app.toggleBookmark
  | .char '\x27' => .ok (app.toggleOverlay .bookmarks)
  | .char 'n' => .ok app.nextSearchMatch
  | .esc => .ok { app with overlay := none, stream := none }
  | .char 'G' | .endKey => .ok app.moveToEnd
  | .char 'g' | .homeKey => .ok (app.showSelected 0)
  | .pageDown =>
    .ok (app.select (min (app.selected + 20) (app.visibleCount - 1)))
  | .pageUp => .ok (app.select (app.selected - 20))
  | .char ' ' =>
    .ok { app with
      paused := !app.paused
      statusMessage := some (if app.paused then .resumed else .paused) }
  | .char '/' => .ok ((app.setMode .filterInput).setFilterInput "" 0)
  | .char 's' =>
    .ok { app with statusMessage := some (if app.pcapWriter.isSome then .saving else .noSavePath) }
  | _ => .ok app

/-- A key in the filter bar. -/
def filterKey [Nom] (code : KeyCode) : Except Stop (App R) :=
  let input := app.filterInput
  let cursor := app.filterCursor
  match code with
  | .enter => .ok app.enter
  | .esc => .ok (app.setMode .normal)
  | .backspace =>
    if 0 < cursor then
      match removeChar (cursor - 1) input.toList with
      | some cs => .ok (app.setFilterInput (String.ofList cs) (cursor - 1))
      | none => .error .panicked
    else .ok app
  | .left => .ok (if 0 < cursor then app.setFilterInput input (cursor - 1) else app)
  | .right =>
    .ok (if cursor < input.utf8ByteSize then app.setFilterInput input (cursor + 1) else app)
  | .char c =>
    match insertChar c cursor input.toList with
    | some cs => .ok (app.setFilterInput (String.ofList cs) (cursor + 1))
    | none => .error .panicked
  | _ => .ok app

/-- A key in the search bar. -/
def searchKey [RegexEngine R] (code : KeyCode) : App R :=
  match code with
  | .enter =>
    match (RegexEngine.new app.searchQuery : Except String R) with
    | .ok re => (nextSearchMatch { app with searchRe := some re }).setMode .normal
    | .error e => App.setMode { app with statusMessage := some (.badRegex e) } .normal
  | .esc => App.setMode { app with searchQuery := "", searchRe := none } .normal
  | .backspace => { app with searchQuery := String.ofList app.searchQuery.toList.dropLast }
  | .char c => { app with searchQuery := app.searchQuery.push c }
  | _ => app

def handleKeyEvent [Nom] [RegexEngine R] (key : KeyEvent) : Except Stop (App R) :=
  if key.control ∧ key.code = .char 'c' then .error .quit
  else if key.control ∧ key.code = .char 'f' then
    .ok { app.setMode .search with searchQuery := "" }
  else match app.mode with
    | .normal => app.normalKey key.code
    | .filterInput => app.filterKey key.code
    | .search => .ok (app.searchKey key.code)

end App

/-- A packet is selected whenever the list has one. -/
def App.InRange {R : Type} (app : App R) : Prop :=
  0 < app.visibleCount → app.selected < app.visibleCount

/-- Two states show the same packets, and the selection does not leave the list. -/
structure SameList {R : Type} (a b : App R) : Prop where
  packets : b.packets = a.packets
  indices : b.filteredIndices = a.filteredIndices
  active : b.activeFilter = a.activeFilter
  inRange : a.InRange → b.InRange

namespace SameList

variable {R : Type} {a b : App R}

theorem refl (a : App R) : SameList a a := ⟨rfl, rfl, rfl, id⟩

theorem scanned (h : SameList a b) (ha : a.Scanned) : b.Scanned := by
  constructor
  · rw [h.packets]
    exact ha.fits
  · rw [h.indices, h.active, h.packets]
    exact ha.indices

end SameList

namespace App

section Keys

variable {R : Type} {app app' : App R}

theorem sameList_select {i : ℕ}
    (hi : app.InRange → 0 < app.visibleCount → i < app.visibleCount) :
    SameList app (app.select i) :=
  ⟨rfl, rfl, rfl, hi⟩

theorem sameList_showSelected {i : ℕ}
    (hi : app.InRange → 0 < app.visibleCount → i < app.visibleCount) :
    SameList app (app.showSelected i) :=
  ⟨rfl, rfl, rfl, hi⟩

theorem sameList_setMode (app : App R) (mode : InputMode) : SameList app (app.setMode mode) :=
  ⟨rfl, rfl, rfl, id⟩

theorem sameList_moveDown (app : App R) : SameList app app.moveDown := by
  unfold moveDown
  split
  · exact ⟨rfl, rfl, rfl, id⟩
  · dsimp only
    split
    · rename_i hcond
      apply sameList_showSelected
      intro _ _
      omega
    · exact .refl _

theorem sameList_moveUp (app : App R) : SameList app app.moveUp := by
  unfold moveUp
  split
  · exact ⟨rfl, rfl, rfl, id⟩
  · split
    · apply sameList_showSelected
      intro hrange hpos
      have hlt := hrange hpos
      omega
    · exact .refl _

theorem sameList_moveToEnd (app : App R) : SameList app app.moveToEnd := by
  unfold moveToEnd
  dsimp only
  split
  · apply sameList_showSelected
    intro _ hpos
    omega
  · exact .refl _

theorem sameList_toggleOverlay (app : App R) (kind : OverlayKind) :
    SameList app (app.toggleOverlay kind) := by
  unfold toggleOverlay
  split <;> exact ⟨rfl, rfl, rfl, id⟩

theorem sameList_openStream (app : App R) : SameList app app.openStream := by
  unfold openStream
  split <;> exact ⟨rfl, rfl, rfl, id⟩

theorem sameList_toggleBookmark (app : App R) : SameList app app.toggleBookmark := by
  unfold toggleBookmark
  split <;> exact ⟨rfl, rfl, rfl, id⟩

theorem sameList_nextSearchMatch [RegexEngine R] (app : App R) :
    SameList app app.nextSearchMatch := by
  unfold nextSearchMatch
  split
  · exact .refl _
  · dsimp only
    split
    · rename_i off _
      apply sameList_select
      intro _ hpos
      have hmod := Nat.mod_lt (app.selected + (off + 1))
        (show 0 < max app.visibleCount 1 by omega)
      rw [Nat.max_eq_left hpos] at hmod ⊢
      exact hmod
    · exact .refl _

theorem sameList_normalKey [RegexEngine R] {code : KeyCode} (h : app.normalKey code = .ok app') :
    SameList app app' := by
  unfold normalKey at h
  split at h <;> cases h
  · exact sameList_moveDown app
  · exact sameList_moveDown app
  · exact sameList_moveUp app
  · exact sameList_moveUp app
  · exact sameList_toggleOverlay app _
  · exact sameList_toggleOverlay app _
  · exact sameList_toggleOverlay app _
  · exact sameList_toggleOverlay app _
  · exact sameList_openStream app
  · exact sameList_toggleBookmark app
  · exact sameList_toggleOverlay app _
  · exact sameList_nextSearchMatch app
  · exact ⟨rfl, rfl, rfl, id⟩
  · exact sameList_moveToEnd app
  · exact sameList_moveToEnd app
  · exact sameList_showSelected fun _ hpos => hpos
  · exact sameList_showSelected fun _ hpos => hpos
  · apply sameList_select
    intro _ hpos
    omega
  · apply sameList_select
    intro hrange hpos
    have hlt := hrange hpos
    omega
  · exact ⟨rfl, rfl, rfl, id⟩
  · exact ⟨rfl, rfl, rfl, id⟩
  · exact ⟨rfl, rfl, rfl, id⟩
  · exact .refl _

theorem sameList_searchKey [RegexEngine R] (app : App R) (code : KeyCode) :
    SameList app (app.searchKey code) := by
  unfold searchKey
  split
  · split
    · rename_i re _
      have hnext := sameList_nextSearchMatch ({ app with searchRe := some re } : App R)
      exact ⟨hnext.packets, hnext.indices, hnext.active, hnext.inRange⟩
    · exact ⟨rfl, rfl, rfl, id⟩
  · exact ⟨rfl, rfl, rfl, id⟩
  · exact ⟨rfl, rfl, rfl, id⟩
  · exact ⟨rfl, rfl, rfl, id⟩
  · exact .refl _

variable [Nom]

/-- Only the enter key of the filter bar changes what the list shows. -/
theorem filterKey_cases {code : KeyCode} (h : app.filterKey code = .ok app') :
    SameList app app' ∨ app' = app.enter := by
  unfold filterKey at h
  dsimp only at h
  split at h
  · cases h
    exact Or.inr rfl
  · cases h
    exact Or.inl (sameList_setMode app _)
  · split at h
    · split at h <;> cases h
      exact Or.inl ⟨rfl, rfl, rfl, id⟩
    · cases h
      exact Or.inl (.refl _)
  · cases h
    left
    split
    · exact ⟨rfl, rfl, rfl, id⟩
    · exact .refl _
  · cases h
    left
    split
    · exact ⟨rfl, rfl, rfl, id⟩
    · exact .refl _
  · split at h <;> cases h
    exact Or.inl ⟨rfl, rfl, rfl, id⟩
  · cases h
    exact Or.inl (.refl _)

/-- A key leaves the list as it is or submits the filter bar. -/
theorem handleKeyEvent_cases [RegexEngine R] {key : KeyEvent} (h : app.handleKeyEvent key = .ok app') :
    SameList app app' ∨ app.mode = .filterInput ∧ app' = app.enter := by
  unfold handleKeyEvent at h
  split at h
  · cases h
  · split at h
    · cases h
      exact Or.inl ⟨rfl, rfl, rfl, id⟩
    · split at h
      · exact Or.inl (sameList_normalKey h)
      · rename_i hmode
        exact (filterKey_cases h).imp_right fun henter => ⟨hmode, henter⟩
      · cases h
        exact Or.inl (sameList_searchKey app key.code)

end Keys

end App

end Pktscope

import Mathlib.Data.Finset.Basic
import Pktscope.Filter.Parser
import Pktscope.Flow.Reassembly
import Pktscope.Output.Save

/-! # The capture view

The state of the terminal interface. The packets are in a ring of bounded size; an
active filter shows some of its places.
-/

namespace Pktscope

structure PacketRing where
  packets : List DecodedPacket
  capacity : ℕ

namespace PacketRing

variable (r : PacketRing)

def new (capacity : ℕ) : PacketRing := ⟨[], capacity⟩

def len : ℕ := r.packets.length

def get (index : ℕ) : Option DecodedPacket := r.packets[index]?

/-- The ring with one more packet, and the packet that had to leave. -/
def push (pkt : DecodedPacket) : PacketRing × Option DecodedPacket :=
  if r.capacity ≤ r.len then ({ r with packets := r.packets.tail ++ [pkt] }, r.packets.head?)
  else ({ r with packets := r.packets ++ [pkt] }, none)

theorem push_of_lt {r : PacketRing} (h : r.len < r.capacity) (pkt : DecodedPacket) :
    r.push pkt = ({ r with packets := r.packets ++ [pkt] }, none) := if_neg (by omega)

theorem push_of_nil {r : PacketRing} (h : r.packets = []) (pkt : DecodedPacket) :
    r.push pkt = ({ r with packets := r.packets ++ [pkt] }, none) := by
  unfold push
  split
  · rw [h]
    rfl
  · rfl

theorem push_of_full {r : PacketRing} {a : DecodedPacket} {rest : List DecodedPacket}
    (hr : r.packets = a :: rest) (h : r.capacity ≤ r.len) (pkt : DecodedPacket) :
    r.push pkt = ({ r with packets := rest ++ [pkt] }, some a) := by
  rw [push, if_pos h, hr]
  rfl

end PacketRing

inductive InputMode | normal | filterInput | search
  deriving DecidableEq

inductive OverlayKind
  | topTalkers | protocolDist | flows | timeline | stream | bookmarks
  deriving DecidableEq

/-- What the status line reports. -/
inductive StatusMessage where
  | filterCleared
  | noSavedFilter (name : String)
  | filterApplied (expr : String)
  | filterError (e : FilterError)
  | paused
  | resumed
  | saving
  | noSavePath
  | notTcp
  | badRegex (e : String)
  deriving DecidableEq

def StatusMessage.isError : StatusMessage → Bool
  | filterCleared | filterApplied _ | paused | resumed | saving => false
  | noSavedFilter _ | filterError _ | noSavePath | notTcp | badRegex _ => true

/-- The state that packets and keys change; a search is a compiled expression. -/
structure App (R : Type) where
  packets : PacketRing
  filteredIndices : Option (List ℕ)
  activeFilter : Option FilterExpr
  mode : InputMode
  selected : ℕ
  paused : Bool
  statusMessage : Option StatusMessage
  detailScroll : ℕ
  hexScroll : ℕ
  totalReceived : ℕ
  filterInput : String
  filterCursor : ℕ
  pcapWriter : Option SaveWriter
  overlay : Option OverlayKind
  overlayScroll : ℕ
  stream : Option (String × StreamData)
  tickPkts : ℕ
  tickBytes : ℕ
  protoCounts : String → ℕ
  savedFilters : String → Option String
  bookmarks : Finset ℕ
  searchQuery : String
  searchRe : Option R

namespace App

variable {R : Type} (app : App R)

def new (bufferSize : ℕ) : App R where
  packets := .new bufferSize
  filteredIndices := none
  activeFilter := none
  mode := .normal
  selected := 0
  paused := false
  statusMessage := none
  detailScroll := 0
  hexScroll := 0
  totalReceived := 0
  filterInput := ""
  filterCursor := 0
  pcapWriter := none
  overlay := none
  overlayScroll := 0
  stream := none
  tickPkts := 0
  tickBytes := 0
  protoCounts := fun _ => 0
  savedFilters := fun _ => none
  bookmarks := ∅
  searchQuery := ""
  searchRe := none

/-- The state in which `run_tui` enters its loop. -/
def start (bufferSize : ℕ) (savedFilters : String → Option String) (writer : Option SaveWriter) :
    App R :=
  { new bufferSize with savedFilters := savedFilters, pcapWriter := writer }

def visibleCount : ℕ :=
  match app.filteredIndices with
  | some indices => indices.length
  | none => app.packets.len

def visiblePacket (visibleIdx : ℕ) : Option DecodedPacket :=
  match app.filteredIndices with
  | some indices => indices[visibleIdx]?.bind app.packets.get
  | none => app.packets.get visibleIdx

def selectedPacket : Option DecodedPacket := app.visiblePacket app.selected

end App

end Pktscope

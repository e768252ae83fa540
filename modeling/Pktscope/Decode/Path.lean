import Pktscope.Decode.Chain

/-! # Paths of headers

The headers of a packet form a path: each is accepted and says where the next one
starts. The layers of the packet begin with those of the path and go on with what
the last decoder finds.
-/

namespace Pktscope

open Library Parse

/-- Headers that are accepted one after another, with their layers. -/
inductive Path (data : List UInt8) : NextDecode → ℕ → NextDecode → ℕ → List Layer → Prop
  | here (what : NextDecode) (o : ℕ) : Path data what o what o []
  | header {what next last : NextDecode} {o stop : ℕ} {dr : DecodeResult} {front : List Layer}
      (hdecode : what.decode data o = ok dr) (hnext : dr.next = some next)
      (hpath : Path data next dr.nextOffset last stop front) :
      Path data what o last stop (dr.layer :: front)

/-- The headers of a packet lead to a decoder at an offset. -/
def RawPacket.Reaches (raw : RawPacket) (last : NextDecode) (o : ℕ) (front : List Layer) : Prop :=
  ∃ first, initialDecode raw.data raw.linktype = some first ∧ Path raw.data first 0 last o front

section Path

variable {data : List UInt8} {what last : NextDecode} {o stop : ℕ} {front : List Layer}

theorem rank_pos_of_decode {dr : DecodeResult} (h : what.decode data o = ok dr) : 0 < what.rank := by
  cases what with
  | applicationPayload transport => cases h
  | _ => exact Nat.succ_pos _

variable (hs : data.length < maxBytes)
include hs

theorem Path.rank (h : Path data what o last stop front) :
    front.length + last.rank = what.rank := by
  induction h with
  | here what o => exact Nat.zero_add _
  | header hdecode hnext _ ih =>
    have hdescends := (follows_of_decode hs hdecode).descends _ hnext
    rw [List.length_cons]
    omega

variable [Digests]

omit hs in
theorem Path.layersFrom (h : Path data what o last stop front) (rounds : ℕ) {rest : List Layer}
    (hrest : Pktscope.layersFrom data rounds (some last) stop = ok rest) :
    Pktscope.layersFrom data (rounds + front.length) (some what) o = ok (front ++ rest) := by
  induction h with
  | here what o => exact hrest
  | header hdecode hnext _ ih =>
    rw [List.length_cons, ← Nat.add_assoc, layersFrom_header data _ (rank_pos_of_decode hdecode),
      hdecode, attempt, ok_bind]
    dsimp only
    rw [hnext, ih hrest]
    rfl

omit hs

theorem layersFrom_of_decode {rounds : ℕ} {dr : DecodeResult} {ls : List Layer}
    (hw : 0 < what.rank) (hdecode : what.decode data o = ok dr)
    (h : layersFrom data (rounds + 1) (some what) o = ok ls) :
    ∃ rest, ls = dr.layer :: rest ∧ layersFrom data rounds dr.next dr.nextOffset = ok rest := by
  rw [layersFrom_header data rounds hw, hdecode] at h
  change (layersFrom data rounds dr.next dr.nextOffset >>= fun rest => ok (dr.layer :: rest)) = _
    at h
  cases hrest : layersFrom data rounds dr.next dr.nextOffset with
  | refuse => rw [hrest] at h; cases h
  | fault e => rw [hrest] at h; cases h
  | ok rest =>
    rw [hrest] at h
    cases h
    exact ⟨rest, rfl, rfl⟩

theorem layersFrom_of_refuse (rounds : ℕ) (hw : 0 < what.rank) (h : what.decode data o = refuse) :
    layersFrom data (rounds + 1) (some what) o = ok [] := by
  rw [layersFrom_header data rounds hw, h]
  rfl

theorem layersFrom_cons {rounds : ℕ} (hw : 0 < what.rank) {l : Layer} {ls : List Layer}
    (h : layersFrom data (rounds + 1) (some what) o = ok (l :: ls)) :
    ∃ dr, what.decode data o = ok dr ∧ dr.layer = l ∧
      layersFrom data rounds dr.next dr.nextOffset = ok ls := by
  cases hdecode : what.decode data o with
  | refuse => rw [layersFrom_header data rounds hw, hdecode] at h; cases h
  | fault e => rw [layersFrom_header data rounds hw, hdecode] at h; cases h
  | ok dr =>
    obtain ⟨rest, hls, hrest⟩ := layersFrom_of_decode hw hdecode h
    cases hls
    exact ⟨dr, rfl, rfl, hrest⟩

end Path

theorem rank_of_initialDecode {data : List UInt8} {linktype : Linktype} {first : NextDecode}
    (h : initialDecode data linktype = some first) : 2 ≤ first.rank ∧ first.rank ≤ 3 := by
  cases linktype with
  | ethernet =>
    cases h
    decide
  | rawIp =>
    have hnetwork : ∀ n ∈ initialDecode data .rawIp, 2 ≤ n.rank ∧ n.rank ≤ 3 :=
      forall_mem_ite (fun _ => by decide) (forall_mem_ite (fun _ => by decide) nofun)
    exact hnetwork first h
  | other lt => cases h

/-- The layers of a packet begin with those of a path through its headers. -/
theorem RawPacket.Reaches.layers [Digests] {raw : RawPacket} {last : NextDecode} {o : ℕ}
    {front : List Layer} (h : raw.Reaches last o front) :
    ∃ rounds rest, last.rank < rounds ∧ layersFrom raw.data rounds (some last) o = ok rest ∧
      decodeLayers raw.data raw.linktype = ok (front ++ rest) := by
  obtain ⟨first, hfirst, hpath⟩ := h
  have hrank := hpath.rank raw.fits
  have hdepth := (rank_of_initialDecode hfirst).2
  have hrounds : 5 - front.length + front.length = 5 := by omega
  obtain ⟨rest, hrest, -⟩ : Returns (Pktscope.layersFrom raw.data (5 - front.length) (some last) o)
      fun _ => True := returns_layersFrom raw.fits (by omega) fun n hn => by cases hn; omega
  refine ⟨5 - front.length, rest, by omega, hrest, ?_⟩
  have hlayers := hpath.layersFrom (5 - front.length) hrest
  rwa [hrounds, ← hfirst] at hlayers

end Pktscope

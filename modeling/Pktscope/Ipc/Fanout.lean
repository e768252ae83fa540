import Mathlib.Data.List.Nodup
import Mathlib.Order.Basic
import Pktscope.Library.Channel
import Pktscope.Library.Sessions

/-! # The event bus

Every subscription has a bounded channel of its own, which the handler of its
connection empties. A broadcast never waits: a subscriber without room misses
the event but stays subscribed, and one that has gone away is pruned.
-/

namespace Pktscope

open Library

/-- The room of a subscription. -/
def subscriberCapacity : ℕ := 1024

/-- The bus, by the numbers of its subscriptions, over all channels that were ever made. -/
structure Bus (ε : Type) where
  chans : List (Channel ε)
  subs : List ℕ
  deriving DecidableEq

namespace Bus

variable {ε : Type}

def new : Bus ε := ⟨[], []⟩

def subscribe (b : Bus ε) : Bus ε where
  chans := b.chans ++ [.new]
  subs := b.subs ++ [b.chans.length]

/-- Send to every subscription in turn. -/
def sendAll (ev : ε) (subs : List ℕ) (chans : List (Channel ε)) : List (Channel ε) :=
  subs.foldl (fun chans i => chans.modify i fun c => (c.trySend subscriberCapacity ev).2) chans

/-- Whether a subscription is kept after an event is sent to it. -/
def keeps (b : Bus ε) (ev : ε) (i : ℕ) : Bool :=
  b.chans[i]?.any fun c => decide ((c.trySend subscriberCapacity ev).1 ≠ .disconnected)

def broadcast (b : Bus ε) (ev : ε) : Bus ε where
  chans := sendAll ev b.subs b.chans
  subs := b.subs.filter (b.keeps ev)

/-- A move of the worker or of the handler of a subscribed connection. -/
inductive Move (ε : Type) where
  | subscribe
  | broadcast (ev : ε)
  /-- The handler writes the next event of its channel to the socket. -/
  | recv (i : ℕ)
  /-- The handler fails to write, and its channel is dropped. -/
  | hangup (i : ℕ)

/-- The event that a move broadcasts. -/
def Move.event? : Move ε → Option ε
  | .broadcast ev => some ev
  | _ => none

def step (b : Bus ε) : Move ε → Bus ε
  | .subscribe => b.subscribe
  | .broadcast ev => b.broadcast ev
  | .recv i => { b with chans := b.chans.modify i Channel.recv }
  | .hangup i => { b with chans := b.chans.modify i Channel.hangup }

def run (moves : List (Move ε)) : Bus ε := moves.foldl step new

section Log

/-- The event that a move sends to an open subscription. -/
def offered? (i : ℕ) (b : Bus ε) : Move ε → Option ε
  | .broadcast ev => if b.chans[i]?.any Channel.isOpen then some ev else none
  | _ => none

/-- The event that a move loses because the subscription has no room. -/
def lost? (i : ℕ) (b : Bus ε) : Move ε → Option ε
  | .broadcast ev => if b.chans[i]?.any (Channel.isFull subscriberCapacity) then some ev else none
  | _ => none

/-- The events that were broadcast while a subscription was open. -/
def offeredTo (i : ℕ) (moves : List (Move ε)) : List ε := logOf step (offered? i) new moves

/-- The events that were broadcast while the subscription had no room. -/
def lostBy (i : ℕ) (moves : List (Move ε)) : List ε := logOf step (lost? i) new moves

end Log

/-- A bus whose senders are those of the open subscriptions, and of some that are closed. -/
structure Subscribed (b : Bus ε) : Prop where
  nodup : b.subs.Nodup
  known : ∀ i ∈ b.subs, i < b.chans.length
  live : ∀ (i : ℕ) (c : Channel ε), b.chans[i]? = some c → c.isOpen = true → i ∈ b.subs

section Steps

variable {b : Bus ε} {i : ℕ} {c : Channel ε}

@[simp] theorem length_sendAll (ev : ε) (subs : List ℕ) (chans : List (Channel ε)) :
    (sendAll ev subs chans).length = chans.length := by
  unfold sendAll
  induction subs generalizing chans with
  | nil => rfl
  | cons j subs ih => rw [List.foldl_cons, ih, List.length_modify]

theorem getElem?_sendAll (ev : ε) {subs : List ℕ} (h : subs.Nodup) (chans : List (Channel ε)) (i : ℕ) :
    (sendAll ev subs chans)[i]? =
      if i ∈ subs then chans[i]?.map fun c => (c.trySend subscriberCapacity ev).2 else chans[i]? := by
  unfold sendAll
  induction subs generalizing chans with
  | nil => simp
  | cons j subs ih =>
    obtain ⟨hj, hs⟩ := List.nodup_cons.mp h
    rw [List.foldl_cons, ih hs, List.getElem?_modify]
    by_cases hij : j = i
    · subst hij
      simp [hj]
    · have hne : i ≠ j := Ne.symm hij
      simp [hij, hne]

theorem Subscribed.getElem?_broadcast (h : Subscribed b) (ev : ε) (i : ℕ) :
    (b.broadcast ev).chans[i]? =
      b.chans[i]?.map fun c => (c.trySend subscriberCapacity ev).2 := by
  rw [broadcast, getElem?_sendAll ev h.nodup]
  split_ifs with hi
  · rfl
  · cases hc : b.chans[i]? with
    | none => rfl
    | some c =>
      have hclosed : ¬ c.isOpen = true := fun ho => hi (h.live i c hc ho)
      simp [Channel.trySend, hclosed]

theorem subscribed_new : Subscribed (new : Bus ε) :=
  ⟨List.nodup_nil, fun _ hi => (nomatch hi), fun _ _ hc => nomatch hc⟩

theorem Subscribed.subscribe (h : Subscribed b) : Subscribed b.subscribe where
  nodup := by
    rw [Bus.subscribe, List.nodup_append]
    refine ⟨h.nodup, List.nodup_singleton _, ?_⟩
    rintro j hj k hk rfl
    exact Nat.ne_of_lt (h.known j hj) (List.mem_singleton.mp hk)
  known j hj := by
    rw [Bus.subscribe, List.length_append, List.length_singleton]
    rcases List.mem_append.mp hj with hj | hj
    · exact Nat.lt_succ_of_lt (h.known j hj)
    · rw [List.mem_singleton.mp hj]
      exact Nat.lt_succ_self _
  live j c hc ho := by
    rw [Bus.subscribe, List.getElem?_append] at hc
    split_ifs at hc with hj
    · exact List.mem_append_left _ (h.live j c hc ho)
    · have hz : j - b.chans.length < 1 := by
        simpa using (List.getElem?_eq_some_iff.mp hc).1
      have he : j = b.chans.length := by omega
      exact List.mem_append_right _ (by simp [he])

theorem Subscribed.mem_broadcast (h : Subscribed b) (ev : ε) (i : ℕ) :
    i ∈ (b.broadcast ev).subs ↔ ∃ c ∈ b.chans[i]?, c.isOpen = true := by
  have hkeep (c : Channel ε) : (c.trySend subscriberCapacity ev).1 ≠ .disconnected ↔
      c.isOpen = true := by
    rw [Ne, c.disconnected_iff]
    simp
  rw [broadcast, List.mem_filter, keeps, Option.any_eq_true]
  constructor
  · rintro ⟨-, c, hc, hk⟩
    exact ⟨c, hc, (hkeep c).mp (of_decide_eq_true hk)⟩
  · rintro ⟨c, hc, ho⟩
    exact ⟨h.live i c hc ho, c, hc, decide_eq_true ((hkeep c).mpr ho)⟩

theorem Subscribed.broadcast (h : Subscribed b) (ev : ε) : Subscribed (b.broadcast ev) where
  nodup := h.nodup.filter _
  known j hj := by
    rw [Bus.broadcast, length_sendAll]
    exact h.known j (List.mem_filter.mp hj).1
  live j c hc ho := by
    rw [h.getElem?_broadcast] at hc
    obtain ⟨c', hc', rfl⟩ := Option.map_eq_some_iff.mp hc
    rw [Channel.isOpen_trySend] at ho
    exact (h.mem_broadcast ev j).mpr ⟨c', hc', ho⟩

/-- A handler opens no channel. -/
theorem Subscribed.modify (h : Subscribed b) {f : Channel ε → Channel ε}
    (hf : ∀ c, (f c).isOpen = true → c.isOpen = true) (k : ℕ) :
    Subscribed { b with chans := b.chans.modify k f } where
  nodup := h.nodup
  known j hj := by
    rw [List.length_modify]
    exact h.known j hj
  live j c hc ho := by
    rw [List.getElem?_modify] at hc
    obtain ⟨c', hc', rfl⟩ := Option.map_eq_some_iff.mp hc
    refine h.live j c' hc' ?_
    split_ifs at ho
    · exact hf c' ho
    · exact ho

theorem Subscribed.step (h : Subscribed b) (m : Move ε) : Subscribed (b.step m) := by
  cases m with
  | subscribe => exact h.subscribe
  | broadcast ev => exact h.broadcast ev
  | recv k => exact h.modify (fun c ho => c.isOpen_recv ▸ ho) k
  | hangup k => exact h.modify (fun c ho => absurd ho Bool.false_ne_true) k

theorem subscribed_run (moves : List (Move ε)) : Subscribed (run moves) :=
  List.foldlRecOn moves _ (motive := Subscribed) subscribed_new fun _ h m _ => h.step m

theorem Subscribed.taken_step (h : Subscribed b) {m : Move ε} (hm : m ≠ .recv i)
    (hc : b.chans[i]? = some c) : ∃ c', (b.step m).chans[i]? = some c' ∧ c'.taken = c.taken := by
  cases m with
  | subscribe =>
    refine ⟨c, ?_, rfl⟩
    rw [Bus.step, Bus.subscribe, List.getElem?_append_left (List.getElem?_eq_some_iff.mp hc).1, hc]
  | broadcast ev =>
    refine ⟨_, by rw [Bus.step, h.getElem?_broadcast, hc, Option.map_some], ?_⟩
    unfold Channel.trySend
    split
    · split <;> rfl
    · rfl
  | recv k =>
    have hk : k ≠ i := fun hk => hm (hk ▸ rfl)
    exact ⟨c, by simp [Bus.step, hk, hc], rfl⟩
  | hangup k =>
    by_cases hk : k = i
    · exact ⟨c.hangup, by simp [Bus.step, hk, hc], rfl⟩
    · exact ⟨c, by simp [Bus.step, hk, hc], rfl⟩

theorem Subscribed.taken_steps (h : Subscribed b) {ms : List (Move ε)} (hms : .recv i ∉ ms)
    (hc : b.chans[i]? = some c) :
    ∃ c', (ms.foldl Bus.step b).chans[i]? = some c' ∧ c'.taken = c.taken := by
  induction ms generalizing b c with
  | nil => exact ⟨c, hc, rfl⟩
  | cons m ms ih =>
    rw [List.mem_cons, not_or] at hms
    obtain ⟨c', hc', htaken⟩ := h.taken_step (Ne.symm hms.1) hc
    obtain ⟨c'', hc'', htaken'⟩ := ih (h.step m) hms.2 hc'
    exact ⟨c'', hc'', htaken'.trans htaken⟩

end Steps

section Run

variable {i : ℕ}

/-- Every subscription accounts for what was broadcast while it was open. -/
def Balanced (b : Bus ε) (offered lost : List ε) (i : ℕ) : Prop :=
  match b.chans[i]? with
  | some c => c.Accounts subscriberCapacity offered lost.length
  | none => offered = [] ∧ lost = []

theorem balanced_run (moves : List (Move ε)) (i : ℕ) :
    Balanced (run moves) (offeredTo i moves) (lostBy i moves) i := by
  induction moves using List.reverseRecOn with
  | nil => exact ⟨rfl, rfl⟩
  | append_singleton moves m ih =>
    have hsub := subscribed_run moves
    have hrun : run (moves ++ [m]) = (run moves).step m := List.foldl_concat ..
    have hoff : offeredTo i (moves ++ [m]) =
        offeredTo i moves ++ (offered? i (run moves) m).toList := logOf_concat ..
    have hlost : lostBy i (moves ++ [m]) = lostBy i moves ++ (lost? i (run moves) m).toList :=
      logOf_concat ..
    rw [hrun, hoff, hlost]
    generalize run moves = b at *
    unfold Balanced at ih ⊢
    cases m with
    | broadcast ev =>
      simp only [step, hsub.getElem?_broadcast, offered?, lost?]
      cases hc : b.chans[i]? with
      | none => simpa [hc] using ih
      | some c =>
        rw [hc] at ih
        have hsend := Channel.Accounts.trySend ih ev
        have hone (p : Bool) : (if p then some ev else none).toList = if p then [ev] else [] := by
          cases p <;> rfl
        have hlen (p : Bool) : (if p then [ev] else []).length = if p then 1 else 0 := by
          cases p <;> rfl
        rw [← hlen, ← List.length_append] at hsend
        simp only [Option.map_some, Option.any_some, hone]
        exact hsend
    | subscribe =>
      simp only [step, subscribe, offered?, lost?, Option.toList_none, List.append_nil]
      rw [List.getElem?_append]
      split_ifs with hi
      · exact ih
      · have hnone : b.chans[i]? = none := List.getElem?_eq_none (Nat.le_of_not_lt hi)
        rw [hnone] at ih
        rw [ih.1, ih.2]
        by_cases hz : i - b.chans.length = 0
        · rw [hz]
          exact Channel.accounts_new _
        · rw [List.getElem?_eq_none]
          · exact ⟨rfl, rfl⟩
          · rw [List.length_singleton]
            omega
    | recv k =>
      simp only [step, offered?, lost?, Option.toList_none, List.append_nil, List.getElem?_modify]
      cases hc : b.chans[i]? with
      | none => simpa [hc] using ih
      | some c =>
        rw [hc] at ih
        by_cases hk : k = i
        · simpa [hk] using Channel.Accounts.recv ih
        · simpa [hk] using ih
    | hangup k =>
      simp only [step, offered?, lost?, Option.toList_none, List.append_nil, List.getElem?_modify]
      cases hc : b.chans[i]? with
      | none => simpa [hc] using ih
      | some c =>
        rw [hc] at ih
        by_cases hk : k = i
        · simpa [hk] using Channel.Accounts.hangup ih
        · simpa [hk] using ih

/-- What a subscriber has taken and can take is always a subsequence, in order, of what was
broadcast while it was open, at most 1024 events wait for it, and an open subscription is never
pruned. It has missed nothing exactly when no broadcast found it without room. -/
theorem subscription_faithful (moves : List (Move ε)) (i : ℕ) (c : Channel ε)
    (hc : (run moves).chans[i]? = some c) :
    c.received.Sublist (offeredTo i moves) ∧ c.queue.length ≤ subscriberCapacity ∧
      (c.isOpen = true → i ∈ (run moves).subs ∧
        (c.received = offeredTo i moves ↔ lostBy i moves = [])) := by
  have h := balanced_run moves i
  rw [Balanced, hc] at h
  refine ⟨h.order, h.room, fun ho => ⟨(subscribed_run moves).live i c hc ho, ?_⟩⟩
  rw [h.received_eq_iff ho, List.length_eq_zero_iff]

theorem offeredTo_sublist (i : ℕ) (moves : List (Move ε)) :
    (offeredTo i moves).Sublist (moves.filterMap Move.event?) := by
  induction moves using List.reverseRecOn with
  | nil => exact List.Sublist.refl _
  | append_singleton moves m ih =>
    have hoff : offeredTo i (moves ++ [m]) =
        offeredTo i moves ++ (offered? i (run moves) m).toList := logOf_concat ..
    rw [hoff, List.filterMap_append]
    refine ih.append ?_
    cases m with
    | broadcast ev =>
      cases hi : (run moves).chans[i]?.any Channel.isOpen <;> simp [offered?, hi, Move.event?]
    | _ => exact List.nil_sublist _

theorem taken_sublist {moves : List (Move ε)} {c : Channel ε} (hc : (run moves).chans[i]? = some c) :
    c.taken.Sublist (moves.filterMap Move.event?) := by
  have h := balanced_run moves i
  rw [Balanced, hc] at h
  have htaken : c.taken.Sublist c.received := List.sublist_append_left _ _
  exact htaken.trans (h.order.trans (offeredTo_sublist i moves))

/-- Two subscribers, the first of which goes away after it has taken one event. -/
def sampleMoves : List (Move ℕ) :=
  [.subscribe, .broadcast 1, .subscribe, .recv 0, .broadcast 2, .hangup 0, .broadcast 3]

theorem subscription_faithful_sample :
    (⟨[2, 3], [], true⟩ : Channel ℕ).received.Sublist (offeredTo 1 sampleMoves) ∧
      (⟨[2, 3], [], true⟩ : Channel ℕ).queue.length ≤ subscriberCapacity ∧
      ((⟨[2, 3], [], true⟩ : Channel ℕ).isOpen = true → 1 ∈ (run sampleMoves).subs ∧
        ((⟨[2, 3], [], true⟩ : Channel ℕ).received = offeredTo 1 sampleMoves ↔
          lostBy 1 sampleMoves = [])) :=
  subscription_faithful sampleMoves 1 ⟨[2, 3], [], true⟩ (by decide)

end Run

end Bus

end Pktscope

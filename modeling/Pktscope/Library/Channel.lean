import Mathlib.Data.List.Basic
import Mathlib.Tactic.Common

/-! # Bounded channels

A channel with room for a number of items, whose sender never waits: an item
that finds no room is lost, and one that finds no receiver is refused. What the
receiver has taken or can still take is what it was offered, less what was lost.
-/

namespace Library

/-- A channel, with the items that its receiver has taken so far. -/
structure Channel (ε : Type) where
  queue : List ε
  taken : List ε
  isOpen : Bool
  deriving DecidableEq

inductive SendResult where
  | sent
  | full
  | disconnected
  deriving DecidableEq

namespace Channel

variable {ε : Type}

def new : Channel ε := ⟨[], [], true⟩

def trySend (cap : ℕ) (ev : ε) (c : Channel ε) : SendResult × Channel ε :=
  if c.isOpen then
    if c.queue.length < cap then (.sent, { c with queue := c.queue ++ [ev] }) else (.full, c)
  else (.disconnected, c)

/-- An item is put into a channel without a bound, unless there is no receiver. -/
def push (ev : ε) (c : Channel ε) : Channel ε :=
  if c.isOpen then { c with queue := c.queue ++ [ev] } else c

/-- The receiver takes the first item, if there is one. -/
def recv (c : Channel ε) : Channel ε :=
  match c.queue with
  | ev :: queue => { c with queue, taken := c.taken ++ [ev] }
  | [] => c

/-- The receiver goes away, and with it what it has not taken. -/
def hangup (c : Channel ε) : Channel ε := { c with queue := [], isOpen := false }

/-- What the receiver has taken or can take. -/
def received (c : Channel ε) : List ε := c.taken ++ c.queue

/-- A channel that accounts for the items offered to it while it was open, with the number of those
that were lost. -/
structure Accounts (cap : ℕ) (offered : List ε) (lost : ℕ) (c : Channel ε) : Prop where
  order : c.received.Sublist offered
  room : c.queue.length ≤ cap
  balance : c.isOpen = true → c.received.length + lost = offered.length

section Steps

variable {cap lost : ℕ} {offered : List ε} {c : Channel ε}

theorem accounts_new (cap : ℕ) : Accounts cap [] 0 (new : Channel ε) :=
  ⟨List.Sublist.refl _, Nat.zero_le _, fun _ => rfl⟩

/-- Whether the next item finds no room. -/
def isFull (cap : ℕ) (c : Channel ε) : Bool := c.isOpen && decide (cap ≤ c.queue.length)

theorem disconnected_iff (cap : ℕ) (ev : ε) (c : Channel ε) :
    (c.trySend cap ev).1 = .disconnected ↔ c.isOpen = false := by
  unfold trySend
  by_cases ho : c.isOpen = true
  · rw [if_pos ho]
    split <;> simp [ho]
  · rw [if_neg ho]
    simpa using ho

@[simp] theorem isOpen_trySend (cap : ℕ) (ev : ε) (c : Channel ε) :
    (c.trySend cap ev).2.isOpen = c.isOpen := by
  unfold trySend
  split
  · split <;> rfl
  · rfl

@[simp] theorem isOpen_recv (c : Channel ε) : c.recv.isOpen = c.isOpen := by
  unfold recv
  split <;> rfl

/-- An item is offered to an open channel, and lost if there is no room. -/
theorem Accounts.trySend (h : Accounts cap offered lost c) (ev : ε) :
    Accounts cap (offered ++ if c.isOpen then [ev] else [])
      (lost + if c.isFull cap then 1 else 0) (c.trySend cap ev).2 := by
  unfold Channel.trySend isFull
  cases ho : c.isOpen with
  | false => simpa [ho] using h
  | true =>
    have hb := h.balance ho
    by_cases hroom : c.queue.length < cap
    · have hle : ¬ cap ≤ c.queue.length := Nat.not_le_of_lt hroom
      simp only [if_true, if_pos hroom, Bool.true_and, decide_eq_false hle]
      refine ⟨?_, ?_, fun _ => ?_⟩
      · rw [received, ← List.append_assoc]
        exact h.order.append (List.Sublist.refl _)
      · simpa [Nat.succ_le_iff] using hroom
      · simp only [received, List.length_append, List.length_singleton] at hb ⊢
        simp
        omega
    · have hle : cap ≤ c.queue.length := Nat.le_of_not_lt hroom
      simp only [if_true, if_neg hroom, Bool.true_and, decide_eq_true hle]
      refine ⟨h.order.trans (List.sublist_append_left _ _), h.room, fun _ => ?_⟩
      rw [List.length_append, List.length_singleton]
      omega

@[simp] theorem isOpen_push (ev : ε) (c : Channel ε) : (c.push ev).isOpen = c.isOpen := by
  unfold push
  split <;> rfl

@[simp] theorem taken_push (ev : ε) (c : Channel ε) : (c.push ev).taken = c.taken := by
  unfold push
  split <;> rfl

theorem received_push {ev : ε} (ho : c.isOpen = true) :
    (c.push ev).received = c.received ++ [ev] := by
  simp [push, ho, received]

@[simp] theorem received_recv (c : Channel ε) : c.recv.received = c.received := by
  unfold Channel.recv received
  cases hq : c.queue <;> simp [hq]

theorem taken_recv {ev : ε} {queue : List ε} (hq : c.queue = ev :: queue) :
    c.recv.taken = c.taken ++ [ev] := by
  simp [Channel.recv, hq]

theorem length_recv {ev : ε} {queue : List ε} (hq : c.queue = ev :: queue) :
    c.recv.queue.length + 1 = c.queue.length := by
  simp [Channel.recv, hq]

theorem length_push {ev : ε} (ho : c.isOpen = true) :
    (c.push ev).queue.length = c.queue.length + 1 := by
  simp [push, ho]

theorem length_recv_le (c : Channel ε) : c.recv.queue.length ≤ c.queue.length := by
  unfold Channel.recv
  cases hq : c.queue <;> simp [hq]

theorem length_push_le {ev : ε} (hroom : c.queue.length < cap) :
    (c.push ev).queue.length ≤ cap := by
  unfold push
  split_ifs
  · simpa [Nat.succ_le_iff] using hroom
  · exact Nat.le_of_lt hroom

/-- Taking an item moves it, and loses nothing. -/
theorem Accounts.recv (h : Accounts cap offered lost c) : Accounts cap offered lost c.recv := by
  have hsame := received_recv c
  exact ⟨hsame ▸ h.order, Nat.le_trans c.length_recv_le h.room, fun ho => hsame ▸ h.balance (c.isOpen_recv ▸ ho)⟩

theorem Accounts.hangup (h : Accounts cap offered lost c) : Accounts cap offered lost c.hangup where
  order := by
    rw [Channel.hangup, received, List.append_nil]
    exact (List.sublist_append_left _ _).trans h.order
  room := Nat.zero_le _
  balance ho := nomatch ho

theorem Accounts.received_eq_iff (h : Accounts cap offered lost c) (ho : c.isOpen = true) :
    c.received = offered ↔ lost = 0 := by
  have hb := h.balance ho
  constructor
  · rintro he
    rw [he] at hb
    omega
  · rintro rfl
    exact h.order.eq_of_length hb

end Steps

end Channel

end Library

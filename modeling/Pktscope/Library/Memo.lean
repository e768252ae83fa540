import Mathlib.Data.List.Dedup
import Mathlib.Data.List.Induction
import Mathlib.Data.List.Perm.Subperm
import Mathlib.Logic.Function.Basic
import Pktscope.Library.Lru

/-! # Memo tables

Callers share a cache of computed values over a world that changes meanwhile. A
caller reads the key of its argument, asks the cache, and where it misses
computes the value and stores it under the key that it read; the world and the
other callers may move between any two of these. If a key that comes back finds
what it stood for unchanged, every call answers what its argument computes to at
one moment of the call.
-/

namespace Library

namespace LruCache

variable {K V : Type} [DecidableEq K]

/-- The entry of a key, marked as used. -/
def get (c : LruCache K V) (k : K) : Option V × LruCache K V :=
  match c.peek k with
  | none => (none, c)
  | some v => (some v, (c.getOrInsertMut k v).2 v)

/-- Write an entry as the one used last. -/
def put (c : LruCache K V) (k : K) (v : V) : LruCache K V := (c.getOrInsertMut k v).2 v

variable {c : LruCache K V} {k k' : K} {v v' : V}

theorem get_of_none (h : c.peek k = none) : c.get k = (none, c) := by simp [get, h]

theorem get_of_some (h : c.peek k = some v) : c.get k = (some v, c.put k v) := by
  simp [get, put, h]

theorem peek_put (h : (c.put k v).peek k' = some v') :
    k' = k ∧ v' = v ∨ c.peek k' = some v' := by
  by_cases hk : k' = k
  · subst hk
    rw [put, peek_getOrInsertMut_self, Option.some.injEq] at h
    exact Or.inl ⟨rfl, h.symm⟩
  · rw [put, peek_getOrInsertMut_of_ne _ _ _ _ hk] at h
    split_ifs at h
    exact Or.inr h

theorem peek_put_of_room (h : c.victim k = none) :
    (c.put k v).peek k' = if k' = k then some v else c.peek k' := by
  by_cases hk : k' = k
  · subst hk
    rw [put, peek_getOrInsertMut_self, if_pos rfl]
  · rw [put, peek_getOrInsertMut_of_ne _ _ _ _ hk, h, if_neg hk,
      if_neg (Option.some_ne_none _).symm]

theorem victim_eq_none_of_keys {ks : List K} (hnew : k ∉ c.table) (hk : k ∈ ks)
    (hkeys : ∀ q ∈ c.table, q ∈ ks) (hroom : ks.dedup.length ≤ c.cap) : c.victim k = none := by
  have hnodup : (k :: c.table.keys).Nodup :=
    List.nodup_cons.mpr ⟨fun hmem => hnew (AList.mem_keys.mpr hmem), c.table.keys_nodup⟩
  have hsub : k :: c.table.keys ⊆ ks.dedup := by
    intro q hq
    rw [List.mem_dedup]
    rcases List.mem_cons.mp hq with rfl | hq
    · exact hk
    · exact hkeys q (AList.mem_keys.mpr hq)
  have hlen := le_trans (hnodup.subperm hsub).length_le hroom
  rw [List.length_cons] at hlen
  exact if_pos (Or.inr hlen)

end LruCache

/-- The key and the value of an argument, both read off the world as it is. -/
structure Memo (W P K V : Type) where
  key : W → P → Option K
  value : W → P → V

/-- How far a caller is with a call, which began at a moment. -/
inductive MemoCall (P K V : Type) where
  | idle
  | keyed (arg : P) (key : Option K) (began : ℕ)
  | missed (arg : P) (key : Option K) (began : ℕ)
  | computed (arg : P) (key : Option K) (began : ℕ) (value : V)

/-- An answered call with the moments at which it began and ended. -/
structure MemoAnswer (P V : Type) where
  arg : P
  value : V
  began : ℕ
  ended : ℕ

/-- The world, the cache and the callers after a number of moves. -/
structure MemoState (W P K V : Type) [DecidableEq K] where
  now : ℕ
  world : W
  cache : LruCache K V
  calls : ℕ → MemoCall P K V
  answers : List (MemoAnswer P V)

inductive MemoMove (W P : Type) where
  | change (world : W)
  | call (i : ℕ) (arg : P)
  | turn (i : ℕ)

/-- The world after a move. -/
def MemoMove.next {W P : Type} (world : W) : MemoMove W P → W
  | .change world' => world'
  | _ => world

section Moves

variable {W P K V : Type} [DecidableEq K]

namespace MemoState

def start (world : W) (cap : ℕ) (h : 0 < cap) : MemoState W P K V :=
  ⟨0, world, .empty cap h, fun _ => .idle, []⟩

def become (s : MemoState W P K V) (i : ℕ) (call : MemoCall P K V) : MemoState W P K V :=
  { s with calls := Function.update s.calls i call }

def answer (s : MemoState W P K V) (i : ℕ) (arg : P) (value : V) (began : ℕ) :
    MemoState W P K V :=
  { s with
    calls := Function.update s.calls i .idle
    answers := s.answers ++ [⟨arg, value, began, s.now⟩] }

def tick (s : MemoState W P K V) : MemoState W P K V := { s with now := s.now + 1 }

end MemoState

namespace Memo

variable (m : Memo W P K V)

/-- The next thing that a caller does. -/
def turn (s : MemoState W P K V) (i : ℕ) : MemoState W P K V :=
  match s.calls i with
  | .idle => s
  | .keyed arg none began => s.become i (.missed arg none began)
  | .keyed arg (some k) began =>
    match s.cache.get k with
    | (none, cache) => { s with cache }.become i (.missed arg (some k) began)
    | (some v, cache) => { s with cache }.answer i arg v began
  | .missed arg key began => s.become i (.computed arg key began (m.value s.world arg))
  | .computed arg none began v => s.answer i arg v began
  | .computed arg (some k) began v => { s with cache := s.cache.put k v }.answer i arg v began

def act (s : MemoState W P K V) : MemoMove W P → MemoState W P K V
  | .change world => { s with world }
  | .call i arg =>
    match s.calls i with
    | .idle => s.become i (.keyed arg (m.key s.world arg) s.now)
    | _ => s
  | .turn i => m.turn s i

def step (s : MemoState W P K V) (move : MemoMove W P) : MemoState W P K V := (m.act s move).tick

def run (s : MemoState W P K V) (moves : List (MemoMove W P)) : MemoState W P K V :=
  moves.foldl m.step s

/-- The world after a number of moves. -/
def worldAt (s : MemoState W P K V) (moves : List (MemoMove W P)) (t : ℕ) : W :=
  (m.run s (moves.take t)).world

/-- One call that nothing interrupts. -/
def ask (world : W) (cache : LruCache K V) (arg : P) : V × LruCache K V :=
  match m.key world arg with
  | none => (m.value world arg, cache)
  | some k =>
    match cache.get k with
    | (some v, cache) => (v, cache)
    | (none, cache) => (m.value world arg, cache.put k (m.value world arg))

/-- A key is of one argument, and where it comes back, the value was the same all the time. -/
structure Lasting (w : ℕ → W) : Prop where
  arg_eq : ∀ {i j p q k}, m.key (w i) p = some k → m.key (w j) q = some k → p = q
  value_eq : ∀ {i t j p k}, i ≤ t → t ≤ j → m.key (w i) p = some k → m.key (w j) p = some k →
    m.value (w t) p = m.value (w j) p

/-- A value is what an argument computes to at one of some moments. -/
def ValueIn (w : ℕ → W) (p : P) (v : V) (i j : ℕ) : Prop :=
  ∃ t, i ≤ t ∧ t ≤ j ∧ v = m.value (w t) p

/-- What a caller holds is of its argument and from the time of its call. -/
def CallKept (w : ℕ → W) (now : ℕ) : MemoCall P K V → Prop
  | .idle => True
  | .keyed arg key began => began ≤ now ∧ m.key (w began) arg = key
  | .missed arg key began => began ≤ now ∧ m.key (w began) arg = key
  | .computed arg key began v =>
    m.key (w began) arg = key ∧ m.ValueIn w arg v began now

/-- What the cache holds was computed after its key had been read, and what was answered is a value
from the time of the call. -/
structure Kept (w : ℕ → W) (s : MemoState W P K V) : Prop where
  cached : ∀ {k v}, s.cache.peek k = some v →
    ∃ i p, m.key (w i) p = some k ∧ m.ValueIn w p v i s.now
  calls : ∀ i, m.CallKept w s.now (s.calls i)
  answers : ∀ a ∈ s.answers, m.ValueIn w a.arg a.value a.began a.ended

section Steps

variable {m} {w : ℕ → W} {s : MemoState W P K V}

omit [DecidableEq K] in
theorem ValueIn.mono {p : P} {v : V} {i j j' : ℕ} (h : m.ValueIn w p v i j) (hj : j ≤ j') :
    m.ValueIn w p v i j' := by
  obtain ⟨t, hi, ht, hv⟩ := h
  exact ⟨t, hi, le_trans ht hj, hv⟩

theorem kept_start (world : W) (cap : ℕ) (h : 0 < cap) :
    m.Kept w (MemoState.start world cap h) := by
  constructor
  · intro k v hpeek
    rw [MemoState.start, LruCache.peek_empty] at hpeek
    cases hpeek
  · exact fun _ => trivial
  · rintro a ⟨⟩

theorem Kept.become (h : m.Kept w s) {i : ℕ} {call : MemoCall P K V}
    (hcall : m.CallKept w s.now call) : m.Kept w (s.become i call) := by
  constructor
  · exact h.cached
  · intro j
    by_cases hj : j = i
    · subst hj
      simpa [MemoState.become] using hcall
    · simpa [MemoState.become, hj] using h.calls j
  · exact h.answers

theorem Kept.answer (h : m.Kept w s) {i began : ℕ} {arg : P} {v : V}
    (hv : m.ValueIn w arg v began s.now) : m.Kept w (s.answer i arg v began) := by
  constructor
  · exact h.cached
  · intro j
    by_cases hj : j = i
    · subst hj
      simp [MemoState.answer, CallKept]
    · simpa [MemoState.answer, hj] using h.calls j
  · intro a ha
    rcases List.mem_append.mp ha with ha | ha
    · exact h.answers a ha
    · obtain rfl := List.mem_singleton.mp ha
      exact hv

theorem Kept.tick (h : m.Kept w s) : m.Kept w s.tick := by
  constructor
  · intro k v hpeek
    obtain ⟨i, p, hkey, hv⟩ := h.cached hpeek
    exact ⟨i, p, hkey, hv.mono (Nat.le_succ _)⟩
  · intro i
    have hcall := h.calls i
    change m.CallKept w (s.now + 1) (s.calls i)
    cases hc : s.calls i with
    | idle => trivial
    | keyed arg key began =>
      rw [hc] at hcall
      exact ⟨le_trans hcall.1 (Nat.le_succ _), hcall.2⟩
    | missed arg key began =>
      rw [hc] at hcall
      exact ⟨le_trans hcall.1 (Nat.le_succ _), hcall.2⟩
    | computed arg key began v =>
      rw [hc] at hcall
      exact ⟨hcall.1, hcall.2.mono (Nat.le_succ _)⟩
  · exact h.answers

/-- Writing a value that was computed after its key had been read. -/
theorem Kept.put (h : m.Kept w s) {k : K} {v : V} {i : ℕ} {p : P} (hkey : m.key (w i) p = some k)
    (hv : m.ValueIn w p v i s.now) : m.Kept w { s with cache := s.cache.put k v } := by
  constructor
  · intro k' v' hpeek
    rcases LruCache.peek_put hpeek with ⟨rfl, rfl⟩ | hpeek
    · exact ⟨i, p, hkey, hv⟩
    · exact h.cached hpeek
  · exact h.calls
  · exact h.answers

/-- A hit is a value from the time of the call: what the cache held before the call still stands
when the call begins. -/
theorem Kept.hit (h : m.Kept w s) (hlast : m.Lasting w) {k : K} {v : V} {p : P} {began : ℕ}
    (hpeek : s.cache.peek k = some v) (hkey : m.key (w began) p = some k)
    (hbegan : began ≤ s.now) : m.ValueIn w p v began s.now := by
  obtain ⟨i, q, hq, t, hit, ht, hv⟩ := h.cached hpeek
  obtain rfl := hlast.arg_eq hq hkey
  rcases Nat.le_total began t with hbt | htb
  · exact ⟨t, hbt, ht, hv⟩
  · exact ⟨began, le_rfl, hbegan, hv.trans (hlast.value_eq hit htb hq hkey)⟩

theorem Kept.turn (h : m.Kept w s) (hlast : m.Lasting w) (hworld : s.world = w s.now) (i : ℕ) :
    m.Kept w (m.turn s i) := by
  have hcall := h.calls i
  unfold Memo.turn
  cases hc : s.calls i with
  | idle => exact h
  | keyed arg key began =>
    rw [hc] at hcall
    cases key with
    | none => exact h.become hcall
    | some k =>
      cases hpeek : s.cache.peek k with
      | none =>
        simp only [LruCache.get_of_none hpeek]
        exact h.become hcall
      | some v =>
        simp only [LruCache.get_of_some hpeek]
        have hv := h.hit hlast hpeek hcall.2 hcall.1
        exact (h.put hcall.2 hv).answer hv
  | missed arg key began =>
    rw [hc] at hcall
    refine h.become ⟨hcall.2, s.now, hcall.1, le_rfl, ?_⟩
    rw [hworld]
  | computed arg key began v =>
    rw [hc] at hcall
    cases key with
    | none => exact h.answer hcall.2
    | some k => exact (h.put hcall.1 hcall.2).answer hcall.2

theorem Kept.step (h : m.Kept w s) (hlast : m.Lasting w) (hworld : s.world = w s.now)
    (move : MemoMove W P) : m.Kept w (m.step s move) := by
  refine Kept.tick ?_
  cases move with
  | change world => exact ⟨h.cached, h.calls, h.answers⟩
  | turn i => exact h.turn hlast hworld i
  | call i arg =>
    rw [act]
    cases hc : s.calls i with
    | idle =>
      refine h.become ⟨le_rfl, ?_⟩
      rw [hworld]
    | _ => exact h

end Steps

section Runs

variable {m} {s : MemoState W P K V}

theorem run_concat (moves : List (MemoMove W P)) (move : MemoMove W P) :
    m.run s (moves ++ [move]) = m.step (m.run s moves) move := by
  rw [run, List.foldl_append]
  rfl

theorem world_turn (i : ℕ) : (m.turn s i).world = s.world := by
  unfold turn
  split
  any_goals rfl
  split <;> rfl

theorem world_step (move : MemoMove W P) : (m.step s move).world = move.next s.world := by
  cases move with
  | change world => rfl
  | turn i => exact world_turn i
  | call i arg =>
    rw [step, act]
    split <;> rfl

theorem worldAt_eq (moves : List (MemoMove W P)) (t : ℕ) :
    m.worldAt s moves t = (moves.take t).foldl MemoMove.next s.world := by
  have hrun (moves : List (MemoMove W P)) :
      (m.run s moves).world = moves.foldl MemoMove.next s.world := by
    induction moves using List.reverseRecOn with
    | nil => rfl
    | append_singleton moves move ih =>
      rw [run_concat, world_step, ih, List.foldl_append]
      rfl
  exact hrun _

theorem now_turn (i : ℕ) : (m.turn s i).now = s.now := by
  unfold turn
  split
  any_goals rfl
  split <;> rfl

theorem now_step (move : MemoMove W P) : (m.step s move).now = s.now + 1 := by
  cases move with
  | change world => rfl
  | turn i => exact congrArg (· + 1) (now_turn i)
  | call i arg =>
    rw [step, act]
    split <;> rfl

theorem now_run (moves : List (MemoMove W P)) : (m.run s moves).now = s.now + moves.length := by
  induction moves using List.reverseRecOn with
  | nil => rfl
  | append_singleton moves move ih =>
    rw [run_concat, now_step, ih, List.length_append]
    rfl

/-- The moves of a call between which nothing else happens. -/
def alone (i : ℕ) (arg : P) : List (MemoMove W P) := [.call i arg, .turn i, .turn i, .turn i]

/-- Such a call answers once, and asks the cache as if there were no one else. -/
theorem run_alone {i : ℕ} (hidle : s.calls i = .idle) (arg : P) :
    ∃ ended, (m.run s (alone i arg)).answers =
        s.answers ++ [⟨arg, (m.ask s.world s.cache arg).1, s.now, ended⟩] ∧
      (m.run s (alone i arg)).cache = (m.ask s.world s.cache arg).2 := by
  cases hkey : m.key s.world arg with
  | none =>
    refine ⟨s.now + 3, ?_⟩
    simp [run, alone, step, act, turn, hidle, hkey, ask, MemoState.become, MemoState.tick,
      MemoState.answer]
  | some k =>
    cases hpeek : s.cache.peek k with
    | none =>
      refine ⟨s.now + 3, ?_⟩
      simp [run, alone, step, act, turn, hidle, hkey, ask, MemoState.become, MemoState.tick,
        MemoState.answer, LruCache.get_of_none hpeek]
    | some v =>
      refine ⟨s.now + 1, ?_⟩
      simp [run, alone, step, act, turn, hidle, hkey, ask, MemoState.become, MemoState.tick,
        MemoState.answer, LruCache.get_of_some hpeek]

theorem kept_run {w : ℕ → W} (hs : m.Kept w s) (hnow : s.now = 0) (hlast : m.Lasting w)
    {moves : List (MemoMove W P)} (hw : ∀ t ≤ moves.length, w t = m.worldAt s moves t) :
    m.Kept w (m.run s moves) := by
  induction moves using List.reverseRecOn with
  | nil => exact hs
  | append_singleton moves move ih =>
    have hprefix : ∀ t ≤ moves.length, w t = m.worldAt s moves t := by
      intro t ht
      rw [hw t (by simp; omega), worldAt, worldAt, List.take_append_of_le_length ht]
    have hworld : (m.run s moves).world = w (m.run s moves).now := by
      rw [now_run, hnow, Nat.zero_add, hprefix _ le_rfl, worldAt, List.take_length]
    rw [run_concat]
    exact (ih hprefix).step hlast hworld move

theorem answers_in_time {world : W} {cap : ℕ} {h : 0 < cap} {moves : List (MemoMove W P)}
    (hlast : m.Lasting (m.worldAt (.start world cap h) moves)) {a : MemoAnswer P V}
    (ha : a ∈ (m.run (.start world cap h) moves).answers) :
    m.ValueIn (m.worldAt (.start world cap h) moves) a.arg a.value a.began a.ended :=
  (kept_run (kept_start world cap h) rfl hlast fun _ _ => rfl).answers a ha

end Runs

section Once

variable {m} {cap : ℕ} {hcap : 0 < cap}

/-- The cache after calls that follow each other. -/
def cacheAfter (m : Memo W P K V) (cache : LruCache K V) (calls : List (W × P)) : LruCache K V :=
  calls.foldl (fun cache c => (m.ask c.1 cache c.2).2) cache

def keysOf (m : Memo W P K V) (calls : List (W × P)) : List K :=
  calls.filterMap fun c => m.key c.1 c.2

/-- The value of the first call with a key. -/
def firstValue (m : Memo W P K V) (calls : List (W × P)) (k : K) : Option V :=
  (calls.find? fun c => decide (m.key c.1 c.2 = some k)).map fun c => m.value c.1 c.2

theorem firstValue_concat (calls : List (W × P)) (c : W × P) (k : K) :
    m.firstValue (calls ++ [c]) k = (m.firstValue calls k).or
      (if m.key c.1 c.2 = some k then some (m.value c.1 c.2) else none) := by
  unfold firstValue
  rw [List.find?_append]
  cases calls.find? fun c => decide (m.key c.1 c.2 = some k) with
  | some c' => rfl
  | none =>
    by_cases hk : m.key c.1 c.2 = some k
    · simp [hk]
    · simp [hk]

theorem mem_keysOf_of_firstValue {calls : List (W × P)} {k : K} {v : V}
    (h : m.firstValue calls k = some v) : k ∈ m.keysOf calls := by
  obtain ⟨c, hc, -⟩ := Option.map_eq_some_iff.mp h
  have hkey := List.find?_some hc
  exact List.mem_filterMap.mpr ⟨c, List.mem_of_find?_eq_some hc, of_decide_eq_true hkey⟩

theorem cap_ask (world : W) (cache : LruCache K V) (arg : P) :
    (m.ask world cache arg).2.cap = cache.cap := by
  unfold ask
  cases m.key world arg with
  | none => rfl
  | some k =>
    cases hpeek : cache.peek k with
    | none =>
      simp only [LruCache.get_of_none hpeek]
      rfl
    | some v =>
      simp only [LruCache.get_of_some hpeek]
      rfl

theorem cacheAfter_concat (cache : LruCache K V) (calls : List (W × P)) (c : W × P) :
    m.cacheAfter cache (calls ++ [c]) = (m.ask c.1 (m.cacheAfter cache calls) c.2).2 := by
  rw [cacheAfter, List.foldl_append]
  rfl

theorem cap_cacheAfter (cache : LruCache K V) (calls : List (W × P)) :
    (m.cacheAfter cache calls).cap = cache.cap := by
  induction calls generalizing cache with
  | nil => rfl
  | cons c calls ih => exact (ih _).trans (cap_ask _ _ _)

/-- A cache that has room for all keys never drops one. -/
theorem peek_cacheAfter {calls : List (W × P)} (hkeys : (m.keysOf calls).dedup.length ≤ cap)
    (k : K) : (m.cacheAfter (.empty cap hcap) calls).peek k = m.firstValue calls k := by
  induction calls using List.reverseRecOn generalizing k with
  | nil => exact LruCache.peek_empty cap hcap k
  | append_singleton calls c ih =>
    have hkeysOf : m.keysOf (calls ++ [c]) = m.keysOf calls ++ m.keysOf [c] :=
      List.filterMap_append
    have hfewer : (m.keysOf calls).dedup.length ≤ cap := by
      have hsub : (m.keysOf calls).dedup ⊆ (m.keysOf (calls ++ [c])).dedup := by
        intro k hk
        rw [List.mem_dedup, hkeysOf]
        exact List.mem_append_left _ (List.mem_dedup.mp hk)
      exact le_trans ((List.nodup_dedup _).subperm hsub).length_le hkeys
    have hpeek := ih hfewer
    rw [cacheAfter_concat, firstValue_concat, ← hpeek]
    generalize hcache : m.cacheAfter (.empty cap hcap) calls = cache at hpeek
    cases hkey : m.key c.1 c.2 with
    | none => simp [ask, hkey]
    | some k' =>
      cases hfound : cache.peek k' with
      | some v =>
        have hmem : k' ∈ cache.table := LruCache.peek_isSome.mp (Option.isSome_of_eq_some hfound)
        simp only [ask, hkey, LruCache.get_of_some hfound]
        rw [LruCache.peek_put_of_room (LruCache.victim_eq_none_of_mem hmem)]
        by_cases hk : k = k'
        · subst hk
          rw [if_pos rfl, hfound]
          rfl
        · simp [hk, Ne.symm hk]
      | none =>
        -- all entries and the new key are keys of the calls, so there is room
        have hroom : cache.victim k' = none := by
          have hnew : k' ∈ m.keysOf (calls ++ [c]) := by
            rw [hkeysOf]
            exact List.mem_append_right _ (by simp [keysOf, hkey])
          refine LruCache.victim_eq_none_of_keys (LruCache.peek_eq_none.mp hfound) hnew ?_ ?_
          · intro q hq
            obtain ⟨v, hv⟩ := Option.isSome_iff_exists.mp (LruCache.peek_isSome.mpr hq)
            rw [hkeysOf]
            exact List.mem_append_left _ (mem_keysOf_of_firstValue ((hpeek q).symm.trans hv))
          · rw [← hcache, cap_cacheAfter]
            exact hkeys
        simp only [ask, hkey, LruCache.get_of_none hfound]
        rw [LruCache.peek_put_of_room hroom]
        by_cases hk : k = k'
        · subst hk
          rw [if_pos rfl, hfound]
          simp
        · simp [hk, Ne.symm hk]

theorem peek_cacheAfter_append {before after : List (W × P)}
    (hkeys : (m.keysOf (before ++ after)).dedup.length ≤ cap) {k : K} {v : V}
    (h : (m.cacheAfter (.empty cap hcap) before).peek k = some v) :
    (m.cacheAfter (.empty cap hcap) (before ++ after)).peek k = some v := by
  have hfewer : (m.keysOf before).dedup.length ≤ cap := by
    refine le_trans ((List.nodup_dedup _).subperm fun k hk => ?_).length_le hkeys
    rw [List.mem_dedup, keysOf, List.filterMap_append]
    exact List.mem_append_left _ (List.mem_dedup.mp hk)
  rw [peek_cacheAfter hfewer] at h
  obtain ⟨c, hc, hv⟩ := Option.map_eq_some_iff.mp h
  rw [peek_cacheAfter hkeys, firstValue, List.find?_append, hc]
  exact congrArg some hv

theorem ask_cacheAfter {calls : List (W × P)} {world : W} {arg : P} {k : K}
    (hkeys : (m.keysOf (calls ++ [(world, arg)])).dedup.length ≤ cap)
    (hkey : m.key world arg = some k) :
    some (m.ask world (m.cacheAfter (.empty cap hcap) calls) arg).1 =
      m.firstValue (calls ++ [(world, arg)]) k := by
  have hanswer : (m.ask world (m.cacheAfter (.empty cap hcap) calls) arg).2.peek k =
      some (m.ask world (m.cacheAfter (.empty cap hcap) calls) arg).1 := by
    generalize m.cacheAfter (.empty cap hcap) calls = cache
    cases hfound : cache.peek k with
    | none => simp [ask, hkey, LruCache.get_of_none hfound, LruCache.put]
    | some v => simp [ask, hkey, LruCache.get_of_some hfound, LruCache.put]
  rw [← hanswer, ← peek_cacheAfter hkeys k, cacheAfter_concat]

end Once

end Memo

end Moves

end Library

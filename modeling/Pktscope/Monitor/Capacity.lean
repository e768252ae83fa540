import Pktscope.Monitor.Lifetime

/-! # The bound of the live table

Only the tracker has a bound. A new flow that meets a full tracker drops another
one there, of which the bookkeeping and the live table hear nothing.
-/

namespace Pktscope.Worker

open Library

variable {F : Type} {ctx : WorkerCtx F} {w : Worker F}

/-- The bookkeeping, the live table and the tracker hold the same flows, no more than the tracker
may hold. -/
structure Agree (w : Worker F) : Prop where
  metas : ∀ k, k ∈ w.metas ↔ k ∈ w.live
  tracked : ∀ k, k ∈ w.live ↔ w.tracker.flows.contains k = true
  bounded : w.live.keys.length ≤ maxFlows

/-- The packet opens a flow while the tracker is full. -/
def Overflows (w : Worker F) : Recv → Prop
  | .timeout _ => False
  | .packet pkt _ => ∃ info ∈ extractPktFlowInfo pkt.layers,
      w.tracker.flows.contains info.key = false ∧ w.tracker.len = maxFlows

theorem Tidy.mem_live (hw : Tidy ctx w) (k : FlowKey) : k ∈ w.live ↔ (w.entry k).isSome := by
  rw [← Option.isSome_map (f := Prod.snd), hw.entry_snd, AList.lookup_isSome]

theorem bounded_of_tracked (hw : Tidy ctx w)
    (h : ∀ k, k ∈ w.live ↔ w.tracker.flows.contains k = true) : w.live.keys.length ≤ maxFlows := by
  have hperm : w.live.keys.Perm w.tracker.flows.table.keys := by
    refine (List.perm_ext_iff_of_nodup w.live.keys_nodup w.tracker.flows.table.keys_nodup).mpr ?_
    intro k
    rw [← AList.mem_keys, ← AList.mem_keys, h k, LruCache.contains_iff]
  rw [hperm.length_eq, ← hw.cap]
  exact w.tracker.flows.fits

theorem agree_iff (hw : Tidy ctx w) :
    Agree w ↔ ∀ k, (w.entry k).isSome = (w.tracker.flows.peek k).isSome := by
  have htracked (k : FlowKey) : (k ∈ w.live ↔ w.tracker.flows.contains k = true) ↔
      (w.entry k).isSome = (w.tracker.flows.peek k).isSome := by
    rw [hw.mem_live, LruCache.contains_iff, ← LruCache.peek_isSome]
    exact Bool.eq_iff_iff.symm
  constructor
  · exact fun h k => (htracked k).mp (h.tracked k)
  · intro h
    have hlive := fun k => (htracked k).mpr (h k)
    refine ⟨fun k => ?_, hlive, bounded_of_tracked hw hlive⟩
    rw [← AList.lookup_isSome, ← AList.lookup_isSome, hw.paired]

section Step

variable [F64 F] {i : Recv} {t : Turn F}

theorem overflows_iff (hw : Tidy ctx w) (ht : turnOf ctx w i = some t) :
    Overflows w i ↔ t.evicted.isSome := by
  cases i with
  | timeout nowMs => cases ht
  | packet pkt env =>
    obtain ⟨info, hx, rfl⟩ := Option.map_eq_some_iff.mp ht
    simp only [Overflows, hx, Option.mem_def, Option.some.injEq, exists_eq_left']
    rw [LruCache.victim_isSome, hw.cap, ← LruCache.contains_iff, Bool.not_eq_true]
    rfl

theorem not_overflows_of_none (hn : turnOf ctx w i = none) : ¬ Overflows w i := by
  cases i with
  | timeout nowMs => exact id
  | packet pkt env =>
    rintro ⟨info, hx, -⟩
    rw [turnOf, hx] at hn
    cases hn

theorem agree_step_iff (hw : Tidy ctx w) (ha : Agree w) :
    Agree (step ctx w i) ↔ ¬ Overflows w i := by
  rw [agree_iff hw] at ha
  rw [agree_iff (tidy_step hw i)]
  cases ht : turnOf ctx w i with
  | none =>
    obtain ⟨hm, hl, htr, -⟩ := step_of_none hw ht
    refine iff_of_true (fun k => ?_) (not_overflows_of_none ht)
    rw [htr, ← ha k, entry, entry, hm, hl]
  | some t =>
    have hs := step_of_some hw ht
    rw [overflows_iff hw ht, Option.not_isSome_iff_eq_none]
    constructor
    · intro h
      by_contra hne
      obtain ⟨k, hk⟩ := Option.ne_none_iff_exists'.mp hne
      obtain ⟨hheld, hkey⟩ := peek_evicted ht hk
      have hends : t.endsFlow k = false := by simp [Turn.endsFlow, hkey]
      have hdrops : t.dropsFlow k = true := by simp [Turn.dropsFlow, hk]
      have hk' := h k
      rw [hs.entry, hs.flows, hends, hdrops, if_pos rfl, if_neg Bool.false_ne_true, if_neg hkey, ha k,
        hheld] at hk'
      cases hk'
    · intro hnone k
      have hdrops : t.dropsFlow k = t.endsFlow k := by simp [Turn.dropsFlow, hnone]
      rw [hs.entry, hs.flows, hdrops]
      split_ifs
      · rfl
      · rfl
      · exact ha k

end Step

section Run

variable [F64 F]

/-- The tables agree all along a run exactly when no packet of it opens a flow while the tracker
is full. -/
theorem tables_agree_iff (ctx : WorkerCtx F) (store : Store F) (inputs : List Recv) :
    (∀ n, Agree (steps ctx (start ctx store) (inputs.take n))) ↔
      ∀ n i, inputs[n]? = some i →
        ¬ Overflows (steps ctx (start ctx store) (inputs.take n)) i := by
  have hstart : Agree (start ctx store) :=
    (agree_iff (tidy_start ctx store)).mpr fun _ => rfl
  exact forall_take_iff (I := Tidy ctx) (fun _ i hw => tidy_step hw i)
    (fun _ i hw ha => agree_step_iff hw ha) (tidy_start ctx store) hstart inputs

end Run

section Flood

/-- A datagram of one host from its port `p`. -/
def datagram (p : ℕ) : Recv :=
  .packet (udpPacket 0 60 0x0a000002 (UInt16.ofNat p) 0x0a000009 53) (sampleEnv none)

/-- Datagrams of one host from ever new ports. -/
def flood (n : ℕ) : List Recv := (List.range n).map datagram

def floodKey (p : ℕ) : FlowKey := .new (.v4 0x0a000002) (UInt16.ofNat p) (.v4 0x0a000009) 53 17

theorem floodKey_inj {p q : ℕ} (hp : p < 2 ^ 16) (hq : q < 2 ^ 16) (h : floodKey p = floodKey q) :
    p = q := by
  have hport : UInt16.ofNat p = UInt16.ofNat q := congrArg FlowKey.portLow h
  have hnat : (UInt16.ofNat p).toNat = (UInt16.ofNat q).toNat := congrArg UInt16.toNat hport
  rwa [UInt16.toNat_ofNat', UInt16.toNat_ofNat', Nat.mod_eq_of_lt hp, Nat.mod_eq_of_lt hq] at hnat

variable [F64 F]

theorem live_datagram (hw : Tidy ctx w) {p : ℕ} (hp : floodKey p ∉ w.live) :
    (step ctx w (datagram p)).live.keys = floodKey p :: w.live.keys := by
  obtain ⟨t, ht, hkey, hopen⟩ :
      ∃ t, turnOf ctx w (datagram p) = some t ∧ t.key = floodKey p ∧ t.closed = false :=
    ⟨_, rfl, rfl, rfl⟩
  obtain ⟨-, hl, -, -⟩ := step_tables hw rfl ht
  rw [hopen, hkey] at hl
  rw [AList.mem_keys] at hp
  rw [datagram, hl, if_neg Bool.false_ne_true, AList.keys_insert, List.erase_of_not_mem hp]

theorem live_flood (ctx : WorkerCtx F) (store : Store F) {n : ℕ} (hn : n ≤ 2 ^ 16) :
    (steps ctx (start ctx store) (flood n)).live.keys = ((List.range n).map floodKey).reverse := by
  induction n with
  | zero => rfl
  | succ n ih =>
    have hprev := ih (Nat.le_of_succ_le hn)
    have hnew : floodKey n ∉ (steps ctx (start ctx store) (flood n)).live := by
      rw [AList.mem_keys, hprev, List.mem_reverse, List.mem_map]
      rintro ⟨m, hm, he⟩
      have hlt := List.mem_range.mp hm
      exact absurd (floodKey_inj (by omega) (by omega) he) (Nat.ne_of_lt hlt)
    rw [flood, List.range_succ, List.map_append, steps, List.foldl_append, ← flood, ← steps,
      List.map_append, List.reverse_append, ← hprev]
    exact live_datagram (tidy_steps (tidy_start ctx store) _) hnew

theorem flood_disagrees (ctx : WorkerCtx F) (store : Store F) {n : ℕ} (hn : n ≤ 2 ^ 16)
    (hmore : maxFlows < n) :
    let w := steps ctx (start ctx store) (flood n)
    w.live.keys.length = n ∧ w.tracker.len ≤ maxFlows ∧ ¬ Agree w := by
  intro w
  have hw : Tidy ctx w := tidy_steps (tidy_start ctx store) _
  have hlen : w.live.keys.length = n := by
    rw [live_flood ctx store hn, List.length_reverse, List.length_map, List.length_range]
  refine ⟨hlen, hw.cap ▸ w.tracker.flows.fits, fun h => ?_⟩
  have hle := h.bounded
  omega

/-- With one flow more than the tracker holds, the live table shows one that it has dropped. -/
theorem flood_overflows_live :
    let w := steps (sampleCtx ∅) (start (sampleCtx ∅) Store.openNew) (flood (maxFlows + 1))
    w.live.keys.length = maxFlows + 1 ∧ w.tracker.len ≤ maxFlows ∧ ¬ Agree w :=
  flood_disagrees (sampleCtx ∅) Store.openNew (by decide) (Nat.lt_succ_self _)

end Flood

end Pktscope.Worker

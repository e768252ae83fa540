import Pktscope.Alert.Baseline
import Pktscope.Library.Ewma
import Pktscope.Library.Sessions

/-! # The volume baseline

Over exact rationals, the closed intervals of a process and its open one hold
all bytes that were passed in, and its statistics are those of the closed
intervals.
-/

namespace Pktscope

open Library Library.Prog Store

namespace VolumeStat

/-- The moving mean and variance of a baseline. -/
def ewma (v : VolumeStat ℚ) : Ewma ℚ := ⟨v.ewmaMean, v.ewmaVar⟩

/-- The baseline of a process that has none. -/
def fresh (nowMs : ℤ) : VolumeStat ℚ := ⟨0, 0, 0, nowMs, 0⟩

end VolumeStat

namespace Baseline

section Accumulate

variable (cfg : AlertConfig ℚ) (stat : Option (VolumeStat ℚ)) (bytesUp : ℕ) (nowMs : ℤ)

/-- The sample of an interval that ends now. -/
def sampleOf (v : VolumeStat ℚ) : VolumeSample ℚ where
  x := v.intervalAcc + bytesUp
  mean := v.ewmaMean
  std := F64.sqrt v.ewmaVar
  samples := v.samples + 1

/-- The baseline after an interval that ends now. -/
def closed (v : VolumeStat ℚ) : VolumeStat ℚ :=
  let e := v.ewma.fold cfg.volumeAlpha (v.intervalAcc + bytesUp)
  ⟨e.mean, e.var, 0, nowMs, v.samples + 1⟩

theorem accumulate_eq :
    let v := stat.getD (.fresh nowMs)
    accumulate cfg stat bytesUp nowMs =
      if I64.sub nowMs v.intervalStartMs ≥ cfg.volumeInterval.millisI64 then
        (closed cfg bytesUp nowMs v, some (sampleOf bytesUp v))
      else ({ v with intervalAcc := v.intervalAcc + bytesUp }, none) := by
  have hzero : @OfScientific.ofScientific ℚ F64.toOfScientific 0 true 1 = 0 := by
    change (0.0 : ℚ) = 0
    norm_num
  have hone : @OfScientific.ofScientific ℚ F64.toOfScientific 10 true 1 = 1 := by
    change (1.0 : ℚ) = 1
    norm_num
  simp only [accumulate, hzero, hone]
  rfl

end Accumulate

/-- A call that adds bytes to the baseline of a process. -/
structure VolumeCall where
  cfg : AlertConfig ℚ
  pid : ℕ
  bytesUp : ℕ
  nowMs : ℤ

namespace VolumeCall

variable (c : VolumeCall) (s : Store ℚ)

def apply : Store ℚ := ((updateVolume c.cfg c.pid c.bytesUp c.nowMs).run s).2

/-- The interval that the call closes, if it closes one. -/
def sample : Option (VolumeSample ℚ) := ((updateVolume c.cfg c.pid c.bytesUp c.nowMs).run s).1

/-- The weight of a new sample is a share. -/
def Weighted : Prop := 0 ≤ c.cfg.volumeAlpha ∧ c.cfg.volumeAlpha ≤ 1

end VolumeCall

/-- The intervals of a process that a run closes, in order. -/
def samplesOf (pid : ℕ) (s : Store ℚ) (calls : List VolumeCall) : List (VolumeSample ℚ) :=
  logOf (fun s c => c.apply s) (fun s c => if c.pid = pid then c.sample s else none) s calls

/-- The bytes that a run adds for a process. -/
def fedTo (pid : ℕ) (calls : List VolumeCall) : ℕ :=
  ((calls.filter fun c => decide (c.pid = pid)).map VolumeCall.bytesUp).sum

def statOf (s : Store ℚ) (pid : ℕ) : VolumeStat ℚ := (s.volumes.lookup pid).getD (.fresh 0)

/-- A baseline that accounts for some bytes and closed intervals. -/
structure Accounts (fed : ℕ) (xs : List ℚ) (v : VolumeStat ℚ) : Prop where
  conserved : xs.sum + v.intervalAcc = fed
  counted : v.samples = xs.length
  acc_nonneg : 0 ≤ v.intervalAcc
  mean_nonneg : 0 ≤ v.ewmaMean
  mean_le : v.ewmaMean ≤ xs.foldr max 0
  var_nonneg : 0 ≤ v.ewmaVar

section Step

variable {fed bytesUp : ℕ} {xs : List ℚ} {v : VolumeStat ℚ} {s : Store ℚ} {c : VolumeCall}

theorem Accounts.add (h : Accounts fed xs v) (bytesUp : ℕ) :
    Accounts (fed + bytesUp) xs { v with intervalAcc := v.intervalAcc + bytesUp } where
  conserved := by
    rw [Nat.cast_add, ← h.conserved]
    ring
  counted := h.counted
  acc_nonneg := add_nonneg h.acc_nonneg (Nat.cast_nonneg _)
  mean_nonneg := h.mean_nonneg
  mean_le := h.mean_le
  var_nonneg := h.var_nonneg

theorem le_foldr_max (xs : List ℚ) (x : ℚ) :
    xs.foldr max 0 ≤ (xs ++ [x]).foldr max 0 ∧ x ≤ (xs ++ [x]).foldr max 0 := by
  induction xs with
  | nil => simp
  | cons y xs ih =>
    rw [List.cons_append, List.foldr_cons, List.foldr_cons]
    exact ⟨max_le_max_left y ih.1, ih.2.trans (le_max_right _ _)⟩

theorem Accounts.close (h : Accounts fed xs v) {cfg : AlertConfig ℚ}
    (h0 : 0 ≤ cfg.volumeAlpha) (h1 : cfg.volumeAlpha ≤ 1) (bytesUp : ℕ) (nowMs : ℤ) :
    Accounts (fed + bytesUp) (xs ++ [v.intervalAcc + bytesUp]) (closed cfg bytesUp nowMs v) where
  conserved := by
    rw [List.sum_append, List.sum_singleton, Nat.cast_add, ← h.conserved, closed]
    ring
  counted := by rw [List.length_append, List.length_singleton, ← h.counted, closed]
  acc_nonneg := le_rfl
  mean_nonneg := Ewma.le_mean_fold h0 h1 h.mean_nonneg
    (add_nonneg h.acc_nonneg (Nat.cast_nonneg _))
  mean_le := Ewma.mean_fold_le h0 h1 (h.mean_le.trans (le_foldr_max xs _).1) (le_foldr_max xs _).2
  var_nonneg := Ewma.var_fold_nonneg h0 h1 h.var_nonneg

/-- A call writes the baseline of its own process only. -/
theorem lookup_apply (c : VolumeCall) (s : Store ℚ) (pid : ℕ) :
    (c.apply s).volumes.lookup pid =
      if pid = c.pid then
        some (accumulate c.cfg (s.volumes.lookup c.pid) c.bytesUp c.nowMs).1
      else s.volumes.lookup pid := by
  have hrun : (c.apply s).volumes = s.volumes.insert c.pid
      (accumulate c.cfg (s.volumes.lookup c.pid) c.bytesUp c.nowMs).1 := rfl
  rw [hrun]
  split_ifs with h
  · rw [h, AList.lookup_insert]
  · exact AList.lookup_insert_ne h

theorem sample_eq (c : VolumeCall) (s : Store ℚ) :
    c.sample s = (accumulate c.cfg (s.volumes.lookup c.pid) c.bytesUp c.nowMs).2 := rfl

theorem sample_before (c : VolumeCall) (s : Store ℚ) :
    ∀ sample ∈ c.sample s, sample = sampleOf c.bytesUp (statOf s c.pid) := by
  intro sample hsample
  rw [sample_eq, accumulate_eq] at hsample
  split_ifs at hsample
  · rw [← Option.some.inj hsample, statOf]
    cases s.volumes.lookup c.pid <;> rfl
  · cases hsample

theorem Accounts.apply (h : Accounts fed xs (statOf s c.pid)) (hc : c.Weighted) :
    Accounts (fed + c.bytesUp) (xs ++ ((c.sample s).toList.map VolumeSample.x))
      (statOf (c.apply s) c.pid) := by
  have hold : Accounts fed xs ((s.volumes.lookup c.pid).getD (.fresh c.nowMs)) := by
    cases hs : s.volumes.lookup c.pid with
    | some v =>
      rw [statOf, hs] at h
      exact h
    | none =>
      rw [statOf, hs] at h
      exact ⟨h.conserved, h.counted, h.acc_nonneg, h.mean_nonneg, h.mean_le, h.var_nonneg⟩
  rw [statOf, lookup_apply, if_pos rfl, sample_eq, accumulate_eq, Option.getD_some]
  split_ifs
  · exact hold.close hc.1 hc.2 _ _
  · simpa using hold.add c.bytesUp

end Step

theorem statOf_apply_of_ne {c : VolumeCall} {pid : ℕ} (h : c.pid ≠ pid) (s : Store ℚ) :
    statOf (c.apply s) pid = statOf s pid := by
  rw [statOf, lookup_apply, if_neg h.symm, statOf]

theorem samplesOf_concat (pid : ℕ) (s : Store ℚ) (calls : List VolumeCall) (c : VolumeCall) :
    samplesOf pid s (calls ++ [c]) = samplesOf pid s calls ++
      (if c.pid = pid then c.sample (calls.foldl (fun s c => c.apply s) s) else none).toList :=
  logOf_concat _ _ _ _ _

theorem accounts_run {s : Store ℚ} {pid : ℕ} (hnew : s.volumes.lookup pid = none)
    {calls : List VolumeCall} (hcalls : ∀ c ∈ calls, c.Weighted) :
    Accounts (fedTo pid calls) ((samplesOf pid s calls).map VolumeSample.x)
      (statOf (calls.foldl (fun s c => c.apply s) s) pid) := by
  induction calls using List.reverseRecOn with
  | nil =>
    have hfresh : statOf s pid = .fresh 0 := by rw [statOf, hnew, Option.getD_none]
    rw [List.foldl_nil, hfresh]
    exact ⟨by simp [samplesOf, logOf, fedTo, VolumeStat.fresh], rfl, le_rfl, le_rfl, le_rfl, le_rfl⟩
  | append_singleton calls c ih =>
    have hold := ih fun c hc => hcalls c (List.mem_append_left _ hc)
    have hlast : c.Weighted := hcalls c (List.mem_append_right _ (List.mem_singleton_self c))
    have hfed : fedTo pid (calls ++ [c]) =
        fedTo pid calls + if c.pid = pid then c.bytesUp else 0 := by
      rw [fedTo, List.filter_append, List.map_append, List.sum_append]
      split_ifs with h <;> simp [fedTo, h]
    rw [samplesOf_concat, List.map_append, hfed, List.foldl_append, List.foldl_cons,
      List.foldl_nil]
    split_ifs with h
    · subst h
      exact hold.apply hlast
    · rw [statOf_apply_of_ne h]
      simpa using hold

/-- In every run the closed intervals and the open one of a process hold all its bytes, the
statistics are within the samples, and a new sample carries those from before it. -/
theorem updateVolume_run {s : Store ℚ} {pid : ℕ} (hnew : s.volumes.lookup pid = none)
    {calls : List VolumeCall} (hcalls : ∀ c ∈ calls, c.Weighted) :
    let t := calls.foldl (fun s c => c.apply s) s
    let xs := (samplesOf pid s calls).map VolumeSample.x
    let v := statOf t pid
    xs.sum + v.intervalAcc = fedTo pid calls ∧ v.samples = xs.length ∧ 0 ≤ v.ewmaMean ∧
      v.ewmaMean ≤ xs.foldr max 0 ∧ 0 ≤ v.ewmaVar ∧
      ∀ c : VolumeCall, c.pid = pid → ∀ sample ∈ c.sample t,
        sample.mean = v.ewmaMean ∧ sample.std = F64.sqrt v.ewmaVar := by
  intro t xs v
  have h : Accounts (fedTo pid calls) xs v := accounts_run hnew hcalls
  refine ⟨h.conserved, h.counted, h.mean_nonneg, h.mean_le, h.var_nonneg, ?_⟩
  rintro c rfl sample hsample
  rw [sample_before c t sample hsample]
  exact ⟨rfl, rfl⟩

section Samples

/-- Half of a new sample, at intervals of one minute. -/
def halfConfig : AlertConfig ℚ := { AlertConfig.default with volumeAlpha := 1 / 2 }

/-- Two processes, of which the first closes an interval. -/
def sampleCalls : List VolumeCall :=
  [⟨halfConfig, 1, 1000, 0⟩, ⟨halfConfig, 2, 70, 10⟩, ⟨halfConfig, 1, 500, 60000⟩]

theorem updateVolume_run_sample :
    ((samplesOf 1 openNew sampleCalls).map VolumeSample.x).sum +
      (statOf (sampleCalls.foldl (fun s c => c.apply s) openNew) 1).intervalAcc =
        fedTo 1 sampleCalls :=
  (updateVolume_run rfl (by
    intro c hc
    have hcfg : c.cfg = halfConfig := by
      revert hc
      simp only [sampleCalls, List.mem_cons, List.not_mem_nil, or_false]
      rintro (rfl | rfl | rfl) <;> rfl
    rw [VolumeCall.Weighted, hcfg, halfConfig]
    norm_num)).1

end Samples

end Baseline

end Pktscope

import Pktscope.Store.Queries

/-! # The baseline

The learning window, whose times are kept in the store so that a restart
resumes it, and the moving average of each process's outbound volume.
-/

namespace Pktscope

open Store

structure AlertConfig (F : Type) where
  learningWindow : Duration
  volumeInterval : Duration
  volumeAlpha : F
  volumeZThreshold : F
  volumeAbsFloorBytes : ℕ
  volumeMinSamples : ℕ
  cooldown : Duration
  flagSignedUpdates : Bool

variable {F : Type} [F64 F]

def AlertConfig.default : AlertConfig F where
  learningWindow := .fromSecs (7 * 24 * 3600)
  volumeInterval := .fromSecs 60
  volumeAlpha := 0.3
  volumeZThreshold := 4.0
  volumeAbsFloorBytes := 5 * 1024 * 1024
  volumeMinSamples := 8
  cooldown := .fromSecs 3600
  flagSignedUpdates := false

/-- A short learning window, to exercise the signals quickly. -/
def AlertConfig.demo : AlertConfig F := { default with learningWindow := .fromSecs 5 }

namespace Baseline

/-- When a window that starts now ends. -/
def endsAt (cfg : AlertConfig F) (nowMs : ℤ) : ℤ :=
  I64.saturatingAdd nowMs cfg.learningWindow.millisI64

/-- Start the lifecycle unless it has a state: three writes, the state first. -/
def startLearning (cfg : AlertConfig F) (nowMs : ℤ) : StoreM F Unit := do
  match ← metaGet "baseline_state" with
  | some _ => return ()
  | none =>
    metaSet "baseline_state" "learning"
    metaSet "learning_started_ms" (toString nowMs)
    metaSet "learning_ends_ms" (toString (endsAt cfg nowMs))

/-- Leave the learning state once its window has elapsed. -/
def promote (nowMs : ℤ) : StoreM F Unit := do
  match ← baselineState with
  | .active => return ()
  | .learning =>
    match ← metaGetI64 "learning_ends_ms" with
    | none => return ()
    | some ends => if nowMs ≥ ends then metaSet "baseline_state" "active" else return ()

def ensureStarted (cfg : AlertConfig F) (nowMs : ℤ) : StoreM F BaselineState := do
  startLearning cfg nowMs
  promote nowMs
  baselineState

/-- A closed interval, judged against the statistics from before it was folded in. -/
structure VolumeSample (F : Type) where
  x : F
  mean : F
  std : F
  samples : ℕ

/-- Add bytes to the open interval, and close it if its length has elapsed. -/
def accumulate (cfg : AlertConfig F) (stat : Option (VolumeStat F)) (bytesUp : ℕ) (nowMs : ℤ) :
    VolumeStat F × Option (VolumeSample F) :=
  let v := stat.getD {
    ewmaMean := 0.0, ewmaVar := 0.0, intervalAcc := 0.0, intervalStartMs := nowMs, samples := 0 }
  let v := { v with intervalAcc := v.intervalAcc + F64.ofNat bytesUp }
  if I64.sub nowMs v.intervalStartMs ≥ cfg.volumeInterval.millisI64 then
    let x := v.intervalAcc
    let alpha := cfg.volumeAlpha
    let delta := x - v.ewmaMean
    ({ ewmaMean := v.ewmaMean + alpha * delta
       ewmaVar := (1.0 - alpha) * (v.ewmaVar + alpha * delta * delta)
       intervalAcc := 0.0
       intervalStartMs := nowMs
       samples := v.samples + 1 },
      some { x, mean := v.ewmaMean, std := F64.sqrt v.ewmaVar, samples := v.samples + 1 })
  else (v, none)

def updateVolume (cfg : AlertConfig F) (processId bytesUp : ℕ) (nowMs : ℤ) :
    StoreM F (Option (VolumeSample F)) := do
  let stat ← getVolumeStat processId
  let (v, sample) := accumulate cfg stat bytesUp nowMs
  upsertVolumeStat processId v
  return sample

end Baseline

end Pktscope

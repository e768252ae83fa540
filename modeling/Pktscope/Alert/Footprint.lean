import Pktscope.Alert.Detectors

/-! # Footprints of the detectors

Which tables each part of an evaluation writes: whatever reads only the other
tables is the same before it, after it, and wherever it is cut.
-/

namespace Pktscope

open Library Library.Prog Library.Sql Store

variable {F β : Type} {f : Store F → β}

namespace Store

theorem metaGet_keeps (key : String) : Keeps f (metaGet key) := keeps_query _

theorem metaSet_keeps (hm : ∀ s x, f { s with metaRows := x } = f s) (key value : String) :
    Keeps f (metaSet key value) := keeps_write fun _ => hm _ _

theorem upsertProcess_keeps (hp : ∀ s x, f { s with processes := x } = f s) (exe name : String)
    (ts : ℤ) : Keeps f (upsertProcess exe name ts) := by
  refine keeps_bind (keeps_query _) fun found => ?_
  cases found with
  | some id => exact keeps_bind (keeps_write fun _ => hp _ _) fun _ => trivial
  | none => exact keeps_bind (keeps_exec fun _ => hp _ _) fun _ => trivial

/-- Of a process, recording an identity changes only which one is current. -/
theorem recordIdentity_keeps {pid : ℕ}
    (hp : ∀ (s : Store F) id, f { s with
      processes := update ProcessRow.id pid (fun r => { r with curIdentityId := id })
        s.processes } = f s)
    (hi : ∀ s x, f { s with identities := x } = f s) (ident : BinaryIdentity) (ts : ℤ) :
    Keeps f (recordIdentity pid ident ts) :=
  keeps_bind (keeps_exec fun _ => hi _ _) fun _ => keeps_bind (keeps_query _) fun id =>
    keeps_bind (keeps_write fun s => hp s id) fun _ => trivial

theorem upsertDestination_keeps (hd : ∀ s x, f { s with destinations := x } = f s) (ip : IpAddr)
    (name : Option String) (geo : GeoInfo) (ts : ℤ) :
    Keeps f (upsertDestination ip name geo ts) := by
  refine keeps_bind (keeps_query _) fun found => ?_
  cases found with
  | some id => exact keeps_bind (keeps_write fun _ => hd _ _) fun _ => trivial
  | none => exact keeps_exec fun _ => hd _ _

theorem touchPair_keeps (hp : ∀ s x, f { s with pairs := x } = f s) (pid destId : ℕ) (ts : ℤ) :
    Keeps f (touchPair pid destId ts) := by
  refine keeps_bind (keeps_query _) fun found => ?_
  cases found with
  | some id => exact keeps_bind (keeps_write fun _ => hp _ _) fun _ => trivial
  | none => exact keeps_bind (keeps_exec fun _ => hp _ _) fun _ => trivial

theorem insertAlert_keeps {alert : Alert F}
    (ha : ∀ s, f { s with alerts := s.alerts ++ [s.alertRow alert] } = f s) (cooldown : ℤ) :
    Keeps f (insertAlert alert cooldown) := by
  refine keeps_bind (keeps_query _) fun recent => ?_
  split
  · exact keeps_pure _
  · exact keeps_bind (keeps_exec ha) fun _ => trivial

end Store

namespace Baseline

variable (cfg : AlertConfig F) (nowMs : ℤ)

theorem ensureStarted_keeps (hm : ∀ s x, f { s with metaRows := x } = f s) :
    Keeps f (ensureStarted cfg nowMs) := by
  have hstate : Keeps f (baselineState : StoreM F BaselineState) :=
    keeps_bind (metaGet_keeps _) fun _ => trivial
  refine keeps_bind (keeps_bind (metaGet_keeps _) fun found => ?_) fun _ =>
    keeps_bind (keeps_bind hstate fun st => ?_) fun _ => hstate
  · cases found with
    | some text => trivial
    | none =>
      exact keeps_bind (metaSet_keeps hm _ _) fun _ => keeps_bind (metaSet_keeps hm _ _) fun _ =>
        metaSet_keeps hm _ _
  · cases st with
    | active => trivial
    | learning =>
      refine keeps_bind (keeps_bind (metaGet_keeps _) fun _ => trivial) fun ends => ?_
      cases ends with
      | none => trivial
      | some ends =>
        dsimp only
        split
        · exact metaSet_keeps hm _ _
        · trivial

theorem updateVolume_keeps [F64 F] (hv : ∀ s x, f { s with volumes := x } = f s) (pid bytes : ℕ) :
    Keeps f (updateVolume cfg pid bytes nowMs) :=
  keeps_bind (keeps_query _) fun _ => keeps_bind (keeps_write fun _ => hv _ _) fun _ => trivial

end Baseline

namespace AlertEngine

/-- `f` does not see an alert of this kind being stored. -/
def Ignores (f : Store F → β) (alert : Alert F) : Prop :=
  ∀ s : Store F, f { s with alerts := s.alerts ++ [s.alertRow alert] } = f s

theorem emit_keeps {alert : Alert F} (ha : Ignores f alert) (cfg : AlertConfig F)
    (out : List (Alert F)) : Keeps f (emit cfg out alert) := by
  refine keeps_bind (insertAlert_keeps ha _) fun id => ?_
  cases id <;> trivial

/-- A cooldown is not touched by an alert with another key. -/
theorem ignores_lastAlertTs {alert : Alert F} {key : String} (h : alert.dedupKey ≠ key) :
    Ignores (fun s => s.lastAlertTs key) alert := by
  intro s
  have hk : ¬ (s.alertRow alert).dedupKey = key := h
  simp [lastAlertTs, List.filter_append, hk]

variable {cfg : AlertConfig F} {ev : FlowEvent} {sub : Subject} {out : List (Alert F)}

theorem newProcessEgress_keeps (ha : Ignores f (egressAlert ev sub)) (wasNew : Bool) :
    Keeps f (newProcessEgress cfg ev sub wasNew out) := by
  unfold newProcessEgress
  split
  · exact emit_keeps ha _ _
  · trivial

theorem identityChange_keeps
    (hp : ∀ (s : Store F) id, f { s with
      processes := update ProcessRow.id sub.pidRow (fun r => { r with curIdentityId := id })
        s.processes } = f s)
    (hi : ∀ s x, f { s with identities := x } = f s)
    (ha : ∀ base ident, Ignores f (identityAlert ev sub base ident)) :
    Keeps f (identityChange cfg ev sub out) := by
  unfold identityChange
  cases ev.identity with
  | none => trivial
  | some ident =>
    refine keeps_bind (keeps_query _) fun base => keeps_bind (recordIdentity_keeps hp hi _ _)
      fun _ => ?_
    cases base with
    | none => trivial
    | some base =>
      dsimp only
      split
      · exact emit_keeps (ha _ _) _ _
      · trivial

theorem newProcessDest_keeps (hl : ∀ s x, f { s with labels := x } = f s)
    (hp : ∀ s x, f { s with pairs := x } = f s) (ha : Ignores f (destAlert ev sub)) :
    Keeps f (newProcessDest cfg ev sub out) := by
  refine keeps_bind (keeps_exec fun _ => hl _ _) fun _ => keeps_bind (touchPair_keeps hp _ _ _)
    fun _ => ?_
  split
  · exact emit_keeps ha _ _
  · trivial

theorem newCountry_keeps (hc : ∀ s x, f { s with countries := x } = f s)
    (ha : ∀ cc, Ignores f (countryAlert ev sub cc)) : Keeps f (newCountry cfg ev sub out) := by
  unfold newCountry
  cases ev.geo.country with
  | none => trivial
  | some cc =>
    refine keeps_bind (keeps_exec fun _ => hc _ _) fun _ => ?_
    split
    · exact emit_keeps (ha _) _ _
    · trivial

theorem newAsn_keeps (hn : ∀ s x, f { s with asns := x } = f s)
    (ha : ∀ asn, Ignores f (asnAlert ev sub asn)) : Keeps f (newAsn cfg ev sub out) := by
  unfold newAsn
  cases ev.geo.asn with
  | none => trivial
  | some asn =>
    refine keeps_bind (keeps_exec fun _ => hn _ _) fun _ => ?_
    split
    · exact emit_keeps (ha _) _ _
    · trivial

theorem volumeSpike_keeps [F64 F] (hv : ∀ s x, f { s with volumes := x } = f s)
    (ha : ∀ sample, Ignores f (volumeAlert ev sub sample)) :
    Keeps f (volumeSpike cfg ev sub out) := by
  refine keeps_bind (Baseline.updateVolume_keeps _ _ hv _ _) fun sample => ?_
  cases sample with
  | none => trivial
  | some sample =>
    dsimp only
    split
    · exact emit_keeps (ha _) _ _
    · trivial

theorem recordObserved_keeps (hn : ∀ s x, f { s with names := x } = f s) :
    Keeps f (recordObserved ev : StoreM F Unit) := by
  unfold recordObserved
  cases ev.name with
  | none => trivial
  | some name => exact keeps_write fun _ => hn _ _

end AlertEngine

end Pktscope

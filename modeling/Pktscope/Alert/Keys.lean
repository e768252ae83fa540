import Pktscope.Alert.Detectors

/-! # Cooldown keys

Every signal has its own form of cooldown key, so an alert can only be held
back by an earlier alert of the same signal about the same subject.
-/

namespace Pktscope.AlertEngine

open Library

section ToList

theorem toList_egressKey (exe : String) :
    (egressKey exe).toList = "egress|".toList ++ exe.toList := by
  simp only [egressKey, String.toList_append]
  rfl

theorem toList_identityKey (exe value : String) :
    (identityKey exe value).toList = "identity|".toList ++ (exe.toList ++ '|' :: value.toList) := by
  simp only [identityKey, String.toList_append, List.append_assoc]
  rfl

theorem toList_destKey (pidRow : ℕ) (label : String) :
    (destKey pidRow label).toList =
      "dest|".toList ++ (Nat.toDigits 10 pidRow ++ '|' :: label.toList) := by
  simp only [destKey, String.toList_append, List.append_assoc, Nat.toString_eq_repr,
    Nat.toList_repr]
  rfl

theorem toList_countryKey (pidRow : ℕ) (country : String) :
    (countryKey pidRow country).toList =
      "geo|".toList ++ (Nat.toDigits 10 pidRow ++ '|' :: ("cc|".toList ++ country.toList)) := by
  simp only [countryKey, String.toList_append, List.append_assoc, Nat.toString_eq_repr,
    Nat.toList_repr]
  rfl

theorem toList_asnKey (pidRow asn : ℕ) :
    (asnKey pidRow asn).toList =
      "geo|".toList ++
        (Nat.toDigits 10 pidRow ++ '|' :: ("asn|".toList ++ Nat.toDigits 10 asn)) := by
  simp only [asnKey, String.toList_append, List.append_assoc, Nat.toString_eq_repr,
    Nat.toList_repr]
  rfl

theorem toList_volumeKey (pidRow : ℕ) :
    (volumeKey pidRow).toList = "volume|".toList ++ Nat.toDigits 10 pidRow := by
  simp only [volumeKey, String.toList_append, Nat.toString_eq_repr, Nat.toList_repr]
  rfl

end ToList

/-- The signals of the engine, the third one in its two forms. -/
inductive Signal where
  | egress | identity | dest | country | network | volume
  deriving DecidableEq

/-- The signal that a cooldown key belongs to. -/
def signalOf (key : String) : Option Signal :=
  match key.toList with
  | 'e' :: _ => some .egress
  | 'i' :: _ => some .identity
  | 'd' :: _ => some .dest
  | 'v' :: _ => some .volume
  | 'g' :: 'e' :: 'o' :: '|' :: rest =>
    match rest.dropWhile (· != '|') with
    | '|' :: 'c' :: _ => some .country
    | '|' :: 'a' :: _ => some .network
    | _ => none
  | _ => none

@[simp] theorem signalOf_egressKey (exe : String) : signalOf (egressKey exe) = some .egress := by
  rw [signalOf, toList_egressKey]
  rfl

@[simp] theorem signalOf_identityKey (exe value : String) :
    signalOf (identityKey exe value) = some .identity := by
  rw [signalOf, toList_identityKey]
  rfl

@[simp] theorem signalOf_destKey (pidRow : ℕ) (label : String) :
    signalOf (destKey pidRow label) = some .dest := by
  rw [signalOf, toList_destKey]
  rfl

@[simp] theorem signalOf_volumeKey (pidRow : ℕ) : signalOf (volumeKey pidRow) = some .volume := by
  rw [signalOf, toList_volumeKey]
  rfl

theorem dropWhile_toDigits (n : ℕ) (rest : List Char) :
    (Nat.toDigits 10 n ++ '|' :: rest).dropWhile (· != '|') = '|' :: rest := by
  rw [List.dropWhile_append_of_pos]
  · rfl
  · intro c hc
    have hne : c ≠ '|' := by
      rintro rfl
      exact not_mem_toDigits rfl n hc
    simpa using hne

/-- The third signal has its form behind the row. -/
theorem signalOf_geo {key : String} {pidRow : ℕ} {rest : List Char} :
    key.toList = "geo|".toList ++ (Nat.toDigits 10 pidRow ++ '|' :: rest) →
      signalOf key = match '|' :: rest with
        | '|' :: 'c' :: _ => some .country
        | '|' :: 'a' :: _ => some .network
        | _ => none := by
  intro h
  rw [signalOf, h]
  change (match (Nat.toDigits 10 pidRow ++ '|' :: rest).dropWhile (· != '|') with
    | '|' :: 'c' :: _ => some Signal.country
    | '|' :: 'a' :: _ => some .network
    | _ => none) = _
  rw [dropWhile_toDigits]

@[simp] theorem signalOf_countryKey (pidRow : ℕ) (country : String) :
    signalOf (countryKey pidRow country) = some .country :=
  signalOf_geo (toList_countryKey pidRow country)

@[simp] theorem signalOf_asnKey (pidRow asn : ℕ) :
    signalOf (asnKey pidRow asn) = some .network :=
  signalOf_geo (toList_asnKey pidRow asn)

section Alerts

variable {F : Type} (ev : FlowEvent) (sub : Subject)

theorem signalOf_egressAlert :
    signalOf (egressAlert ev sub : Alert F).dedupKey = some .egress :=
  signalOf_egressKey sub.proc.exe

theorem signalOf_identityAlert (base ident : BinaryIdentity) :
    signalOf (identityAlert ev sub base ident : Alert F).dedupKey = some .identity :=
  signalOf_identityKey sub.proc.exe ident.value

theorem signalOf_destAlert : signalOf (destAlert ev sub : Alert F).dedupKey = some .dest :=
  signalOf_destKey sub.pidRow ev.stableLabel

theorem signalOf_countryAlert (cc : String) :
    signalOf (countryAlert ev sub cc : Alert F).dedupKey = some .country :=
  signalOf_countryKey sub.pidRow cc

theorem signalOf_asnAlert (asn : ℕ) :
    signalOf (asnAlert ev sub asn : Alert F).dedupKey = some .network :=
  signalOf_asnKey sub.pidRow asn

theorem signalOf_volumeAlert [F64 F] (sample : Baseline.VolumeSample F) :
    signalOf (volumeAlert ev sub sample).dedupKey = some .volume :=
  signalOf_volumeKey sub.pidRow

end Alerts

theorem ne_of_signalOf {k k' : String} (h : signalOf k ≠ signalOf k') : k ≠ k' :=
  fun hk => h (congrArg signalOf hk)

section Injective

variable {i j : ℕ}

/-- A number and the rest of a key after it can be told apart. -/
theorem digits_append_inj {a b : List Char}
    (h : Nat.toDigits 10 i ++ '|' :: a = Nat.toDigits 10 j ++ '|' :: b) : i = j ∧ a = b := by
  obtain ⟨hd, hr⟩ := append_cons_inj (not_mem_toDigits rfl i) (not_mem_toDigits rfl j) h
  refine ⟨?_, hr⟩
  have hi := parseNat_toDigits i
  rw [hd, parseNat_toDigits] at hi
  exact (Option.some.inj hi).symm

theorem egressKey_inj {exe exe' : String} (h : egressKey exe = egressKey exe') : exe = exe' := by
  have hl := congrArg String.toList h
  rw [toList_egressKey, toList_egressKey] at hl
  exact String.toList_inj.mp (List.append_cancel_left hl)

theorem destKey_inj {l l' : String} (h : destKey i l = destKey j l') : i = j ∧ l = l' := by
  have hl := congrArg String.toList h
  rw [toList_destKey, toList_destKey] at hl
  obtain ⟨hi, hs⟩ := digits_append_inj (List.append_cancel_left hl)
  exact ⟨hi, String.toList_inj.mp hs⟩

theorem countryKey_inj {c c' : String} (h : countryKey i c = countryKey j c') : i = j ∧ c = c' := by
  have hl := congrArg String.toList h
  rw [toList_countryKey, toList_countryKey] at hl
  obtain ⟨hi, hs⟩ := digits_append_inj (List.append_cancel_left hl)
  exact ⟨hi, String.toList_inj.mp (List.append_cancel_left hs)⟩

theorem asnKey_inj {n n' : ℕ} (h : asnKey i n = asnKey j n') : i = j ∧ n = n' := by
  have hl := congrArg String.toList h
  rw [toList_asnKey, toList_asnKey] at hl
  obtain ⟨hi, hs⟩ := digits_append_inj (List.append_cancel_left hl)
  refine ⟨hi, ?_⟩
  have hn := parseNat_toDigits n
  rw [List.append_cancel_left hs, parseNat_toDigits] at hn
  exact (Option.some.inj hn).symm

end Injective

end Pktscope.AlertEngine

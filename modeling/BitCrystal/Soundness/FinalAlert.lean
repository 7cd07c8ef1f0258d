import BitCrystal.Model.Alert

/-! # The final alert

Cancelling comes before the check whether an alert has been cancelled. The final alert therefore stays
as long as no alert is processed that reaches its number, and it cancels every other alert.
-/

namespace BitCrystal

/-- The alert gets as far as cancelling, and what it cancels includes the number of the final alert. -/
def CAlert.ReachesFinal (adjustedTime : ℤ) (alert : CAlert) : Prop :=
  alert.isInEffect adjustedTime ∧ (alert.nID = maxInt → alert.isKeyCompromised) ∧
    (alert.nCancel = maxInt ∨ maxInt ∈ alert.setCancel)

/-- An alert processed at a time. -/
structure AlertEvent where
  adjustedTime : ℤ
  alert : CAlert

namespace AlertMap

variable {alertKey : AlertKey} {mapAlerts : AlertMap}

def process (alertKey : AlertKey) (mapAlerts : AlertMap) (event : AlertEvent) : Check Bool × AlertMap :=
  processAlert alertKey event.adjustedTime event.alert mapAlerts

def run (alertKey : AlertKey) (events : List AlertEvent) : AlertMap :=
  events.foldl (fun mapAlerts event => (mapAlerts.process alertKey event).2) []

theorem run_append (events later : List AlertEvent) :
    run alertKey (events ++ later) =
      later.foldl (fun mapAlerts event => (mapAlerts.process alertKey event).2) (run alertKey events) :=
  List.foldl_append ..

variable {event : AlertEvent} {adjustedTime : ℤ} {alert : CAlert} {hash : Uint256}

/-- What accepting an alert requires, and what the map is then. -/
theorem process_accepted (accepted : (mapAlerts.process alertKey event).1 = .ok true) :
    ∃ alert, event.alert.checkSignature alertKey = .ok alert ∧ alert.isInEffect event.adjustedTime ∧
      (alert.nID = maxInt → alert.isKeyCompromised) ∧
      (∀ hash old, (hash, old) ∈ cancelPrevious event.adjustedTime alert mapAlerts →
        old.cancels event.adjustedTime alert = false) ∧ (mapAlerts.process alertKey event).2 =
        insertAlert (alert.getHash alertKey) alert (cancelPrevious event.adjustedTime alert mapAlerts) := by
  rw [process, processAlert] at accepted ⊢
  rcases checked : event.alert.checkSignature alertKey with failure | alert
  · rw [checked] at accepted
    cases failure <;> cases accepted
  · rw [checked] at accepted
    simp only [Except.ok.injEq, processChecked] at accepted ⊢
    split_ifs at accepted ⊢ with expired format cancelled
    refine ⟨alert, rfl, by simpa using expired, by simpa using format, ?_, rfl⟩
    intro hash old member
    rw [Bool.not_eq_true, List.any_eq_false] at cancelled
    simpa using cancelled (hash, old) member

/-- What any alert leaves of the map. -/
theorem process_cases (mapAlerts : AlertMap) (event : AlertEvent) :
    (mapAlerts.process alertKey event).2 = mapAlerts ∨ ∃ alert, event.alert.checkSignature alertKey = .ok alert ∧
      alert.isInEffect event.adjustedTime ∧ (alert.nID = maxInt → alert.isKeyCompromised) ∧
      ((mapAlerts.process alertKey event).2 = cancelPrevious event.adjustedTime alert mapAlerts ∨
        (mapAlerts.process alertKey event).2 =
          insertAlert (alert.getHash alertKey) alert (cancelPrevious event.adjustedTime alert mapAlerts)) := by
  rw [process, processAlert]
  rcases checked : event.alert.checkSignature alertKey with failure | alert
  · cases failure <;> exact .inl rfl
  · simp only [processChecked]
    split_ifs with effect format cancelled
    · exact .inl rfl
    · exact .inr ⟨alert, rfl, effect, by simpa using format, .inl rfl⟩
    · exact .inr ⟨alert, rfl, effect, by simpa using format, .inr rfl⟩
    · exact .inl rfl

theorem mem_cancelPrevious {old : CAlert} : (hash, old) ∈ cancelPrevious adjustedTime alert mapAlerts ↔
      (hash, old) ∈ mapAlerts ∧ alert.cancels adjustedTime old = false ∧ old.isInEffect adjustedTime := by
  simp [cancelPrevious]

theorem mem_insertAlert {item : Uint256 × CAlert}
    (member : item ∈ insertAlert hash alert mapAlerts) : item = (hash, alert) ∨ item ∈ mapAlerts := by
  rw [insertAlert] at member
  split_ifs at member
  · exact .inr member
  · exact List.mem_cons.mp member

theorem mem_insertAlert_of_mem {item : Uint256 × CAlert} (member : item ∈ mapAlerts) :
    item ∈ insertAlert hash alert mapAlerts := by
  rw [insertAlert]
  split_ifs
  · exact member
  · exact List.mem_cons_of_mem _ member

/-! ## The final alert -/

/-- Every alert with the reserved number has the pre-defined form. -/
def Formed (mapAlerts : AlertMap) : Prop :=
  ∀ hash alert, (hash, alert) ∈ mapAlerts → alert.nID = maxInt → alert.isKeyCompromised

theorem Formed.process (formed : mapAlerts.Formed) (event : AlertEvent) :
    (mapAlerts.process alertKey event).2.Formed := by
  rcases process_cases mapAlerts event with same | ⟨alert, -, -, format, left | left⟩
  · rwa [same]
  · rw [left]
    exact fun hash old member => formed hash old (mem_cancelPrevious.mp member).1
  · rw [left]
    intro hash old member
    rcases mem_insertAlert member with equal | before
    · cases equal
      exact format
    · exact formed hash old (mem_cancelPrevious.mp before).1

theorem Formed.processAll (formed : mapAlerts.Formed) (events : List AlertEvent) :
    Formed (events.foldl (fun mapAlerts event => (mapAlerts.process alertKey event).2) mapAlerts) := by
  induction events generalizing mapAlerts with
  | nil => exact formed
  | cons event rest ih => exact ih (formed.process event)

theorem formed_run (events : List AlertEvent) : (run alertKey events).Formed :=
  Formed.processAll (fun _ _ member => absurd member List.not_mem_nil) events

/-- The final alert is there under the hash. -/
def Final (mapAlerts : AlertMap) (hash : Uint256) : Prop :=
  ∃ alert, (hash, alert) ∈ mapAlerts ∧ alert.nID = maxInt ∧ alert.isKeyCompromised

private theorem eq_maxInt_of_not_le {n : Int32} (above : ¬ n ≤ maxInt - 1) : n = maxInt := by
  have high := Int32.toInt_le n
  have value : maxInt.toInt = 2147483647 := rfl
  have previous : (maxInt - 1).toInt = 2147483646 := rfl
  rw [Int32.le_iff_toInt_le, previous] at above
  apply Int32.toInt_inj.mp
  rw [value]
  have limit : Int32.maxValue.toInt = 2147483647 := rfl
  omega

private theorem eq_maxInt_of_le {n : Int32} (above : maxInt ≤ n) : n = maxInt :=
  Int32.le_antisymm (Int32.le_iff_toInt_le.mpr (Int32.toInt_le n)) above

/-- A final alert cancels every other alert. -/
theorem cancels_of_final {other : CAlert} (compromised : alert.isKeyCompromised)
    (effect : alert.isInEffect adjustedTime) (smaller : other.nID ≠ maxInt) : alert.cancels adjustedTime other := by
  simp only [CAlert.isKeyCompromised, decide_eq_true_eq] at compromised
  have low : other.nID ≤ maxInt - 1 := not_not.mp fun above => smaller (eq_maxInt_of_not_le above)
  rw [CAlert.cancels, if_neg (not_not.mpr effect), compromised.2.1]
  exact decide_eq_true (.inl low)

theorem isInEffect_of_final (compromised : alert.isKeyCompromised)
    (time : adjustedTime < maxInt.toInt) : alert.isInEffect adjustedTime := by
  simp only [CAlert.isKeyCompromised, decide_eq_true_eq] at compromised
  rw [CAlert.isInEffect, compromised.1]
  exact decide_eq_true time

/-- An accepted final alert is there: everything it did not cancel has the reserved number. -/
theorem final_of_accepted (formed : mapAlerts.Formed)
    (checked : event.alert.checkSignature alertKey = .ok alert) (reserved : alert.nID = maxInt)
    (accepted : (mapAlerts.process alertKey event).1 = .ok true) :
    Final (mapAlerts.process alertKey event).2 (alert.getHash alertKey) := by
  obtain ⟨alert', checked', effect, format, -, left⟩ := process_accepted accepted
  rw [checked, Except.ok.injEq] at checked'
  subst checked'
  rw [left, insertAlert]
  split_ifs with present
  · obtain ⟨⟨hash, old⟩, member, rfl⟩ := List.mem_map.mp present
    obtain ⟨before, spared, -⟩ := mem_cancelPrevious.mp member
    have others : old.nID = maxInt := by
      by_contra smaller
      rw [cancels_of_final (format reserved) effect smaller] at spared
      cases spared
    exact ⟨old, member, others, formed _ old before others⟩
  · exact ⟨alert, List.mem_cons_self .., reserved, format reserved⟩

/-- An alert that does not reach the final one leaves it, and is not accepted unless it is final itself. -/
theorem Final.process (final : mapAlerts.Final hash) (time : event.adjustedTime < maxInt.toInt)
    (spares : ∀ alert, event.alert.checkSignature alertKey = .ok alert → ¬ alert.ReachesFinal event.adjustedTime) :
    (mapAlerts.process alertKey event).2.Final hash ∧
      ∀ alert, event.alert.checkSignature alertKey = .ok alert → alert.nID < maxInt →
        (mapAlerts.process alertKey event).1 ≠ .ok true := by
  obtain ⟨last, member, reserved, compromised⟩ := final
  have effect := isInEffect_of_final compromised time
  have stays {alert : CAlert} (checked : event.alert.checkSignature alertKey = .ok alert)
      (inEffect : alert.isInEffect event.adjustedTime) (format : alert.nID = maxInt → alert.isKeyCompromised) :
      (hash, last) ∈ cancelPrevious event.adjustedTime alert mapAlerts := by
    refine mem_cancelPrevious.mpr ⟨member, ?_, effect⟩
    obtain ⟨low, unlisted⟩ : alert.nCancel ≠ maxInt ∧ maxInt ∉ alert.setCancel :=
      not_or.mp fun reaches => spares alert checked ⟨inEffect, format, reaches⟩
    rw [CAlert.cancels, if_neg (not_not.mpr inEffect), reserved]
    exact decide_eq_false (not_or.mpr ⟨fun above => low (eq_maxInt_of_le above), unlisted⟩)
  constructor
  · rcases process_cases mapAlerts event with same | ⟨alert, checked, inEffect, format, left | left⟩
    · rw [same]
      exact ⟨last, member, reserved, compromised⟩
    · rw [left]
      exact ⟨last, stays checked inEffect format, reserved, compromised⟩
    · rw [left]
      exact ⟨last, mem_insertAlert_of_mem (stays checked inEffect format), reserved, compromised⟩
  · intro alert checked smaller accepted
    obtain ⟨alert', checked', inEffect, format, uncancelled, -⟩ := process_accepted accepted
    have spared := uncancelled hash last (stays checked' inEffect format)
    rw [checked, Except.ok.injEq] at checked'
    subst checked'
    rw [cancels_of_final compromised effect (Int32.ne_of_lt smaller)] at spared
    cases spared

theorem Final.processAll (final : mapAlerts.Final hash) {events : List AlertEvent}
    (time : ∀ event ∈ events, event.adjustedTime < maxInt.toInt)
    (spares : ∀ event ∈ events, ∀ alert, event.alert.checkSignature alertKey = .ok alert →
      ¬ alert.ReachesFinal event.adjustedTime) :
    Final (events.foldl (fun mapAlerts event => (mapAlerts.process alertKey event).2) mapAlerts) hash := by
  induction events generalizing mapAlerts with
  | nil => exact final
  | cons event rest ih =>
    have next := (final.process (time event (List.mem_cons_self ..)) (spares event (List.mem_cons_self ..))).1
    exact ih next (fun other member => time other (List.mem_cons_of_mem _ member))
      fun other member => spares other (List.mem_cons_of_mem _ member)

/-- An accepted final alert stays and no smaller alert is accepted afterwards, as long as no alert
reaches its number. -/
theorem final_permanent {before later : List AlertEvent} {event : AlertEvent} {alert : CAlert}
    (checked : event.alert.checkSignature alertKey = .ok alert) (reserved : alert.nID = maxInt)
    (accepted : ((run alertKey before).process alertKey event).1 = .ok true)
    (time : ∀ other ∈ later, other.adjustedTime < maxInt.toInt)
    (spares : ∀ other ∈ later, ∀ cancelling, other.alert.checkSignature alertKey = .ok cancelling →
      ¬ cancelling.ReachesFinal other.adjustedTime) :
    (run alertKey (before ++ event :: later)).Final (alert.getHash alertKey) ∧
      ∀ done other rest, later = done ++ other :: rest → ∀ smaller,
        other.alert.checkSignature alertKey = .ok smaller → smaller.nID < maxInt →
        ((run alertKey (before ++ event :: done)).process alertKey other).1 ≠ .ok true := by
  have first := final_of_accepted (formed_run before) checked reserved accepted
  constructor
  · rw [run_append, List.foldl_cons]
    exact first.processAll time spares
  · rintro done other rest rfl smaller checked' less
    rw [run_append, List.foldl_cons]
    have still := first.processAll (fun previous member => time previous (List.mem_append_left _ member))
      fun previous member => spares previous (List.mem_append_left _ member)
    have here : other ∈ done ++ other :: rest := List.mem_append_right _ (List.mem_cons_self ..)
    exact (still.process (time other here) (spares other here)).2 smaller checked' less

end AlertMap

namespace TestNet

/-- Every signature is valid, and messages are told apart by their first bytes. -/
def alertKey : AlertKey := ⟨fun vchMsg => LittleEndian.decode (vchMsg.take 32), fun _ _ => true⟩

def finalAlert : CUnsignedAlert where
  nExpiration := maxInt.toInt
  nID := maxInt
  nCancel := maxInt - 1
  nMaxVer := maxInt
  nPriority := maxInt
  strStatusBar := strKeyCompromised

/-- An alert of the holder of a stolen key. -/
def reassurance (nCancel : Int32) : CUnsignedAlert := { nExpiration := 1600000000, nID := 5, nCancel }

/-- The arrival of a signed alert. -/
def arrival (alert : CUnsignedAlert) : AlertEvent := ⟨1500000000, { vchMsg := alert.serialize, vchSig := [] }⟩

def signed (alert : CUnsignedAlert) : CAlert := ⟨alert, alert.serialize, []⟩

theorem checkSignature_finalAlert : (arrival finalAlert).alert.checkSignature alertKey = .ok (signed finalAlert) := by
  decide

theorem checkSignature_reassurance :
    (arrival (reassurance 4)).alert.checkSignature alertKey = .ok (signed (reassurance 4)) := by decide

end TestNet

open TestNet in
theorem AlertMap.final_permanent_smaller :
    (run alertKey [arrival finalAlert, arrival (reassurance 4)]).Final ((signed finalAlert).getHash alertKey) := by
  have accepted : ((run alertKey []).process alertKey (arrival finalAlert)).1 = .ok true := by decide
  have time : ∀ other ∈ [arrival (reassurance 4)], other.adjustedTime < maxInt.toInt := by decide
  have spares : ∀ other ∈ [arrival (reassurance 4)], ∀ cancelling,
      other.alert.checkSignature alertKey = .ok cancelling → ¬ cancelling.ReachesFinal other.adjustedTime := by
    intro other member cancelling checked reaches
    obtain rfl := List.mem_singleton.mp member
    rw [checkSignature_reassurance, Except.ok.injEq] at checked
    subst checked
    exact absurd reaches.2.2 (by decide)
  exact (AlertMap.final_permanent checkSignature_finalAlert rfl accepted time spares).1

open TestNet in
/-- An alert with the largest `nCancel` removes the final alert before it is checked against it. -/
theorem AlertMap.final_lost :
    (AlertMap.process alertKey [] (arrival finalAlert)).1 = .ok true ∧
    ((run alertKey [arrival finalAlert]).process alertKey (arrival (reassurance maxInt))).1 = .ok true ∧
    (signed (reassurance maxInt)).nID < maxInt ∧
    run alertKey [arrival finalAlert, arrival (reassurance maxInt)] =
      [((signed (reassurance maxInt)).getHash alertKey, signed (reassurance maxInt))] := by decide

/-! ## What a rejected alert leaves

Previous alerts are cancelled before the check whether the new one has been cancelled, and they stay cancelled
when that check rejects it.
-/

namespace AlertMap

variable {alertKey : AlertKey} {adjustedTime : ℤ} {alert : CAlert} {mapAlerts left : AlertMap}

/-- Only alerts that are no longer in effect are gone. -/
def OnlyExpired (adjustedTime : ℤ) (mapAlerts left : AlertMap) : Prop :=
  left.Sublist mapAlerts ∧ ∀ item ∈ mapAlerts, item.2.isInEffect adjustedTime → item ∈ left

theorem OnlyExpired.refl (adjustedTime : ℤ) (mapAlerts : AlertMap) : OnlyExpired adjustedTime mapAlerts mapAlerts :=
  ⟨List.Sublist.refl _, fun _ member _ => member⟩

theorem onlyExpired_cancelPrevious : OnlyExpired adjustedTime mapAlerts (cancelPrevious adjustedTime alert mapAlerts) ↔
    ∀ item ∈ mapAlerts, item.2.isInEffect adjustedTime → alert.cancels adjustedTime item.2 = false := by
  constructor
  · rintro ⟨-, kept⟩ ⟨hash, old⟩ member effect
    exact (mem_cancelPrevious.mp (kept _ member effect)).2.1
  · intro spares
    refine ⟨List.filter_sublist, fun item member effect => ?_⟩
    have spared := spares item member effect
    obtain ⟨hash, old⟩ := item
    exact mem_cancelPrevious.mpr ⟨member, spared, effect⟩

/-- A rejected alert leaves all alerts in effect if and only if an early check rejects it or it cancels none of them. -/
theorem processAlert_rejected_iff (alertKey : AlertKey) (adjustedTime : ℤ) (alert : CAlert) (mapAlerts : AlertMap)
    (rejected : (processAlert alertKey adjustedTime alert mapAlerts).1 = .ok false) :
    OnlyExpired adjustedTime mapAlerts (processAlert alertKey adjustedTime alert mapAlerts).2 ↔
      ∀ checked, alert.checkSignature alertKey = .ok checked → checked.isInEffect adjustedTime →
        (checked.nID = maxInt → checked.isKeyCompromised) →
        ∀ item ∈ mapAlerts, item.2.isInEffect adjustedTime → checked.cancels adjustedTime item.2 = false := by
  rw [processAlert] at rejected ⊢
  rcases outcome : alert.checkSignature alertKey with failure | checked
  · rw [outcome] at rejected
    have unchanged : OnlyExpired adjustedTime mapAlerts mapAlerts := OnlyExpired.refl ..
    cases failure with
    | throws message => cases rejected
    | _ => exact ⟨fun _ _ signed => (nomatch signed), fun _ => unchanged⟩
  · rw [outcome] at rejected
    simp only [Except.ok.injEq, forall_eq', processChecked] at rejected ⊢
    split at rejected
    next expired =>
      rw [if_pos expired]
      exact ⟨fun _ effect => absurd effect expired, fun _ => OnlyExpired.refl ..⟩
    next effect =>
      rw [if_neg effect]
      split at rejected
      next format =>
        rw [if_pos format]
        exact ⟨fun _ _ formed => absurd (formed format.1) format.2, fun _ => OnlyExpired.refl ..⟩
      next format =>
        have formed : checked.nID = maxInt → checked.isKeyCompromised := fun reserved =>
          not_not.mp fun other => format ⟨reserved, other⟩
        rw [if_neg format]
        split at rejected
        next cancelled =>
          rw [if_pos cancelled, onlyExpired_cancelPrevious]
          exact ⟨fun spares _ _ => spares, fun spares => spares (not_not.mp effect) formed⟩
        next => cases rejected

end AlertMap

namespace TestNet

/-- An alert that cancels the second of three. -/
def withdrawal : CUnsignedAlert := { nExpiration := 1600000000, nID := 3, setCancel := [2] }

def warning : CUnsignedAlert := { nExpiration := 1600000000, nID := 1 }

/-- It replaces the warning. -/
def correction : CUnsignedAlert := { nExpiration := 1600000000, nID := 2, nCancel := 1 }

end TestNet

open TestNet in
/-- An alert that cancels nothing is rejected. -/
theorem AlertMap.processAlert_rejected_reassurance :
    OnlyExpired 1500000000 (run alertKey [arrival finalAlert])
      (processAlert alertKey 1500000000 (arrival (reassurance 4)).alert (run alertKey [arrival finalAlert])).2 := by
  refine (processAlert_rejected_iff alertKey 1500000000 (arrival (reassurance 4)).alert (run alertKey [arrival finalAlert])
    (by decide)).mpr fun checked signed _ _ => ?_
  rw [checkSignature_reassurance, Except.ok.injEq] at signed
  subst signed
  decide

open TestNet in
/-- The correction has been withdrawn before it arrives; it is rejected, and the warning is gone. -/
theorem AlertMap.processAlert_rejected_loses :
    (run alertKey [arrival withdrawal, arrival warning]).map (fun item => item.2.nID) = [1, 3] ∧
    ((run alertKey [arrival withdrawal, arrival warning]).process alertKey (arrival correction)).1 = .ok false ∧
    ((run alertKey [arrival withdrawal, arrival warning]).process alertKey (arrival correction)).2.map
      (fun item => item.2.nID) = [3] ∧
    ¬ OnlyExpired 1500000000 (run alertKey [arrival withdrawal, arrival warning])
      ((run alertKey [arrival withdrawal, arrival warning]).process alertKey (arrival correction)).2 := by
  refine ⟨by decide, by decide, by decide, fun expired => ?_⟩
  have lost : ¬ ∀ item ∈ run alertKey [arrival withdrawal, arrival warning], item.2.isInEffect 1500000000 →
      item ∈ ((run alertKey [arrival withdrawal, arrival warning]).process alertKey (arrival correction)).2 := by decide
  exact lost expired.2

end BitCrystal

import LightChain.Epoch.Inactivity
import LightChain.Library.Fallible

/-!
# Initiating validator exits

`InitiateValidatorExit` for both exit queues: before Electra a queue with a churn in
validators, kept in `ExitInfo` for the calls of one epoch; from Electra on a churn in
Gwei, kept in the state. Loops treat an exit already initiated as no error.
-/
namespace LightChain.Epoch
open Library

structure ExitInfo where
  highestExitEpoch : Nat := 0
  churn : Nat := 0
  totalActiveBalance : Nat := 0
deriving DecidableEq, Repr

/-- One validator of the pass in `ExitInformation`: the last exit epoch and its churn. -/
def recordExit (info : ExitInfo) (v : Validator) : ExitInfo :=
  if v.exitEpoch = farFutureEpoch then info
  else if info.highestExitEpoch < v.exitEpoch then
    { info with highestExitEpoch := v.exitEpoch, churn := 1 }
  else if v.exitEpoch = info.highestExitEpoch then { info with churn := info.churn + 1 }
  else info

section

variable (cfg : BeaconChainConfig) (st : BeaconState)

def exitInformation : ExitInfo :=
  { st.validators.foldl recordExit {} with totalActiveBalance := totalActiveBalance cfg st }

/-- The queue starts no earlier than the first epoch an exit can take effect. -/
def startQueue (info : ExitInfo) : ExitInfo :=
  let exitableEpoch := activationExitEpoch cfg (currentEpoch cfg st)
  if info.highestExitEpoch < exitableEpoch then
    { info with highestExitEpoch := exitableEpoch, churn := 0 }
  else info

def initiateValidatorExitPreElectra (info : ExitInfo) : Except Error ExitInfo :=
  if validatorExitChurnLimit cfg (activeValidatorCount st (currentEpoch cfg st)) ≤
      (startQueue cfg st info).churn then do
    let next ← checkedAdd (startQueue cfg st info).highestExitEpoch 1
    return { startQueue cfg st info with highestExitEpoch := next, churn := 1 }
  else
    return { startQueue cfg st info with churn := (startQueue cfg st info).churn + 1 }

/-- `ExitEpochAndUpdateChurn`, in unchecked `uint64` arithmetic. -/
def exitEpochAndUpdateChurn (exitBalance : Nat) : Except Error (Nat × BeaconState) :=
  if st.version < .electra then .error (.notSupported "ExitEpochAndUpdateChurn" st.version)
  else
    let earliest := max st.earliestExitEpoch (activationExitEpoch cfg (currentEpoch cfg st))
    let perEpochChurn := activationExitChurnLimit cfg (totalActiveBalance cfg st)
    let toConsume := if st.earliestExitEpoch < earliest then perEpochChurn
      else st.exitBalanceToConsume
    let (earliest, toConsume) :=
      if toConsume < exitBalance then
        let additionalEpochs := (exitBalance - toConsume - 1) / perEpochChurn + 1
        (add64 earliest additionalEpochs,
          add64 toConsume (mul64 additionalEpochs perEpochChurn))
      else (earliest, toConsume)
    .ok (earliest,
      { st with exitBalanceToConsume := sub64 toConsume exitBalance, earliestExitEpoch := earliest })

/-- The place in the exit queue that the version of the state gives a validator. -/
def exitQueueEpoch (v : Validator) (info : ExitInfo) : Except Error (BeaconState × ExitInfo) :=
  if st.version < .electra then do
    let info ← initiateValidatorExitPreElectra cfg st info
    return (st, info)
  else do
    let (epoch, st) ← exitEpochAndUpdateChurn cfg st v.effectiveBalance
    return (st, { info with highestExitEpoch := epoch })

def initiateValidatorExit (idx : Nat) (info : ExitInfo) :
    Except Error (BeaconState × ExitInfo) := do
  let v ← validatorAtIndex st idx
  if v.exitEpoch ≠ farFutureEpoch then .error .alreadyExited
  else
    let (st, info) ← exitQueueEpoch cfg st v info
    let withdrawable ← checkedAdd info.highestExitEpoch cfg.minValidatorWithdrawabilityDelay
    let st ← updateValidatorAtIndex st idx
      { v with exitEpoch := info.highestExitEpoch, withdrawableEpoch := withdrawable }
    return (st, info)

def eject (wrap : Nat → Error → Error) (s : BeaconState × ExitInfo) (idx : Nat) :
    Except Error (BeaconState × ExitInfo) :=
  match initiateValidatorExit cfg s.1 idx s.2 with
  | .ok s' => .ok s'
  | .error .alreadyExited => .ok s
  | .error e => .error (wrap idx e)

end

/-! ## What an ejection changes -/

variable {cfg : BeaconChainConfig} {st st' : BeaconState}

/-- Everything but the registry and the exit queue is unchanged. -/
structure SameFrame (st st' : BeaconState) : Prop where
  version : st'.version = st.version
  slot : st'.slot = st.slot
  inactivityScores : st'.inactivityScores = st.inactivityScores
  finalized : st'.finalizedCheckpointEpoch = st.finalizedCheckpointEpoch
  length : st'.validators.length = st.validators.length

theorem SameFrame.refl (st : BeaconState) : SameFrame st st := ⟨rfl, rfl, rfl, rfl, rfl⟩

theorem SameFrame.trans {st'' : BeaconState} (h : SameFrame st st') (h' : SameFrame st' st'') :
    SameFrame st st'' :=
  ⟨h'.version.trans h.version, h'.slot.trans h.slot,
    h'.inactivityScores.trans h.inactivityScores, h'.finalized.trans h.finalized,
    h'.length.trans h.length⟩

def Validator.exitAt (v : Validator) (epoch withdrawable : Nat) : Validator :=
  { v with exitEpoch := epoch, withdrawableEpoch := withdrawable }

variable {v : Validator} {idx : Nat}

theorem validatorAtIndex_eq_ok :
    validatorAtIndex st idx = .ok v ↔ st.validators[idx]? = some v := by
  unfold validatorAtIndex
  cases st.validators[idx]? <;> simp

theorem updateValidatorAtIndex_eq_ok :
    updateValidatorAtIndex st idx v = .ok st' ↔
      idx < st.validators.length ∧ { st with validators := st.validators.set idx v } = st' := by
  unfold updateValidatorAtIndex
  split_ifs with h <;> simp [h]

theorem exitQueueEpoch_frame {info info' : ExitInfo}
    (h : exitQueueEpoch cfg st v info = .ok (st', info')) :
    SameFrame st st' ∧ st'.validators = st.validators := by
  unfold exitQueueEpoch at h
  split_ifs at h
  · obtain ⟨next, -, hout⟩ := bind_eq_ok.mp h
    cases hout
    exact ⟨.refl _, rfl⟩
  · obtain ⟨⟨epoch, mid⟩, hmid, hout⟩ := bind_eq_ok.mp h
    cases hout
    unfold exitEpochAndUpdateChurn at hmid
    split_ifs at hmid
    cases hmid
    exact ⟨⟨rfl, rfl, rfl, rfl, rfl⟩, rfl⟩

theorem initiateValidatorExit_ok {info info' : ExitInfo}
    (h : initiateValidatorExit cfg st idx info = .ok (st', info')) :
    ∃ v epoch withdrawable, st.validators[idx]? = some v ∧ v.exitEpoch = farFutureEpoch ∧
      epoch < farFutureEpoch ∧ SameFrame st st' ∧
      st'.validators = st.validators.set idx (v.exitAt epoch withdrawable) := by
  obtain ⟨v, hv, h⟩ := bind_eq_ok.mp h
  split_ifs at h with hfar
  obtain ⟨⟨mid, info''⟩, hmid, h⟩ := bind_eq_ok.mp h
  obtain ⟨withdrawable, hwith, h⟩ := bind_eq_ok.mp h
  obtain ⟨out, hout, h⟩ := bind_eq_ok.mp h
  cases h
  obtain ⟨frame, hvals⟩ := exitQueueEpoch_frame hmid
  obtain ⟨hsum, -⟩ := checkedAdd_eq_ok.mp hwith
  obtain ⟨-, rfl⟩ := updateValidatorAtIndex_eq_ok.mp hout
  have hdelay := cfg.withdrawabilityDelay_pos
  refine ⟨v, info'.highestExitEpoch, withdrawable, validatorAtIndex_eq_ok.mp hv, not_not.mp hfar,
    ?_, ?_, ?_⟩
  · simp only [farFutureEpoch]
    omega
  · exact frame.trans ⟨rfl, rfl, rfl, rfl, by simp⟩
  · simp only [hvals]
    rfl

theorem checkedAdd_error {a b : Nat} {e : Error} (h : checkedAdd a b = .error e) :
    e = .addOverflow := by
  unfold checkedAdd at h
  cases hsum : safeAdd64 a b <;> simp_all

theorem exitQueueEpoch_error {info : ExitInfo} {e : Error}
    (h : exitQueueEpoch cfg st v info = .error e) : e ≠ .alreadyExited := by
  unfold exitQueueEpoch at h
  split_ifs at h with pre
  · obtain hqueue | ⟨info', -, hout⟩ := bind_eq_error.mp h
    · unfold initiateValidatorExitPreElectra at hqueue
      split_ifs at hqueue
      · obtain hadd | ⟨n, -, hout⟩ := bind_eq_error.mp hqueue
        · simp [checkedAdd_error hadd]
        · cases hout
      · cases hqueue
    · cases hout
  · obtain hchurn | ⟨⟨epoch, st'⟩, -, hout⟩ := bind_eq_error.mp h
    · unfold exitEpochAndUpdateChurn at hchurn
      rw [if_neg pre] at hchurn
      cases hchurn
    · cases hout

/-- The error a loop ignores means that the validator had an exit epoch already. -/
theorem initiateValidatorExit_alreadyExited {info : ExitInfo}
    (h : initiateValidatorExit cfg st idx info = .error .alreadyExited) :
    ∃ v, st.validators[idx]? = some v ∧ v.exitEpoch ≠ farFutureEpoch := by
  obtain hnone | ⟨v, hv, h⟩ := bind_eq_error.mp h
  · unfold validatorAtIndex at hnone
    cases hget : st.validators[idx]? <;> simp_all
  · refine ⟨v, validatorAtIndex_eq_ok.mp hv, fun hfar => ?_⟩
    rw [if_neg (not_not.mpr hfar)] at h
    obtain hqueue | ⟨⟨mid, info'⟩, -, h⟩ := bind_eq_error.mp h
    · exact exitQueueEpoch_error hqueue rfl
    obtain hadd | ⟨withdrawable, -, h⟩ := bind_eq_error.mp h
    · cases checkedAdd_error hadd
    obtain hupd | ⟨out, -, hout⟩ := bind_eq_error.mp h
    · unfold updateValidatorAtIndex at hupd
      split_ifs at hupd
      cases hupd
    · cases hout

/-- The effect of a loop that ejects the validators of a list. -/
structure Ejected (st st' : BeaconState) (indices : List Nat) : Prop where
  frame : SameFrame st st'
  exited : ∀ i ∈ indices, ∀ v, st.validators[i]? = some v → v.exitEpoch = farFutureEpoch →
    ∃ epoch withdrawable, epoch < farFutureEpoch ∧
      st'.validators[i]? = some (v.exitAt epoch withdrawable)
  kept : ∀ i v, st.validators[i]? = some v → i ∉ indices ∨ v.exitEpoch ≠ farFutureEpoch →
    st'.validators[i]? = some v

theorem eject_ok {wrap : Nat → Error → Error} {s s' : BeaconState × ExitInfo}
    (h : eject cfg wrap s idx = .ok s') : Ejected s.1 s'.1 [idx] := by
  unfold eject at h
  split at h
  · rename_i hexit
    cases h
    obtain ⟨v, epoch, withdrawable, hv, hfar, hlt, frame, hset⟩ := initiateValidatorExit_ok hexit
    have hin : idx < s.1.validators.length := (List.getElem?_eq_some_iff.mp hv).1
    refine ⟨frame, ?_, ?_⟩
    · intro i hi w hw hwfar
      obtain rfl := List.mem_singleton.mp hi
      obtain rfl := Option.some.inj (hv.symm.trans hw)
      exact ⟨epoch, withdrawable, hlt, by rw [hset, List.getElem?_set_self hin]⟩
    · intro i w hw hor
      have hne : idx ≠ i := by
        rintro rfl
        obtain rfl := Option.some.inj (hv.symm.trans hw)
        exact hor.elim (fun h => h (List.mem_singleton_self _)) (fun h => h hfar)
      rw [hset, List.getElem?_set_ne hne, hw]
  · rename_i hexit
    cases h
    obtain ⟨v, hv, hne⟩ := initiateValidatorExit_alreadyExited hexit
    refine ⟨.refl _, ?_, fun i w hw _ => hw⟩
    intro i hi w hw hfar
    obtain rfl := List.mem_singleton.mp hi
    obtain rfl := Option.some.inj (hv.symm.trans hw)
    exact absurd hfar hne
  · cases h

/-- A loop whose passes eject one validator each ejects all of them; `view` is the state
within the loop's own. -/
theorem ejected_foldlM {σ : Type} {f : σ → Nat → Except Error σ} (view : σ → BeaconState)
    (step : ∀ s idx s', f s idx = .ok s' → Ejected (view s) (view s') [idx])
    {indices : List Nat} {s s' : σ} (h : indices.foldlM f s = .ok s') :
    Ejected (view s) (view s') indices := by
  induction indices generalizing s with
  | nil =>
    cases h
    exact ⟨.refl _, fun i hi => absurd hi List.not_mem_nil, fun i v hv _ => hv⟩
  | cons idx indices ih =>
    rw [List.foldlM_cons] at h
    obtain ⟨mid, hmid, hrest⟩ := bind_eq_ok.mp h
    have first := step s idx mid hmid
    have rest := ih hrest
    refine ⟨first.frame.trans rest.frame, ?_, ?_⟩
    · intro i hi v hv hfar
      by_cases hidx : i = idx
      · -- the first pass sets the exit epoch and later ones leave it
        obtain ⟨epoch, withdrawable, hlt, hget⟩ :=
          first.exited i (by simp [hidx]) v hv hfar
        exact ⟨epoch, withdrawable, hlt, rest.kept i _ hget (.inr hlt.ne)⟩
      · have hget := first.kept i v hv (.inl (by simpa using hidx))
        exact rest.exited i ((List.mem_cons.mp hi).resolve_left hidx) v hget hfar
    · intro i v hv hor
      have hor' : i ∉ [idx] ∨ v.exitEpoch ≠ farFutureEpoch :=
        hor.imp_left fun h hi => h (by simp [List.mem_singleton.mp hi])
      refine rest.kept i v (first.kept i v hv hor') ?_
      exact hor.imp_left fun h hi => h (List.mem_cons_of_mem _ hi)

end LightChain.Epoch

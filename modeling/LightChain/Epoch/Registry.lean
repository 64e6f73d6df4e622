import LightChain.Epoch.Exit
import LightChain.Library.Positions

/-!
# Registry updates

The two implementations of `ProcessRegistryUpdates`: the one of package `epoch`, which
also ejects validators with a high inactivity score under a quorum floor, and the one of
package `electra`, which ejects by balance only. Both read the registry once, collect
indices, and apply the changes afterwards; `RegistryUpdate` says what they change.
-/
namespace LightChain.Epoch
open Library List

section Pass

variable (cfg : BeaconChainConfig)

/-- What the pass over the registry collects. -/
structure RegistryPass where
  eligibleForActivationQ : List Nat := []
  eligibleForActivation : List Nat := []
  eligibleForEjection : List Nat := []
  inactivityCandidates : List Nat := []
  activeCount : Nat := 0
deriving DecidableEq, Repr

/-- The scores the pass compares with the threshold; before Altair there are none. -/
def registryScores (st : BeaconState) : Except Error (List Nat) :=
  if Version.altair ≤ st.version then
    if 0 < st.inactivityScores.length ∧ st.inactivityScores.length ≠ st.validators.length then
      .error (.scoresLength st.inactivityScores.length st.validators.length)
    else .ok st.inactivityScores
  else .ok []

def belowEjectionBalance (v : Validator) : Bool := v.effectiveBalance ≤ cfg.ejectionBalance

def highInactivity (scores : List Nat) (threshold idx : Nat) : Bool :=
  !scores.isEmpty && threshold ≤ scores.getD idx 0

def readValidator (st : BeaconState) (scores : List Nat) (acc : RegistryPass)
    (a : Validator × Nat) : RegistryPass :=
  let epoch := currentEpoch cfg st
  let active := isActiveValidator a.1 epoch
  let high := highInactivity scores (inactivityEjectionThreshold cfg epoch) a.2
  let push (test : Bool) (indices : List Nat) := if test then indices ++ [a.2] else indices
  { eligibleForActivationQ :=
      push (isEligibleForActivationQueue cfg a.1 epoch) acc.eligibleForActivationQ
    activeCount := if active then acc.activeCount + 1 else acc.activeCount
    eligibleForEjection :=
      push (active && belowEjectionBalance cfg a.1) acc.eligibleForEjection
    inactivityCandidates :=
      push (!(active && belowEjectionBalance cfg a.1) && (active && high))
        acc.inactivityCandidates
    eligibleForActivation := push (isEligibleForActivation st a.1) acc.eligibleForActivation }

def registryPass (st : BeaconState) (scores : List Nat) : RegistryPass :=
  st.validators.zipIdx.foldl (readValidator cfg st scores) {}

/-- Inactivity ejections leave at least two thirds of the active set, and one validator. -/
def quorumFloor (activeCount : Nat) : Nat := max 1 (2 * activeCount / 3)

def ejectionCapacity (pass : RegistryPass) : Nat :=
  pass.activeCount - pass.eligibleForEjection.length - quorumFloor pass.activeCount

/-- The balance ejections, followed by the candidates the capacity leaves. -/
def capEjections (pass : RegistryPass) : List Nat :=
  pass.eligibleForEjection ++ pass.inactivityCandidates.take (ejectionCapacity pass)

end Pass

section Update

variable (cfg : BeaconChainConfig)

def setValidators (f : Validator → Validator) (st : BeaconState) (indices : List Nat) :
    Except Error BeaconState :=
  indices.foldlM (fun st idx => do
    let v ← validatorAtIndex st idx
    updateValidatorAtIndex st idx (f v)) st

variable (st : BeaconState)

/-- `sortableIndices.Less`: by activation eligibility epoch, then by index. -/
def activatesBefore (i j : Nat) : Bool :=
  match st.validators[i]?, st.validators[j]? with
  | some v, some w =>
    if v.activationEligibilityEpoch = w.activationEligibilityEpoch then i < j
    else v.activationEligibilityEpoch < w.activationEligibilityEpoch
  | _, _ => false

def activationQueue (indices : List Nat) : List Nat :=
  let activeCount := activeValidatorCount st (currentEpoch cfg st)
  let churnLimit := if Version.deneb ≤ st.version
    then validatorActivationChurnLimitDeneb cfg activeCount
    else validatorActivationChurnLimit cfg activeCount
  (indices.insertionSort (fun i j => activatesBefore st i j)).take churnLimit

/-- `ProcessRegistryUpdates` of package `epoch`. -/
def processRegistryUpdates : Except Error BeaconState := do
  let scores ← registryScores st
  let epoch := currentEpoch cfg st
  let pass := registryPass cfg st scores
  let queued ← setValidators (fun v => { v with activationEligibilityEpoch := add64 epoch 1 }) st
    pass.eligibleForActivationQ
  let (ejected, _) ← (capEjections pass).foldlM (eject cfg .initiateExit)
    (queued, exitInformation cfg queued)
  setValidators (fun v => { v with activationEpoch := activationExitEpoch cfg epoch }) ejected
    (activationQueue cfg ejected pass.eligibleForActivation)

/-- One ejection in package `electra`, with exit information that nothing reads. -/
def ejectElectra (idx : Nat) : Except Error BeaconState := do
  let (st, _) ← eject cfg .initiateExitElectra (st, {}) idx
  return st

/-- `ProcessRegistryUpdates` of package `electra`. -/
def processRegistryUpdatesElectra : Except Error BeaconState := do
  let epoch := currentEpoch cfg st
  let collect (p : Validator → Bool) := positions (fun _ v => p v) st.validators
  let queued ← setValidators (fun v => { v with activationEligibilityEpoch := add64 epoch 1 }) st
    (collect (isEligibleForActivationQueue cfg · epoch))
  let ejected ← (collect (fun v => belowEjectionBalance cfg v && isActiveValidator v epoch)).foldlM
    (ejectElectra cfg) queued
  setValidators (fun v => { v with activationEpoch := activationExitEpoch cfg epoch }) ejected
    (collect (isEligibleForActivation st))

/-- The registry update that `ProcessEpoch` runs for the version of the state. -/
def registryUpdates : Except Error BeaconState :=
  if st.version < .electra then processRegistryUpdates cfg st
  else processRegistryUpdatesElectra cfg st

end Update

/-! ## What the pass collects -/

variable {cfg : BeaconChainConfig} {st st' : BeaconState}

/-- An active validator above the ejection balance whose score reaches the threshold. -/
def isCandidate (cfg : BeaconChainConfig) (st : BeaconState) (scores : List Nat) (i : Nat)
    (v : Validator) : Bool :=
  let epoch := currentEpoch cfg st
  !(isActiveValidator v epoch && belowEjectionBalance cfg v) &&
    (isActiveValidator v epoch &&
      highInactivity scores (inactivityEjectionThreshold cfg epoch) i)

def inactivityCandidates (cfg : BeaconChainConfig) (st : BeaconState) : List Nat :=
  positions (isCandidate cfg st st.inactivityScores) st.validators

theorem registryScores_altair {scores : List Nat} (h : registryScores st = .ok scores)
    (altair : Version.altair ≤ st.version) : scores = st.inactivityScores := by
  unfold registryScores at h
  rw [if_pos altair] at h
  split_ifs at h
  cases h
  rfl

theorem registryPass_eq (cfg : BeaconChainConfig) (st : BeaconState) (scores : List Nat) :
    registryPass cfg st scores =
      { eligibleForActivationQ := positions
          (fun _ v => isEligibleForActivationQueue cfg v (currentEpoch cfg st)) st.validators
        eligibleForActivation := positions (fun _ v => isEligibleForActivation st v) st.validators
        eligibleForEjection := positions
          (fun _ v => isActiveValidator v (currentEpoch cfg st) && belowEjectionBalance cfg v)
          st.validators
        inactivityCandidates := positions (isCandidate cfg st scores) st.validators
        activeCount := activeValidatorCount st (currentEpoch cfg st) } := by
  have hloop : ∀ (xs : List (Validator × Nat)) (acc : RegistryPass),
      xs.foldl (readValidator cfg st scores) acc =
        { eligibleForActivationQ := acc.eligibleForActivationQ ++ (xs.filter fun a =>
            isEligibleForActivationQueue cfg a.1 (currentEpoch cfg st)).map Prod.snd
          eligibleForActivation := acc.eligibleForActivation ++ (xs.filter fun a =>
            isEligibleForActivation st a.1).map Prod.snd
          eligibleForEjection := acc.eligibleForEjection ++ (xs.filter fun a =>
            isActiveValidator a.1 (currentEpoch cfg st) && belowEjectionBalance cfg a.1).map Prod.snd
          inactivityCandidates := acc.inactivityCandidates ++ (xs.filter fun a =>
            isCandidate cfg st scores a.2 a.1).map Prod.snd
          activeCount := acc.activeCount + xs.countP fun a =>
            isActiveValidator a.1 (currentEpoch cfg st) } := by
    intro xs
    induction xs with
    | nil => simp
    | cons a xs ih =>
      intro acc
      rw [foldl_cons, ih]
      simp only [readValidator, isCandidate, filter_cons, countP_cons]
      congr 1 <;> split_ifs <;> first | omega | simp
  unfold registryPass
  rw [hloop]
  simp only [positions, nil_append, Nat.zero_add, activeValidatorCount]
  congr 1
  have hfst := countP_map (p := (isActiveValidator · (currentEpoch cfg st)))
    (f := Prod.fst) (l := st.validators.zipIdx)
  rw [zipIdx_map_fst] at hfst
  exact hfst.symm

/-! ## What the updates change -/

theorem setValidators_ok {f : Validator → Validator} {indices : List Nat}
    (h : setValidators f st indices = .ok st') (hf : ∀ v, f (f v) = f v) :
    SameFrame st st' ∧ ∀ i v, st.validators[i]? = some v →
      st'.validators[i]? = some (if i ∈ indices then f v else v) := by
  induction indices generalizing st with
  | nil =>
    cases h
    exact ⟨.refl _, fun i v hv => by simpa using hv⟩
  | cons idx indices ih =>
    rw [setValidators, foldlM_cons] at h
    obtain ⟨mid, hmid, hrest⟩ := bind_eq_ok.mp h
    obtain ⟨w, hw, hset⟩ := bind_eq_ok.mp hmid
    obtain ⟨hin, rfl⟩ := updateValidatorAtIndex_eq_ok.mp hset
    obtain ⟨frame, hvals⟩ := ih hrest
    have first : SameFrame st { st with validators := st.validators.set idx (f w) } :=
      ⟨rfl, rfl, rfl, rfl, by simp⟩
    refine ⟨first.trans frame, fun i v hv => ?_⟩
    by_cases hidx : idx = i
    · subst hidx
      obtain rfl := Option.some.inj ((validatorAtIndex_eq_ok.mp hw).symm.trans hv)
      rw [hvals idx (f w) (getElem?_set_self hin)]
      by_cases hmem : idx ∈ indices <;> simp [hmem, hf]
    · rw [hvals i v ((getElem?_set_ne hidx).trans hv)]
      simp [Ne.symm hidx]

theorem ejectElectra_ok {idx : Nat} (h : ejectElectra cfg st idx = .ok st') :
    Ejected st st' [idx] := by
  obtain ⟨⟨out, info⟩, heject, hout⟩ := bind_eq_ok.mp h
  cases hout
  exact eject_ok heject

/-- How a registry update treats one validator; `out` says that it is ejected. -/
structure ValidatorUpdate (v v' : Validator) (out : Prop) : Prop where
  effectiveBalance : v'.effectiveBalance = v.effectiveBalance
  activationEpoch : v.activationEpoch ≠ farFutureEpoch → v'.activationEpoch = v.activationEpoch
  exitEpoch : v'.exitEpoch = farFutureEpoch ↔ v.exitEpoch = farFutureEpoch ∧ ¬out
  kept : v.exitEpoch ≠ farFutureEpoch ∨ ¬out →
    v'.exitEpoch = v.exitEpoch ∧ v'.withdrawableEpoch = v.withdrawableEpoch

/-- The effect of a registry update that ejects the validators of a list. -/
structure RegistryUpdate (st st' : BeaconState) (ejected : List Nat) : Prop where
  frame : SameFrame st st'
  validator : ∀ i v, st.validators[i]? = some v →
    ∃ v', st'.validators[i]? = some v' ∧ ValidatorUpdate v v' (i ∈ ejected)

/-- Both updates queue, eject and activate; only validators without an activation epoch are
activated. -/
theorem registryUpdate_of_phases {queued out : BeaconState} {queue ejected activated : List Nat}
    {eligibility activation : Nat}
    (hqueue : setValidators (fun v => { v with activationEligibilityEpoch := eligibility }) st
      queue = .ok queued)
    (heject : Ejected queued out ejected)
    (hactivate : setValidators (fun v => { v with activationEpoch := activation }) out
      activated = .ok st')
    (hfar : ∀ i ∈ activated, ∀ v, st.validators[i]? = some v →
      v.activationEpoch = farFutureEpoch) : RegistryUpdate st st' ejected := by
  obtain ⟨frame, hqueued⟩ := setValidators_ok hqueue fun _ => rfl
  obtain ⟨frame', hactivated⟩ := setValidators_ok hactivate fun _ => rfl
  refine ⟨(frame.trans heject.frame).trans frame', fun i v hv => ?_⟩
  obtain ⟨w, hw, hwv⟩ : ∃ w, queued.validators[i]? = some w ∧
      w.effectiveBalance = v.effectiveBalance ∧ w.activationEpoch = v.activationEpoch ∧
      w.exitEpoch = v.exitEpoch ∧ w.withdrawableEpoch = v.withdrawableEpoch := by
    refine ⟨_, hqueued i v hv, ?_⟩
    split_ifs <;> exact ⟨rfl, rfl, rfl, rfl⟩
  obtain ⟨u, hu, hbal, hact, hexit, hkept⟩ : ∃ u, out.validators[i]? = some u ∧
      u.effectiveBalance = v.effectiveBalance ∧ u.activationEpoch = v.activationEpoch ∧
      (u.exitEpoch = farFutureEpoch ↔ v.exitEpoch = farFutureEpoch ∧ i ∉ ejected) ∧
      (v.exitEpoch ≠ farFutureEpoch ∨ i ∉ ejected →
        u.exitEpoch = v.exitEpoch ∧ u.withdrawableEpoch = v.withdrawableEpoch) := by
    by_cases hout : i ∈ ejected ∧ w.exitEpoch = farFutureEpoch
    · obtain ⟨epoch, withdrawable, hlt, hget⟩ := heject.exited i hout.1 w hw hout.2
      refine ⟨_, hget, hwv.1, hwv.2.1, ?_, fun hor => ?_⟩
      · exact ⟨fun h => absurd h hlt.ne, fun h => absurd hout.1 h.2⟩
      · exact (hor.elim (· (hwv.2.2.1 ▸ hout.2)) (· hout.1)).elim
    · have hget := heject.kept i w hw (by tauto)
      refine ⟨w, hget, hwv.1, hwv.2.1, ?_, fun _ => hwv.2.2⟩
      rw [hwv.2.2.1] at hout ⊢
      tauto
  refine ⟨_, hactivated i u hu, ?_⟩
  split_ifs with hin
  · exact ⟨hbal, fun hne => absurd (hfar i hin v hv) hne, hexit, hkept⟩
  · exact ⟨hbal, fun _ => hact, hexit, hkept⟩

/-- The update of package `epoch` ejects the capped list. -/
theorem processRegistryUpdates_ok (h : processRegistryUpdates cfg st = .ok st') :
    ∃ scores, registryScores st = .ok scores ∧
      RegistryUpdate st st' (capEjections (registryPass cfg st scores)) := by
  obtain ⟨scores, hscores, h⟩ := bind_eq_ok.mp h
  obtain ⟨queued, hqueue, h⟩ := bind_eq_ok.mp h
  obtain ⟨⟨out, info⟩, heject, hactivate⟩ := bind_eq_ok.mp h
  refine ⟨scores, hscores,
    registryUpdate_of_phases hqueue (ejected_foldlM Prod.fst (fun _ _ _ => eject_ok) heject)
      hactivate fun i hi v hv => ?_⟩
  have hmem := (mem_insertionSort _).mp (mem_of_mem_take hi)
  rw [registryPass_eq, mem_positions] at hmem
  obtain ⟨w, hw, helig⟩ := hmem
  obtain rfl := Option.some.inj (hw.symm.trans hv)
  simp only [isEligibleForActivation, Bool.and_eq_true, beq_iff_eq] at helig
  exact helig.2

/-- The update of package `electra` ejects by balance only. -/
theorem processRegistryUpdatesElectra_ok (h : processRegistryUpdatesElectra cfg st = .ok st') :
    RegistryUpdate st st' (positions (fun _ v => belowEjectionBalance cfg v &&
      isActiveValidator v (currentEpoch cfg st)) st.validators) := by
  obtain ⟨queued, hqueue, h⟩ := bind_eq_ok.mp h
  obtain ⟨out, heject, hactivate⟩ := bind_eq_ok.mp h
  refine registryUpdate_of_phases hqueue
    (ejected_foldlM id (fun _ _ _ => ejectElectra_ok) heject) hactivate fun i hi v hv => ?_
  obtain ⟨w, hw, helig⟩ := mem_positions.mp hi
  obtain rfl := Option.some.inj (hw.symm.trans hv)
  simp only [isEligibleForActivation, Bool.and_eq_true, beq_iff_eq] at helig
  exact helig.2

end LightChain.Epoch

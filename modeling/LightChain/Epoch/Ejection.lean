import LightChain.Epoch.Registry
import LightChain.Epoch.Rewards

/-!
# Inactivity ejection in place of the inactivity penalty

The rewards step charges no inactivity penalty on any fork, on the promise that the
registry update exits persistently inactive validators. `EjectsInactive` states the
promise for one update: beside the balance ejections it initiates the exits of the
lowest-index inactive validators that are not exiting yet, up to the quorum-floor
capacity. Package `electra` ejects nobody for inactivity, and package `epoch` spends
capacity on validators that are exiting already; `NoneMissed` says when neither matters.
-/
namespace LightChain.Epoch
open Library

variable (cfg : BeaconChainConfig) (st : BeaconState)

def balanceEjections : List Nat :=
  positions (fun _ v => isActiveValidator v (currentEpoch cfg st) && belowEjectionBalance cfg v)
    st.validators

def floorCapacity : Nat :=
  let active := activeValidatorCount st (currentEpoch cfg st)
  active - (balanceEjections cfg st).length - quorumFloor active

/-- The validator at an index has no exit epoch yet. -/
def isUnexited (i : Nat) : Bool :=
  st.validators[i]?.any (·.exitEpoch == farFutureEpoch)

/-- The inactivity ejections owed: the lowest indices, up to the capacity. -/
def owedEjections : List Nat :=
  ((inactivityCandidates cfg st).filter (isUnexited st)).take (floorCapacity cfg st)

/-- The update initiates the balance ejections and the inactivity ejections owed, no others. -/
def EjectsInactive (st st' : BeaconState) : Prop :=
  ∀ i (v : Validator), st.validators[i]? = some v → v.exitEpoch = farFutureEpoch →
    ((∃ v' : Validator, st'.validators[i]? = some v' ∧ v'.exitEpoch ≠ farFutureEpoch) ↔
      i ∈ balanceEjections cfg st ∨ i ∈ owedEjections cfg st)

/-- Before Electra: no exiting validator among the candidates let through, or none but exiting
ones left out. From Electra on: no inactivity ejection is owed. -/
def NoneMissed : Prop :=
  if st.version < .electra then
    (∀ i ∈ (inactivityCandidates cfg st).take (floorCapacity cfg st), isUnexited st i) ∨
      (∀ i ∈ (inactivityCandidates cfg st).drop (floorCapacity cfg st), isUnexited st i = false)
  else owedEjections cfg st = []

variable {cfg st} {st' : BeaconState} {i : Nat}

theorem isUnexited_iff {v : Validator} (hv : st.validators[i]? = some v) :
    isUnexited st i ↔ v.exitEpoch = farFutureEpoch := by
  simp [isUnexited, hv]

theorem not_mem_balanceEjections (h : i ∈ inactivityCandidates cfg st) :
    i ∉ balanceEjections cfg st := by
  intro hbal
  obtain ⟨v, hv, hcand⟩ := mem_positions.mp h
  obtain ⟨w, hw, hlow⟩ := mem_positions.mp hbal
  obtain rfl := Option.some.inj (hv.symm.trans hw)
  simp [isCandidate, hlow] at hcand

theorem mem_of_mem_owed (h : i ∈ owedEjections cfg st) :
    i ∈ inactivityCandidates cfg st ∧ isUnexited st i :=
  List.mem_filter.mp (List.mem_of_mem_take h)

theorem exists_of_isUnexited (h : isUnexited st i) :
    ∃ v, st.validators[i]? = some v ∧ v.exitEpoch = farFutureEpoch := by
  cases hv : st.validators[i]? with
  | none => simp [isUnexited, hv] at h
  | some v => exact ⟨v, rfl, (isUnexited_iff hv).mp h⟩

theorem RegistryUpdate.ejects_iff {ejected : List Nat}
    (update : RegistryUpdate st st' ejected) :
    EjectsInactive cfg st st' ↔ ∀ i, isUnexited st i →
      (i ∈ ejected ↔ i ∈ balanceEjections cfg st ∨ i ∈ owedEjections cfg st) := by
  have hexit : ∀ i v, st.validators[i]? = some v → v.exitEpoch = farFutureEpoch →
      ((∃ v', st'.validators[i]? = some v' ∧ v'.exitEpoch ≠ farFutureEpoch) ↔ i ∈ ejected) := by
    intro i v hv hfar
    obtain ⟨w, hw, change⟩ := update.validator i v hv
    rw [hw]
    have := change.exitEpoch
    constructor
    · rintro ⟨w', hw', hne⟩
      cases hw'
      tauto
    · intro hin
      exact ⟨w, rfl, by tauto⟩
  constructor
  · intro promise i hi
    obtain ⟨v, hv, hfar⟩ := exists_of_isUnexited hi
    rw [← hexit i v hv hfar]
    exact promise i v hv hfar
  · intro same i v hv hfar
    rw [hexit i v hv hfar]
    exact same i ((isUnexited_iff hv).mpr hfar)

theorem capEjections_eq (cfg : BeaconChainConfig) (st : BeaconState) :
    capEjections (registryPass cfg st st.inactivityScores) =
      balanceEjections cfg st ++ (inactivityCandidates cfg st).take (floorCapacity cfg st) := by
  rw [registryPass_eq]
  rfl

/-- The registry update keeps the promise exactly when it misses nobody. -/
theorem ejectsInactive_iff (altair : Version.altair ≤ st.version)
    (h : registryUpdates cfg st = .ok st') :
    EjectsInactive cfg st st' ↔ NoneMissed cfg st := by
  unfold registryUpdates at h
  unfold NoneMissed
  split_ifs at h ⊢ with pre
  · obtain ⟨scores, hscores, update⟩ := processRegistryUpdates_ok h
    obtain rfl := registryScores_altair hscores altair
    have nodup : (inactivityCandidates cfg st).Nodup :=
      (positions_pairwise _ _).imp fun h => h.ne
    rw [update.ejects_iff, capEjections_eq, ← mem_take_filter_iff nodup (isUnexited st)]
    refine forall_congr' fun i => imp_congr_right fun hi => ?_
    rw [List.mem_append]
    by_cases hcand : i ∈ inactivityCandidates cfg st
    · have := not_mem_balanceEjections hcand
      simp only [this, false_or]
      rfl
    · have hcut : i ∉ (inactivityCandidates cfg st).take (floorCapacity cfg st) :=
        fun hmem => hcand (List.mem_of_mem_take hmem)
      have howed : i ∉ owedEjections cfg st := fun hmem => hcand (mem_of_mem_owed hmem).1
      simp only [hcut, howed, or_false, false_iff, true_iff]
      exact howed
  · have update := processRegistryUpdatesElectra_ok h
    rw [update.ejects_iff]
    have hbal : ∀ i, i ∈ positions (fun _ v => belowEjectionBalance cfg v &&
        isActiveValidator v (currentEpoch cfg st)) st.validators ↔ i ∈ balanceEjections cfg st := by
      intro i
      simp [balanceEjections, Bool.and_comm, and_comm]
    simp only [hbal]
    constructor
    · intro same
      refine List.eq_nil_iff_forall_not_mem.mpr fun i hi => ?_
      obtain ⟨hcand, hun⟩ := mem_of_mem_owed hi
      exact not_mem_balanceEjections hcand ((same i hun).mpr (.inr hi))
    · intro hnone i _
      simp [hnone]

def activeValidators (cfg : BeaconChainConfig) (st : BeaconState) : List Nat :=
  positions (fun _ v => isActiveValidator v (currentEpoch cfg st)) st.validators

/-- The validators that the update of package `epoch` has leave: all that are active with a low
balance, and the first of the other active ones with a high score, up to the quorum floor. -/
def leavingValidators (cfg : BeaconChainConfig) (st : BeaconState) : List Nat :=
  let active := (activeValidators cfg st).length
  let low := balanceEjections cfg st
  let inactive := inactivityCandidates cfg st
  low ++ inactive.take (min inactive.length (active - low.length - max 1 (2 * active / 3)))

theorem leavingValidators_eq (cfg : BeaconChainConfig) (st : BeaconState) :
    leavingValidators cfg st =
      balanceEjections cfg st ++ (inactivityCandidates cfg st).take (floorCapacity cfg st) := by
  have hactive : (activeValidators cfg st).length =
      activeValidatorCount st (currentEpoch cfg st) := length_positions _ _
  rw [leavingValidators, hactive, List.take_eq_take_min (i := floorCapacity cfg st), min_comm]
  rfl

/-- From Altair to Deneb the update sets the exit epochs of exactly the leaving validators that
have none, and leaves the exit of every other validator as it is. -/
theorem processRegistryUpdates_exits (altair : Version.altair ≤ st.version)
    (h : processRegistryUpdates cfg st = .ok st') :
    st'.validators.length = st.validators.length ∧
      ∀ i (v : Validator), st.validators[i]? = some v →
        ∃ v' : Validator, st'.validators[i]? = some v' ∧
          (v.exitEpoch = farFutureEpoch ∧ v'.exitEpoch ≠ farFutureEpoch ↔
            v.exitEpoch = farFutureEpoch ∧ i ∈ leavingValidators cfg st) ∧
          (¬ (v.exitEpoch = farFutureEpoch ∧ i ∈ leavingValidators cfg st) →
            v'.exitEpoch = v.exitEpoch ∧ v'.withdrawableEpoch = v.withdrawableEpoch) := by
  obtain ⟨scores, hscores, update⟩ := processRegistryUpdates_ok h
  obtain rfl := registryScores_altair hscores altair
  rw [capEjections_eq, ← leavingValidators_eq] at update
  refine ⟨update.frame.length, fun i v hv => ?_⟩
  obtain ⟨v', hv', change⟩ := update.validator i v hv
  have hexit := change.exitEpoch
  refine ⟨v', hv', by tauto, fun hstays => change.kept ?_⟩
  tauto

/-- Six active validators in epoch 100, the first with the given exit epoch. -/
def six (version : Version) (exitEpoch : Nat) (scores : List Nat) : BeaconState :=
  { version, slot := 3200, validators := { exitEpoch } :: List.replicate 5 {}
    balances := List.replicate 6 32000000000, inactivityScores := scores
    previousEpochParticipation := [], currentEpochParticipation := []
    finalizedCheckpointEpoch := 0, earliestExitEpoch := 0, exitBalanceToConsume := 0 }

/-- In Electra a validator above the threshold is not exited although two may be ejected. In
Deneb the exiting validator 0 takes one of the two places, and validator 2 is missed. -/
theorem six_missed :
    (owedEjections {} (six .electra farFutureEpoch [300, 0, 0, 0, 0, 0]) = [0] ∧
      ∃ st', registryUpdates {} (six .electra farFutureEpoch [300, 0, 0, 0, 0, 0]) = .ok st' ∧
        st'.validators.map (·.exitEpoch) = List.replicate 6 farFutureEpoch ∧
        ¬EjectsInactive {} (six .electra farFutureEpoch [300, 0, 0, 0, 0, 0]) st') ∧
    (owedEjections {} (six .deneb 110 [300, 300, 300, 0, 0, 0]) = [1, 2] ∧
      ∃ st', registryUpdates {} (six .deneb 110 [300, 300, 300, 0, 0, 0]) = .ok st' ∧
        st'.validators.map (·.exitEpoch) =
          [110, 110] ++ List.replicate 4 farFutureEpoch ∧
        ¬EjectsInactive {} (six .deneb 110 [300, 300, 300, 0, 0, 0]) st') := by
  refine ⟨⟨by decide +kernel, six .electra farFutureEpoch [300, 0, 0, 0, 0, 0],
    by decide +kernel, by decide, fun promise => ?_⟩, by decide +kernel,
    { six .deneb 110 [300, 300, 300, 0, 0, 0] with
      validators := { exitEpoch := 110 } :: { exitEpoch := 110, withdrawableEpoch := 366 } ::
        List.replicate 4 {} }, by decide +kernel, by decide, fun promise => ?_⟩
  · obtain ⟨v, hv, hexit⟩ := (promise 0 {} rfl rfl).mpr (.inr (by decide +kernel))
    cases hv
    exact hexit rfl
  · obtain ⟨v, hv, hexit⟩ := (promise 2 {} rfl rfl).mpr (.inr (by decide +kernel))
    cases hv
    exact hexit rfl

theorem processRegistryUpdates_six :
    processRegistryUpdates {} (six .deneb farFutureEpoch [300, 300, 300, 0, 0, 0]) =
      .ok { six .deneb farFutureEpoch [300, 300, 300, 0, 0, 0] with
        validators := List.replicate 2 { exitEpoch := 105, withdrawableEpoch := 361 } ++
          List.replicate 4 {} } := by decide +kernel

/-- With nobody exiting, the first two of three inactive validators are exited in Deneb. -/
theorem six_ejected : ∃ st',
    registryUpdates {} (six .deneb farFutureEpoch [300, 300, 300, 0, 0, 0]) = .ok st' ∧
      EjectsInactive {} (six .deneb farFutureEpoch [300, 300, 300, 0, 0, 0]) st' := by
  have hupdate : registryUpdates {} (six .deneb _ _) = _ :=
    (if_pos (by decide)).trans processRegistryUpdates_six
  refine ⟨_, hupdate, (ejectsInactive_iff (by decide) hupdate).mpr ?_⟩
  unfold NoneMissed
  decide +kernel

theorem six_exits : ∃ st',
    processRegistryUpdates {} (six .deneb farFutureEpoch [300, 300, 300, 0, 0, 0]) = .ok st' ∧
      leavingValidators {} (six .deneb farFutureEpoch [300, 300, 300, 0, 0, 0]) = [0, 1] ∧
      st'.validators.length = 6 :=
  ⟨_, processRegistryUpdates_six, by decide +kernel,
    (processRegistryUpdates_exits (by decide) processRegistryUpdates_six).1⟩

end LightChain.Epoch

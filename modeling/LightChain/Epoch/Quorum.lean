import LightChain.Epoch.Registry

/-!
# The quorum floor over runs of epochs

One call of `ProcessRegistryUpdates` caps its inactivity ejections by a count of active
validators that includes those already waiting to exit. The cap therefore does not
compose: later calls can eject the validators that the floor of an earlier call counted
on. What composes is that one validator without an exit epoch is left, and `KeepsOne`
says when a call leaves one.
-/
namespace LightChain.Epoch
open Library Relation

variable {cfg : BeaconChainConfig} {st st' : BeaconState}

/-- A state of the run: no balance ejection, and a version that uses package `epoch` with
inactivity scores. -/
structure QuietState (cfg : BeaconChainConfig) (st : BeaconState) : Prop where
  altair : Version.altair ≤ st.version
  deneb : st.version ≤ Version.deneb
  balances : ∀ v ∈ st.validators, belowEjectionBalance cfg v = false

/-- Between two calls the epoch advances. Scores, balances and finality change in any way and
validators join, but nobody's activation or exit epoch changes. -/
structure NextEpoch (cfg : BeaconChainConfig) (st st' : BeaconState) : Prop where
  epoch : currentEpoch cfg st' = currentEpoch cfg st + 1
  epoch_lt : currentEpoch cfg st' < farFutureEpoch
  kept : ∀ (i : Nat) (v : Validator), st.validators[i]? = some v →
    ∃ v' : Validator, st'.validators[i]? = some v' ∧
      v'.activationEpoch = v.activationEpoch ∧ v'.exitEpoch = v.exitEpoch

section

variable (cfg : BeaconChainConfig)

def EpochStep (st st' : BeaconState) : Prop :=
  QuietState cfg st ∧ ∃ mid, processRegistryUpdates cfg st = .ok mid ∧ NextEpoch cfg mid st'

def isStaying (st : BeaconState) (v : Validator) : Bool :=
  isActiveValidator v (currentEpoch cfg st) && v.exitEpoch == farFutureEpoch

/-- The number of inactivity ejections the floor allows when no balance is too low. -/
def inactivityCapacity (st : BeaconState) : Nat :=
  let active := activeValidatorCount st (currentEpoch cfg st)
  active - quorumFloor active

/-- Some validator that stays is not among the candidates the cap lets through. -/
def KeepsOne (st : BeaconState) : Prop :=
  ∃ i v, st.validators[i]? = some v ∧ isStaying cfg st v ∧
    i ∉ (inactivityCandidates cfg st).take (inactivityCapacity cfg st)

end

theorem capEjections_quiet (quiet : QuietState cfg st) :
    capEjections (registryPass cfg st st.inactivityScores) =
      (inactivityCandidates cfg st).take (inactivityCapacity cfg st) := by
  have hnone : positions (fun _ v => isActiveValidator v (currentEpoch cfg st) &&
      belowEjectionBalance cfg v) st.validators = [] := by
    refine List.eq_nil_iff_forall_not_mem.mpr fun i hi => ?_
    obtain ⟨v, hv, hlow⟩ := mem_positions.mp hi
    rw [quiet.balances v (List.mem_of_getElem? hv), Bool.and_false] at hlow
    cases hlow
  rw [registryPass_eq, hnone]
  rfl

theorem EpochStep.stays (step : EpochStep cfg st st') (keeps : KeepsOne cfg st) :
    ∃ v ∈ st'.validators, isStaying cfg st' v := by
  obtain ⟨quiet, mid, hmid, next⟩ := step
  obtain ⟨scores, hscores, update⟩ := processRegistryUpdates_ok hmid
  obtain rfl := registryScores_altair hscores quiet.altair
  rw [capEjections_quiet quiet] at update
  obtain ⟨i, v, hv, hstays, hout⟩ := keeps
  obtain ⟨w, hw, change⟩ := update.validator i v hv
  obtain ⟨u, hu, hact, hexit⟩ := next.kept i w hw
  simp only [isStaying, isActiveValidator, Bool.and_eq_true, decide_eq_true_eq,
    beq_iff_eq] at hstays
  obtain ⟨⟨hstarted, hbefore⟩, hfar⟩ := hstays
  have hepoch := next.epoch
  have hlt := next.epoch_lt
  have hsame : currentEpoch cfg mid = currentEpoch cfg st := by
    unfold currentEpoch
    rw [update.frame.slot]
  have hwact := change.activationEpoch (by omega)
  have hwexit := change.exitEpoch.mpr ⟨hfar, hout⟩
  refine ⟨u, List.mem_of_getElem? hu, ?_⟩
  simp only [isStaying, isActiveValidator, Bool.and_eq_true, decide_eq_true_eq, beq_iff_eq]
  omega

/-- Two validators with the given exit epochs, at the start of an epoch. -/
def pair (epoch exitOne exitTwo : Nat) (scores : List Nat) : BeaconState :=
  let withdrawable (exit : Nat) := if exit = farFutureEpoch then exit else exit + 256
  { version := .altair, slot := 32 * epoch
    validators := [{ exitEpoch := exitOne, withdrawableEpoch := withdrawable exitOne },
      { exitEpoch := exitTwo, withdrawableEpoch := withdrawable exitTwo }]
    balances := [], inactivityScores := scores, previousEpochParticipation := []
    currentEpochParticipation := [], finalizedCheckpointEpoch := 0
    earliestExitEpoch := 0, exitBalanceToConsume := 0 }

theorem pair_step {epoch one two one' two' : Nat} {scores scores' : List Nat}
    (call : processRegistryUpdates {} (pair epoch one two scores) =
      .ok (pair epoch one' two' scores)) (hlt : epoch + 1 < farFutureEpoch) :
    EpochStep {} (pair epoch one two scores) (pair (epoch + 1) one' two' scores') := by
  have hcur : ∀ e exitOne exitTwo score, currentEpoch {} (pair e exitOne exitTwo score) = e := by
    intro e exitOne exitTwo score
    exact Nat.mul_div_cancel_left e (by norm_num)
  refine ⟨⟨show Version.altair ≤ Version.altair by decide,
    show Version.altair ≤ Version.deneb by decide, ?_⟩, _, call,
    ⟨?_, ?_, fun i v hv => ⟨v, hv, rfl, rfl⟩⟩⟩
  · intro v hv
    simp only [pair, List.mem_cons, List.not_mem_nil, or_false] at hv
    obtain rfl | rfl := hv <;> rfl
  · rw [hcur, hcur]
  · rwa [hcur]

end LightChain.Epoch

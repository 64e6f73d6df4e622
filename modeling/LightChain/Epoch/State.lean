import LightChain.Config.Params
import LightChain.Library.MachineInt

/-!
# The beacon state of epoch processing

The fields of `BeaconState` that epoch processing reads and writes, and the helpers
that classify a validator or compute a churn limit. Epochs and balances are `uint64`.
-/
namespace LightChain.Epoch
open Library

inductive Version where
  | phase0 | altair | bellatrix | capella | deneb | electra | fulu | gloas
deriving DecidableEq, Repr

/-- The position of a version in the fork order. -/
def Version.rank : Version → Nat
  | .phase0 => 0 | .altair => 1 | .bellatrix => 2 | .capella => 3
  | .deneb => 4 | .electra => 5 | .fulu => 6 | .gloas => 7

def Version.name : Version → String
  | .phase0 => "phase0" | .altair => "altair" | .bellatrix => "bellatrix" | .capella => "capella"
  | .deneb => "deneb" | .electra => "electra" | .fulu => "fulu" | .gloas => "gloas"

instance : LE Version := ⟨fun a b => a.rank ≤ b.rank⟩
instance : LT Version := ⟨fun a b => a.rank < b.rank⟩
instance (a b : Version) : Decidable (a ≤ b) := inferInstanceAs (Decidable (a.rank ≤ b.rank))
instance (a b : Version) : Decidable (a < b) := inferInstanceAs (Decidable (a.rank < b.rank))

inductive Error where
  | scoresLength (scores validators : Nat)
  | scoreCount
  | registryLength
  | alreadyExited
  | addOverflow
  | mulOverflow
  | notSupported (function : String) (version : Version)
  | indexOutOfRange (index : Nat)
  | initiateExit (index : Nat) (cause : Error)
  | initiateExitElectra (index : Nat) (cause : Error)
  | readValidators (cause : Error)
  | flagPosition
  | attestationDelta (cause : Error)
deriving DecidableEq, Repr

def Error.message : Error → String
  | .scoresLength n m =>
    "inactivity scores length " ++ toString n ++ " does not match validator count " ++ toString m
  | .scoreCount => "num of validators is different than num of inactivity scores"
  | .registryLength => "validator registries not the same length as state's validator registries"
  | .alreadyExited => "validator already exited"
  | .addOverflow => "addition overflows"
  | .mulOverflow => "multiplication overflows"
  | .notSupported f v => f ++ " is not supported for " ++ v.name
  | .indexOutOfRange i => "index " ++ toString i ++ " out of bounds"
  | .initiateExit i e =>
    "could not initiate exit for validator " ++ toString i ++ ": " ++ e.message
  | .initiateExitElectra i e =>
    "failed to initiate validator exit at index " ++ toString i ++ ": " ++ e.message
  | .readValidators e => "could not read every validator: " ++ e.message
  | .flagPosition => "flag position exceeds length"
  | .attestationDelta e => "could not get attestation delta: " ++ e.message

structure Validator where
  effectiveBalance : Nat := 32000000000
  slashed : Bool := false
  activationEligibilityEpoch : Nat := 0
  activationEpoch : Nat := 0
  exitEpoch : Nat := farFutureEpoch
  withdrawableEpoch : Nat := farFutureEpoch
deriving DecidableEq, Repr

structure BeaconState where
  version : Version
  slot : Nat
  validators : List Validator
  balances : List Nat
  inactivityScores : List Nat
  previousEpochParticipation : List (BitVec 8)
  currentEpochParticipation : List (BitVec 8)
  finalizedCheckpointEpoch : Nat
  earliestExitEpoch : Nat
  exitBalanceToConsume : Nat
deriving DecidableEq, Repr

section Helpers

variable (cfg : BeaconChainConfig)

def toEpoch (slot : Nat) : Nat := slot / cfg.slotsPerEpoch

variable (st : BeaconState)

def currentEpoch : Nat := toEpoch cfg st.slot

def prevEpoch : Nat :=
  if currentEpoch cfg st = 0 then 0 else currentEpoch cfg st - 1

def activationExitEpoch (epoch : Nat) : Nat := add64 (add64 epoch 1) cfg.maxSeedLookahead

/-- `IsActiveValidator`: activated, and the exit epoch not yet reached. -/
def isActiveValidator (v : Validator) (epoch : Nat) : Bool :=
  v.activationEpoch ≤ epoch && epoch < v.exitEpoch

def isEligibleForActivationQueue (v : Validator) (epoch : Nat) : Bool :=
  if cfg.electraForkEpoch ≤ epoch then
    v.activationEligibilityEpoch == farFutureEpoch && cfg.minActivationBalance ≤ v.effectiveBalance
  else
    v.activationEligibilityEpoch == farFutureEpoch && v.effectiveBalance == cfg.maxEffectiveBalance

def isEligibleForActivation (v : Validator) : Bool :=
  v.activationEligibilityEpoch ≤ st.finalizedCheckpointEpoch && v.activationEpoch == farFutureEpoch

/-- `ActiveValidatorCount`; the committee cache in front of the count stores this number. -/
def activeValidatorCount (epoch : Nat) : Nat :=
  st.validators.countP (isActiveValidator · epoch)

def calculateChurnLimit (activeCount : Nat) : Nat :=
  max cfg.minPerEpochChurnLimit (activeCount / cfg.churnLimitQuotient)

def validatorActivationChurnLimit (activeCount : Nat) : Nat := calculateChurnLimit cfg activeCount

def validatorExitChurnLimit (activeCount : Nat) : Nat := calculateChurnLimit cfg activeCount

def validatorActivationChurnLimitDeneb (activeCount : Nat) : Nat :=
  min cfg.maxPerEpochActivationChurnLimit (calculateChurnLimit cfg activeCount)

/-- The effective balances of the active validators, added up in `uint64`. -/
def totalActiveBalance : Nat :=
  max cfg.effectiveBalanceIncrement
    (st.validators.foldl (fun total v =>
      if isActiveValidator v (currentEpoch cfg st) then add64 total v.effectiveBalance
      else total) 0)

def balanceChurnLimit (activeBalance : Nat) : Nat :=
  let churn := max cfg.minPerEpochChurnLimitElectra (activeBalance / cfg.churnLimitQuotient)
  churn - churn % cfg.effectiveBalanceIncrement

def activationExitChurnLimit (activeBalance : Nat) : Nat :=
  min cfg.maxPerEpochActivationExitChurnLimit (balanceChurnLimit cfg activeBalance)

end Helpers

def validatorAtIndex (st : BeaconState) (idx : Nat) : Except Error Validator :=
  match st.validators[idx]? with
  | some v => .ok v
  | none => .error (.indexOutOfRange idx)

def updateValidatorAtIndex (st : BeaconState) (idx : Nat) (v : Validator) :
    Except Error BeaconState :=
  if idx < st.validators.length then .ok { st with validators := st.validators.set idx v }
  else .error (.indexOutOfRange idx)

end LightChain.Epoch

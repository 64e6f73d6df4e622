import LightChain.Epoch.State
import LightChain.SlotTime.Schedule

/-!
# Inactivity scores and the ejection threshold

`InactivityEjectionThreshold`, and the part of Altair epoch processing that computes the
scores it is compared with: the precomputed validator records, their participation flags
and `ProcessInactivityScores`. Indexing outside a slice is an error here, a panic there.
-/
namespace LightChain.Epoch
open Library SlotTime

def inactivityEjectionMinDowntimeSeconds : Nat := 6 * 60 * 60

def epochStart (cfg : BeaconChainConfig) (epoch : Nat) : Option Nat :=
  safeMul64 cfg.slotsPerEpoch epoch

/-- The score from which a validator is a candidate for a forced exit: the number of epochs
that fit into the minimum downtime, at the slot length the given epoch starts with. -/
def inactivityEjectionThreshold (cfg : BeaconChainConfig) (epoch : Nat) : Nat :=
  match epochStart cfg epoch with
  | none => 2 ^ 64 - 1
  | some start =>
    let epochMillis :=
      mul64 (int64ToUint64 (milliseconds (slotDurationAt cfg start))) cfg.slotsPerEpoch
    if epochMillis = 0 ∨ cfg.inactivityScoreBias = 0 then 2 ^ 64 - 1
    else
      let leakEpochs := inactivityEjectionMinDowntimeSeconds * 1000 / epochMillis
      mul64 (if leakEpochs = 0 then 1 else leakEpochs) cfg.inactivityScoreBias

/-- The fields of `precompute.Validator` that Altair epoch processing uses. -/
structure PrecomputeValidator where
  isSlashed : Bool := false
  isWithdrawableCurrentEpoch : Bool := false
  isActiveCurrentEpoch : Bool := false
  isActivePrevEpoch : Bool := false
  isCurrentEpochAttester : Bool := false
  isCurrentEpochTargetAttester : Bool := false
  isPrevEpochAttester : Bool := false
  isPrevEpochSourceAttester : Bool := false
  isPrevEpochTargetAttester : Bool := false
  isPrevEpochHeadAttester : Bool := false
  currentEpochEffectiveBalance : Nat := 0
  beforeEpochTransitionBalance : Nat := 0
  afterEpochTransitionBalance : Nat := 0
  inactivityScore : Nat := 0
deriving DecidableEq, Repr

structure Balance where
  activeCurrentEpoch : Nat := 0
  activePrevEpoch : Nat := 0
  currentEpochAttested : Nat := 0
  currentEpochTargetAttested : Nat := 0
  prevEpochAttested : Nat := 0
  prevEpochTargetAttested : Nat := 0
  prevEpochHeadAttested : Nat := 0
deriving DecidableEq, Repr

/-- `math.Add64` and `math.Mul64`. -/
def checkedAdd (a b : Nat) : Except Error Nat :=
  match safeAdd64 a b with
  | some c => .ok c
  | none => .error .addOverflow

def checkedMul (a b : Nat) : Except Error Nat :=
  match safeMul64 a b with
  | some c => .ok c
  | none => .error .mulOverflow

theorem checkedAdd_eq_ok {a b c : Nat} :
    checkedAdd a b = .ok c ↔ a + b < 2 ^ 64 ∧ c = a + b := by
  rw [← safeAdd64_eq_some]
  unfold checkedAdd
  cases safeAdd64 a b <;> simp [eq_comm]

def addIf (counts : Bool) (total amount : Nat) : Except Error Nat :=
  if counts then checkedAdd total amount else .ok total

section Precompute

variable (cfg : BeaconChainConfig) (st : BeaconState)

def precomputeValidator (bal : Balance) (v : Validator) (score : Nat) :
    Except Error (PrecomputeValidator × Balance) := do
  let active := isActiveValidator v (currentEpoch cfg st)
  let activePrev := isActiveValidator v (prevEpoch cfg st)
  let current ← addIf active bal.activeCurrentEpoch v.effectiveBalance
  let previous ← addIf activePrev bal.activePrevEpoch v.effectiveBalance
  return ({ currentEpochEffectiveBalance := v.effectiveBalance
            inactivityScore := score
            isSlashed := v.slashed
            isWithdrawableCurrentEpoch := v.withdrawableEpoch ≤ currentEpoch cfg st
            isActiveCurrentEpoch := active
            isActivePrevEpoch := activePrev },
          { bal with activeCurrentEpoch := current, activePrevEpoch := previous })

def precomputeLoop (st : BeaconState) :
    Balance → List (Validator × Nat) → Except Error (List PrecomputeValidator × Balance)
  | bal, [] => pure ([], bal)
  | bal, (v, score) :: rest => do
    let (p, bal) ← precomputeValidator cfg st bal v score
    let (ps, bal) ← precomputeLoop st bal rest
    return (p :: ps, bal)

def initializePrecomputeValidators : Except Error (List PrecomputeValidator × Balance) :=
  if st.validators.length ≠ st.inactivityScores.length then .error .scoreCount
  else (precomputeLoop cfg st {} (st.validators.zip st.inactivityScores)).mapError .readValidators

def hasValidatorFlag (flags : BitVec 8) (position : Nat) : Except Error Bool :=
  if position > 7 then .error .flagPosition else .ok (flags.getLsbD position)

def markCurrent (flags : BitVec 8) (v : PrecomputeValidator) :
    Except Error PrecomputeValidator := do
  let source ← hasValidatorFlag flags cfg.timelySourceFlagIndex
  let target ← hasValidatorFlag flags cfg.timelyTargetFlagIndex
  let counts := v.isActiveCurrentEpoch
  return { v with
    isCurrentEpochAttester := v.isCurrentEpochAttester || (source || target) && counts
    isCurrentEpochTargetAttester := v.isCurrentEpochTargetAttester || target && counts }

def markPrevious (flags : BitVec 8) (v : PrecomputeValidator) :
    Except Error PrecomputeValidator := do
  let source ← hasValidatorFlag flags cfg.timelySourceFlagIndex
  let target ← hasValidatorFlag flags cfg.timelyTargetFlagIndex
  let head ← hasValidatorFlag flags cfg.timelyHeadFlagIndex
  let counts := v.isActivePrevEpoch
  return { v with
    isPrevEpochAttester := v.isPrevEpochAttester || (source || target) && counts
    isPrevEpochSourceAttester := v.isPrevEpochSourceAttester || source && counts
    isPrevEpochTargetAttester := v.isPrevEpochTargetAttester || target && counts
    isPrevEpochHeadAttester := v.isPrevEpochHeadAttester || head && counts }

/-- Run `mark` over the validators that have a participation entry. -/
def markAll (mark : BitVec 8 → PrecomputeValidator → Except Error PrecomputeValidator) :
    List (BitVec 8) → List PrecomputeValidator → Except Error (List PrecomputeValidator)
  | [], vals => pure vals
  | _ :: _, [] => .error (.indexOutOfRange 0)
  | flags :: rest, v :: vals => do
    let v ← mark flags v
    let vals ← markAll mark rest vals
    return v :: vals

/-- `UpdateBalance` adds the attesting balances of the unslashed validators. -/
def updateBalance (version : Version) (bal : Balance) (v : PrecomputeValidator) : Balance :=
  let gain (flag : Bool) (total : Nat) : Nat :=
    if !v.isSlashed && flag then add64 total v.currentEpochEffectiveBalance else total
  let source := if Version.altair ≤ version then v.isPrevEpochSourceAttester
    else v.isPrevEpochAttester
  { bal with
    currentEpochAttested := gain v.isCurrentEpochAttester bal.currentEpochAttested
    currentEpochTargetAttested :=
      gain v.isCurrentEpochTargetAttester bal.currentEpochTargetAttested
    prevEpochAttested := gain source bal.prevEpochAttested
    prevEpochTargetAttested := gain v.isPrevEpochTargetAttester bal.prevEpochTargetAttested
    prevEpochHeadAttested := gain v.isPrevEpochHeadAttester bal.prevEpochHeadAttested }

def ensureBalancesLowerBound (bal : Balance) : Balance :=
  let bound := max cfg.effectiveBalanceIncrement
  { activeCurrentEpoch := bound bal.activeCurrentEpoch
    activePrevEpoch := bound bal.activePrevEpoch
    currentEpochAttested := bound bal.currentEpochAttested
    currentEpochTargetAttested := bound bal.currentEpochTargetAttested
    prevEpochAttested := bound bal.prevEpochAttested
    prevEpochTargetAttested := bound bal.prevEpochTargetAttested
    prevEpochHeadAttested := bound bal.prevEpochHeadAttested }

def processEpochParticipation (bal : Balance) (vals : List PrecomputeValidator) :
    Except Error (List PrecomputeValidator × Balance) := do
  let vals ← markAll (markCurrent cfg) st.currentEpochParticipation vals
  let vals ← markAll (markPrevious cfg) st.previousEpochParticipation vals
  return (vals, ensureBalancesLowerBound cfg (vals.foldl (updateBalance st.version) bal))

def eligibleForRewards (v : PrecomputeValidator) : Bool :=
  v.isActivePrevEpoch || v.isSlashed && !v.isWithdrawableCurrentEpoch

/-- `IsInInactivityLeak`; the delay is an unsigned subtraction. -/
def isInInactivityLeak (prevEpoch finalizedEpoch : Nat) : Bool :=
  sub64 prevEpoch finalizedEpoch > cfg.minEpochsToInactivityPenalty

/-- The score before recovery: one less for a timely target, the bias more otherwise. -/
def accruedScore (v : PrecomputeValidator) : Except Error Nat :=
  if v.isPrevEpochTargetAttester && !v.isSlashed then .ok (v.inactivityScore - 1)
  else checkedAdd v.inactivityScore cfg.inactivityScoreBias

def nextScore (leak : Bool) (v : PrecomputeValidator) : Except Error Nat := do
  let score ← accruedScore cfg v
  return if leak then score else score - min cfg.inactivityScoreRecoveryRate score

/-- The loop of `ProcessInactivityScores`, over the records and the scores they replace. -/
def scoreLoop (leak : Bool) :
    List PrecomputeValidator → List Nat → Except Error (List Nat × List PrecomputeValidator)
  | [], scores => pure (scores, [])
  | v :: vals, scores => do
    if eligibleForRewards v then
      let score ← nextScore cfg leak v
      match scores with
      | [] => .error (.indexOutOfRange 0)
      | _ :: rest =>
        let (rest, vals) ← scoreLoop leak vals rest
        return (score :: rest, { v with inactivityScore := score } :: vals)
    else
      let (rest, vals) ← scoreLoop leak vals scores.tail
      return (scores.take 1 ++ rest, v :: vals)

def processInactivityScores (vals : List PrecomputeValidator) :
    Except Error (BeaconState × List PrecomputeValidator) :=
  if currentEpoch cfg st = genesisEpoch then pure (st, vals)
  else if st.version < .altair then .error (.notSupported "InactivityScores" st.version)
  else do
    let leak := isInInactivityLeak cfg (prevEpoch cfg st) st.finalizedCheckpointEpoch
    let (scores, vals) ← scoreLoop cfg leak vals st.inactivityScores
    return ({ st with inactivityScores := scores }, vals)

end Precompute

end LightChain.Epoch

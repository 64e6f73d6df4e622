import LightChain.Epoch.Inactivity
import LightChain.Library.Fallible

/-!
# Rewards and penalties

`ProcessRewardsAndPenaltiesPrecompute` of package `altair`, which all later forks share.
It computes an inactivity penalty for every validator and does not charge it, so the balances do
not depend on the inactivity scores. All products are unchecked `uint64` products except the one
behind that penalty, and this is where the scores still matter: a step fails if the product
overflows, and `rewards_same_iff` says when two score vectors have the same outcome.
-/
namespace LightChain.Epoch
open Library List

structure AttDelta where
  headReward : Nat := 0
  sourceReward : Nat := 0
  sourcePenalty : Nat := 0
  targetReward : Nat := 0
  targetPenalty : Nat := 0
  inactivityPenalty : Nat := 0
deriving DecidableEq, Repr

section Deltas

variable (cfg : BeaconChainConfig)

/-- The reward of a timely vote: its share of the attesting balance, none in a leak. -/
def voteReward (bal : Balance) (baseReward weight attested : Nat) (leak : Bool) : Nat :=
  if leak then 0
  else mul64 (mul64 baseReward weight) (attested / cfg.effectiveBalanceIncrement) /
    mul64 (bal.activeCurrentEpoch / cfg.effectiveBalanceIncrement) cfg.weightDenominator

def votePenalty (baseReward weight : Nat) : Nat :=
  mul64 baseReward weight / cfg.weightDenominator

/-- The penalty for inactivity, zero after a timely target vote. -/
def inactivityPenalty (v : PrecomputeValidator) (inactivityDenominator : Nat) :
    Except Error Nat :=
  if !v.isPrevEpochTargetAttester || v.isSlashed then
    (checkedMul v.currentEpochEffectiveBalance v.inactivityScore).map (· / inactivityDenominator)
  else .ok 0

def voteDelta (bal : Balance) (baseRewardMultiplier : Nat) (leak : Bool)
    (v : PrecomputeValidator) : AttDelta :=
  let baseReward := mul64 (v.currentEpochEffectiveBalance / cfg.effectiveBalanceIncrement)
    baseRewardMultiplier
  let source := v.isPrevEpochSourceAttester && !v.isSlashed
  let target := v.isPrevEpochTargetAttester && !v.isSlashed
  let head := v.isPrevEpochHeadAttester && !v.isSlashed
  { sourceReward := if source then
      voteReward cfg bal baseReward cfg.timelySourceWeight bal.prevEpochAttested leak else 0
    sourcePenalty := if source then 0 else votePenalty cfg baseReward cfg.timelySourceWeight
    targetReward := if target then
      voteReward cfg bal baseReward cfg.timelyTargetWeight bal.prevEpochTargetAttested leak else 0
    targetPenalty := if target then 0 else votePenalty cfg baseReward cfg.timelyTargetWeight
    headReward := if head then
      voteReward cfg bal baseReward cfg.timelyHeadWeight bal.prevEpochHeadAttested leak else 0 }

def attestationDelta (bal : Balance) (baseRewardMultiplier inactivityDenominator : Nat)
    (leak : Bool) (v : PrecomputeValidator) : Except Error AttDelta :=
  if !eligibleForRewards v || bal.activeCurrentEpoch == 0 then .ok {}
  else do
    let penalty ← inactivityPenalty v inactivityDenominator
    return { voteDelta cfg bal baseRewardMultiplier leak v with inactivityPenalty := penalty }

/-- `InactivityPenaltyQuotient` of the state's version. -/
def penaltyQuotient (st : BeaconState) : Nat :=
  if Version.bellatrix ≤ st.version then cfg.inactivityPenaltyQuotientBellatrix
  else if Version.altair ≤ st.version then cfg.inactivityPenaltyQuotientAltair
  else cfg.inactivityPenaltyQuotient

/-- The reward of one increment of effective balance; the cached Newton iteration of the
source computes the integer square root from any cached value. -/
def baseRewardMultiplier (bal : Balance) : Nat :=
  mul64 cfg.effectiveBalanceIncrement cfg.baseRewardFactor / Nat.sqrt bal.activeCurrentEpoch

def attestationsDelta (st : BeaconState) (bal : Balance) (vals : List PrecomputeValidator) :
    Except Error (List AttDelta) :=
  let leak := isInInactivityLeak cfg (prevEpoch cfg st) st.finalizedCheckpointEpoch
  let inactivityDenominator := mul64 cfg.inactivityScoreBias (penaltyQuotient cfg st)
  vals.mapM (attestationDelta cfg bal (baseRewardMultiplier cfg bal) inactivityDenominator leak)

def applyDelta (balance : Nat) (delta : AttDelta) : Except Error Nat := do
  let increased ← checkedAdd balance
    (add64 (add64 delta.headReward delta.sourceReward) delta.targetReward)
  return increased - add64 delta.sourcePenalty delta.targetPenalty

def processRewardsAndPenaltiesPrecompute (st : BeaconState) (bal : Balance)
    (vals : List PrecomputeValidator) : Except Error BeaconState :=
  if currentEpoch cfg st = genesisEpoch then .ok st
  else if vals.length ≠ st.validators.length ∨ vals.length ≠ st.balances.length then
    .error .registryLength
  else do
    let deltas ← (attestationsDelta cfg st bal vals).mapError .attestationDelta
    let balances ← (st.balances.zip deltas).mapM fun a => applyDelta a.1 a.2
    return { st with balances := balances }

end Deltas

def PrecomputeValidator.withScore (v : PrecomputeValidator) (score : Nat) : PrecomputeValidator :=
  { v with inactivityScore := score }

/-- The state and the records of the validators with other inactivity scores. -/
def rewardsWithScores (cfg : BeaconChainConfig) (st : BeaconState) (bal : Balance)
    (vals : List PrecomputeValidator) (scores : List Nat) : Except Error BeaconState :=
  processRewardsAndPenaltiesPrecompute cfg { st with inactivityScores := scores } bal
    (vals.zipWith .withScore scores)

def writtenBalances (result : Except Error BeaconState) : Option (List Nat) :=
  result.toOption.map (·.balances)

section Scores

variable (cfg : BeaconChainConfig) (st : BeaconState) (bal : Balance)
  (vals : List PrecomputeValidator) (scores scores' : List Nat)

/-- The product behind the penalty of a validator is needed and does not fit. -/
def penaltyOverflows (v : PrecomputeValidator) : Bool :=
  eligibleForRewards v && bal.activeCurrentEpoch != 0 &&
    (!v.isPrevEpochTargetAttester || v.isSlashed) &&
    decide (2 ^ 64 ≤ v.currentEpochEffectiveBalance * v.inactivityScore)

/-- What a validator gets and loses for its votes. It does not depend on the score. -/
def chargedDelta (v : PrecomputeValidator) : AttDelta :=
  if !eligibleForRewards v || bal.activeCurrentEpoch == 0 then {}
  else voteDelta cfg bal (baseRewardMultiplier cfg bal)
    (isInInactivityLeak cfg (prevEpoch cfg st) st.finalizedCheckpointEpoch) v

def AttDelta.reward (delta : AttDelta) : Nat :=
  add64 (add64 delta.headReward delta.sourceReward) delta.targetReward

def AttDelta.withoutPenalty (delta : AttDelta) : AttDelta := { delta with inactivityPenalty := 0 }

/-- Some balance does not fit any more after its reward. -/
def Overpays : Prop :=
  ∃ a ∈ st.balances.zip (vals.map (chargedDelta cfg st bal)), 2 ^ 64 ≤ a.1 + a.2.reward

def anyPenaltyOverflows : Bool := (vals.zipWith .withScore scores).any (penaltyOverflows bal)

/-- The outcome cannot depend on the scores, or they agree on whether a penalty overflows. -/
def ScoresAgree : Prop :=
  currentEpoch cfg st = genesisEpoch ∨
    (vals.length ≠ st.validators.length ∨ vals.length ≠ st.balances.length) ∨
    Overpays cfg st bal vals ∨
    anyPenaltyOverflows bal vals scores = anyPenaltyOverflows bal vals scores'

variable (d : Nat) (v : PrecomputeValidator) in
theorem attestationDelta_cases :
    penaltyOverflows bal v = true ∧
        attestationDelta cfg bal (baseRewardMultiplier cfg bal) d
          (isInInactivityLeak cfg (prevEpoch cfg st) st.finalizedCheckpointEpoch) v =
          .error .mulOverflow ∨
      penaltyOverflows bal v = false ∧ ∃ delta,
        attestationDelta cfg bal (baseRewardMultiplier cfg bal) d
          (isInInactivityLeak cfg (prevEpoch cfg st) st.finalizedCheckpointEpoch) v = .ok delta ∧
        delta.withoutPenalty = chargedDelta cfg st bal v := by
  unfold attestationDelta chargedDelta penaltyOverflows inactivityPenalty checkedMul safeMul64
  split_ifs with hskip hcharged hfits
  · right
    exact ⟨by grind, _, rfl, rfl⟩
  · right
    exact ⟨by grind, _, rfl, rfl⟩
  · left
    exact ⟨by grind, rfl⟩
  · right
    exact ⟨by grind, _, rfl, rfl⟩

theorem attestationsDelta_cases :
    vals.any (penaltyOverflows bal) = true ∧ (attestationsDelta cfg st bal vals).toOption = none ∨
      vals.any (penaltyOverflows bal) = false ∧ ∃ deltas,
        attestationsDelta cfg st bal vals = .ok deltas ∧
        deltas.map AttDelta.withoutPenalty = vals.map (chargedDelta cfg st bal) := by
  unfold attestationsDelta
  dsimp only
  generalize mul64 cfg.inactivityScoreBias (penaltyQuotient cfg st) = d
  induction vals with
  | nil => exact .inr ⟨rfl, [], rfl, rfl⟩
  | cons v vals ih =>
    rw [mapM_cons, any_cons]
    obtain ⟨hv, hdelta⟩ | ⟨hv, delta, hdelta, hcharged⟩ :=
      attestationDelta_cases cfg st bal d v
    · rw [hv, hdelta]
      exact .inl ⟨rfl, rfl⟩
    · rw [hv, hdelta, Bool.false_or, ok_bind]
      obtain ⟨hany, hnone⟩ | ⟨hany, deltas, hdeltas, hall⟩ := ih
      · refine .inl ⟨hany, ?_⟩
        rw [toOption_bind, hnone]
        rfl
      · refine .inr ⟨hany, delta :: deltas, ?_, ?_⟩
        · rw [hdeltas]
          rfl
        · rw [map_cons, map_cons, hcharged, hall]

variable {cfg st bal vals scores scores'}

theorem applyDelta_toOption_eq_none (balance : Nat) (delta : AttDelta) :
    (applyDelta balance delta).toOption = none ↔ 2 ^ 64 ≤ balance + delta.reward := by
  unfold applyDelta checkedAdd safeAdd64 AttDelta.reward
  split_ifs with h
  · exact iff_of_false nofun h.not_ge
  · exact iff_of_true rfl (not_lt.1 h)

/-- What the step writes: nothing if a penalty overflows, otherwise what the votes are worth. -/
theorem writtenBalances_rewardsWithScores (hlen : scores.length = vals.length) :
    writtenBalances (rewardsWithScores cfg st bal vals scores) =
      if currentEpoch cfg st = genesisEpoch then some st.balances
      else if vals.length ≠ st.validators.length ∨ vals.length ≠ st.balances.length then none
      else if anyPenaltyOverflows bal vals scores then none
      else ((st.balances.zip (vals.map (chargedDelta cfg st bal))).mapM
        fun a => applyDelta a.1 a.2).toOption := by
  have hlength : (vals.zipWith PrecomputeValidator.withScore scores).length = vals.length := by
    rw [List.length_zipWith, hlen, min_self]
  have hcharged : (vals.zipWith PrecomputeValidator.withScore scores).map
      (chargedDelta cfg { st with inactivityScores := scores } bal) =
      vals.map (chargedDelta cfg st bal) := by
    rw [map_zipWith, ← map_uncurry_zip_eq_zipWith]
    show (vals.zip scores).map (chargedDelta cfg st bal ∘ Prod.fst) = _
    rw [← map_map, map_fst_zip hlen.ge]
  unfold rewardsWithScores processRewardsAndPenaltiesPrecompute writtenBalances
  rw [hlength]
  show Option.map _ (Except.toOption (if currentEpoch cfg st = genesisEpoch then _ else _)) = _
  split_ifs with hgenesis hshape h
  · rfl
  · rfl
  · -- a penalty overflows
    obtain ⟨-, hnone⟩ | ⟨hany, -⟩ := attestationsDelta_cases cfg
      { st with inactivityScores := scores } bal (vals.zipWith .withScore scores)
    · rw [toOption_bind, toOption_mapError, hnone]
      rfl
    · exact absurd h (by rw [anyPenaltyOverflows, hany]; decide)
  · obtain ⟨hany, -⟩ | ⟨-, deltas, hdeltas, hall⟩ := attestationsDelta_cases cfg
      { st with inactivityScores := scores } bal (vals.zipWith .withScore scores)
    · exact absurd hany h
    · -- the penalties for inactivity do not reach the balances
      rw [hdeltas, ← hcharged, ← hall, zip_map_right, mapM_map]
      show Option.map _ (((st.balances.zip deltas).mapM fun a => applyDelta a.1 a.2) >>= _).toOption =
        ((st.balances.zip deltas).mapM fun a => applyDelta a.1 a.2).toOption
      cases (st.balances.zip deltas).mapM fun a => applyDelta a.1 a.2 <;> rfl

/-- The outcome is the same for two score vectors exactly if they agree. -/
theorem rewards_same_iff (hlen : scores.length = vals.length)
    (hlen' : scores'.length = vals.length) :
    writtenBalances (rewardsWithScores cfg st bal vals scores) =
        writtenBalances (rewardsWithScores cfg st bal vals scores') ↔
      ScoresAgree cfg st bal vals scores scores' := by
  have hoverpays : ((st.balances.zip (vals.map (chargedDelta cfg st bal))).mapM
      fun a => applyDelta a.1 a.2).toOption = none ↔ Overpays cfg st bal vals := by
    simp only [toOption_mapM_eq_none, applyDelta_toOption_eq_none, Overpays]
  rw [writtenBalances_rewardsWithScores hlen, writtenBalances_rewardsWithScores hlen', ScoresAgree,
    ← hoverpays]
  split_ifs with hgenesis hshape h h' h' <;> grind

/-- A state in epoch 2 with one validator, and its record if it has not voted. -/
def idleState : BeaconState :=
  ⟨.altair, 64, [{}], [32000000000], [0], [0], [0], 0, 0, 0⟩

def idleValidator : PrecomputeValidator :=
  { isActivePrevEpoch := true, currentEpochEffectiveBalance := 32000000000 }

theorem rewards_same_iff_small_scores :
    writtenBalances (rewardsWithScores {} idleState { activeCurrentEpoch := 32000000000 }
        [idleValidator] [0]) =
      writtenBalances (rewardsWithScores {} idleState { activeCurrentEpoch := 32000000000 }
        [idleValidator] [1]) :=
  (rewards_same_iff rfl rfl).2 (.inr (.inr (.inr (by decide))))

/-- The step succeeds with score 0 and fails with a large score. -/
theorem large_score_fails :
    (writtenBalances (rewardsWithScores {} idleState { activeCurrentEpoch := 32000000000 }
        [idleValidator] [0])).isSome = true ∧
      rewardsWithScores {} idleState { activeCurrentEpoch := 32000000000 }
        [idleValidator] [2 ^ 30] = .error (.attestationDelta .mulOverflow) := by
  decide +kernel

end Scores

end LightChain.Epoch

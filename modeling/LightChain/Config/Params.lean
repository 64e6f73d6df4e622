import Mathlib

/-!
# The beacon chain configuration

The fields of `BeaconChainConfig` that the modelled code reads, with the mainnet
values as defaults. The structure keeps the range of the two boundary slots, which may
lie anywhere in `uint64`, that the fields the code divides by are positive, and that
the two delays are proper ones.
-/
namespace LightChain

/-- `FarFutureEpoch`, the exit epoch of a validator that has not left. -/
def farFutureEpoch : Nat := 2 ^ 64 - 1

def genesisEpoch : Nat := 0

/-! The defaults of the structure are in range. -/

theorem word_pos : 0 < 2 ^ 64 := by decide

theorem four_lt_word : 4 < 2 ^ 64 := by decide

theorem four_lt_farFutureEpoch : 4 < 2 ^ 64 - 1 := by decide

theorem slots_pos : 0 < 32 := by decide

theorem delay_pos : 0 < 256 := by decide

theorem quotient_pos : 0 < 65536 := by decide

theorem increment_pos : 0 < 1000000000 := by decide

theorem increment_le_churn : 1000000000 ≤ 128000000000 := by decide

theorem increment_le_exitChurn : 1000000000 ≤ 256000000000 := by decide

structure BeaconChainConfig where
  secondsPerSlot : Nat := 12
  slotDurationMilliseconds : Nat := 12000
  slotTimeForkOneSlot : Nat := 0
  slotTimeForkOneMillis : Nat := 0
  slotTimeForkTwoSlot : Nat := 0
  slotTimeForkTwoMillis : Nat := 0
  attestationOffsetMs : Nat := 0
  aggregationOffsetMs : Nat := 0
  attestationDueBPS : Nat := 3333
  aggregateDueBPS : Nat := 6667
  syncMessageDueBPS : Nat := 3333
  contributionDueBPS : Nat := 6667
  attestationDueBPSGloas : Nat := 2500
  aggregateDueBPSGloas : Nat := 5000
  syncMessageDueBPSGloas : Nat := 2500
  contributionDueBPSGloas : Nat := 5000
  gloasForkEpoch : Nat := 2 ^ 64 - 1
  slotsPerEpoch : Nat := 32
  weakSubjectivityPeriod : Nat := 54000
  minEpochsToInactivityPenalty : Nat := 4
  inactivityScoreBias : Nat := 4
  inactivityScoreRecoveryRate : Nat := 16
  maxSeedLookahead : Nat := 4
  minValidatorWithdrawabilityDelay : Nat := 256
  minPerEpochChurnLimit : Nat := 4
  churnLimitQuotient : Nat := 65536
  maxPerEpochActivationChurnLimit : Nat := 8
  minPerEpochChurnLimitElectra : Nat := 128000000000
  maxPerEpochActivationExitChurnLimit : Nat := 256000000000
  maxEffectiveBalance : Nat := 32000000000
  maxEffectiveBalanceElectra : Nat := 2048000000000
  minActivationBalance : Nat := 32000000000
  ejectionBalance : Nat := 16000000000
  effectiveBalanceIncrement : Nat := 1000000000
  electraForkEpoch : Nat := 364032
  genesisSlot : Nat := 0
  maxPendingDepositsPerEpoch : Nat := 16
  compoundingWithdrawalPrefixByte : BitVec 8 := 2
  proposerScoreBoost : Nat := 40
  baseRewardFactor : Nat := 64
  timelySourceFlagIndex : Nat := 0
  timelyTargetFlagIndex : Nat := 1
  timelyHeadFlagIndex : Nat := 2
  timelySourceWeight : Nat := 14
  timelyTargetWeight : Nat := 26
  timelyHeadWeight : Nat := 14
  weightDenominator : Nat := 64
  inactivityPenaltyQuotient : Nat := 67108864
  inactivityPenaltyQuotientAltair : Nat := 50331648
  inactivityPenaltyQuotientBellatrix : Nat := 16777216
  slotTimeForkOneSlot_lt : slotTimeForkOneSlot < 2 ^ 64 := by
    first | exact word_pos | exact four_lt_word | decide
  slotTimeForkTwoSlot_lt : slotTimeForkTwoSlot < 2 ^ 64 := by first | exact word_pos | decide
  slotsPerEpoch_pos : 0 < slotsPerEpoch := by first | exact slots_pos | decide
  churnLimitQuotient_pos : 0 < churnLimitQuotient := by first | exact quotient_pos | decide
  effectiveBalanceIncrement_pos : 0 < effectiveBalanceIncrement := by first | exact increment_pos | decide
  churnLimitElectra_ge : effectiveBalanceIncrement ≤ minPerEpochChurnLimitElectra := by
    first | exact increment_le_churn | decide
  activationExitChurnLimit_ge :
    effectiveBalanceIncrement ≤ maxPerEpochActivationExitChurnLimit := by
      first | exact increment_le_exitChurn | decide
  withdrawabilityDelay_pos : 0 < minValidatorWithdrawabilityDelay := by
    first | exact delay_pos | decide
  minEpochsToInactivityPenalty_lt : minEpochsToInactivityPenalty < 2 ^ 64 - 1 := by
    first | exact four_lt_farFutureEpoch | decide

end LightChain

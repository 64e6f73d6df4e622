import LightChain.Epoch.Inactivity
import LightChain.Library.History

/-!
# Justification and finalization

`computeCheckpoints` and its two callers of package `precompute`: the epoch transition
`ProcessJustificationAndFinalizationPreCompute`, which is handed the balances, and
`UnrealizedCheckpoints`, which counts them itself. The slot loop `ProcessSlotsCore` is
modelled as far as it moves the slot, fills the block roots and starts epoch processing.
Roots are never inspected, so their type is arbitrary.
-/
namespace LightChain.Justification
open Library Epoch

/-- A configuration whose epochs have more than one slot, whose block roots reach back two
epochs, and whose participation flags fit into a byte. -/
structure ChainConfig extends BeaconChainConfig where
  slotsPerHistoricalRoot : Nat := 8192
  one_lt_slotsPerEpoch : 1 < slotsPerEpoch := by decide
  two_epochs_le : 2 * slotsPerEpoch ≤ slotsPerHistoricalRoot := by decide
  slotsPerHistoricalRoot_lt : slotsPerHistoricalRoot < 2 ^ 64 := by decide
  timelySourceFlagIndex_le : timelySourceFlagIndex ≤ 7 := by decide
  timelyTargetFlagIndex_le : timelyTargetFlagIndex ≤ 7 := by decide
  timelyHeadFlagIndex_le : timelyHeadFlagIndex ≤ 7 := by decide

instance (cfg : ChainConfig) : NeZero cfg.slotsPerHistoricalRoot :=
  ⟨by have := cfg.one_lt_slotsPerEpoch; have := cfg.two_epochs_le; omega⟩

inductive Error where
  | epochStart
  | slotOverflow
  | slotOutOfBounds (slot : Nat)
  | currentRoot (epoch : Nat) (cause : Error)
  | previousRoot (epoch : Nat) (cause : Error)
  | participation
  | state (cause : Epoch.Error)
deriving DecidableEq, Repr

def Error.message : Error → String
  | .epochStart => "epoch start: slot calculation overflows"
  | .slotOverflow => "slot overflows uint64"
  | .slotOutOfBounds slot => "slot " ++ toString slot ++ " out of bounds"
  | .currentRoot epoch e =>
    "could not get block root for current epoch " ++ toString epoch ++ ": " ++ e.message
  | .previousRoot epoch e =>
    "could not get block root for previous epoch " ++ toString epoch ++ ": " ++ e.message
  | .participation => "participation does not match validator set"
  | .state e => e.message

structure Checkpoint (Root : Type) where
  epoch : Nat
  root : Root
deriving DecidableEq, Repr

/-- The beacon state with the fields of justification. Its finalized checkpoint has the
epoch `finalizedCheckpointEpoch`. -/
structure BeaconState (cfg : ChainConfig) (Root : Type) extends Epoch.BeaconState where
  previousJustifiedCheckpoint : Checkpoint Root
  currentJustifiedCheckpoint : Checkpoint Root
  finalizedCheckpointRoot : Root
  justificationBits : BitVec 4
  blockRoots : Vector Root cfg.slotsPerHistoricalRoot

variable {cfg : ChainConfig} {Root : Type} (st : BeaconState cfg Root)

namespace BeaconState

def finalizedCheckpoint : Checkpoint Root :=
  ⟨st.finalizedCheckpointEpoch, st.finalizedCheckpointRoot⟩

def currentEpoch : Nat :=
  Epoch.currentEpoch cfg.toBeaconChainConfig st.toBeaconState

def prevEpoch : Nat :=
  Epoch.prevEpoch cfg.toBeaconChainConfig st.toBeaconState

end BeaconState

section Roots

def blockRootAtSlot (slot : Nat) : Except Error Root :=
  if 2 ^ 64 - 1 - slot < cfg.slotsPerHistoricalRoot then .error .slotOverflow
  else if st.slot ≤ slot ∨ add64 slot cfg.slotsPerHistoricalRoot < st.slot then
    .error (.slotOutOfBounds slot)
  else .ok (History.read st.blockRoots slot)

/-- `BlockRoot`: the root at the first slot of an epoch. -/
def blockRoot (epoch : Nat) : Except Error Root :=
  match epochStart cfg.toBeaconChainConfig epoch with
  | none => .error .epochStart
  | some slot => blockRootAtSlot st slot

end Roots

section Transition

/-- Two thirds of the active balance, in unchecked `uint64` arithmetic. -/
def hasQuorum (targetBalance totalActiveBalance : Nat) : Bool :=
  mul64 2 totalActiveBalance ≤ mul64 3 targetBalance

def processJustificationBits
    (totalActiveBalance prevEpochTargetBalance currEpochTargetBalance : Nat) : BitVec 4 :=
  let newBits := st.justificationBits <<< 1
  let newBits := if hasQuorum prevEpochTargetBalance totalActiveBalance then newBits ||| 0b0010
    else newBits
  if hasQuorum currEpochTargetBalance totalActiveBalance then newBits ||| 0b0001 else newBits

variable (newBits : BitVec 4)

/-- The justified checkpoint of `computeCheckpoints`. -/
def computeJustified : Except Error (Checkpoint Root) :=
  if newBits.getLsbD 0 ∧ st.currentJustifiedCheckpoint.epoch ≤ st.currentEpoch then
    ((blockRoot st st.currentEpoch).mapError (.currentRoot st.currentEpoch)).map
      (⟨st.currentEpoch, ·⟩)
  else if newBits.getLsbD 1 ∧ st.currentJustifiedCheckpoint.epoch ≤ st.prevEpoch then
    ((blockRoot st st.prevEpoch).mapError (.previousRoot st.prevEpoch)).map (⟨st.prevEpoch, ·⟩)
  else .ok st.currentJustifiedCheckpoint

/-- The finalized checkpoint of `computeCheckpoints`; a later rule overrides an earlier one. -/
def computeFinalized : Checkpoint Root :=
  let oldPrev := st.previousJustifiedCheckpoint
  let oldCurr := st.currentJustifiedCheckpoint
  let finalized := st.finalizedCheckpoint
  let finalized := if newBits &&& 0b1110 = 0b1110 ∧ add64 oldPrev.epoch 3 = st.currentEpoch
    then oldPrev else finalized
  let finalized := if newBits &&& 0b0110 = 0b0110 ∧ add64 oldPrev.epoch 2 = st.currentEpoch
    then oldPrev else finalized
  let finalized := if newBits &&& 0b0111 = 0b0111 ∧ add64 oldCurr.epoch 2 = st.currentEpoch
    then oldCurr else finalized
  if newBits &&& 0b0011 = 0b0011 ∧ add64 oldCurr.epoch 1 = st.currentEpoch
    then oldCurr else finalized

def computeCheckpoints :
    Except Error (Checkpoint Root × Checkpoint Root) := do
  let justified ← computeJustified st newBits
  return (justified, computeFinalized st newBits)

def weighJustificationAndFinalization :
    Except Error (BeaconState cfg Root) := do
  let (justified, finalized) ← computeCheckpoints st newBits
  return { st with
    previousJustifiedCheckpoint := st.currentJustifiedCheckpoint
    currentJustifiedCheckpoint := justified
    justificationBits := newBits
    finalizedCheckpointEpoch := finalized.epoch
    finalizedCheckpointRoot := finalized.root }

def processJustificationAndFinalizationPreCompute (bal : Balance) (st : BeaconState cfg Root) :
    Except Error (BeaconState cfg Root) :=
  match epochStart cfg.toBeaconChainConfig 2 with
  | none => .error .epochStart
  | some canProcessSlot =>
    if st.slot ≤ canProcessSlot then .ok st
    else weighJustificationAndFinalization st (processJustificationBits st
      bal.activeCurrentEpoch bal.prevEpochTargetAttested bal.currentEpochTargetAttested)

end Transition

section Slots

variable {m : Type → Type} [Monad m]

/-- `ProcessSlot`, as far as it fills the block roots. -/
def processSlot (root : Root) (st : BeaconState cfg Root) : BeaconState cfg Root :=
  { st with blockRoots := History.write st.blockRoots st.slot root }

def canProcessEpoch : Bool :=
  add64 st.slot 1 % cfg.slotsPerEpoch == 0

/-- One turn of the loop of `ProcessSlotsCore`, for given block roots and epoch processing. -/
def nextSlot (chain : Nat → Root) (processEpoch : BeaconState cfg Root → m (BeaconState cfg Root))
    (st : BeaconState cfg Root) : m (BeaconState cfg Root) :=
  let st := processSlot (chain st.slot) st
  (if canProcessEpoch st then processEpoch st else pure st) >>= fun st =>
    pure { st with slot := add64 st.slot 1 }

/-- The loop of `ProcessSlotsCore` over a number of slots. -/
def processSlots (chain : Nat → Root)
    (processEpoch : BeaconState cfg Root → m (BeaconState cfg Root)) :
    Nat → BeaconState cfg Root → m (BeaconState cfg Root)
  | 0, st => pure st
  | n + 1, st => nextSlot chain processEpoch st >>= processSlots chain processEpoch n

end Slots

section Unrealized

/-- The running totals of `UnrealizedCheckpointBalances`. -/
structure TargetBalances where
  active : Nat := 0
  prevTarget : Nat := 0
  currentTarget : Nat := 0
deriving DecidableEq, Repr

def addUnrealized (cfg : BeaconChainConfig) (currentEpoch : Nat) (bal : TargetBalances)
    (entry : Validator × BitVec 8 × BitVec 8) : Except Epoch.Error TargetBalances := do
  let (v, cp, pp) := entry
  let activeCurrent := v.activationEpoch ≤ currentEpoch && currentEpoch < v.exitEpoch
  let active ← addIf activeCurrent bal.active v.effectiveBalance
  if v.slashed then return { bal with active := active }
  let currentTarget ← addIf (activeCurrent && (cp >>> cfg.timelyTargetFlagIndex) &&& 1 == 1)
    bal.currentTarget v.effectiveBalance
  let activePrevious := v.activationEpoch < currentEpoch && currentEpoch ≤ v.exitEpoch
  let prevTarget ← addIf (activePrevious && (pp >>> cfg.timelyTargetFlagIndex) &&& 1 == 1)
    bal.prevTarget v.effectiveBalance
  return ⟨active, prevTarget, currentTarget⟩

def ensureLowerBound (cfg : BeaconChainConfig) (bal : TargetBalances) : TargetBalances :=
  let bound := max cfg.effectiveBalanceIncrement
  ⟨bound bal.active, bound bal.prevTarget, bound bal.currentTarget⟩

def unrealizedCheckpointBalances : Except Error TargetBalances :=
  if st.version = .phase0 then
    .error (.state (.notSupported "UnrealizedCheckpointBalances" st.version))
  else if st.currentEpochParticipation.length < st.validators.length ∨
      st.previousEpochParticipation.length < st.validators.length then .error .participation
  else do
    let entries := st.validators.zip
      (st.currentEpochParticipation.zip st.previousEpochParticipation)
    let bal ← (entries.foldlM (addUnrealized cfg.toBeaconChainConfig st.currentEpoch) {}).mapError
      .state
    return ensureLowerBound cfg.toBeaconChainConfig bal

def unrealizedCheckpoints : Except Error (Checkpoint Root × Checkpoint Root) :=
  if st.currentEpoch ≤ genesisEpoch + 1 then
    .ok (st.currentJustifiedCheckpoint, st.finalizedCheckpoint)
  else do
    let bal ← unrealizedCheckpointBalances st
    computeCheckpoints st (processJustificationBits st bal.active bal.prevTarget bal.currentTarget)

/-- The beginning of Altair's epoch processing: the precomputed balances, then justification
and finalization. -/
def processEpoch : Except Error (BeaconState cfg Root) := do
  let (vals, bal) ← (initializePrecomputeValidators cfg.toBeaconChainConfig
    st.toBeaconState).mapError .state
  let (_, bal) ← (processEpochParticipation cfg.toBeaconChainConfig st.toBeaconState bal
    vals).mapError .state
  processJustificationAndFinalizationPreCompute bal st

end Unrealized

end LightChain.Justification

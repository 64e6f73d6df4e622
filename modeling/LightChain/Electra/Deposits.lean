import LightChain.Epoch.State
import LightChain.Library.Fallible

/-!
# Pending deposits

`ProcessPendingDeposits` walks the queue of pending deposits. A deposit for a validator of
the registry is credited in the loop. A deposit with a new key is collected, and after the
loop the signatures of all collected deposits are verified as one batch.

`processPendingDepositsOneByOne` is the sequential specification: the same walk, with
`ApplyPendingDeposit` called where a deposit is due.
-/
namespace LightChain.Electra
open Library Epoch

structure Validator extends Epoch.Validator where
  publicKey : BitVec 384
  withdrawalCredentials : BitVec 256
deriving DecidableEq, Repr

structure PendingDeposit where
  publicKey : BitVec 384
  withdrawalCredentials : BitVec 256
  amount : Nat
  signature : BitVec 768
  slot : Nat
deriving DecidableEq, Repr

/-- The fields of an Electra state that deposits read and write. Copies of a state share
`valIdxMap`, so it may hold keys of other branches, at indexes beyond this registry. -/
structure State where
  slot : Nat
  validators : List Validator
  balances : List Nat
  inactivityScores : List Nat
  previousEpochParticipation : List (BitVec 8)
  currentEpochParticipation : List (BitVec 8)
  valIdxMap : BitVec 384 → Option Nat
  finalizedCheckpointEpoch : Nat
  eth1DepositIndex : Nat
  depositRequestsStartIndex : Nat
  pendingDeposits : List PendingDeposit
  depositBalanceToConsume : Nat
  length_balances : balances.length = validators.length

inductive DepositError where
  | indexOutOfRange (index : Nat)
  | addOverflow
  | finalizedSlot
  | readValidator (cause : DepositError)
  | increaseBalance (cause : DepositError)
  | newPublicKeys (cause : DepositError)
deriving DecidableEq, Repr

def DepositError.message : DepositError → String
  | .indexOutOfRange i => "index " ++ toString i ++ " out of bounds"
  | .addOverflow => "addition overflows"
  | .finalizedSlot => "could not get finalized slot: epoch start: slot calculation overflows"
  | .readValidator e => "could not get validator: " ++ e.message
  | .increaseBalance e => "could not increase balance: " ++ e.message
  | .newPublicKeys e => "could not process pending deposits with new public keys: " ++ e.message

/-- Signature verification. A batch verifies exactly when each of its signatures does. -/
structure Verifier where
  isValidDepositSignature : PendingDeposit → Bool
  batchVerifyPendingDepositsSignatures : List PendingDeposit → Bool
  batch_eq_all (ds : List PendingDeposit) :
    batchVerifyPendingDepositsSignatures ds = ds.all isValidDepositSignature

def epochStart (cfg : BeaconChainConfig) (epoch : Nat) : Except DepositError Nat :=
  match safeMul64 cfg.slotsPerEpoch epoch with
  | some slot => .ok slot
  | none => .error .finalizedSlot

section Registry

variable (cfg : BeaconChainConfig)

/-- An index beyond this registry is one of another branch. -/
def State.validatorIndexByPubkey (st : State) (key : BitVec 384) : Option Nat :=
  (st.valIdxMap key).filter (· < st.validators.length)

def State.validatorAtIndex (st : State) (idx : Nat) : Except DepositError Validator :=
  match st.validators[idx]? with
  | some v => .ok v
  | none => .error (.indexOutOfRange idx)

def State.updateBalancesAtIndex (st : State) (idx val : Nat) : State :=
  { st with
    balances := st.balances.set idx val
    length_balances := by rw [List.length_set, st.length_balances] }

def increaseBalance (st : State) (idx delta : Nat) : Except DepositError State :=
  match st.balances[idx]? with
  | none => .error (.indexOutOfRange idx)
  | some bal =>
    match safeAdd64 bal delta with
    | none => .error .addOverflow
    | some newBal => .ok (st.updateBalancesAtIndex idx newBal)

def hasCompoundingWithdrawalCredentials (withdrawalCredentials : BitVec 256) : Bool :=
  withdrawalCredentials.extractLsb' 248 8 == cfg.compoundingWithdrawalPrefixByte

def validatorMaxEffectiveBalance (withdrawalCredentials : BitVec 256) : Nat :=
  if hasCompoundingWithdrawalCredentials cfg withdrawalCredentials then
    cfg.maxEffectiveBalanceElectra
  else cfg.minActivationBalance

def getValidatorFromDeposit (publicKey : BitVec 384) (withdrawalCredentials : BitVec 256)
    (amount : Nat) : Validator where
  publicKey
  withdrawalCredentials
  effectiveBalance := min (amount - amount % cfg.effectiveBalanceIncrement)
    (validatorMaxEffectiveBalance cfg withdrawalCredentials)
  slashed := false
  activationEligibilityEpoch := farFutureEpoch
  activationEpoch := farFutureEpoch
  exitEpoch := farFutureEpoch
  withdrawableEpoch := farFutureEpoch

def addValidatorToRegistry (st : State) (d : PendingDeposit) : State :=
  { st with
    validators := st.validators ++
      [getValidatorFromDeposit cfg d.publicKey d.withdrawalCredentials d.amount]
    valIdxMap := Function.update st.valIdxMap d.publicKey (some st.validators.length)
    balances := st.balances ++ [d.amount]
    inactivityScores := st.inactivityScores ++ [0]
    previousEpochParticipation := st.previousEpochParticipation ++ [0]
    currentEpochParticipation := st.currentEpochParticipation ++ [0]
    length_balances := by simp [st.length_balances] }

def applyPendingDeposit (v : Verifier) (st : State) (d : PendingDeposit) :
    Except DepositError State :=
  match st.validatorIndexByPubkey d.publicKey with
  | none =>
    if v.isValidDepositSignature d then .ok (addValidatorToRegistry cfg st d) else .ok st
  | some index => increaseBalance st index d.amount

/-- One deposit of the batch. Its signature is verified again if the batch failed. -/
def processNewPendingDeposit (v : Verifier) (allSignaturesVerified : Bool) (st : State)
    (pd : PendingDeposit) : Except DepositError State :=
  let validSig := if !allSignaturesVerified then v.isValidDepositSignature pd
    else allSignaturesVerified
  match st.validatorIndexByPubkey pd.publicKey with
  | some index => (increaseBalance st index pd.amount).mapError .increaseBalance
  | none => if validSig then .ok (addValidatorToRegistry cfg st pd) else .ok st

def batchProcessNewPendingDeposits (v : Verifier) (st : State) (ds : List PendingDeposit) :
    Except DepositError State :=
  if ds.length = 0 then .ok st
  else
    ds.foldlM (processNewPendingDeposit cfg v (v.batchVerifyPendingDepositsSignatures ds)) st

end Registry

structure Bounds where
  nextEpoch : Nat
  availableForProcessing : Nat
  finalizedSlot : Nat
  startIndex : Nat
  nextEpoch_lt : nextEpoch < 2 ^ 64

/-- The loop's variables. -/
structure Progress where
  st : State
  processedAmount : Nat := 0
  nextDepositIndex : Nat := 0
  isChurnLimitReached : Bool := false
  toBatchVerify : List PendingDeposit := []
  toPostpone : List PendingDeposit := []

section Loop

variable (cfg : BeaconChainConfig) (b : Bounds)

/-- The three reasons to leave a deposit, and all after it, in the queue. -/
def stopsBefore (p : Progress) (d : PendingDeposit) : Bool :=
  (cfg.genesisSlot < d.slot && p.st.eth1DepositIndex < b.startIndex) ||
    b.finalizedSlot < d.slot || cfg.maxPendingDepositsPerEpoch ≤ p.nextDepositIndex

/-- Whether the validator of a deposit has exited, and whether it is withdrawn. -/
def validatorStatus (st : State) (d : PendingDeposit) : Except DepositError (Bool × Bool) :=
  match st.validatorIndexByPubkey d.publicKey with
  | none => .ok (false, false)
  | some index =>
    match st.validatorAtIndex index with
    | .error e => .error (.readValidator e)
    | .ok val => .ok (val.exitEpoch < farFutureEpoch, val.withdrawableEpoch < b.nextEpoch)

def Progress.moveOn (p : Progress) : Progress :=
  { p with nextDepositIndex := p.nextDepositIndex + 1 }

def Progress.postpone (p : Progress) (d : PendingDeposit) : Progress :=
  { p with toPostpone := p.toPostpone ++ [d] }

def Progress.consume (p : Progress) (d : PendingDeposit) : Progress :=
  { p with processedAmount := add64 p.processedAmount d.amount, isChurnLimitReached := false }

variable (credit : Progress → PendingDeposit → Except DepositError Progress)

/-- The loop over the queue; `credit` is what happens to a deposit that is due. A withdrawn
validator takes its deposit without using the churn. -/
def depositLoop : List PendingDeposit → Progress → Except DepositError Progress
  | [], p => .ok p
  | d :: ds, p =>
    if stopsBefore cfg b p d then .ok p
    else do
      let (isValidatorExited, isValidatorWithdrawn) ← validatorStatus b p.st d
      if isValidatorWithdrawn then
        let p ← credit p d
        depositLoop ds p.moveOn
      else if isValidatorExited then
        depositLoop ds (p.postpone d).moveOn
      else if add64 p.processedAmount d.amount > b.availableForProcessing then
        return { p with isChurnLimitReached := true }
      else
        let p ← credit (p.consume d) d
        depositLoop ds p.moveOn

def Progress.settle (p : Progress) (queue : List PendingDeposit) : State :=
  { p.st with
    pendingDeposits := queue.drop p.nextDepositIndex ++ p.toPostpone
    depositBalanceToConsume :=
      if p.isChurnLimitReached then sub64 b.availableForProcessing p.processedAmount else 0 }

def finish (v : Verifier) (queue : List PendingDeposit) (p : Progress) :
    Except DepositError State := do
  let st ← (batchProcessNewPendingDeposits cfg v p.st p.toBatchVerify).mapError .newPublicKeys
  return ({ p with st := st } : Progress).settle b queue

end Loop

section Process

variable (cfg : BeaconChainConfig) (v : Verifier)

def bounds (st : State) (activeBalance : Nat) : Except DepositError Bounds := do
  let finalizedSlot ← epochStart cfg st.finalizedCheckpointEpoch
  return {
    nextEpoch := add64 (toEpoch cfg st.slot) 1
    availableForProcessing :=
      add64 st.depositBalanceToConsume (activationExitChurnLimit cfg activeBalance)
    finalizedSlot
    startIndex := st.depositRequestsStartIndex
    nextEpoch_lt := uint64_lt _ }

/-- A known key is credited at once; a new one waits for the batch. -/
def creditOrCollect (p : Progress) (d : PendingDeposit) : Except DepositError Progress :=
  match p.st.validatorIndexByPubkey d.publicKey with
  | some index =>
    (increaseBalance p.st index d.amount).mapError .increaseBalance |>.map ({ p with st := · })
  | none => .ok { p with toBatchVerify := p.toBatchVerify ++ [d] }

def processPendingDeposits (st : State) (activeBalance : Nat) : Except DepositError State := do
  let b ← bounds cfg st activeBalance
  let p ← depositLoop cfg b creditOrCollect st.pendingDeposits { st }
  finish cfg b v st.pendingDeposits p

def creditAtOnce (p : Progress) (d : PendingDeposit) : Except DepositError Progress :=
  (applyPendingDeposit cfg v p.st d).map ({ p with st := · })

/-- The sequential specification. -/
def processPendingDepositsOneByOne (st : State) (activeBalance : Nat) :
    Except DepositError State := do
  let b ← bounds cfg st activeBalance
  let p ← depositLoop cfg b (creditAtOnce cfg v) st.pendingDeposits { st }
  return p.settle b st.pendingDeposits

end Process

end LightChain.Electra

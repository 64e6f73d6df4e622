import LightChain.Electra.Deposits
import LightChain.Library.Ledger

/-!
# Withdrawals

`ExpectedWithdrawals` lists the withdrawals that a block has to contain: those of the queue
of pending partial withdrawals that are due, then those of a sweep over the registry that
starts at a cursor. Both loops see the list so far and take from a balance only what the
list leaves of it. `ProcessWithdrawals` compares the list with the payload, applies it and
moves the queue and the cursor.
-/
namespace LightChain.Withdrawals
open Library Epoch Electra

/-- The limits of a block's withdrawals. The balance that activates a validator is at most
the maximal effective one, and the two kinds of execution credentials differ. -/
structure WithdrawalConfig extends BeaconChainConfig where
  eth1AddressWithdrawalPrefixByte : BitVec 8 := 1
  maxWithdrawalsPerPayload : Nat := 16
  maxValidatorsPerWithdrawalsSweep : Nat := 16384
  maxPendingPartialsPerWithdrawalsSweep : Nat := 8
  prefixByte_ne : eth1AddressWithdrawalPrefixByte ≠ compoundingWithdrawalPrefixByte := by decide
  minActivation_le : minActivationBalance ≤ maxEffectiveBalance := by decide
  minActivation_le_electra : minActivationBalance ≤ maxEffectiveBalanceElectra := by decide

structure PendingPartialWithdrawal where
  index : Nat
  amount : Nat
  withdrawableEpoch : Nat
deriving DecidableEq, Repr

structure Withdrawal where
  index : Nat
  validatorIndex : Nat
  address : BitVec 160
  amount : Nat
deriving DecidableEq, Repr

structure State where
  version : Version
  slot : Nat
  validators : List Electra.Validator
  balances : List Nat
  pendingPartialWithdrawals : List PendingPartialWithdrawal
  nextWithdrawalIndex : Nat
  nextWithdrawalValidatorIndex : Nat
  length_balances : balances.length = validators.length
  balances_lt : ∀ b ∈ balances, b < 2 ^ 64
  nextWithdrawalIndex_lt : nextWithdrawalIndex < 2 ^ 64

inductive WithdrawalError where
  | notSupported (function : String) (version : Version)
  | indexOutOfRange (index : Nat)
  | underflow
  | determine (index : Nat) (cause : WithdrawalError)
  | pendingBalance (index : Nat) (cause : WithdrawalError)
  | pendingSubtract (balance withdrawn : Nat) (cause : WithdrawalError)
  | sweepValidator (index : Nat) (cause : WithdrawalError)
  | sweepBalance (index : Nat) (cause : WithdrawalError)
  | sweepSubtract (balance withdrawn : Nat) (cause : WithdrawalError)
  | expected (cause : WithdrawalError)
  | payload
  | payloadLength (got expected : Nat)
  | sliceRoot
  | rootMismatch
  | decreaseBalance (cause : WithdrawalError)
  | dequeue
  | dequeueFailed (cause : WithdrawalError)
  | noWithdrawal
deriving DecidableEq, Repr

def WithdrawalError.message : WithdrawalError → String
  | .notSupported f v => f ++ " is not supported for " ++ v.name
  | .indexOutOfRange i => "index " ++ toString i ++ " out of bounds"
  | .underflow => "subtraction underflow"
  | .determine i e => "failed to determine withdrawals at index " ++ toString i ++ ": " ++ e.message
  | .pendingBalance i e =>
    "could not retrieve balance at index " ++ toString i ++ ": " ++ e.message
  | .pendingSubtract b w e => "failed to subtract balance " ++ toString b ++
    " with total withdrawn " ++ toString w ++ ": " ++ e.message
  | .sweepValidator i e =>
    "could not retrieve validator at index " ++ toString i ++ ": " ++ e.message
  | .sweepBalance i e => "could not retrieve balance at index " ++ toString i ++ ": " ++ e.message
  | .sweepSubtract b w e => "could not subtract balance " ++ toString b ++
    " with partial withdrawn balance " ++ toString w ++ ": " ++ e.message
  | .expected e => "could not get expected withdrawals: " ++ e.message
  | .payload => "could not get withdrawals"
  | .payloadLength n m => "execution payload header has " ++ toString n ++ " withdrawals when " ++
    toString m ++ " were expected"
  | .sliceRoot => "could not get withdrawals root"
  | .rootMismatch => "expected withdrawals root differs"
  | .decreaseBalance e => "could not decrease balance: " ++ e.message
  | .dequeue => "cannot dequeue more withdrawals than are in the queue"
  | .dequeueFailed e => "unable to dequeue partial withdrawals from state: " ++ e.message
  | .noWithdrawal => "index out of range [-1]"

section Getters

def State.validatorAtIndexReadOnly (st : State) (idx : Nat) :
    Except WithdrawalError Electra.Validator :=
  match st.validators[idx]? with
  | some v => .ok v
  | none => .error (.indexOutOfRange idx)

def State.balanceAtIndex (st : State) (idx : Nat) : Except WithdrawalError Nat :=
  match st.balances[idx]? with
  | some b => .ok b
  | none => .error (.indexOutOfRange idx)

/-- `math.Sub64`, which fails where the difference is negative. -/
def checkedSub64 (a b : Nat) : Except WithdrawalError Nat :=
  if a < b then .error .underflow else .ok (a - b)

end Getters

section Expected

variable (cfg : WithdrawalConfig) (val : Electra.Validator)

def hasETH1WithdrawalCredentials : Bool :=
  val.withdrawalCredentials.extractLsb' 248 8 == cfg.eth1AddressWithdrawalPrefixByte

def hasExecutionWithdrawalCredentials : Bool :=
  hasETH1WithdrawalCredentials cfg val ||
    hasCompoundingWithdrawalCredentials cfg.toBeaconChainConfig val.withdrawalCredentials

def isFullyWithdrawableValidator (balance epoch : Nat) (fork : Version) : Bool :=
  if balance ≤ 0 then false
  else if .electra ≤ fork then
    hasExecutionWithdrawalCredentials cfg val && decide (val.withdrawableEpoch ≤ epoch)
  else hasETH1WithdrawalCredentials cfg val && decide (val.withdrawableEpoch ≤ epoch)

def isPartiallyWithdrawableValidatorElectra (balance : Nat) : Bool :=
  let maxEB := validatorMaxEffectiveBalance cfg.toBeaconChainConfig val.withdrawalCredentials
  hasExecutionWithdrawalCredentials cfg val && decide (val.effectiveBalance = maxEB) &&
    decide (maxEB < balance)

def isPartiallyWithdrawableValidatorCapella (balance : Nat) : Bool :=
  hasETH1WithdrawalCredentials cfg val && decide (cfg.maxEffectiveBalance < balance) &&
    decide (val.effectiveBalance = cfg.maxEffectiveBalance)

def isPartiallyWithdrawableValidator (balance : Nat) (fork : Version) : Bool :=
  if fork < .electra then isPartiallyWithdrawableValidatorCapella cfg val balance
  else isPartiallyWithdrawableValidatorElectra cfg val balance

def withdrawalAddress : BitVec 160 :=
  val.withdrawalCredentials.extractLsb' 0 160

/-- The list so far and the index of the next withdrawal. -/
structure Listing where
  withdrawals : List Withdrawal
  withdrawalIndex : Nat
deriving DecidableEq, Repr

def Listing.append (l : Listing) (val : Electra.Validator) (validatorIndex amount : Nat) :
    Listing where
  withdrawals := l.withdrawals ++
    [⟨l.withdrawalIndex, validatorIndex, withdrawalAddress val, amount⟩]
  withdrawalIndex := add64 l.withdrawalIndex 1

/-- What the list takes from a validator, in `uint64`. -/
def withdrawn (ws : List Withdrawal) (validatorIndex : Nat) : Nat :=
  ws.foldl (fun total w =>
    if w.validatorIndex = validatorIndex then add64 total w.amount else total) 0

variable (st : State)

/-- The loop over the queue. It also counts the requests that it has dealt with. -/
def State.pendingLoop (st : State) :
    List PendingPartialWithdrawal → Listing → Nat → Except WithdrawalError (Listing × Nat)
  | [], l, count => .ok (l, count)
  | w :: rest, l, count =>
    if toEpoch cfg.toBeaconChainConfig st.slot < w.withdrawableEpoch ∨
        cfg.maxPendingPartialsPerWithdrawalsSweep ≤ l.withdrawals.length then .ok (l, count)
    else do
      let v ← (st.validatorAtIndexReadOnly w.index).mapError (.determine w.index)
      let vBal ← (st.balanceAtIndex w.index).mapError (.pendingBalance w.index)
      let balance ← (checkedSub64 vBal (withdrawn l.withdrawals w.index)).mapError
        (.pendingSubtract vBal (withdrawn l.withdrawals w.index))
      if v.exitEpoch = farFutureEpoch ∧ cfg.minActivationBalance ≤ v.effectiveBalance ∧
          cfg.minActivationBalance < balance then
        st.pendingLoop rest
          (l.append v w.index (min (balance - cfg.minActivationBalance) w.amount)) (count + 1)
      else st.pendingLoop rest l (count + 1)

def State.appendPendingPartialWithdrawals (l : Listing) : Except WithdrawalError (Listing × Nat) :=
  if st.version < .electra then .ok (l, 0)
  else st.pendingLoop cfg st.pendingPartialWithdrawals l 0

/-- The balance that the sweep sees. Before Electra it does not look at the list. -/
def State.sweepBalance (ws : List Withdrawal) (validatorIndex balance : Nat) :
    Except WithdrawalError Nat :=
  if .electra ≤ st.version then
    (checkedSub64 balance (withdrawn ws validatorIndex)).mapError
      (.sweepSubtract balance (withdrawn ws validatorIndex))
  else .ok balance

def State.sweepEntry (l : Listing) (val : Electra.Validator) (validatorIndex balance : Nat) :
    Listing :=
  if isFullyWithdrawableValidator cfg val balance (toEpoch cfg.toBeaconChainConfig st.slot)
      st.version then
    l.append val validatorIndex balance
  else if isPartiallyWithdrawableValidator cfg val balance st.version then
    l.append val validatorIndex (sub64 balance
      (validatorMaxEffectiveBalance cfg.toBeaconChainConfig val.withdrawalCredentials))
  else l

def State.sweepLoop (st : State) : Nat → Nat → Listing → Except WithdrawalError Listing
  | 0, _, l => .ok l
  | n + 1, validatorIndex, l => do
    let val ← (st.validatorAtIndexReadOnly validatorIndex).mapError (.sweepValidator validatorIndex)
    let balance ← (st.balanceAtIndex validatorIndex).mapError (.sweepBalance validatorIndex)
    let balance ← st.sweepBalance l.withdrawals validatorIndex balance
    let l := st.sweepEntry cfg l val validatorIndex balance
    if l.withdrawals.length = cfg.maxWithdrawalsPerPayload then .ok l
    else if validatorIndex + 1 = st.validators.length then st.sweepLoop n 0 l
    else st.sweepLoop n (validatorIndex + 1) l

def State.appendValidatorsSweepWithdrawals (l : Listing) : Except WithdrawalError Listing :=
  st.sweepLoop cfg (min st.validators.length cfg.maxValidatorsPerWithdrawalsSweep)
    st.nextWithdrawalValidatorIndex l

def State.expectedWithdrawals : Except WithdrawalError (List Withdrawal × Nat) :=
  if st.version < .capella then .error (.notSupported "ExpectedWithdrawals" st.version)
  else do
    let (l, count) ← st.appendPendingPartialWithdrawals cfg ⟨[], st.nextWithdrawalIndex⟩
    let l ← st.appendValidatorsSweepWithdrawals cfg l
    .ok (l.withdrawals, count)

end Expected

section Process

/-- The withdrawals of a payload, or their root if the payload is blinded. -/
inductive ExecutionData (Root : Type) where
  | blinded (withdrawalsRoot : Except WithdrawalError Root)
  | full (withdrawals : Except WithdrawalError (List Withdrawal))

variable (cfg : WithdrawalConfig) {Root : Type} [DecidableEq Root]
  (withdrawalSliceRoot : List Withdrawal → Except WithdrawalError Root)

def decreaseBalanceWithVal (currBalance delta : Nat) : Nat :=
  if currBalance < delta then 0 else currBalance - delta

theorem decreaseBalanceWithVal_eq (currBalance delta : Nat) :
    decreaseBalanceWithVal currBalance delta = currBalance - delta := by
  unfold decreaseBalanceWithVal
  split_ifs with h
  · exact (Nat.sub_eq_zero_of_le h.le).symm
  · rfl

variable (st : State)

def State.decreaseBalance (idx delta : Nat) : Except WithdrawalError State :=
  match h : st.balances[idx]? with
  | none => .error (.indexOutOfRange idx)
  | some bal => .ok { st with
      balances := st.balances.set idx (decreaseBalanceWithVal bal delta)
      length_balances := by rw [List.length_set, st.length_balances]
      balances_lt := by
        intro b hb
        obtain hb | rfl := List.mem_or_eq_of_mem_set hb
        · exact st.balances_lt b hb
        · rw [decreaseBalanceWithVal_eq]
          exact (Nat.sub_le _ _).trans_lt (st.balances_lt bal (List.mem_of_getElem? h)) }

def State.dequeuePendingPartialWithdrawals (n : Nat) : Except WithdrawalError State :=
  if st.version < .electra then
    .error (.notSupported "DequeuePendingPartialWithdrawals" st.version)
  else if st.pendingPartialWithdrawals.length < n then .error .dequeue
  else .ok { st with pendingPartialWithdrawals := st.pendingPartialWithdrawals.drop n }

/-- The step of `ProcessWithdrawals` that only states with a queue take. -/
def State.dequeueProcessed (count : Nat) : Except WithdrawalError State :=
  if .electra ≤ st.version then
    (st.dequeuePendingPartialWithdrawals count).mapError .dequeueFailed
  else .ok st

def State.setNextWithdrawalIndex (i : Nat) (h : i < 2 ^ 64) : State :=
  { st with nextWithdrawalIndex := i, nextWithdrawalIndex_lt := h }

/-- The root that the payload gives. -/
def payloadRoot (expected : List Withdrawal) : ExecutionData Root → Except WithdrawalError Root
  | .blinded root => root
  | .full wds => do
    let wds ← wds
    if wds.length ≠ expected.length then .error (.payloadLength wds.length expected.length)
    else withdrawalSliceRoot wds

/-- Where the next sweep starts. A full block continues after its last withdrawal. -/
def State.nextCursor (expected : List Withdrawal) : Except WithdrawalError Nat :=
  if expected.length < cfg.maxWithdrawalsPerPayload then
    .ok (add64 st.nextWithdrawalValidatorIndex cfg.maxValidatorsPerWithdrawalsSweep %
      st.validators.length)
  else
    match expected.getLast? with
    | some last =>
      .ok (if last.validatorIndex + 1 = st.validators.length then 0 else last.validatorIndex + 1)
    | none => .error .noWithdrawal

def processWithdrawals (executionData : ExecutionData Root) :
    Except WithdrawalError State := do
  let (expected, count) ← (st.expectedWithdrawals cfg).mapError .expected
  let wdRoot ← payloadRoot withdrawalSliceRoot expected executionData
  let expectedRoot ← withdrawalSliceRoot expected
  if expectedRoot ≠ wdRoot then .error .rootMismatch
  else do
    let st ← expected.foldlM (fun st w =>
      (st.decreaseBalance w.validatorIndex w.amount).mapError .decreaseBalance) st
    let st ← st.dequeueProcessed count
    let st := match expected.getLast? with
      | some last => st.setNextWithdrawalIndex (add64 last.index 1) (uint64_lt _)
      | none => st
    let cursor ← st.nextCursor cfg expected
    .ok { st with nextWithdrawalValidatorIndex := cursor }

end Process

end LightChain.Withdrawals

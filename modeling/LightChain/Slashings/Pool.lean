import LightChain.Epoch.State
import LightChain.Library.SortedKeys

/-!
# The pool of attester slashings

A slashing names the validators that are in both of its attestations. The pool has one entry
for a validator, with a slashing that names it, in the order of the validators.
`PendingAttesterSlashings` takes entries out of the pool while it reads it: those of validators
that cannot be slashed, and those of validators that a slashing names which it has just returned.
-/
namespace LightChain.Slashings
open Library Epoch

structure PoolConfig extends BeaconChainConfig where
  maxAttesterSlashings : Nat := 2
  maxAttesterSlashingsElectra : Nat := 1

/-- The attesting indices of the two attestations. -/
structure AttSlashing where
  firstIndices : List Nat
  secondIndices : List Nat
deriving DecidableEq, Repr

structure PendingAttesterSlashing where
  attesterSlashing : AttSlashing
  validatorToSlash : Nat
deriving DecidableEq, Repr

structure Pool where
  pendingAttesterSlashing : List PendingAttesterSlashing
  included : Nat → Bool

def Pool.new : Pool := ⟨[], fun _ => false⟩

inductive Error where
  | verify
  | indexOutOfRange (index : Nat)
  | cannotSlash (count : Nat) (slashingReason : String)
deriving DecidableEq, Repr

def Error.message : Error → String
  | .verify => "could not verify attester slashing"
  | .indexOutOfRange i => "index " ++ toString i ++ " out of bounds"
  | .cannotSlash count reason =>
    "could not slash any of " ++ toString count ++ " validators in submitted slashing: " ++ reason

/-- `IntersectionUint64` of two slices. The map counts in how many of them an index was found. -/
def intersectionUint64 (a b : List Nat) : List Nat :=
  (b.foldl (fun (st : (Nat → Nat) × List Nat) k =>
    if st.1 k = 1 then (Function.update st.1 k 2, st.2 ++ [k]) else st)
    (fun k => if k ∈ a then 1 else 0, [])).2

/-- The validators that a slashing names. -/
def AttSlashing.slashedVal (s : AttSlashing) : List Nat :=
  intersectionUint64 s.firstIndices s.secondIndices

def checkValidatorSlashable (v : Validator) (epoch : Nat) : Bool :=
  epoch < v.withdrawableEpoch && v.activationEpoch ≤ epoch && !v.slashed

variable (cfg : PoolConfig) (p : Pool)

def Pool.validatorSlashingPreconditionCheck (st : BeaconState) (valIdx : Nat) : Except Error Bool :=
  if p.included valIdx then .ok false
  else
    match st.validators[valIdx]? with
    | none => .error (.indexOutOfRange valIdx)
    | some v => .ok (checkValidatorSlashable v (currentEpoch cfg.toBeaconChainConfig st))

def maxSlashings (st : BeaconState) (noLimit : Bool) : Nat :=
  if noLimit then p.pendingAttesterSlashing.length
  else if Version.electra ≤ st.version then cfg.maxAttesterSlashingsElectra
  else cfg.maxAttesterSlashings

/-- The loop over the entries that are left: the slashings returned, and the entries that stay. -/
def Pool.pendingLoop (p : Pool) (st : BeaconState) (maxSlashings : Nat) :
    List PendingAttesterSlashing → (Nat → Bool) → List AttSlashing →
      List AttSlashing × List PendingAttesterSlashing
  | [], _, pending => (pending, [])
  | slashing :: rest, included, pending =>
    if maxSlashings ≤ pending.length then (pending, slashing :: rest)
    else
      match p.validatorSlashingPreconditionCheck cfg st slashing.validatorToSlash with
      | .error _ =>
        let result := Pool.pendingLoop p st maxSlashings rest included pending
        (result.1, slashing :: result.2)
      | .ok valid =>
        if included slashing.validatorToSlash || !valid then
          Pool.pendingLoop p st maxSlashings rest included pending
        else
          let slashedVal := slashing.attesterSlashing.slashedVal
          let result := Pool.pendingLoop p st maxSlashings rest
            (fun idx => included idx || decide (idx ∈ slashedVal))
            (pending ++ [slashing.attesterSlashing])
          (result.1, slashing :: result.2)

def Pool.pendingAttesterSlashings (st : BeaconState) (noLimit : Bool) : List AttSlashing × Pool :=
  let result := p.pendingLoop cfg st (maxSlashings cfg p st noLimit) p.pendingAttesterSlashing
    (fun _ => false) []
  (result.1, { p with pendingAttesterSlashing := result.2 })

def reasonCannotSlash : String :=
  "validator already exited/slashed or already recently included in slashings pool"

def reasonAlreadyPending : String :=
  "validator already exist in list of pending slashings, no need to attempt to slash again"

/-- The loop over the validators that a slashing names. An error leaves the pool as it is then. -/
def Pool.insertLoop (st : BeaconState) (slashing : AttSlashing) :
    List Nat → Pool → List Nat → String → Pool × Except Error (List Nat × String)
  | [], p, cantSlash, reason => (p, .ok (cantSlash, reason))
  | val :: vals, p, cantSlash, reason =>
    match p.validatorSlashingPreconditionCheck cfg st val with
    | .error e => (p, .error e)
    | .ok false => Pool.insertLoop st slashing vals p (cantSlash ++ [val]) reasonCannotSlash
    | .ok true =>
      if hasKey (·.validatorToSlash) p.pendingAttesterSlashing val then
        Pool.insertLoop st slashing vals p (cantSlash ++ [val]) reasonAlreadyPending
      else
        let pending := insertKey (·.validatorToSlash) p.pendingAttesterSlashing ⟨slashing, val⟩
        Pool.insertLoop st slashing vals { p with pendingAttesterSlashing := pending } cantSlash
          reason

/-- `verified` is the outcome of `VerifyAttesterSlashing`. -/
def Pool.insertAttesterSlashing (st : BeaconState) (slashing : AttSlashing) (verified : Bool) :
    Pool × Except Error Unit :=
  if !verified then (p, .error .verify)
  else
    let result := Pool.insertLoop cfg st slashing slashing.slashedVal p [] ""
    match result.2 with
    | .error e => (result.1, .error e)
    | .ok (cantSlash, reason) =>
      if cantSlash.length = slashing.slashedVal.length then
        (result.1, .error (.cannotSlash slashing.slashedVal.length reason))
      else (result.1, .ok ())

def Pool.markIncludedAttesterSlashing (slashing : AttSlashing) : Pool :=
  slashing.slashedVal.foldl (fun p val =>
    { pendingAttesterSlashing := eraseKey (·.validatorToSlash) p.pendingAttesterSlashing val
      included := Function.update p.included val true }) p

inductive Call where
  | insertSlashing (st : BeaconState) (slashing : AttSlashing) (verified : Bool)
  | pending (st : BeaconState) (noLimit : Bool)
  | markIncluded (slashing : AttSlashing)

def Pool.step : Call → Pool
  | .insertSlashing st slashing verified => (p.insertAttesterSlashing cfg st slashing verified).1
  | .pending st noLimit => (p.pendingAttesterSlashings cfg st noLimit).2
  | .markIncluded slashing => p.markIncludedAttesterSlashing slashing

end LightChain.Slashings

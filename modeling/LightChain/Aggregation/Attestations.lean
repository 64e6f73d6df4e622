import LightChain.Aggregation.MaxCover
import LightChain.Library.Holes

/-!
# Aggregation of attestations

`MaxCoverAttestationAggregation` works in place. The array has the aggregates in front, then the
attestations that are not aggregated, then nil entries. A round selects disjoint attestations,
puts their aggregate at the position of the first one, swaps it to the end of the aggregates,
clears the other selected entries and moves the holes to the end of the array. A second array
with the bits of the attestations goes through the same swaps.
-/
namespace LightChain.Aggregation
open Library

/-- An attestation with data in `δ` and signature bytes in `β`. A phase 0 attestation has no
committee bits of its own. -/
structure Att (β δ : Type) where
  aggregationBits : Bitlist
  data : δ
  committeeBits : Option Nat
  signature : β
deriving DecidableEq, Repr

/-- Signature bytes in `β` stand for signatures in `σ`, which are added up. -/
structure SignatureScheme (β σ : Type) where
  signatureFromBytes : β → Option σ
  marshal : σ → β

/-- A sort by bit counts, the largest first. The order of equal counts is not fixed. -/
structure CountSort (β δ : Type) where
  sort : List (Att β δ) → List (Att β δ)
  perm : ∀ atts, (sort atts).Perm atts
  descending : ∀ atts, (sort atts).Pairwise fun a b =>
    b.aggregationBits.count ≤ a.aggregationBits.count

variable {β σ δ : Type} [AddCommMonoid σ] (scheme : SignatureScheme β σ) (sorter : CountSort β δ)

/-- The attestation behind an entry that is dereferenced. -/
def deref {α : Type} : Option (Option α) → Except Error α
  | some (some x) => .ok x
  | _ => .error .nilDereference

variable (atts : List (Option (Att β δ)))

def signatureOf (idx : Nat) : Except Error σ := do
  let att ← deref atts[idx]?
  match scheme.signatureFromBytes att.signature with
  | none => .error .signature
  | some sig => .ok sig

/-- The aggregate takes the position of the first selected attestation. -/
def aggregateAttestations (keys : List Nat) (coverage : Bitlist) :
    Except Error (Nat × List (Option (Att β δ))) :=
  match keys with
  | targetIdx :: _ :: _ =>
    if atts.length < 2 then .error .invalidAttestationCount
    else if coverage.count = 0 then .error .emptyCoverage
    else do
      let signs ← keys.mapM (signatureOf scheme atts)
      let target ← deref atts[targetIdx]?
      let first ← deref atts[0]?
      let aggregate : Att β δ := {
        aggregationBits := coverage
        data := target.data
        committeeBits := first.committeeBits
        signature := scheme.marshal signs.sum }
      return (targetIdx, atts.set targetIdx (some aggregate))
  | _ => .error .invalidAttestationCount

def rearrangeProcessedAttestations (candidates : List (Option Bitlist)) (processedKeys : List Nat) :
    List (Option (Att β δ)) × List (Option Bitlist) :=
  pushHoles (processedKeys.insertionSort (· ≤ ·)) (atts.length - 1) (clearAt atts processedKeys)
    (clearAt candidates processedKeys)

/-- The arrays with the number of aggregates and of attestations after them. -/
structure Progress (β δ : Type) where
  atts : List (Option (Att β δ))
  candidates : List (Option Bitlist)
  aggregated : Nat
  unaggregated : Nat
  coveredBitsSoFar : Bitlist

variable (p : Progress β δ)

def Progress.roundCandidates : Except Error (List Bitlist) :=
  ((p.candidates.drop p.aggregated).take p.unaggregated).mapM fun c => deref (some c)

def Progress.promote (aggIdx : Nat) (atts : List (Option (Att β δ))) (covered : Bitlist) :
    Progress β δ :=
  let idx0 := p.aggregated
  { atts := if idx0 < aggIdx then swapAt atts idx0 aggIdx else atts
    candidates := if idx0 < aggIdx then swapAt p.candidates idx0 aggIdx else p.candidates
    aggregated := idx0 + 1
    unaggregated := p.unaggregated - 1
    coveredBitsSoFar := covered }

def Progress.remove (keys : List Nat) : Progress β δ :=
  let arrays := rearrangeProcessedAttestations p.atts p.candidates keys
  { p with
    atts := arrays.1
    candidates := arrays.2
    unaggregated := p.unaggregated - keys.length }

/-- Aggregate the selected attestations, unless their coverage is just what is covered so far. -/
def Progress.process (keys : List Nat) (coverage : Bitlist) :
    Except Error (Progress β δ) := do
  let xc ← sameLength (p.coveredBitsSoFar.xorCount coverage)
  if 0 < xc then
    let (aggIdx, atts) ← aggregateAttestations scheme p.atts keys coverage
    let covered ← sameLength (Bitlist.or coverage p.coveredBitsSoFar)
    return (p.promote aggIdx atts covered).remove keys.tail
  else return p.remove keys

/-- One round, or `none` if it is the last one. -/
def Progress.round : Except Error (Option (Progress β δ)) :=
  if p.unaggregated < 2 then .ok none
  else do
    let candidates ← p.roundCandidates
    let (selectedKeys, coverage) ← maxCover candidates false candidates.length
    if selectedKeys.count < 2 then return none
    let keys := selectedKeys.bitIndices.map (· + p.aggregated)
    return some (← p.process scheme keys coverage)

def Progress.rounds : Nat → Progress β δ → Except Error (Progress β δ)
  | 0, p => .ok p
  | n + 1, p => do
    match ← p.round scheme with
    | none => return p
    | some p => Progress.rounds n p

/-- The attestations that the last one kept does not contain. -/
def filterLoop (last : Att β δ) : List (Att β δ) → Except Error (List (Att β δ))
  | [] => .ok []
  | att :: atts => do
    if ← sameLength (last.aggregationBits.contains att.aggregationBits) then filterLoop last atts
    else return att :: (← filterLoop att atts)

def filterContained (al : List (Option (Att β δ))) : Except Error (List (Option (Att β δ))) :=
  if al.length < 2 then .ok al
  else do
    let atts ← al.mapM fun att => deref (some att)
    match sorter.sort atts with
    | [] => .error .nilDereference
    | first :: rest => return (first :: (← filterLoop first rest)).map some

variable (atts : List (Att β δ))

def validate : Except Error Unit :=
  if atts.any fun att => att.aggregationBits.length = 0 then
    .error (.invalidMaxCoverProblem "bitlist cannot be nil or empty")
  else .ok ()

def maxCoverAttestationAggregation : Except Error (List (Option (Att β δ))) :=
  match atts with
  | first :: _ :: _ => do
    validate atts
    let p ← Progress.rounds scheme (atts.length / 2) {
      atts := atts.map some
      candidates := atts.map fun att => some att.aggregationBits
      aggregated := 0
      unaggregated := atts.length
      coveredBitsSoFar := .zeros first.aggregationBits.length }
    let filtered ← filterContained sorter ((p.atts.drop p.aggregated).take p.unaggregated)
    return p.atts.take p.aggregated ++ filtered
  | _ => .ok (atts.map some)

def Progress.failed : Nat → Progress β δ → Option (Progress β δ)
  | 0, _ => none
  | n + 1, p =>
    match p.round scheme with
    | .error _ => some p
    | .ok none => none
    | .ok (some p) => Progress.failed n p

/-- The array as an aggregation leaves it that fails in a round. -/
def attsAfterFailure : List (Option (Att β δ)) :=
  match atts with
  | first :: _ :: _ =>
    match Progress.failed scheme (atts.length / 2) {
      atts := atts.map some
      candidates := atts.map fun att => some att.aggregationBits
      aggregated := 0
      unaggregated := atts.length
      coveredBitsSoFar := .zeros first.aggregationBits.length } with
    | some p => p.atts
    | none => atts.map some
  | _ => atts.map some

def disjointCoverage (coverage : Bitlist) : List (Att β δ) → Except Error Bitlist
  | [] => .ok coverage
  | att :: atts =>
    match sameLength (Bitlist.or att.aggregationBits coverage) with
    | .error e => .error (.bits e)
    | .ok coverage => disjointCoverage coverage atts

def aggregateDisjointOneBitAtts : Except Error (Option (Att β δ)) :=
  match atts with
  | [] => .ok none
  | [att] => .ok (some att)
  | first :: rest =>
    match disjointCoverage first.aggregationBits rest with
    | .error e => .error e
    | .ok coverage =>
      match aggregateAttestations scheme (atts.map some) (List.range atts.length) coverage with
      | .error e => .error (.aggregate e)
      | .ok (idx, atts) =>
        if idx ≠ 0 then .error .nonZeroIndex
        else
          match deref atts[0]? with
          | .error e => .error e
          | .ok att => .ok (some att)

end LightChain.Aggregation

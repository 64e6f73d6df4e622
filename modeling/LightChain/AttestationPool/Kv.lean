import LightChain.Aggregation.Inherited
import Mathlib.Logic.Function.Basic

/-!
# The caches of the attestation pool

The pool keeps unaggregated attestations by their own hash, and aggregated ones, those of blocks
and the bits that were seen by the hash of their data and committee bits.
`AggregateUnaggregatedAttestations` puts the unaggregated attestations into groups of one key,
aggregates each group, saves the aggregates, and deletes what was aggregated. The two ends of it
only share a left-over set, which has the results that are not aggregates.
-/
namespace LightChain.AttestationPool
open Library Aggregation List

/-- What `NewId` hashes for the data of an attestation. The hash is taken to be injective. -/
structure DataId (δ : Type) where
  data : δ
  committeeBits : Option Nat
deriving DecidableEq, Repr

inductive Error where
  | noCommitteeBits
  | attestationId (cause : Error)
  | notAggregated
  | isAggregated
  | aggregation (cause : Aggregation.Error)
deriving DecidableEq, Repr

def Error.message : Error → String
  | .noCommitteeBits => "no committee bits are set"
  | .attestationId e => "could not create attestation ID: " ++ e.message
  | .notAggregated => "attestation is not aggregated"
  | .isAggregated => "attestation is aggregated"
  | .aggregation e => e.message

section Attestations

variable {β δ : Type}

def isAggregated (att : Att β δ) : Bool := 1 < att.aggregationBits.count

def dataId (att : Att β δ) : DataId δ := ⟨att.data, att.committeeBits⟩

def newId (att : Att β δ) : Except Error (DataId δ) :=
  if att.committeeBits = some 0 then .error .noCommitteeBits else .ok (dataId att)

theorem inherited_dataId (id : DataId δ) : Inherited (β := β) fun att => dataId att = id := by
  intro target first coverage signature htarget hfirst
  have hdata : target.data = id.data := congrArg DataId.data htarget
  have hcommittee : first.committeeBits = id.committeeBits := congrArg DataId.committeeBits hfirst
  simp only [dataId, hdata, hcommittee]

end Attestations

/-- One of the lists contains the bits. The lists before it are compared, too. -/
def containedIn (bits : Bitlist) : List (Option Bitlist) → Except Error Bool
  | [] => .ok false
  | entry :: entries =>
    match deref (some entry) with
    | .error e => .error (.aggregation e)
    | .ok list =>
      match sameLength (list.contains bits) with
      | .error e => .error (.aggregation e)
      | .ok true => .ok true
      | .ok false => containedIn bits entries

/-- What the caches have under one key. An aggregation that failed can leave nil entries. -/
structure KeyCaches (β : Type) {δ : Type} (id : DataId δ) where
  aggregatedAtt : List (Option (Att β δ))
  blockAtt : List (Att β δ)
  seenAtt : List Bitlist
  aggregated_key : Entries (fun att => dataId att = id) aggregatedAtt
  block_key : ∀ att ∈ blockAtt, dataId att = id

namespace KeyCaches

variable {β σ δ : Type} [AddCommMonoid σ] (scheme : SignatureScheme β σ) (sorter : CountSort β δ)
  {id : DataId δ} (k : KeyCaches β id)

def hasSeenBit (att : Att β δ) : Except Error Bool :=
  containedIn att.aggregationBits (k.seenAtt.map some)

def insertSeenBit (att : Att β δ) : Except Error (KeyCaches β id) :=
  match k.hasSeenBit att with
  | .error e => .error e
  | .ok true => .ok k
  | .ok false => .ok { k with seenAtt := k.seenAtt ++ [att.aggregationBits] }

def hasAggregatedAttestation (att : Att β δ) : Except Error Bool :=
  match containedIn att.aggregationBits (k.aggregatedAtt.map (·.map (·.aggregationBits))) with
  | .ok false => containedIn att.aggregationBits (k.blockAtt.map fun a => some a.aggregationBits)
  | outcome => outcome

/-- Put the attestation into the list of its key. The aggregation works in place. If the array
behind the list has room, it is the one that the attestation is appended to, and the list shows
what a failed aggregation left there. -/
def addAggregated (room : Bool) (att : Att β δ) (hkey : dataId att = id) :
    KeyCaches β id × Except Error Unit :=
  match hderef : k.aggregatedAtt.mapM fun entry => deref (some entry) with
  | .error e => (k, .error (.aggregation e))
  | .ok atts =>
    have hatts : ∀ a ∈ atts ++ [att], dataId a = id := by
      intro a ha
      rcases mem_append.1 ha with ha | ha
      · refine k.aggregated_key a ?_
        rw [mapM_deref_eq_ok hderef]
        exact mem_map_of_mem ha
      · rw [mem_singleton.1 ha, hkey]
    match hrun : maxCoverAttestationAggregation scheme sorter (atts ++ [att]) with
    | .ok result =>
      ({ k with
        aggregatedAtt := result
        aggregated_key :=
          entries_maxCoverAttestationAggregation (inherited_dataId id) hatts hrun }, .ok ())
    | .error e =>
      (if room then
        { k with
          aggregatedAtt := (attsAfterFailure scheme (atts ++ [att])).take atts.length
          aggregated_key := (entries_attsAfterFailure (inherited_dataId id) hatts).mono
            fun _ ha => mem_of_mem_take ha }
      else k, .error (.aggregation e))

/-- `SaveAggregatedAttestation` once the key is known. -/
def saveAggregatedAttestation (room : Bool) (att : Att β δ) (hkey : dataId att = id) :
    KeyCaches β id × Except Error Unit :=
  match k.hasAggregatedAttestation att with
  | .error e => (k, .error e)
  | .ok true => (k, .ok ())
  | .ok false =>
    match k.hasSeenBit att with
    | .error e => (k, .error e)
    | .ok true => (k, .ok ())
    | .ok false => k.addAggregated scheme sorter room att hkey

/-- The entries that the bits do not contain. -/
def notContained (bits : Bitlist) : List (Option (Att β δ)) → Except Error (List (Option (Att β δ)))
  | [] => .ok []
  | entry :: entries => do
    let att ← (deref (some entry)).mapError .aggregation
    let contained ← (sameLength (bits.contains att.aggregationBits)).mapError .aggregation
    let filtered ← notContained bits entries
    return if contained then filtered else entry :: filtered

theorem notContained_subset {bits : Bitlist} {entries filtered : List (Option (Att β δ))}
    (h : notContained bits entries = .ok filtered) : filtered ⊆ entries := by
  induction entries generalizing filtered with
  | nil =>
    cases h
    exact Subset.refl _
  | cons entry entries ih =>
    obtain ⟨att, -, h⟩ := bind_eq_ok.1 h
    obtain ⟨contained, -, h⟩ := bind_eq_ok.1 h
    obtain ⟨rest, hrest, h⟩ := bind_eq_ok.1 h
    cases h
    cases contained with
    | true => exact subset_cons_of_subset entry (ih hrest)
    | false => exact cons_subset_cons entry (ih hrest)

/-- `DeleteAggregatedAttestation` once the key is known. -/
def deleteAggregatedAttestation (att : Att β δ) : KeyCaches β id × Except Error Unit :=
  match k.insertSeenBit att with
  | .error e => (k, .error e)
  | .ok k =>
    match hrun : notContained att.aggregationBits k.aggregatedAtt with
    | .error e => (k, .error e)
    | .ok filtered =>
      ({ k with
        aggregatedAtt := filtered
        aggregated_key := k.aggregated_key.mono fun _ ha => notContained_subset hrun ha }, .ok ())

/-- `SaveAggregatedAttestations` of one attestation with more than one bit. A failed save is
followed by a delete. Errors are logged, and a nil entry stops the program. -/
def saveAggregatedAttestations (room : Bool) (att : Att β δ) (hkey : dataId att = id) :
    Option (KeyCaches β id) :=
  match k.saveAggregatedAttestation scheme sorter room att hkey with
  | (k, .ok ()) => some k
  | (k, .error e) =>
    if e = .aggregation .nilDereference then none
    else
      match k.deleteAggregatedAttestation att with
      | (_, .error (.aggregation .nilDereference)) => none
      | (k, _) => some k

end KeyCaches

/-- The attestations in `unAggregatedAtt` are their own keys, and `SaveUnaggregatedAttestation`
takes no aggregates. -/
structure AttCaches (β δ : Type) where
  unAggregatedAtt : List (Att β δ)
  under : ∀ id : DataId δ, KeyCaches β id
  nodup : unAggregatedAtt.Nodup
  single : ∀ att ∈ unAggregatedAtt, isAggregated att = false

namespace AttCaches

variable {β σ δ : Type} [DecidableEq β] [DecidableEq δ] [AddCommMonoid σ]
  (scheme : SignatureScheme β σ) (sorter : CountSort β δ) (room : DataId δ → Bool)
  (c : AttCaches β δ)

def put {id : DataId δ} (k : KeyCaches β id) : AttCaches β δ :=
  { c with under := Function.update c.under id k }

def hasSeenBit (att : Att β δ) : Except Error Bool := do
  let id ← (newId att).mapError .attestationId
  (c.under id).hasSeenBit att

def unaggregatedAttestations : List (Att β δ) :=
  c.unAggregatedAtt.filter fun att => decide (c.hasSeenBit att = .ok false)

/-- Without a key the save and the delete that follows it both fail. -/
def saveAggregatedAttestations (att : Att β δ) : Option (AttCaches β δ) :=
  if !isAggregated att || att.committeeBits = some 0 then some c
  else
    ((c.under (dataId att)).saveAggregatedAttestations scheme sorter (room (dataId att)) att
      rfl).map c.put

def Saves (aggregated : Att β δ) : Prop :=
  ((c.under (dataId aggregated)).saveAggregatedAttestation scheme sorter (room (dataId aggregated))
    aggregated rfl).2 = .ok ()

/-- One group of `aggregateParallel`, with the left-over set. -/
def aggregateGroup (st : AttCaches β δ × List (Att β δ)) (as : List (Att β δ)) :
    Option (AttCaches β δ × List (Att β δ)) :=
  match aggregateDisjointOneBitAtts scheme as with
  | .error _ => some st
  | .ok none => some st
  | .ok (some aggregated) =>
    if isAggregated aggregated then
      (st.1.saveAggregatedAttestations scheme sorter room aggregated).map (·, st.2)
    else some (st.1, aggregated :: st.2)

def deleteUnaggregatedAttestation (att : Att β δ) : Except Error (AttCaches β δ) :=
  if isAggregated att then .error .isAggregated
  else
    let seen : AttCaches β δ :=
      if att.committeeBits = some 0 then c
      else
        match (c.under (dataId att)).insertSeenBit att with
        | .error _ => c
        | .ok k => c.put k
    .ok { seen with
      unAggregatedAtt := c.unAggregatedAtt.erase att
      nodup := c.nodup.erase att
      single := fun a ha => c.single a (mem_of_mem_erase ha) }

def deleteLoop (leftOver : List (Att β δ)) :
    List (Att β δ) → AttCaches β δ → AttCaches β δ × Except Error Unit
  | [], c => (c, .ok ())
  | att :: atts, c =>
    if att ∈ leftOver then deleteLoop leftOver atts c
    else
      match c.deleteUnaggregatedAttestation att with
      | .error e => (c, .error e)
      | .ok c => deleteLoop leftOver atts c

def groupOf (atts : List (Att β δ)) (id : DataId δ) : List (Att β δ) :=
  atts.filter fun att => dataId att = id

/-- The keys of the groups in the order in which they are taken up. The groups have different
keys, so that goroutines that work on them at a time do not meet. -/
structure GroupOrder (atts : List (Att β δ)) where
  keys : List (DataId δ)
  nodup : keys.Nodup
  mem_iff : ∀ id, id ∈ keys ↔ ∃ att ∈ atts, dataId att = id

/-- The caches after the call with its error, or `none` if a nil entry stops the program. -/
def aggregateUnaggregatedAttestations (order : GroupOrder c.unaggregatedAttestations) :
    Option (AttCaches β δ × Except Error Unit) :=
  let unaggregatedAtts := c.unaggregatedAttestations
  match unaggregatedAtts.mapM newId with
  | .error e => some (c, .error (.attestationId e))
  | .ok _ => do
    let (c, leftOver) ← order.keys.foldlM
      (fun st id => aggregateGroup scheme sorter room st (groupOf unaggregatedAtts id)) (c, [])
    return deleteLoop leftOver unaggregatedAtts c

end AttCaches

end LightChain.AttestationPool

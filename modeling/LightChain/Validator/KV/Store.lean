import LightChain.Library.WordIndex

/-!
# The validator's key-value store of signed attestations

Each public key has three nested buckets: the signing root by target epoch, the target
epochs by source epoch and the source epochs by target epoch. The lowest signed source and
target epochs and the keys blacklisted by an import are in buckets of their own.
`Records` relates the three buckets of a key to the list of attestations written for it.
-/
namespace LightChain.KV
open Library List

structure AttestationData where
  source : Nat
  target : Nat
deriving DecidableEq, Repr

/-- An attestation as far as slashing protection reads it. Epochs are `uint64`. -/
structure IndexedAtt extends AttestationData where
  source_lt : source < 2 ^ 64 := by decide
  target_lt : target < 2 ^ 64 := by decide
deriving DecidableEq, Repr

/-- A `[32]byte` signing root. -/
@[ext] structure Root where
  bytes : Bytes
  length_eq : bytes.length = 32 := by decide
deriving DecidableEq, Repr

def rootOf (b : Fin 256) : Root := ⟨List.replicate 32 b, length_replicate⟩

/-- The signing root of a record is a slice. It is empty when an import did not name it. -/
structure AttestationRecord (PubKey : Type) extends IndexedAtt where
  pubKey : PubKey
  signingRoot : Bytes
deriving DecidableEq, Repr

/-- The nested buckets of one public key, each created when it is first written. -/
structure PubKeyBucket where
  signingRoots : Option Bucket := none
  sourceEpochs : Option Bucket := none
  targetEpochs : Option Bucket := none

structure Store (PubKey : Type) where
  pubKeys : PubKey → Option PubKeyBucket
  lowestSignedSource : PubKey → Option Bytes
  lowestSignedTarget : PubKey → Option Bytes
  slashablePublicKeys : PubKey → Bool

/-- A store as it is created, with every bucket empty. -/
def Store.new (PubKey : Type) : Store PubKey := ⟨fun _ => none, fun _ => none, fun _ => none,
  fun _ => false⟩

section Save

variable {PubKey : Type} [DecidableEq PubKey]

/-- The lowest signed epoch after a write. It is overridden by a lower one. -/
def lowestAfter (stored : Option Bytes) (epoch : Nat) : Option Bytes :=
  let bytes := stored.getD []
  if bytes.length = 0 ∨ epoch < ofWord bytes then some (toWord epoch) else stored

def PubKeyBucket.save (pkBucket : PubKeyBucket) (att : AttestationRecord PubKey) :
    PubKeyBucket where
  -- The root of an earlier attestation with this target is overwritten.
  signingRoots := some ((pkBucket.signingRoots.getD ∅).insert (toWord att.target) att.signingRoot)
  sourceEpochs := some (append (pkBucket.sourceEpochs.getD ∅) att.source att.target)
  targetEpochs := some (append (pkBucket.targetEpochs.getD ∅) att.target att.source)

/-- One round of the loop of `saveAttestationRecords`. -/
def saveAttestationRecord (s : Store PubKey) (att : AttestationRecord PubKey) : Store PubKey :=
  { s with
    pubKeys := Function.update s.pubKeys att.pubKey
      (some (((s.pubKeys att.pubKey).getD {}).save att))
    lowestSignedSource := Function.update s.lowestSignedSource att.pubKey
      (lowestAfter (s.lowestSignedSource att.pubKey) att.source)
    lowestSignedTarget := Function.update s.lowestSignedTarget att.pubKey
      (lowestAfter (s.lowestSignedTarget att.pubKey) att.target) }

def saveAttestationRecords (s : Store PubKey) (atts : List (AttestationRecord PubKey)) :
    Store PubKey :=
  atts.foldl saveAttestationRecord s

end Save

section Lookup

variable {PubKey : Type} (s : Store PubKey)

/-- The stored root copied into a 32-byte array, and an empty slice if there is none. -/
def signingRootAtTargetEpoch (pubKey : PubKey) (target : Nat) : Bytes :=
  match s.pubKeys pubKey with
  | none => []
  | some pkBucket =>
    match pkBucket.signingRoots with
    | none => []
    | some signingRoots =>
      let sr := (signingRoots[toWord target]?).getD []
      if sr.length = 0 then [] else sr.take 32 ++ List.replicate (32 - sr.length) 0

def lowestSignedEpoch (stored : Option Bytes) : Option Nat :=
  let bytes := stored.getD []
  if bytes.length < 8 then none else some (ofWord bytes)

def lowestSignedSourceEpoch (pubKey : PubKey) : Option Nat :=
  lowestSignedEpoch (s.lowestSignedSource pubKey)

def lowestSignedTargetEpoch (pubKey : PubKey) : Option Nat :=
  lowestSignedEpoch (s.lowestSignedTarget pubKey)

end Lookup

section Records

variable {PubKey : Type} {pkBucket : PubKeyBucket} {past : List (AttestationRecord PubKey)}

/-- The signing root of the last attestation written for a target epoch. -/
def lastRoot (past : List (AttestationRecord PubKey)) (target : Nat) : Option Bytes :=
  (past.reverse.find? fun r => r.target = target).map (·.signingRoot)

@[simp] theorem lastRoot_append (r : AttestationRecord PubKey) (target : Nat) :
    lastRoot (past ++ [r]) target =
      if r.target = target then some r.signingRoot else lastRoot past target := by
  simp only [lastRoot, reverse_append, reverse_singleton, singleton_append,
    find?_cons]
  split_ifs with h <;> simp [h]

variable (atts : List (AttestationRecord PubKey))

theorem lastRoot_append_list (target : Nat) :
    lastRoot (past ++ atts) target = (lastRoot atts target).or (lastRoot past target) := by
  simp [lastRoot, find?_append]
  grind

theorem lastRoot_eq_none {target : Nat} :
    lastRoot past target = none ↔ ∀ r ∈ past, r.target ≠ target := by
  simp [lastRoot]

/-- The buckets of a key hold the attestations written for it, in order. A bucket that was
never created holds what an empty one does. -/
structure Records (pkBucket : PubKeyBucket) (past : List (AttestationRecord PubKey)) : Prop where
  roots : ∀ target < 2 ^ 64,
    (pkBucket.signingRoots.getD ∅)[toWord target]? = lastRoot past target
  sources : Indexes (pkBucket.sourceEpochs.getD ∅) (past.map fun r => (r.source, r.target))
  targets : Indexes (pkBucket.targetEpochs.getD ∅) (past.map fun r => (r.target, r.source))

theorem Records.empty : Records {} ([] : List (AttestationRecord PubKey)) :=
  ⟨by simp [lastRoot], Indexes.empty, Indexes.empty⟩

theorem Records.save (h : Records pkBucket past) (att : AttestationRecord PubKey) :
    Records (pkBucket.save att) (past ++ [att]) := by
  refine ⟨fun target ht => ?_, ?_, ?_⟩
  · have hcmp : compare (toWord att.target) (toWord target) = .eq ↔ att.target = target := by
      rw [compare_toWord att.target_lt ht, compare_eq_iff_eq]
    simp only [PubKeyBucket.save, Option.getD_some, Std.TreeMap.getElem?_insert, lastRoot_append,
      hcmp, h.roots target ht]
  · simpa [PubKeyBucket.save] using h.sources.append att.source_lt att.target_lt
  · simpa [PubKeyBucket.save] using h.targets.append att.target_lt att.source_lt

variable [DecidableEq PubKey]

def ofKey (past : List (AttestationRecord PubKey)) (pubKey : PubKey) :
    List (AttestationRecord PubKey) :=
  past.filter fun r => r.pubKey = pubKey

theorem ofKey_append (pubKey : PubKey) :
    ofKey (past ++ atts) pubKey = ofKey past pubKey ++ ofKey atts pubKey :=
  filter_append ..

/-- The buckets of every key hold the attestations written for it. -/
def Represents (s : Store PubKey) (past : List (AttestationRecord PubKey)) : Prop :=
  ∀ pubKey, Records ((s.pubKeys pubKey).getD {}) (ofKey past pubKey)

theorem Represents.new : Represents (Store.new PubKey) [] := fun _ => Records.empty

variable {s : Store PubKey}

theorem Represents.save (h : Represents s past) (atts : List (AttestationRecord PubKey)) :
    Represents (saveAttestationRecords s atts) (past ++ atts) := by
  induction atts generalizing s past with
  | nil => simpa [saveAttestationRecords] using h
  | cons att atts ih =>
    have hone : Represents (saveAttestationRecord s att) (past ++ [att]) := by
      intro pubKey
      by_cases hk : pubKey = att.pubKey
      · subst hk
        simpa [saveAttestationRecord, ofKey, filter_append] using (h att.pubKey).save att
      · simpa [saveAttestationRecord, ofKey, filter_append, Function.update_of_ne hk,
          Ne.symm hk] using h pubKey
    simpa [saveAttestationRecords] using ih hone

@[simp] theorem slashablePublicKeys_save :
    (saveAttestationRecords s atts).slashablePublicKeys = s.slashablePublicKeys := by
  induction atts generalizing s with
  | nil => rfl
  | cons att atts ih => exact ih

end Records

end LightChain.KV

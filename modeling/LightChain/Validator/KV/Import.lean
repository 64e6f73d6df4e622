import LightChain.Validator.KV.AttesterProtection

/-!
# Importing a slashing protection history

`ImportStandardProtectionJSON` collects the entries of each public key, blacklists the keys
whose entries are slashable among each other or with the database, and then writes the
entries of every key, each key in a transaction of its own. The document is modelled after
its strings have been read. `Agreeing` is what a key that escapes the filter guarantees.
-/
namespace LightChain.KV
open Library List

structure SignedAttestation extends IndexedAtt where
  signingRoot : Option Root := none
deriving DecidableEq, Repr

structure SignedBlock where
  slot : Nat
  signingRoot : Option Root := none
deriving DecidableEq, Repr

/-- One entry of the document. Its lists can have null entries. -/
structure ProtectionData (PubKey : Type) where
  pubKey : PubKey
  signedBlocks : List (Option SignedBlock) := []
  signedAttestations : List (Option SignedAttestation) := []
deriving DecidableEq, Repr

structure Proposal where
  slot : Nat
  signingRoot : Bytes
deriving DecidableEq, Repr

/-- The signing root as a slice, of length zero if the document does not have it. -/
def rootBytes (signingRoot : Option Root) : Bytes := signingRoot.elim [] Root.bytes

section Filter

variable {PubKey : Type}

/-- The loop of `filterSlashablePubKeysFromBlocks` over the proposals of one key. A root that
was seen is never nil, so that only the comparison of the roots decides. -/
def blocksSlashable (seenSigningRootsBySlot : Nat → Option Bytes) : List Proposal → Bool
  | [] => false
  | blk :: rest =>
    (match seenSigningRootsBySlot blk.slot with
      | some signingRoot => signingRoot != blk.signingRoot
      | none => false) ||
    blocksSlashable (Function.update seenSigningRootsBySlot blk.slot (some blk.signingRoot)) rest

/-- The loop of `filterSlashablePubKeysFromAttestations` over the attestations of one key, with
respect to the document. `seen` has the pairs of `targetEpochsBySource`, whose order in the
map does not matter. -/
def attestationsSlashable (signingRootsByTarget : Nat → Option Bytes)
    (seen : List AttestationData) : List (AttestationRecord PubKey) → Bool
  | [] => false
  | att :: rest =>
    (match signingRootsByTarget att.target with
      | some sr => signingRootsDiffer sr att.signingRoot
      | none => false) ||
    seen.any (fun a =>
      isSurround a att.toAttestationData || isSurround att.toAttestationData a) ||
    attestationsSlashable (Function.update signingRootsByTarget att.target (some att.signingRoot))
      (seen ++ [att.toAttestationData]) rest

def filterSlashablePubKeysFromBlocks (pubKeys : List PubKey)
    (historyByPubKey : PubKey → List Proposal) : List PubKey :=
  pubKeys.filter fun pubKey => blocksSlashable (fun _ => none) (historyByPubKey pubKey)

/-- The attestations of a key with respect to the database. -/
def slashableInDatabase (s : Store PubKey) (atts : List (AttestationRecord PubKey)) : Bool :=
  atts.any fun att =>
    match checkSlashableAttestation s att.pubKey att.signingRoot att.toIndexedAtt with
    | .ok _ => false
    | .error e => e.slashingKind ≠ .notSlashable

theorem slashableInDatabase_eq_false {s : Store PubKey} {atts : List (AttestationRecord PubKey)} :
    slashableInDatabase s atts = false ↔ ∀ att ∈ atts,
      checkSlashableAttestation s att.pubKey att.signingRoot att.toIndexedAtt = .ok () := by
  rw [slashableInDatabase, any_eq_false]
  refine forall₂_congr fun att _ => ?_
  cases hcheck : checkSlashableAttestation s att.pubKey att.signingRoot att.toIndexedAtt with
  | ok _ => simp
  | error e => simp [slashingKind_of_error hcheck]

def filterSlashablePubKeysFromAttestations (s : Store PubKey) (pubKeys : List PubKey)
    (signedAttsByPubKey : PubKey → List (AttestationRecord PubKey)) : List PubKey :=
  pubKeys.filter (fun pubKey =>
    attestationsSlashable (fun _ => none) [] (signedAttsByPubKey pubKey)) ++
  pubKeys.filter (fun pubKey => slashableInDatabase s (signedAttsByPubKey pubKey))

end Filter

section Import

variable {PubKey : Type} [DecidableEq PubKey] (data : List (ProtectionData PubKey))
  (pubKey : PubKey)

def parseBlocksForUniquePublicKeys : List SignedBlock :=
  data.flatMap fun d => if d.pubKey = pubKey then d.signedBlocks.filterMap id else []

def parseAttestationsForUniquePublicKeys : List SignedAttestation :=
  data.flatMap fun d => if d.pubKey = pubKey then d.signedAttestations.filterMap id else []

def transformSignedBlocks (signedBlocks : List SignedBlock) : List Proposal :=
  signedBlocks.map fun b => ⟨b.slot, rootBytes b.signingRoot⟩

def transformSignedAttestations (atts : List SignedAttestation) : List (AttestationRecord PubKey) :=
  atts.map fun a => { a.toIndexedAtt with pubKey, signingRoot := rootBytes a.signingRoot }

def attestingHistoryByPubKey : List (AttestationRecord PubKey) :=
  transformSignedAttestations pubKey (parseAttestationsForUniquePublicKeys data pubKey)

def proposalHistoryByPubKey : List Proposal :=
  transformSignedBlocks (parseBlocksForUniquePublicKeys data pubKey)

def saveEIPImportBlacklistedPublicKeys (s : Store PubKey) (publicKeys : List PubKey) :
    Store PubKey :=
  { s with slashablePublicKeys := fun pubKey =>
      s.slashablePublicKeys pubKey || decide (pubKey ∈ publicKeys) }

def pubKeysOf : List PubKey :=
  (data.map (·.pubKey)).dedup

/-- Write the attestations of the keys whose transaction commits. An import that fails part
way has committed the transactions of some keys only, and the map is ranged over in any
order, so that these can be any of the keys. -/
def saveAttestations (committed : PubKey → Bool) (s : Store PubKey) : Store PubKey :=
  ((pubKeysOf data).filter committed).foldl
    (fun s pubKey => saveAttestationRecords s (attestingHistoryByPubKey data pubKey)) s

def importStandardProtectionJSON (committed : PubKey → Bool) (s : Store PubKey) : Store PubKey :=
  let pubKeys := pubKeysOf data
  let slashableProposerKeys :=
    filterSlashablePubKeysFromBlocks pubKeys (proposalHistoryByPubKey data)
  let slashableAttesterKeys :=
    filterSlashablePubKeysFromAttestations s pubKeys (attestingHistoryByPubKey data)
  let s := saveEIPImportBlacklistedPublicKeys s (slashableProposerKeys ++ slashableAttesterKeys)
  saveAttestations data committed s

def imported (committed : PubKey → Bool) : List (AttestationRecord PubKey) :=
  ((pubKeysOf data).filter committed).flatMap (attestingHistoryByPubKey data)

end Import

section Agreeing

variable {PubKey : Type} {past atts : List (AttestationRecord PubKey)}

/-- The stored root of a target is the root of every attestation with this target. -/
def Agreeing (past : List (AttestationRecord PubKey)) : Prop :=
  ∀ r ∈ past, lastRoot past r.target = some r.signingRoot

theorem Agreeing.append (h : Agreeing past) {att : AttestationRecord PubKey}
    (hroot : RootAgrees past att.target att.signingRoot) : Agreeing (past ++ [att]) := by
  intro r hr
  rw [lastRoot_append]
  obtain hr | hr := mem_append.1 hr
  · have hlast := h r hr
    split_ifs with ht
    · rw [← ht] at hlast
      rw [(hroot _ hlast).2]
    · exact hlast
  · cases mem_singleton.1 hr
    simp

theorem update_lastRoot (read : List (AttestationRecord PubKey)) (att : AttestationRecord PubKey) :
    Function.update (lastRoot read) att.target (some att.signingRoot) =
      lastRoot (read ++ [att]) := by
  funext target
  rw [lastRoot_append, Function.update_apply]
  simp only [eq_comm]

/-- A key that neither pass of the filter catches stays in agreement. The invariant of the
loop is that the map of roots is the one of the attestations read so far. -/
theorem Agreeing.append_list (hdb : ∀ att ∈ atts, RootAgrees past att.target att.signingRoot)
    {seen : List AttestationData} {read : List (AttestationRecord PubKey)}
    (h : Agreeing (past ++ read))
    (hjson : attestationsSlashable (lastRoot read) seen atts = false) :
    Agreeing (past ++ read ++ atts) := by
  induction atts generalizing read seen with
  | nil => simpa using h
  | cons att atts ih =>
    rw [attestationsSlashable, Bool.or_eq_false_iff, Bool.or_eq_false_iff] at hjson
    obtain ⟨⟨hdiffer, -⟩, hrest⟩ := hjson
    have hnext : Agreeing (past ++ (read ++ [att])) := by
      rw [← append_assoc]
      refine h.append fun existing hlast => ?_
      rw [lastRoot_append_list] at hlast
      cases hread : lastRoot read att.target with
      | none =>
        rw [hread, Option.none_or] at hlast
        exact hdb att mem_cons_self existing hlast
      | some sr =>
        simp only [hread, Option.some_or, Option.some.injEq] at hdiffer hlast
        subst hlast
        simpa [signingRootsDiffer] using hdiffer
    rw [update_lastRoot] at hrest
    simpa using ih (fun a ha => hdb a (mem_cons_of_mem _ ha)) hnext hrest

end Agreeing

section Effect

variable {PubKey : Type} [DecidableEq PubKey] {s : Store PubKey}
  {past : List (AttestationRecord PubKey)} {data : List (ProtectionData PubKey)}
  {committed : PubKey → Bool}

theorem saveAttestations_eq :
    saveAttestations data committed s = saveAttestationRecords s (imported data committed) := by
  simp [saveAttestations, saveAttestationRecords, imported, foldl_flatMap]

theorem Represents.importJSON (h : Represents s past) :
    Represents (importStandardProtectionJSON data committed s)
      (past ++ imported data committed) := by
  rw [importStandardProtectionJSON, saveAttestations_eq]
  -- The blacklist is in a bucket of its own.
  have hblacklist : ∀ keys, Represents (saveEIPImportBlacklistedPublicKeys s keys) past :=
    fun _ => h
  exact (hblacklist _).save _

theorem pubKey_of_mem_history {pubKey : PubKey} {r : AttestationRecord PubKey}
    (h : r ∈ attestingHistoryByPubKey data pubKey) : r.pubKey = pubKey := by
  obtain ⟨a, -, rfl⟩ := mem_map.1 h
  rfl

variable (data committed) in
theorem ofKey_imported (pubKey : PubKey) :
    ofKey (imported data committed) pubKey =
      if pubKey ∈ pubKeysOf data ∧ committed pubKey then attestingHistoryByPubKey data pubKey
      else [] := by
  have hone : ∀ k, ofKey (attestingHistoryByPubKey data k) pubKey =
      if k = pubKey then attestingHistoryByPubKey data k else [] := by
    intro k
    split_ifs with hk
    · exact filter_eq_self.2 fun r hr => by simp [pubKey_of_mem_history hr, hk]
    · exact filter_eq_nil_iff.2 fun r hr => by simp [pubKey_of_mem_history hr, hk]
  have hflat : ∀ keys : List PubKey, keys.Nodup →
      ofKey (keys.flatMap (attestingHistoryByPubKey data)) pubKey =
        if pubKey ∈ keys then attestingHistoryByPubKey data pubKey else [] := by
    intro keys hkeys
    induction keys with
    | nil => rfl
    | cons k keys ih =>
      have hk := hone k
      have hrest := ih hkeys.of_cons
      simp only [ofKey, flatMap_cons, filter_append] at hk hrest ⊢
      grind
  have hnodup : ((pubKeysOf data).filter committed).Nodup := (nodup_dedup _).filter _
  simp only [imported, hflat _ hnodup, mem_filter]

/-- A key of the document that is not blacklisted after an import was caught by neither
pass. -/
theorem not_slashable_of_import {pubKey : PubKey}
    (h : (importStandardProtectionJSON data committed s).slashablePublicKeys pubKey = false) :
    s.slashablePublicKeys pubKey = false ∧ (pubKey ∈ pubKeysOf data →
      attestationsSlashable (fun _ => none) [] (attestingHistoryByPubKey data pubKey) = false ∧
      ∀ att ∈ attestingHistoryByPubKey data pubKey,
        checkSlashableAttestation s pubKey att.signingRoot att.toIndexedAtt = .ok ()) := by
  rw [importStandardProtectionJSON, saveAttestations_eq, slashablePublicKeys_save] at h
  simp only [saveEIPImportBlacklistedPublicKeys, Bool.or_eq_false_iff, decide_eq_false_iff_not,
    mem_append, not_or, filterSlashablePubKeysFromAttestations, mem_filter, not_and,
    Bool.not_eq_true] at h
  obtain ⟨hold, -, hjson, hdb⟩ := h
  refine ⟨hold, fun hmem => ⟨hjson hmem, fun att hatt => ?_⟩⟩
  have hone := slashableInDatabase_eq_false.1 (hdb hmem) att hatt
  rwa [pubKey_of_mem_history hatt] at hone

end Effect

end LightChain.KV

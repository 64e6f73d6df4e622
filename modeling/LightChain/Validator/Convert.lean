import LightChain.Validator.Filesystem.Store
import LightChain.Validator.KV.ProposerProtection
import LightChain.Validator.KV.Pruning

/-!
# Converting the slashing protection database

`ConvertDatabase` reads the history of each public key from one database and writes a single
attestation with the highest epochs, and a single proposal at the highest slot, into a new one.
The history of the complete database is read from the source epochs alone. Pruning can have
deleted an attestation from there that is still found by its target epoch, and then a vote that
it surrounds is no longer refused. In the other direction the attestation is written with the
zero signing root, so that a vote with that root counts as a repetition.
-/
namespace LightChain.Convert
open Library List Function
open Filesystem (Attestation maxSourceTargetEpoch)
open KV (IndexedAtt Root rootOf Holds)

variable {PubKey ε σ : Type}

/-- What the conversion reads from `iface.ValidatorDB`. The keys are distinct, and a key that is
not listed has no history. -/
structure SourceDatabase (PubKey : Type) where
  attestedPublicKeys : List PubKey
  attestationHistoryForPubKey : PubKey → List Attestation
  proposedPublicKeys : List PubKey
  proposalHistoryForPubKey : PubKey → List Nat
  attested_nodup : attestedPublicKeys.Nodup
  attested_complete : ∀ k ∉ attestedPublicKeys, attestationHistoryForPubKey k = []
  proposed_nodup : proposedPublicKeys.Nodup
  proposed_complete : ∀ k ∉ proposedPublicKeys, proposalHistoryForPubKey k = []

/-- What the conversion writes to `iface.ValidatorDB`. -/
structure TargetDatabase (PubKey ε σ : Type) where
  saveAttestationForPubKey : σ → PubKey → Attestation → Except ε σ
  saveProposalHistoryForSlot : σ → PubKey → Nat → Except ε σ

section Convert

variable (source : SourceDatabase PubKey) (target : TargetDatabase PubKey ε σ)

def convertAttestations (db : σ) (pubKey : PubKey) : Except ε σ :=
  let attestationRecords := source.attestationHistoryForPubKey pubKey
  if attestationRecords = [] then .ok db
  else target.saveAttestationForPubKey db pubKey (maxSourceTargetEpoch attestationRecords)

def convertProposals (db : σ) (pubKey : PubKey) : Except ε σ :=
  let proposals := source.proposalHistoryForPubKey pubKey
  if proposals = [] then .ok db
  else target.saveProposalHistoryForSlot db pubKey (proposals.foldl max 0)

def convertDatabase (db : σ) : Except ε σ := do
  let db ← source.attestedPublicKeys.foldlM (convertAttestations source target) db
  source.proposedPublicKeys.foldlM (convertProposals source target) db

variable {source target} {β : Type}

/-- The part of the target that belongs to one key is written at most twice. -/
theorem part_of_convert (get : σ → PubKey → β) (writeAttestation : PubKey → Attestation → β → β)
    (writeProposal : Nat → β → β)
    (hatt : ∀ {db k att db'}, target.saveAttestationForPubKey db k att = .ok db' →
      get db' k = writeAttestation k att (get db k) ∧ ∀ j ≠ k, get db' j = get db j)
    (hprop : ∀ {db k slot db'}, target.saveProposalHistoryForSlot db k slot = .ok db' →
      get db' k = writeProposal slot (get db k) ∧ ∀ j ≠ k, get db' j = get db j)
    {new db : σ} (run : convertDatabase source target new = .ok db) (k : PubKey) :
    let records := source.attestationHistoryForPubKey k
    let proposals := source.proposalHistoryForPubKey k
    let attested := if records = [] then get new k else
      writeAttestation k (maxSourceTargetEpoch records) (get new k)
    get db k = if proposals = [] then attested else
      writeProposal (proposals.foldl max 0) attested := by
  rw [convertDatabase] at run
  obtain ⟨mid, hmid, hrun⟩ := bind_eq_ok.1 run
  have hfirst := foldlM_keys get (fun k x x' => x' =
    if source.attestationHistoryForPubKey k = [] then x else
      writeAttestation k (maxSourceTargetEpoch (source.attestationHistoryForPubKey k)) x)
    (fun db k db' hstep => ?_) source.attested_nodup hmid k
  have hsecond := foldlM_keys get (fun k x x' => x' =
    if source.proposalHistoryForPubKey k = [] then x else
      writeProposal ((source.proposalHistoryForPubKey k).foldl max 0) x)
    (fun db k db' hstep => ?_) source.proposed_nodup hrun k
  · have hmidk : get mid k = if source.attestationHistoryForPubKey k = [] then get new k else
        writeAttestation k (maxSourceTargetEpoch (source.attestationHistoryForPubKey k))
          (get new k) := by
      by_cases hk : k ∈ source.attestedPublicKeys
      · exact hfirst.1 hk
      · rw [hfirst.2 hk, if_pos (source.attested_complete k hk)]
    intro records proposals attested
    rw [show attested = get mid k from hmidk.symm]
    by_cases hk : k ∈ source.proposedPublicKeys
    · exact hsecond.1 hk
    · rw [hsecond.2 hk, if_pos (source.proposed_complete k hk)]
  · rw [convertProposals] at hstep
    split_ifs at hstep with hnil
    · cases hstep
      simp [hnil]
    · rw [if_neg hnil]
      exact hprop hstep
  · rw [convertAttestations] at hstep
    split_ifs at hstep with hnil
    · cases hstep
      simp [hnil]
    · rw [if_neg hnil]
      exact hatt hstep

end Convert

/-- The keys of a bucket or a directory, each once. -/
structure KeyList (present : PubKey → Prop) where
  keys : List PubKey
  nodup : keys.Nodup
  complete : ∀ k, present k → k ∈ keys

def completeSource (s : KV.Store PubKey) (p : KV.ProposalStore PubKey)
    (attested : KeyList fun k => (s.pubKeys k).isSome)
    (proposed : KeyList fun k => (p.historicProposals k).isSome) : SourceDatabase PubKey where
  attestedPublicKeys := attested.keys
  attestationHistoryForPubKey pubKey :=
    (((s.pubKeys pubKey).getD {}).sourceEpochs.getD ∅).toList.flatMap fun e =>
      (unpack e.2).map fun target => ⟨ofWord e.1, target⟩
  proposedPublicKeys := proposed.keys
  proposalHistoryForPubKey pubKey :=
    ((p.historicProposals pubKey).getD ∅).toList.map fun e => ofWord e.1
  attested_nodup := attested.nodup
  attested_complete k hk := by
    have hnone : s.pubKeys k = none := by simpa using mt (attested.complete k) hk
    simp [hnone]
  proposed_nodup := proposed.nodup
  proposed_complete k hk := by
    have hnone : p.historicProposals k = none := by simpa using mt (proposed.complete k) hk
    rw [hnone]
    rfl

/-- The attestation that stands for the record of a key. -/
def attestationHistory (protection : Option Filesystem.ValidatorSlashingProtection) :
    List Attestation :=
  match protection with
  | none => []
  | some protection =>
    match protection.lastSignedAttestationTargetEpoch with
    | none => []
    | some target => [⟨protection.lastSignedAttestationSourceEpoch, target⟩]

def minimalSource (m : Filesystem.Store PubKey) (files : KeyList fun k => (m k).isSome) :
    SourceDatabase PubKey where
  attestedPublicKeys := files.keys.filter fun pubKey =>
    ((m pubKey).bind (·.lastSignedAttestationTargetEpoch)).isSome
  attestationHistoryForPubKey pubKey := attestationHistory (m pubKey)
  proposedPublicKeys := files.keys
  proposalHistoryForPubKey pubKey := ((m pubKey).bind (·.latestSignedBlockSlot)).toList
  attested_nodup := files.nodup.filter _
  attested_complete k hk := by
    unfold attestationHistory
    cases hm : m k with
    | none => rfl
    | some protection =>
      have hmem := files.complete k (by simp [hm])
      cases htarget : protection.lastSignedAttestationTargetEpoch with
      | none => simp [htarget]
      | some target => simp [hmem, hm, htarget] at hk
  proposed_nodup := files.nodup
  proposed_complete k hk := by
    have hnone : m k = none := by simpa using mt (files.complete k) hk
    simp [hnone]

section Targets

variable [DecidableEq PubKey]

def minimalTarget : TargetDatabase PubKey Filesystem.ProtectionError (Filesystem.Store PubKey) where
  saveAttestationForPubKey := Filesystem.saveAttestationForPubKey
  saveProposalHistoryForSlot := Filesystem.saveProposalHistoryForSlot

def zeroRoot : Root := rootOf 0

/-- The record of an attestation that is written with the zero signing root. -/
def zeroRecord (pubKey : PubKey) (att : Attestation) : KV.AttestationRecord PubKey where
  source := uint64 att.source
  target := uint64 att.target
  source_lt := uint64_lt _
  target_lt := uint64_lt _
  pubKey := pubKey
  signingRoot := zeroRoot.bytes

/-- The complete database as a target. Writing does not fail. -/
def completeTarget (cfg : BeaconChainConfig) :
    TargetDatabase PubKey KV.ProtectionError (KV.Store PubKey × KV.ProposalStore PubKey) where
  saveAttestationForPubKey db pubKey att :=
    .ok (KV.saveAttestationRecords db.1 [zeroRecord pubKey att], db.2)
  saveProposalHistoryForSlot db pubKey slot :=
    .ok (db.1, KV.saveProposalHistoryForSlot cfg db.2 pubKey slot [])

def completeToMinimal (s : KV.Store PubKey) (p : KV.ProposalStore PubKey)
    (attested : KeyList fun k => (s.pubKeys k).isSome)
    (proposed : KeyList fun k => (p.historicProposals k).isSome) :
    Except Filesystem.ProtectionError (Filesystem.Store PubKey) :=
  convertDatabase (completeSource s p attested proposed) minimalTarget fun _ => none

def minimalToComplete (cfg : BeaconChainConfig) (m : Filesystem.Store PubKey)
    (files : KeyList fun k => (m k).isSome) :
    Except KV.ProtectionError (KV.Store PubKey × KV.ProposalStore PubKey) :=
  convertDatabase (minimalSource m files) (completeTarget cfg)
    (KV.Store.new PubKey, KV.ProposalStore.new PubKey)

end Targets

section CompleteToMinimal

variable [DecidableEq PubKey] {source : SourceDatabase PubKey} {t : Filesystem.Store PubKey}

theorem record_of_convert (run : convertDatabase source minimalTarget (fun _ => none) = .ok t)
    (k : PubKey) :
    (∀ att, t.RefusesAttestation k att ↔ source.attestationHistoryForPubKey k ≠ [] ∧
      (att.source < (maxSourceTargetEpoch (source.attestationHistoryForPubKey k)).source ∨
        att.target ≤ (maxSourceTargetEpoch (source.attestationHistoryForPubKey k)).target)) ∧
    ∀ slot, t.RefusesBlock k slot ↔ source.proposalHistoryForPubKey k ≠ [] ∧
      slot ≤ (source.proposalHistoryForPubKey k).foldl max 0 := by
  have htk := part_of_convert (fun (db : Filesystem.Store PubKey) k => db k)
    (fun _ att x => some ((x.getD {}).withAttestation att))
    (fun slot x => some { x.getD {} with latestSignedBlockSlot := some slot })
    (fun hstep => ?_) (fun hstep => ?_) run k
  · simp only at htk
    by_cases ha : source.attestationHistoryForPubKey k = [] <;>
      by_cases hp : source.proposalHistoryForPubKey k = [] <;>
      simp [Filesystem.Store.RefusesAttestation, Filesystem.Store.RefusesBlock, htk, ha, hp,
        Filesystem.ValidatorSlashingProtection.withAttestation]
  · rw [Filesystem.saveAttestationForPubKey_ok hstep]
    exact ⟨update_self _ _ _, fun j hj => update_of_ne hj _ _⟩
  · rw [Filesystem.saveProposalHistoryForSlot_ok hstep]
    exact ⟨update_self _ _ _, fun j hj => update_of_ne hj _ _⟩

variable {s : KV.Store PubKey} {p : KV.ProposalStore PubKey}
  {attested : KeyList fun k => (s.pubKeys k).isSome}
  {proposed : KeyList fun k => (p.historicProposals k).isSome} {k : PubKey}
  {kept sources : List (KV.AttestationRecord PubKey)}

section

variable (h : Holds ((s.pubKeys k).getD {}) kept sources kept)

include h

omit [DecidableEq PubKey] in
theorem mem_attestationHistory {a : Attestation} :
    a ∈ (completeSource s p attested proposed).attestationHistoryForPubKey k ↔
      ∃ r ∈ sources, r.source = a.source ∧ r.target = a.target := by
  have hmem := @Indexes.mem_toList _ _ h.source (a.source, a.target)
  simp only [mem_map, Prod.mk.injEq] at hmem
  rw [← hmem]
  cases a
  simp [completeSource]

/-- The new database refuses what has a lower source, or no higher target, than an attestation in
the source epochs. -/
theorem refusesAttestation_iff (run : completeToMinimal s p attested proposed = .ok t)
    (att : Attestation) :
    t.RefusesAttestation k att ↔
      (∃ r ∈ sources, att.source < r.source) ∨ ∃ r ∈ sources, att.target ≤ r.target := by
  have hmem : ∀ a, a ∈ _ ↔ _ := fun a => @mem_attestationHistory _ s p attested proposed k _ _ h a
  rw [(record_of_convert run k).1]
  generalize (completeSource s p attested proposed).attestationHistoryForPubKey k = history at hmem
  have hsource : att.source < (maxSourceTargetEpoch history).source ↔
      ∃ r ∈ sources, att.source < r.source := by
    rw [(Filesystem.maxSourceTargetEpoch_bounds history att.source).1]
    constructor
    · rintro ⟨a, ha, hlt⟩
      obtain ⟨r, hr, hs, -⟩ := (hmem a).1 ha
      exact ⟨r, hr, hs ▸ hlt⟩
    · rintro ⟨r, hr, hlt⟩
      exact ⟨⟨r.source, r.target⟩, (hmem _).2 ⟨r, hr, rfl, rfl⟩, hlt⟩
  have htarget : history ≠ [] ∧ att.target ≤ (maxSourceTargetEpoch history).target ↔
      ∃ r ∈ sources, att.target ≤ r.target := by
    rw [(Filesystem.maxSourceTargetEpoch_bounds history att.target).2]
    constructor
    · rintro ⟨hne, hzero | ⟨a, ha, hle⟩⟩
      · obtain ⟨a, ha⟩ := exists_mem_of_ne_nil _ hne
        obtain ⟨r, hr, -⟩ := (hmem a).1 ha
        exact ⟨r, hr, by omega⟩
      · obtain ⟨r, hr, -, ht⟩ := (hmem a).1 ha
        exact ⟨r, hr, ht ▸ hle⟩
    · rintro ⟨r, hr, hle⟩
      have ha := (hmem ⟨r.source, r.target⟩).2 ⟨r, hr, rfl, rfl⟩
      exact ⟨ne_nil_of_mem ha, .inr ⟨_, ha, hle⟩⟩
  rw [and_or_left, htarget, hsource]
  refine or_congr_left (and_iff_right_of_imp ?_)
  rintro ⟨r, hr, -⟩
  exact ne_nil_of_mem ((hmem ⟨r.source, r.target⟩).2 ⟨r, hr, rfl, rfl⟩)

/-- Every slashable vote stays refused exactly if no attestation that is found by its target has a
higher target than all those in the source epochs. -/
theorem keeps_slashable_iff (run : completeToMinimal s p attested proposed = .ok t) :
    (∀ (att : IndexedAtt) (root : Root),
        KV.checkSlashableAttestation s k root.bytes att ≠ .ok () →
        t.RefusesAttestation k ⟨att.source, att.target⟩) ↔
      ∀ r ∈ kept, ∃ r' ∈ sources, r.target ≤ r'.target := by
  have hverdict : ∀ (att : IndexedAtt) (root : Root),
      KV.checkSlashableAttestation s k root.bytes att = .ok () ↔ _ := fun att root =>
    KV.checkSlashableAttestation_iff h.source h.target h.created rfl (h.get_root att.target_lt)
  constructor
  · intro hkeeps r hr
    -- A vote for the target of `r` with another root, whose source is the highest one.
    obtain ⟨existing, hlast⟩ : ∃ existing, KV.lastRoot kept r.target = some existing := by
      rw [← Option.ne_none_iff_exists', ne_eq, KV.lastRoot_eq_none]
      exact fun hnone => hnone r hr rfl
    obtain ⟨root, hroot⟩ : ∃ root : Root, existing ≠ root.bytes := by
      by_cases hzero : existing = (rootOf 0).bytes
      · exact ⟨rootOf 1, by rw [hzero]; decide⟩
      · exact ⟨rootOf 0, hzero⟩
    let att : IndexedAtt := ⟨⟨2 ^ 64 - 1, r.target⟩, by norm_num, r.target_lt⟩
    have hslashable : KV.checkSlashableAttestation s k root.bytes att ≠ .ok () := by
      rw [ne_eq, hverdict]
      exact fun hagrees => hroot (hagrees.1 existing hlast).2
    obtain ⟨r', hr', hlt⟩ | hle := (refusesAttestation_iff h run _).1 (hkeeps att root hslashable)
    · have hbound := r'.source_lt
      simp only [att] at hlt
      omega
    · exact hle
  · intro hcovered att root hslashable
    rw [refusesAttestation_iff h run]
    by_contra! hnot
    obtain ⟨hsources, htargets⟩ := hnot
    have hbelow : ∀ r ∈ kept, r.target < att.target := by
      intro r hr
      obtain ⟨r', hr', hle⟩ := hcovered r hr
      exact hle.trans_lt (htargets r' hr')
    refine hslashable ((hverdict att root).2 ⟨?_, fun r hr => ?_, fun r hr => ?_⟩)
    · have hnone : KV.lastRoot kept att.target = none :=
        KV.lastRoot_eq_none.2 fun r hr => (hbelow r hr).ne
      simp [KV.RootAgrees, hnone]
    · have hsource : r.source ≤ att.source := hsources r hr
      simp [KV.isSurround]
      omega
    · have htarget := hbelow r hr
      simp [KV.isSurround]
      omega

end

theorem keeps_blocks (run : completeToMinimal s p attested proposed = .ok t) {slot : Nat}
    (hslot : slot < 2 ^ 64) {root : Root}
    (hconflict : KV.conflicts (KV.proposalHistoryForSlot p k slot) root = true) :
    t.RefusesBlock k slot := by
  rw [(record_of_convert run k).2]
  have hmem : slot ∈ (completeSource s p attested proposed).proposalHistoryForPubKey k := by
    unfold KV.proposalHistoryForSlot at hconflict
    cases hbucket : p.historicProposals k with
    | none => simp [hbucket, KV.conflicts] at hconflict
    | some valBucket =>
      cases hget : valBucket[toWord slot]? with
      | none => simp [hbucket, hget, KV.conflicts] at hconflict
      | some sr =>
        refine mem_map.2 ⟨(toWord slot, sr), ?_, ofWord_toWord hslot⟩
        rw [hbucket]
        exact Std.TreeMap.mem_toList_iff_getElem?_eq_some.2 hget
  refine ⟨ne_nil_of_mem hmem, ?_⟩
  rw [foldl_eq_foldr]
  exact le_max_of_le' 0 hmem le_rfl

end CompleteToMinimal

section MinimalToComplete

variable [DecidableEq PubKey] {cfg : BeaconChainConfig} {source : SourceDatabase PubKey}
  {db : KV.Store PubKey × KV.ProposalStore PubKey}

structure KeyBuckets where
  pubKeys : Option KV.PubKeyBucket := none
  lowestSource : Option Bytes := none
  lowestTarget : Option Bytes := none
  historicProposals : Option Bucket := none
  lowestProposal : Option Bytes := none

def bucketsOf (db : KV.Store PubKey × KV.ProposalStore PubKey) (k : PubKey) : KeyBuckets where
  pubKeys := db.1.pubKeys k
  lowestSource := db.1.lowestSignedSource k
  lowestTarget := db.1.lowestSignedTarget k
  historicProposals := db.2.historicProposals k
  lowestProposal := db.2.lowestSignedProposals k

theorem buckets_of_convert (run : convertDatabase source (completeTarget cfg)
      (KV.Store.new PubKey, KV.ProposalStore.new PubKey) = .ok db) (k : PubKey) :
    (source.attestationHistoryForPubKey k ≠ [] →
      let att := zeroRecord k (maxSourceTargetEpoch (source.attestationHistoryForPubKey k))
      db.1.pubKeys k = some (KV.PubKeyBucket.save {} att) ∧
        db.1.lowestSignedSource k = some (toWord att.source) ∧
        db.1.lowestSignedTarget k = some (toWord att.target)) ∧
    (source.proposalHistoryForPubKey k ≠ [] →
      let slot := (source.proposalHistoryForPubKey k).foldl max 0
      db.2.historicProposals k = some (KV.pruneProposalHistoryBySlot cfg
          ((∅ : Bucket).insert (toWord slot) []) slot) ∧
        db.2.lowestSignedProposals k = some (toWord slot)) := by
  have hdb := part_of_convert bucketsOf
    (fun k att x =>
      { x with
        pubKeys := some ((x.pubKeys.getD {}).save (zeroRecord k att))
        lowestSource := KV.lowestAfter x.lowestSource (zeroRecord k att).source
        lowestTarget := KV.lowestAfter x.lowestTarget (zeroRecord k att).target })
    (fun slot x =>
      { x with
        historicProposals := some (KV.pruneProposalHistoryBySlot cfg
          ((x.historicProposals.getD ∅).insert (toWord slot) []) slot)
        lowestProposal := KV.lowestAfter x.lowestProposal slot })
    (fun hstep => ?_) (fun hstep => ?_) run k
  · simp only at hdb
    constructor
    · intro ha
      rw [if_neg ha] at hdb
      split_ifs at hdb
      all_goals
        rw [bucketsOf, KeyBuckets.mk.injEq] at hdb
        exact ⟨hdb.1, hdb.2.1, hdb.2.2.1⟩
    · intro hp
      rw [if_neg hp] at hdb
      split_ifs at hdb
      all_goals
        rw [bucketsOf, KeyBuckets.mk.injEq] at hdb
        exact ⟨hdb.2.2.2.1, hdb.2.2.2.2⟩
  · cases hstep
    refine ⟨?_, fun j hj => ?_⟩
    · simp [bucketsOf, KV.saveAttestationRecords, KV.saveAttestationRecord, zeroRecord]
    · simp [bucketsOf, KV.saveAttestationRecords, KV.saveAttestationRecord, zeroRecord, hj]
  · cases hstep
    refine ⟨?_, fun j hj => ?_⟩
    · simp [bucketsOf, KV.saveProposalHistoryForSlot]
    · simp [bucketsOf, KV.saveProposalHistoryForSlot, hj]

/-- The numbers of the records are `uint64`, and a source is only written with a target. -/
structure Written (m : Filesystem.Store PubKey) : Prop where
  source_lt : ∀ k protection, m k = some protection →
    protection.lastSignedAttestationSourceEpoch < 2 ^ 64
  target_lt : ∀ k protection target, m k = some protection →
    protection.lastSignedAttestationTargetEpoch = some target → target < 2 ^ 64
  slot_lt : ∀ k protection slot, m k = some protection →
    protection.latestSignedBlockSlot = some slot → slot < 2 ^ 64
  source_zero : ∀ k protection, m k = some protection →
    protection.lastSignedAttestationTargetEpoch = none →
      protection.lastSignedAttestationSourceEpoch = 0

variable {m : Filesystem.Store PubKey} {files : KeyList fun k => (m k).isSome} {k : PubKey}
  {root : Root}

theorem refuses_zeroRecord_iff {s : KV.Store PubKey} {r : KV.AttestationRecord PubKey}
    (hroot : r.signingRoot = zeroRoot.bytes) (hpk : s.pubKeys k = some (KV.PubKeyBucket.save {} r))
    (hsource : s.lowestSignedSource k = some (toWord r.source))
    (htarget : s.lowestSignedTarget k = some (toWord r.target)) (att : IndexedAtt) :
    KV.Refuses s att k root ↔ att.source < r.source ∨
      att.target ≤ r.target ∧ ¬ (att.target = r.target ∧ root = zeroRoot) := by
  have hholds : Holds ((s.pubKeys k).getD {}) [r] [r] [r] := by
    rw [hpk]
    exact Holds.empty.save r
  have hlast : KV.lastRoot [r] att.target =
      if r.target = att.target then some zeroRoot.bytes else none := by
    rw [← hroot]
    exact @KV.lastRoot_append _ [] r att.target
  have hcopied : KV.copied zeroRoot.bytes = zeroRoot.bytes := by decide
  have hrepeats : KV.Repeats s k att root ↔ att.target = r.target ∧ root = zeroRoot := by
    rw [KV.Repeats, hholds.signingRoot att.target_lt, hlast]
    split_ifs with ht
    · rw [Option.getD_some, hcopied, KV.signingRootsDiffer, zeroRoot.length_eq, KV.Root.ext_iff]
      simp [ht, @eq_comm _ zeroRoot.bytes]
    · simp [KV.copied, KV.signingRootsDiffer, Ne.symm ht]
  rw [KV.refuses_iff hholds, KV.BelowLowest, KV.lowestSignedSourceEpoch, hsource,
    KV.lowestSignedEpoch_toWord r.source_lt, KV.lowestSignedTargetEpoch, htarget,
    KV.lowestSignedEpoch_toWord r.target_lt, hrepeats, KV.RootAgrees, hlast]
  simp only [Option.some.injEq, exists_eq_left', mem_singleton, exists_eq_left]
  constructor
  · rintro ((hlt | ⟨hnew, hle⟩) | hroots | hsurround | hsurround)
    · exact .inl hlt
    · exact .inr ⟨hle, hnew⟩
    · by_cases ht : r.target = att.target
      · refine .inr ⟨ht.ge, fun hrepeat => hroots fun existing he => ?_⟩
        rw [if_pos ht] at he
        cases he
        exact ⟨by decide, by rw [hrepeat.2]⟩
      · exact absurd (fun existing he => by simp [ht] at he) hroots
    · simp only [KV.isSurround, Bool.and_eq_true, decide_eq_true_eq] at hsurround
      exact .inl hsurround.1
    · simp only [KV.isSurround, Bool.and_eq_true, decide_eq_true_eq] at hsurround
      exact .inr ⟨hsurround.2.le, fun hrepeat => hsurround.2.ne hrepeat.1⟩
  · rintro (hlt | ⟨hle, hnew⟩)
    · exact .inl (.inl hlt)
    · exact .inl (.inr ⟨hnew, hle⟩)

/-- Every vote that the record refuses stays refused, apart from one for its target with the zero
root and no lower source. -/
theorem keeps_votes_iff (hm : Written m) (run : minimalToComplete cfg m files = .ok db)
    {att : IndexedAtt} (hrefused : m.RefusesAttestation k ⟨att.source, att.target⟩) :
    KV.Refuses db.1 att k root ↔ ¬ ∃ protection, m k = some protection ∧
      protection.lastSignedAttestationTargetEpoch = some att.target ∧
      protection.lastSignedAttestationSourceEpoch ≤ att.source ∧ root = zeroRoot := by
  obtain ⟨protection, hprotection, hcase⟩ := hrefused
  simp only [hprotection, Option.some.injEq, exists_eq_left']
  cases htarget : protection.lastSignedAttestationTargetEpoch with
  | none =>
    rw [hm.source_zero k protection hprotection htarget, htarget] at hcase
    simp at hcase
  | some target =>
    have hsource := hm.source_lt k protection hprotection
    have htargetlt := hm.target_lt k protection target hprotection htarget
    have hhistory : (minimalSource m files).attestationHistoryForPubKey k =
        [⟨protection.lastSignedAttestationSourceEpoch, target⟩] := by
      simp [minimalSource, attestationHistory, hprotection, htarget]
    obtain ⟨hpk, hlows, hlowt⟩ := (buckets_of_convert run k).1 (by simp [hhistory])
    rw [refuses_zeroRecord_iff rfl hpk hlows hlowt]
    have hmax : maxSourceTargetEpoch [⟨protection.lastSignedAttestationSourceEpoch, target⟩] =
        ⟨protection.lastSignedAttestationSourceEpoch, target⟩ := by
      simp [maxSourceTargetEpoch]
    simp only [hhistory, hmax, zeroRecord, uint64_of_lt hsource, uint64_of_lt htargetlt]
    simp only [htarget, Option.some.injEq, exists_eq_left'] at hcase
    rw [Option.some.injEq]
    constructor
    · rintro (hlt | ⟨-, hnew⟩) ⟨ht, hle, hz⟩
      · exact absurd hlt (not_lt.2 hle)
      · exact hnew ⟨ht.symm, hz⟩
    · intro hnew
      by_cases hlt : att.source < protection.lastSignedAttestationSourceEpoch
      · exact .inl hlt
      · exact .inr ⟨hcase.resolve_left hlt, fun hrepeat =>
          hnew ⟨hrepeat.1.symm, not_lt.1 hlt, hrepeat.2⟩⟩

theorem keeps_refused_blocks (hm : Written m) (run : minimalToComplete cfg m files = .ok db)
    {slot : Nat} (hrefused : m.RefusesBlock k slot) :
    ∃ e, KV.checkProposal db.2 k slot root = .error e := by
  obtain ⟨protection, latest, hprotection, hlatest, hle⟩ := hrefused
  have hlt := hm.slot_lt k protection latest hprotection hlatest
  have hhistory : (minimalSource m files).proposalHistoryForPubKey k = [latest] := by
    simp [minimalSource, hprotection, hlatest]
  obtain ⟨hbucket, hlow⟩ := (buckets_of_convert run k).2 (by simp [hhistory])
  simp only [hhistory, foldl_cons, foldl_nil, Nat.zero_max] at hbucket hlow
  have hlowest : KV.lowestSignedProposal db.2 k = some latest := by
    rw [KV.lowestSignedProposal, hlow, KV.lowestSignedEpoch_toWord hlt]
  have herror : ∃ e, KV.checkLowestSlot (KV.lowestSignedProposal db.2 k)
      (KV.proposalHistoryForSlot db.2 k slot) slot root = .error e := by
    rw [hlowest]
    unfold KV.checkLowestSlot
    obtain hslot | rfl := hle.lt_or_eq
    · exact ⟨_, if_pos hslot⟩
    · have hconflict : KV.proposalHistoryForSlot db.2 k slot = none ∨
          KV.conflicts (KV.proposalHistoryForSlot db.2 k slot) root = true := by
        simp only [KV.proposalHistoryForSlot, hbucket, KV.pruneProposalHistoryBySlot]
        obtain hget | ⟨-, hget⟩ := getElem?_eraseWhile_cases ((∅ : Bucket).insert (toWord slot) [])
          (fun e => KV.prunable cfg slot (ofWord e)) (toWord slot)
        · right
          rw [hget]
          simp [KV.conflicts]
        · left
          rw [hget]
          rfl
      exact ⟨_, (if_neg (lt_irrefl slot)).trans (if_pos ⟨rfl, hconflict⟩)⟩
  obtain ⟨e, he⟩ := herror
  exact ⟨e, bind_eq_error.2 (.inl he)⟩

end MinimalToComplete

/-- What a conversion keeps, for a complete database whose buckets of the key hold `kept` by target
and `sources` by source, and for a minimal one. -/
theorem convertDatabase_keeps_refusals_iff [DecidableEq PubKey] {cfg : BeaconChainConfig}
    {k : PubKey} {s : KV.Store PubKey} {p : KV.ProposalStore PubKey}
    {attested : KeyList fun k => (s.pubKeys k).isSome}
    {proposed : KeyList fun k => (p.historicProposals k).isSome}
    {kept sources : List (KV.AttestationRecord PubKey)} {t : Filesystem.Store PubKey}
    (h : Holds ((s.pubKeys k).getD {}) kept sources kept)
    (toMinimal : completeToMinimal s p attested proposed = .ok t)
    {m : Filesystem.Store PubKey} {files : KeyList fun k => (m k).isSome}
    {db : KV.Store PubKey × KV.ProposalStore PubKey} (hm : Written m)
    (toComplete : minimalToComplete cfg m files = .ok db) :
    (((∀ (att : IndexedAtt) (root : Root),
          KV.checkSlashableAttestation s k root.bytes att ≠ .ok () →
          t.RefusesAttestation k ⟨att.source, att.target⟩) ↔
        ∀ r ∈ kept, ∃ r' ∈ sources, r.target ≤ r'.target) ∧
      ∀ slot < 2 ^ 64, ∀ root : Root,
        KV.conflicts (KV.proposalHistoryForSlot p k slot) root = true → t.RefusesBlock k slot) ∧
    (∀ (att : IndexedAtt) (root : Root), m.RefusesAttestation k ⟨att.source, att.target⟩ →
      (KV.Refuses db.1 att k root ↔ ¬ ∃ protection, m k = some protection ∧
        protection.lastSignedAttestationTargetEpoch = some att.target ∧
        protection.lastSignedAttestationSourceEpoch ≤ att.source ∧ root = zeroRoot)) ∧
    ∀ slot, ∀ root : Root, m.RefusesBlock k slot →
      ∃ e, KV.checkProposal db.2 k slot root = .error e :=
  ⟨⟨keeps_slashable_iff h toMinimal, fun _ hslot _ => keeps_blocks toMinimal hslot⟩,
    fun _ _ => keeps_votes_iff hm toComplete, fun _ _ => keeps_refused_blocks hm toComplete⟩

section Examples

open KV (voteThousand voteTenEleven farApart farApartStore farApart_holds exists_of_isOk)

def unitKeys (present : Unit → Prop) : KeyList present := ⟨[()], by simp, by simp⟩

/-- A minimal database with a vote from epoch 10 to epoch 11. -/
def tenElevenFile : Filesystem.Store Unit := fun _ => some
  { lastSignedAttestationSourceEpoch := 10, lastSignedAttestationTargetEpoch := some 11 }

theorem tenElevenFile_written : Written tenElevenFile where
  source_lt := by rintro _ _ ⟨⟩; decide
  target_lt := by rintro _ _ _ ⟨⟩ ⟨⟩; decide
  slot_lt := by rintro _ _ _ ⟨⟩ ⟨⟩
  source_zero := by rintro _ _ ⟨⟩ ⟨⟩

theorem convert_refuses_other_root :
    (∃ t, completeToMinimal farApartStore (.new Unit) (unitKeys _) (unitKeys _) = .ok t ∧
      ∀ (att : IndexedAtt) (root : Root),
        KV.checkSlashableAttestation farApartStore () root.bytes att ≠ .ok () →
        t.RefusesAttestation () ⟨att.source, att.target⟩) ∧
    ∃ db, minimalToComplete {} tenElevenFile (unitKeys _) = .ok db ∧
      KV.Refuses db.1 voteTenEleven () (rootOf 1) := by
  obtain ⟨t, ht⟩ : ∃ t, completeToMinimal farApartStore (.new Unit) (unitKeys _) (unitKeys _) =
    .ok t := exists_of_isOk (by decide +kernel)
  obtain ⟨db, hdb⟩ : ∃ db, minimalToComplete {} tenElevenFile (unitKeys _) = .ok db := ⟨_, rfl⟩
  have hkeeps := @convertDatabase_keeps_refusals_iff _ _ _ () _ _ _ _ _ _ _ farApart_holds ht _ _ _
    tenElevenFile_written hdb
  refine ⟨⟨t, ht, hkeeps.1.1.2 fun r hr => ⟨r, hr, le_rfl⟩⟩, db, hdb, ?_⟩
  refine (hkeeps.2.1 voteTenEleven (rootOf 1) ⟨_, rfl, .inr ⟨11, rfl, le_rfl⟩⟩).2 ?_
  rintro ⟨_, -, -, -, hroot⟩
  exact absurd (congrArg Root.bytes hroot) (by decide)

def surroundingVote : IndexedAtt where
  source := 0
  target := 10000

def surroundedVote : IndexedAtt where
  source := 5000
  target := 6000

/-- A vote that surrounds another one by more than the pruning period. The pruned database only
finds it by its target. -/
def crossedStore : KV.Store Unit :=
  KV.pruneAttestations 512 (fun _ => true) (KV.importStandardProtectionJSON
    [{ pubKey := ()
       signedAttestations := [some { surroundingVote with signingRoot := some (rootOf 0) },
         some { voteThousand with signingRoot := some (rootOf 0) }] }]
    (fun _ => true) (KV.Store.new Unit))

/-- A surrounded vote that the complete database refuses is accepted after the conversion, and so
is a second vote with the zero root that the minimal database refuses. -/
theorem convert_loses_refusals :
    (KV.checkSlashableAttestation crossedStore () (rootOf 0).bytes surroundedVote ≠ .ok () ∧
      ∃ t, completeToMinimal crossedStore (.new Unit) (unitKeys _) (unitKeys _) = .ok t ∧
        ∃ t', Filesystem.slashableAttestationCheck t () ⟨5000, 6000⟩ = .ok t') ∧
    (∃ e, Filesystem.slashableAttestationCheck tenElevenFile () ⟨10, 11⟩ = .error e) ∧
      ∃ db, minimalToComplete {} tenElevenFile (unitKeys _) = .ok db ∧
        ∃ s, KV.slashableAttestationCheck db.1 voteTenEleven () zeroRoot = .ok s := by
  refine ⟨⟨by decide +kernel, ?_⟩, ⟨_, rfl⟩, _, rfl, exists_of_isOk (by decide +kernel)⟩
  obtain ⟨t', ht'⟩ := exists_of_isOk (show (completeToMinimal crossedStore (.new Unit) (unitKeys _)
    (unitKeys _) >>= fun t => Filesystem.slashableAttestationCheck t () ⟨5000, 6000⟩).isOk = true by
      decide +kernel)
  obtain ⟨t, ht, hcheck⟩ := bind_eq_ok.1 ht'
  exact ⟨t, ht, t', hcheck⟩

end Examples

end LightChain.Convert

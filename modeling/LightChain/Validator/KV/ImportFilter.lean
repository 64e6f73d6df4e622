import LightChain.Validator.KV.ProposerProtection
import LightChain.Validator.KV.Pruning

/-!
# The keys an import blacklists

Both loops of the filter compare an entry with those before it. They pass a list exactly if its
entries agree pairwise, so the order of the entries of a key does not matter. Two blocks at one
slot agree for the filter also if the roots of both are missing. The entries of a blacklisted key
are written like all others.
-/
namespace LightChain.KV
open Library List

variable {PubKey : Type}

/-- Two blocks are not at one slot with different slices for their roots. -/
def SameRoot (a b : Proposal) : Prop := a.slot = b.slot → a.signingRoot = b.signingRoot

/-- Two blocks at one slot are known to have the same root. -/
def KnownSame (a b : Proposal) : Prop :=
  a.slot = b.slot → a.signingRoot = b.signingRoot ∧ a.signingRoot ≠ []

/-- Two attestations are no double vote, and neither surrounds the other. -/
def Compatible (a b : AttestationRecord PubKey) : Prop :=
  (a.target = b.target → a.signingRoot = b.signingRoot ∧ a.signingRoot ≠ []) ∧
    isSurround a.toAttestationData b.toAttestationData = false ∧
    isSurround b.toAttestationData a.toAttestationData = false

/-- The attestation is no double vote with the root stored for its target, and neither surrounds
nor is surrounded by a stored attestation. -/
def AgreesStored (roots sources targets : List (AttestationRecord PubKey))
    (att : AttestationRecord PubKey) : Prop :=
  RootAgrees roots att.target att.signingRoot ∧
    (∀ r ∈ sources, isSurround att.toAttestationData r.toAttestationData = false) ∧
    ∀ r ∈ targets, isSurround r.toAttestationData att.toAttestationData = false

/-- The entries of a key are not slashable among each other and with the stored attestations, if
`same` is the test for two blocks. -/
structure Unslashable (same : Proposal → Proposal → Prop) (blocks : List Proposal)
    (atts roots sources targets : List (AttestationRecord PubKey)) : Prop where
  sameRoots : blocks.Pairwise same
  compatible : atts.Pairwise Compatible
  agreesStored : ∀ att ∈ atts, AgreesStored roots sources targets att

theorem SameRoot.symm {a b : Proposal} (h : SameRoot a b) : SameRoot b a :=
  fun hslot => (h hslot.symm).symm

theorem Compatible.symm {a b : AttestationRecord PubKey} (h : Compatible a b) :
    Compatible b a := by
  refine ⟨fun ht => ?_, h.2.2, h.2.1⟩
  obtain ⟨hroot, hne⟩ := h.1 ht.symm
  exact ⟨hroot.symm, hroot ▸ hne⟩

theorem blocksSlashable_eq_false (seen : Nat → Option Bytes) (blocks : List Proposal) :
    blocksSlashable seen blocks = false ↔
      (∀ b ∈ blocks, ∀ root, seen b.slot = some root → root = b.signingRoot) ∧
        blocks.Pairwise SameRoot := by
  induction blocks generalizing seen with
  | nil => simp [blocksSlashable]
  | cons blk rest ih =>
    rw [blocksSlashable, Bool.or_eq_false_iff, ih, pairwise_cons, forall_mem_cons]
    refine (and_congr (c := ∀ root, seen blk.slot = some root → root = blk.signingRoot) ?_
      Iff.rfl).trans ?_
    · cases seen blk.slot <;> simp
    simp only [Function.update_apply]
    constructor
    · rintro ⟨hblk, hrest, hpair⟩
      refine ⟨⟨hblk, fun b hb root hroot => ?_⟩, fun b hb hslot => ?_, hpair⟩
      · by_cases hslot : b.slot = blk.slot
        · rw [hslot] at hroot
          rw [hblk root hroot, hrest b hb blk.signingRoot (if_pos hslot)]
        · exact hrest b hb root (by rw [if_neg hslot, hroot])
      · exact hrest b hb blk.signingRoot (if_pos hslot.symm)
    · rintro ⟨⟨hblk, hrest⟩, hsame, hpair⟩
      refine ⟨hblk, fun b hb root hroot => ?_, hpair⟩
      split_ifs at hroot with hslot
      · cases hroot
        exact hsame b hb hslot.symm
      · exact hrest b hb root hroot

variable {read : List (AttestationRecord PubKey)}

theorem lastRoot_of_compatible (h : read.Pairwise Compatible) {r : AttestationRecord PubKey}
    (hr : r ∈ read) : lastRoot read r.target = some r.signingRoot := by
  induction read using List.reverseRecOn with
  | nil => cases hr
  | append_singleton read att ih =>
    obtain ⟨hread, -, hatt⟩ := pairwise_append.1 h
    rw [lastRoot_append]
    rcases mem_append.1 hr with hr | hr
    · split_ifs with ht
      · rw [((hatt r hr att (by simp)).1 ht.symm).1]
      · exact ih hread hr
    · obtain rfl := mem_singleton.1 hr
      rw [if_pos rfl]

theorem compatible_iff (h : read.Pairwise Compatible) (att : AttestationRecord PubKey) :
    (∀ r ∈ read, Compatible r att) ↔ RootAgrees read att.target att.signingRoot ∧
      ∀ r ∈ read, isSurround r.toAttestationData att.toAttestationData = false ∧
        isSurround att.toAttestationData r.toAttestationData = false := by
  constructor
  · intro hall
    refine ⟨fun existing hlast => ?_, fun r hr => (hall r hr).2⟩
    obtain ⟨r, hfind, rfl⟩ := Option.map_eq_some_iff.1 hlast
    have hr := mem_reverse.1 (mem_of_find?_eq_some hfind)
    have htarget : r.target = att.target := by simpa using find?_some hfind
    obtain ⟨hroot, hne⟩ := (hall r hr).1 htarget
    exact ⟨hne, hroot⟩
  · rintro ⟨hroot, hsurround⟩ r hr
    refine ⟨fun htarget => ?_, hsurround r hr⟩
    obtain ⟨hne, heq⟩ := hroot r.signingRoot (htarget ▸ lastRoot_of_compatible h hr)
    exact ⟨heq, hne⟩

/-- The invariant is that the map of roots and the seen pairs are those of the attestations read
so far, which are compatible. -/
theorem attestationsSlashable_eq_false {read atts : List (AttestationRecord PubKey)}
    (hread : read.Pairwise Compatible) :
    attestationsSlashable (lastRoot read) (read.map (·.toAttestationData)) atts = false ↔
      (read ++ atts).Pairwise Compatible := by
  induction atts generalizing read with
  | nil => simpa [attestationsSlashable] using hread
  | cons att rest ih =>
    have hsurround : (read.map (·.toAttestationData)).any (fun a =>
          isSurround a att.toAttestationData || isSurround att.toAttestationData a) = false ↔
        ∀ r ∈ read, isSurround r.toAttestationData att.toAttestationData = false ∧
          isSurround att.toAttestationData r.toAttestationData = false := by
      simp
    have hround := (compatible_iff hread att).symm
    rw [attestationsSlashable, Bool.or_eq_false_iff, Bool.or_eq_false_iff]
    refine (and_congr ((and_congr ?_ hsurround).trans hround) Iff.rfl).trans ?_
    · unfold RootAgrees
      cases lastRoot read att.target <;> simp [signingRootsDiffer]
    have hseen : read.map (·.toAttestationData) ++ [att.toAttestationData] =
        (read ++ [att]).map (·.toAttestationData) := by simp
    rw [update_lastRoot, hseen]
    constructor
    · rintro ⟨hall, hrest⟩
      have hnext : (read ++ [att]).Pairwise Compatible :=
        pairwise_append.2 ⟨hread, pairwise_singleton _ _, by simpa using hall⟩
      simpa using (ih hnext).1 hrest
    · intro hpair
      have hpair' : ((read ++ [att]) ++ rest).Pairwise Compatible := by simpa using hpair
      have hnext := (pairwise_append.1 hpair').1
      refine ⟨?_, (ih hnext).2 hpair'⟩
      simpa using (pairwise_append.1 hnext).2.2

theorem unslashable_sameRoot_perm {blocks blocks' : List Proposal}
    {atts atts' roots sources targets : List (AttestationRecord PubKey)}
    (hblocks : blocks.Perm blocks') (hatts : atts.Perm atts') :
    Unslashable SameRoot blocks atts roots sources targets ↔
      Unslashable SameRoot blocks' atts' roots sources targets := by
  have hb := hblocks.pairwise_iff (R := SameRoot) SameRoot.symm
  have ha := hatts.pairwise_iff (R := Compatible) Compatible.symm
  constructor
  · rintro ⟨h1, h2, h3⟩
    exact ⟨hb.1 h1, ha.1 h2, fun att hatt => h3 att (hatts.mem_iff.2 hatt)⟩
  · rintro ⟨h1, h2, h3⟩
    exact ⟨hb.2 h1, ha.2 h2, fun att hatt => h3 att (hatts.mem_iff.1 hatt)⟩

section Blacklist

variable [DecidableEq PubKey] {cfg : BeaconChainConfig} {s : Store PubKey}
  {data : List (ProtectionData PubKey)} {pubKey : PubKey}
  {roots sources targets : List (AttestationRecord PubKey)}

/-- The keys that an import blacklists. -/
def importBlacklist (s : Store PubKey) (data : List (ProtectionData PubKey)) : List PubKey :=
  filterSlashablePubKeysFromBlocks (pubKeysOf data) (proposalHistoryByPubKey data) ++
    filterSlashablePubKeysFromAttestations s (pubKeysOf data) (attestingHistoryByPubKey data)

def saveProposals (cfg : BeaconChainConfig) (data : List (ProtectionData PubKey))
    (s : ProposalStore PubKey) : ProposalStore PubKey :=
  (pubKeysOf data).foldl (fun s pubKey =>
    (proposalHistoryByPubKey data pubKey).foldl (fun s proposal =>
      saveProposalHistoryForSlot cfg s pubKey proposal.slot proposal.signingRoot) s) s

/-- The import saves nothing for the key, whatever the buckets hold. -/
def NothingSaved (cfg : BeaconChainConfig) (data : List (ProtectionData PubKey))
    (pubKey : PubKey) : Prop :=
  (∀ s : ProposalStore PubKey,
      (saveProposals cfg data s).historicProposals pubKey = s.historicProposals pubKey) ∧
    ∀ s : Store PubKey, (importStandardProtectionJSON data (fun _ => true) s).pubKeys pubKey =
      s.pubKeys pubKey

theorem mem_pubKeysOf_of_blocks (h : proposalHistoryByPubKey data pubKey ≠ []) :
    pubKey ∈ pubKeysOf data := by
  contrapose! h
  simp only [pubKeysOf, mem_dedup, mem_map, not_exists, not_and] at h
  simp only [proposalHistoryByPubKey, transformSignedBlocks, parseBlocksForUniquePublicKeys,
    map_eq_nil_iff, flatMap_eq_nil_iff]
  exact fun d hd => if_neg (h d hd)

theorem mem_pubKeysOf_of_atts (h : attestingHistoryByPubKey data pubKey ≠ []) :
    pubKey ∈ pubKeysOf data := by
  contrapose! h
  simp only [pubKeysOf, mem_dedup, mem_map, not_exists, not_and] at h
  simp only [attestingHistoryByPubKey, transformSignedAttestations,
    parseAttestationsForUniquePublicKeys, map_eq_nil_iff, flatMap_eq_nil_iff]
  exact fun d hd => if_neg (h d hd)

theorem mem_importBlacklist_iff
    (h : Holds ((s.pubKeys pubKey).getD {}) roots sources targets) :
    pubKey ∈ importBlacklist s data ↔
      ¬ Unslashable SameRoot (proposalHistoryByPubKey data pubKey)
        (attestingHistoryByPubKey data pubKey) roots sources targets := by
  have hblocks := blocksSlashable_eq_false (fun _ => none) (proposalHistoryByPubKey data pubKey)
  have hatts := @attestationsSlashable_eq_false _ [] (attestingHistoryByPubKey data pubKey) .nil
  have hstored : slashableInDatabase s (attestingHistoryByPubKey data pubKey) = false ↔
      ∀ att ∈ attestingHistoryByPubKey data pubKey, AgreesStored roots sources targets att := by
    rw [slashableInDatabase_eq_false]
    refine forall₂_congr fun att hatt => ?_
    rw [pubKey_of_mem_history hatt]
    exact checkSlashableAttestation_iff h.source h.target h.created rfl (h.get_root att.target_lt)
  simp only [reduceCtorEq, false_implies, implies_true, true_and] at hblocks
  have hunslashable : Unslashable SameRoot (proposalHistoryByPubKey data pubKey)
      (attestingHistoryByPubKey data pubKey) roots sources targets ↔
      blocksSlashable (fun _ => none) (proposalHistoryByPubKey data pubKey) = false ∧
      attestationsSlashable (fun _ => none) [] (attestingHistoryByPubKey data pubKey) = false ∧
      slashableInDatabase s (attestingHistoryByPubKey data pubKey) = false := by
    rw [hblocks, hstored]
    exact ⟨fun hu => ⟨hu.1, hatts.2 hu.2, hu.3⟩, fun hu => ⟨hu.1, hatts.1 hu.2.1, hu.2.2⟩⟩
  rw [hunslashable]
  simp only [importBlacklist, filterSlashablePubKeysFromBlocks,
    filterSlashablePubKeysFromAttestations, mem_append, mem_filter]
  constructor
  · rintro (⟨-, hb⟩ | ⟨-, ha⟩ | ⟨-, hd⟩) ⟨hb', ha', hd'⟩
    · simp [hb] at hb'
    · simp [ha] at ha'
    · simp [hd] at hd'
  · intro hnot
    by_cases hb : blocksSlashable (fun _ => none) (proposalHistoryByPubKey data pubKey) = true
    · refine .inl ⟨mem_pubKeysOf_of_blocks fun hnil => ?_, hb⟩
      simp [hnil, blocksSlashable] at hb
    · have hkey : pubKey ∈ pubKeysOf data := by
        refine mem_pubKeysOf_of_atts fun hnil => hnot ⟨by simpa using hb, ?_, ?_⟩
        · simp [hnil, attestationsSlashable]
        · simp [hnil, slashableInDatabase]
      simp only [Bool.not_eq_true] at hb
      simp only [hb, true_and, not_and_or, Bool.not_eq_false] at hnot
      exact .inr (hnot.imp (⟨hkey, ·⟩) (⟨hkey, ·⟩))

theorem historicProposals_foldl_isSome (s : ProposalStore PubKey) (k : PubKey)
    (proposals : List Proposal) :
    ((proposals.foldl (fun s proposal =>
        saveProposalHistoryForSlot cfg s k proposal.slot proposal.signingRoot) s).historicProposals
      pubKey).isSome ↔
      (s.historicProposals pubKey).isSome ∨ k = pubKey ∧ proposals ≠ [] := by
  induction proposals generalizing s with
  | nil => simp
  | cons proposal rest ih =>
    rw [foldl_cons, ih]
    by_cases hk : k = pubKey
    · simp [saveProposalHistoryForSlot, hk]
    · simp [saveProposalHistoryForSlot, hk, Function.update_of_ne (Ne.symm hk)]

/-- The bucket of a key exists after the blocks were saved if it did before or one of them has
this key. -/
theorem historicProposals_saveProposals_isSome (s : ProposalStore PubKey)
    (h : proposalHistoryByPubKey data pubKey ≠ []) :
    ((saveProposals cfg data s).historicProposals pubKey).isSome := by
  have hfold : ∀ (keys : List PubKey) (s : ProposalStore PubKey),
      (s.historicProposals pubKey).isSome ∨ pubKey ∈ keys →
      ((keys.foldl (fun s pubKey => (proposalHistoryByPubKey data pubKey).foldl (fun s proposal =>
        saveProposalHistoryForSlot cfg s pubKey proposal.slot proposal.signingRoot) s)
        s).historicProposals pubKey).isSome := by
    intro keys
    induction keys with
    | nil => simp
    | cons k keys ih =>
      intro s hs
      refine ih _ ?_
      rw [historicProposals_foldl_isSome]
      rcases hs with hs | hmem
      · exact .inl (.inl hs)
      · rcases mem_cons.1 hmem with rfl | hmem
        · exact .inl (.inr ⟨rfl, h⟩)
        · exact .inr hmem
  exact hfold _ s (.inr (mem_pubKeysOf_of_blocks h))

theorem NothingSaved.eq_nil (h : NothingSaved cfg data pubKey) :
    proposalHistoryByPubKey data pubKey = [] ∧ attestingHistoryByPubKey data pubKey = [] := by
  constructor
  · by_contra hne
    have hsome : ((saveProposals cfg data (.new PubKey)).historicProposals pubKey).isSome :=
      historicProposals_saveProposals_isSome _ hne
    rw [h.1] at hsome
    simp [ProposalStore.new] at hsome
  · by_contra hne
    have hrepresents : Represents (importStandardProtectionJSON data (fun _ => true) (.new PubKey))
        ([] ++ imported data fun _ => true) := Represents.new.importJSON
    have hrecords := hrepresents pubKey
    rw [h.2, nil_append, ofKey_imported,
      if_pos ⟨mem_pubKeysOf_of_atts hne, rfl⟩] at hrecords
    exact hne (map_eq_nil_iff.1 hrecords.sources.eq_nil_of_empty)

variable (cfg s data pubKey) in
/-- The blacklist in full: which keys are on it, that the order of the entries of a key does not
matter, and that the import blacklists a key and saves nothing for it exactly if it is slashable
only in the case that it is not. -/
theorem blacklisted_unsaved_iff_slashable
    (h : Holds ((s.pubKeys pubKey).getD {}) roots sources targets) :
    ((importStandardProtectionJSON data (fun _ => true) s).slashablePublicKeys pubKey =
        (s.slashablePublicKeys pubKey || decide (pubKey ∈ importBlacklist s data))) ∧
    (pubKey ∈ importBlacklist s data ↔
      ¬ Unslashable SameRoot (proposalHistoryByPubKey data pubKey)
        (attestingHistoryByPubKey data pubKey) roots sources targets) ∧
    (∀ data', (proposalHistoryByPubKey data pubKey).Perm (proposalHistoryByPubKey data' pubKey) →
      (attestingHistoryByPubKey data pubKey).Perm (attestingHistoryByPubKey data' pubKey) →
      (pubKey ∈ importBlacklist s data ↔ pubKey ∈ importBlacklist s data')) ∧
    ((pubKey ∈ importBlacklist s data ∧ NothingSaved cfg data pubKey ↔
        ¬ Unslashable KnownSame (proposalHistoryByPubKey data pubKey)
          (attestingHistoryByPubKey data pubKey) roots sources targets) ↔
      Unslashable KnownSame (proposalHistoryByPubKey data pubKey)
        (attestingHistoryByPubKey data pubKey) roots sources targets) := by
  refine ⟨?_, mem_importBlacklist_iff h, fun data' hblocks hatts => ?_, ?_⟩
  · rw [importStandardProtectionJSON, saveAttestations_eq, slashablePublicKeys_save]
    rfl
  · rw [mem_importBlacklist_iff h, mem_importBlacklist_iff h,
      unslashable_sameRoot_perm hblocks hatts]
  · have hunsaved : ¬ (pubKey ∈ importBlacklist s data ∧ NothingSaved cfg data pubKey) := by
      rintro ⟨hmem, hnothing⟩
      obtain ⟨hblocks, hatts⟩ := hnothing.eq_nil
      rw [mem_importBlacklist_iff h, hblocks, hatts] at hmem
      exact hmem ⟨.nil, .nil, by simp⟩
    rw [iff_false_left hunsaved, not_not]

end Blacklist

/-- Two blocks at one slot whose roots are missing. -/
def rootlessBlocks : List (ProtectionData Unit) :=
  [{ pubKey := (), signedBlocks := [some { slot := 5 }, some { slot := 5 }] }]

/-- Two votes for one target with different roots. -/
def doubleVotes : List (ProtectionData Unit) :=
  [{ pubKey := ()
     signedAttestations := [some { voteOneTwo with signingRoot := some (rootOf 0) },
       some { voteOneTwo with signingRoot := some (rootOf 1) }] }]

theorem doubleVotes_blacklisted :
    () ∈ importBlacklist (Store.new Unit) doubleVotes ↔
      ¬ Unslashable SameRoot (proposalHistoryByPubKey doubleVotes ())
        (attestingHistoryByPubKey doubleVotes ()) [] [] [] :=
  (blacklisted_unsaved_iff_slashable {} (Store.new Unit) doubleVotes () Holds.empty).2.1

/-- The blocks without roots are not blacklisted, and the two votes are saved. -/
theorem slashable_not_blacklisted_or_saved :
    (¬ Unslashable KnownSame (proposalHistoryByPubKey rootlessBlocks ())
        (attestingHistoryByPubKey rootlessBlocks ()) [] [] [] ∧
      () ∉ importBlacklist (Store.new Unit) rootlessBlocks) ∧
    () ∈ importBlacklist (Store.new Unit) doubleVotes ∧ ¬ NothingSaved {} doubleVotes () := by
  refine ⟨⟨fun h => ?_, by decide +kernel⟩, by decide +kernel, fun h => ?_⟩
  · have hpair : [⟨5, []⟩, ⟨5, []⟩].Pairwise KnownSame := h.sameRoots
    exact (rel_of_pairwise_cons hpair (mem_singleton_self _) rfl).2 rfl
  · have hnil := h.eq_nil.2
    simp [attestingHistoryByPubKey, parseAttestationsForUniquePublicKeys, doubleVotes,
      transformSignedAttestations] at hnil

end LightChain.KV

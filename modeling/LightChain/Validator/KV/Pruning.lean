import LightChain.Validator.KV.Safety

/-!
# Pruning old attestations

`PruneAttestations` deletes the old entries of each of the three buckets of a key, where the
age is relative to the highest epoch in the bucket itself. The lowest signed epochs stay as
they are. After a prune the buckets need not agree with each other, so `Holds` has a list of
attestations for each of them. `refuses_iff` is the verdict of the check over such a content,
and the effect of pruning is the verdict over the shorter lists.
-/
namespace LightChain.KV
open Library List

section Prune

variable {PubKey : Type}

def pruningEpochCutoff (pruningEpochs epoch : Nat) : Nat :=
  if pruningEpochs < epoch then epoch - pruningEpochs else 0

def pruneBucket (pruningEpochs : Nat) (b : Bucket) : Bucket :=
  let upperBounds := pruningEpochCutoff pruningEpochs (lastWord b)
  eraseWhile b fun k => ofWord k < upperBounds

def PubKeyBucket.prune (pruningEpochs : Nat) (pkBucket : PubKeyBucket) : PubKeyBucket where
  signingRoots := pkBucket.signingRoots.map (pruneBucket pruningEpochs)
  sourceEpochs := pkBucket.sourceEpochs.map (pruneBucket pruningEpochs)
  targetEpochs := pkBucket.targetEpochs.map (pruneBucket pruningEpochs)

/-- Each key is pruned in a transaction of its own. The loop ends at the first transaction
that fails, and it reads the keys from pages that earlier transactions may have released, so
that `reached` can be any set of keys. -/
def pruneAttestations (pruningEpochs : Nat) (reached : PubKey → Bool) (s : Store PubKey) :
    Store PubKey :=
  { s with pubKeys := fun k =>
      if reached k then (s.pubKeys k).map (·.prune pruningEpochs) else s.pubKeys k }

end Prune

section Holds

variable {PubKey : Type} {pkBucket : PubKeyBucket}
  {roots sources targets : List (AttestationRecord PubKey)}

/-- The buckets of a key hold the signing roots, the source epochs and the target epochs of
three lists of attestations. -/
structure Holds (pkBucket : PubKeyBucket)
    (roots sources targets : List (AttestationRecord PubKey)) : Prop where
  root : ∀ k v, (pkBucket.signingRoots.getD ∅)[k]? = some v ↔
    ∃ target < 2 ^ 64, k = toWord target ∧ lastRoot roots target = some v
  source : Indexes (pkBucket.sourceEpochs.getD ∅) (sources.map fun r => (r.source, r.target))
  target : Indexes (pkBucket.targetEpochs.getD ∅) (targets.map fun r => (r.target, r.source))
  created : pkBucket.sourceEpochs = none → targets = []

theorem Holds.empty : Holds {} ([] : List (AttestationRecord PubKey)) [] [] :=
  ⟨by simp [lastRoot], Indexes.empty, Indexes.empty, fun _ => rfl⟩

theorem Holds.get_root (h : Holds pkBucket roots sources targets) {target : Nat}
    (ht : target < 2 ^ 64) :
    (pkBucket.signingRoots.getD ∅)[toWord target]? = lastRoot roots target := by
  ext v
  rw [h.root]
  constructor
  · rintro ⟨target', ht', hk, hv⟩
    rwa [(toWord_inj ht ht').1 hk]
  · exact fun hv => ⟨target, ht, rfl, hv⟩

theorem Holds.save (h : Holds pkBucket roots sources targets) (att : AttestationRecord PubKey) :
    Holds (pkBucket.save att) (roots ++ [att]) (sources ++ [att]) (targets ++ [att]) := by
  refine ⟨fun k v => ?_, ?_, ?_, nofun⟩
  · have hcmp : compare (toWord att.target) k = .eq ↔ toWord att.target = k :=
      Std.LawfulEqCmp.compare_eq_iff_eq
    simp only [PubKeyBucket.save, Option.getD_some, Std.TreeMap.getElem?_insert, lastRoot_append,
      hcmp]
    split_ifs with hk
    · subst hk
      constructor
      · rintro ⟨⟩
        exact ⟨att.target, att.target_lt, rfl, if_pos rfl⟩
      · rintro ⟨target, ht, hk, hv⟩
        rwa [if_pos ((toWord_inj att.target_lt ht).1 hk)] at hv
    · rw [h.root]
      refine exists_congr fun target => and_congr_right fun ht => and_congr_right fun hkt => ?_
      rw [if_neg]
      rintro rfl
      exact hk hkt.symm
  · simpa [PubKeyBucket.save] using h.source.append att.source_lt att.target_lt
  · simpa [PubKeyBucket.save] using h.target.append att.target_lt att.source_lt

/-- The epochs below this one are deleted from a bucket with the given keys. -/
def cutoff (pruningEpochs : Nat) (epochs : List Nat) : Nat :=
  pruningEpochCutoff pruningEpochs (greatest epochs)

theorem lastRoot_filter (past : List (AttestationRecord PubKey)) (bound target : Nat) :
    lastRoot (past.filter fun r => bound ≤ r.target) target =
      if bound ≤ target then lastRoot past target else none := by
  induction past using List.reverseRecOn with
  | nil => simp [lastRoot]
  | append_singleton past r ih =>
    rw [filter_append, lastRoot_append]
    by_cases hr : bound ≤ r.target
    · rw [filter_cons_of_pos (by simpa using hr), filter_nil, lastRoot_append, ih]
      split_ifs with hrt hbt
      · rfl
      · exact absurd (hrt ▸ hr) hbt
      · rfl
      · rfl
    · rw [filter_cons_of_neg (by simpa using hr), filter_nil, append_nil, ih]
      split_ifs with hbt hrt
      · exact absurd (hrt.symm ▸ hbt) hr
      · rfl
      · rfl

section

variable (h : Holds pkBucket roots sources targets)

include h

theorem Holds.wordKeys :
    WordKeys (pkBucket.signingRoots.getD ∅) := fun k v hv => by
  obtain ⟨target, ht, hk, -⟩ := (h.root k v).1 hv
  exact ⟨target, ht, hk⟩

theorem Holds.lastWord_roots :
    lastWord (pkBucket.signingRoots.getD ∅) = greatest (roots.map (·.target)) := by
  refine h.wordKeys.lastWord_eq (fun target ht => ?_) fun target hmem => ?_
  · rw [h.get_root ht, ← Option.ne_none_iff_isSome, ne_eq, lastRoot_eq_none]
    simp
  · obtain ⟨r, -, rfl⟩ := mem_map.1 hmem
    exact r.target_lt

/-- Pruning deletes the old attestations of each list. -/
theorem Holds.prune (pruningEpochs : Nat) :
    Holds (pkBucket.prune pruningEpochs)
      (roots.filter fun r => cutoff pruningEpochs (roots.map (·.target)) ≤ r.target)
      (sources.filter fun r => cutoff pruningEpochs (sources.map (·.source)) ≤ r.source)
      (targets.filter fun r => cutoff pruningEpochs (targets.map (·.target)) ≤ r.target) := by
  -- A bucket that was not created is not created by pruning either.
  have hmap : ∀ b : Option Bucket, (b.map (pruneBucket pruningEpochs)).getD ∅ =
      pruneBucket pruningEpochs (b.getD ∅) := by
    rintro (_ | b)
    · rfl
    · rfl
  refine ⟨fun k v => ?_, ?_, ?_, fun hnone => ?_⟩
  · rw [PubKeyBucket.prune, hmap, pruneBucket, h.wordKeys.getElem?_eraseWhile, h.lastWord_roots,
      ← cutoff]
    simp only [lastRoot_filter]
    constructor
    · intro hv
      split_ifs at hv with hlt
      obtain ⟨target, ht, hk, hv⟩ := (h.root k v).1 hv
      rw [hk, ofWord_toWord ht] at hlt
      exact ⟨target, ht, hk, by rwa [if_pos (not_lt.1 hlt)]⟩
    · rintro ⟨target, ht, hk, hv⟩
      split_ifs at hv with hle
      rw [hk, ofWord_toWord ht, if_neg (not_lt.2 hle), ← hk]
      exact (h.root k v).2 ⟨target, ht, hk, hv⟩
  · have hprune := h.source.eraseWhile (cutoff pruningEpochs (sources.map (·.source)))
    rw [filter_map] at hprune
    rw [PubKeyBucket.prune, hmap, pruneBucket, h.source.lastWord_eq, map_map]
    exact hprune
  · have hprune := h.target.eraseWhile (cutoff pruningEpochs (targets.map (·.target)))
    rw [filter_map] at hprune
    rw [PubKeyBucket.prune, hmap, pruneBucket, h.target.lastWord_eq, map_map]
    exact hprune
  · rw [h.created (Option.map_eq_none_iff.1 hnone)]
    rfl

end

end Holds

section Verdict

variable {PubKey : Type} [DecidableEq PubKey] {s : Store PubKey} {pubKey : PubKey}
  {roots sources targets : List (AttestationRecord PubKey)} {att : IndexedAtt} {root : Root}

def Refuses (s : Store PubKey) (att : IndexedAtt) (pubKey : PubKey) (root : Root) : Prop :=
  ∀ s', slashableAttestationCheck s att pubKey root ≠ .ok s'

def IsSlashableWith (r : AttestationRecord PubKey) (att : IndexedAtt) (root : Root) : Prop :=
  IsDoubleVote r att root ∨ isSurround r.toAttestationData att.toAttestationData = true ∨
    isSurround att.toAttestationData r.toAttestationData = true

/-- The source is below the lowest signed source, or the target is not above the lowest signed
target and the attestation does not repeat one. -/
def BelowLowest (s : Store PubKey) (pubKey : PubKey) (att : IndexedAtt) (repeats : Prop) : Prop :=
  (∃ lowest, lowestSignedSourceEpoch s pubKey = some lowest ∧ att.source < lowest) ∨
    ¬ repeats ∧ ∃ lowest, lowestSignedTargetEpoch s pubKey = some lowest ∧ att.target ≤ lowest

/-- The attestation has the signing root that is stored for its target. -/
def Repeats (s : Store PubKey) (pubKey : PubKey) (att : IndexedAtt) (root : Root) : Prop :=
  signingRootsDiffer (signingRootAtTargetEpoch s pubKey att.target) root.bytes = false

omit [DecidableEq PubKey] in
theorem checkLowest_eq_ok : checkLowest s pubKey root.bytes att = .ok () ↔
    ¬ BelowLowest s pubKey att (Repeats s pubKey att root) := by
  unfold checkLowest BelowLowest Repeats
  generalize signingRootsDiffer (signingRootAtTargetEpoch s pubKey att.target) root.bytes = differ
  rcases lowestSignedSourceEpoch s pubKey with _ | source <;>
    rcases lowestSignedTargetEpoch s pubKey with _ | target <;> cases differ <;>
    simp [throw_if_eq_ok]
  -- Both bounds are tested, the target only if the source passes.
  by_cases hsource : att.source < source
  · simp [hsource, bind_eq_ok]
  · simp [hsource, not_lt.1 hsource, throw_if_eq_ok]

variable {pruningEpochs : Nat} {reached : PubKey → Bool}

omit [DecidableEq PubKey] in
theorem getD_pruneAttestations (hreached : reached pubKey) :
    ((pruneAttestations pruningEpochs reached s).pubKeys pubKey).getD {} =
      ((s.pubKeys pubKey).getD {}).prune pruningEpochs := by
  rw [pruneAttestations]
  dsimp only
  rw [if_pos hreached]
  cases s.pubKeys pubKey <;> rfl

section

variable (h : Holds ((s.pubKeys pubKey).getD {}) roots sources targets)

include h

/-- The verdict of the whole check over the three lists that the buckets hold. -/
theorem refuses_iff : Refuses s att pubKey root ↔
      BelowLowest s pubKey att (Repeats s pubKey att root) ∨
        ¬ RootAgrees roots att.target root.bytes ∨
        (∃ r ∈ sources, isSurround att.toAttestationData r.toAttestationData = true) ∨
        ∃ r ∈ targets, isSurround r.toAttestationData att.toAttestationData = true := by
  have hhistory : checkSlashableAttestation s pubKey root.bytes att = .ok () ↔ _ :=
    checkSlashableAttestation_iff h.source h.target h.created rfl (h.get_root att.target_lt)
  have haccepts : (∃ s', slashableAttestationCheck s att pubKey root = .ok s') ↔
      checkLowest s pubKey root.bytes att = .ok () ∧
        checkSlashableAttestation s pubKey root.bytes att = .ok () := by
    rw [slashableAttestationCheck]
    cases checkLowest s pubKey root.bytes att <;>
      cases checkSlashableAttestation s pubKey root.bytes att <;>
      simp [bind_eq_ok, Except.mapError]
  have hrefuses : Refuses s att pubKey root ↔
      ¬ ∃ s', slashableAttestationCheck s att pubKey root = .ok s' := not_exists.symm
  rw [hrefuses, haccepts, checkLowest_eq_ok, hhistory]
  simp only [not_and_or, not_not, not_forall, exists_prop, Bool.not_eq_false]

def copied (sr : Bytes) : Bytes :=
  if sr.length = 0 then [] else sr.take 32 ++ List.replicate (32 - sr.length) 0

omit [DecidableEq PubKey] in
theorem Holds.signingRoot {target : Nat} (ht : target < 2 ^ 64) :
    signingRootAtTargetEpoch s pubKey target = copied ((lastRoot roots target).getD []) := by
  rw [← h.get_root ht, signingRootAtTargetEpoch]
  cases s.pubKeys pubKey with
  | none => rfl
  | some pkBucket =>
    cases hb : pkBucket.signingRoots with
    | none => simp [copied, hb]
    | some b => simp [copied, hb]

omit [DecidableEq PubKey] in
/-- A repeated signing is known after a prune if it was known before and its target is kept. -/
theorem repeats_prune_iff (hreached : reached pubKey) :
    Repeats (pruneAttestations pruningEpochs reached s) pubKey att root ↔
      cutoff pruningEpochs (roots.map (·.target)) ≤ att.target ∧ Repeats s pubKey att root := by
  have hprune := h.prune pruningEpochs
  rw [← getD_pruneAttestations hreached] at hprune
  unfold Repeats
  rw [hprune.signingRoot att.target_lt, h.signingRoot att.target_lt, lastRoot_filter]
  split_ifs with hle
  · simp [hle]
  · simp [hle, copied, signingRootsDiffer]

end

omit [DecidableEq PubKey] in
theorem rootAgrees_filter_iff {bound : Nat} {signingRoot : Bytes} :
    RootAgrees (roots.filter fun r => bound ≤ r.target) att.target signingRoot ↔
      (bound ≤ att.target → RootAgrees roots att.target signingRoot) := by
  unfold RootAgrees
  rw [lastRoot_filter]
  split_ifs with hle
  · simp [hle]
  · simp [hle]

/-- What still speaks against an attestation when the buckets are pruned: the lowest signed
epochs, or an entry that its own bucket keeps. -/
def StillRefused (pruningEpochs : Nat) (s : Store PubKey) (pubKey : PubKey)
    (roots sources targets : List (AttestationRecord PubKey)) (att : IndexedAtt) (root : Root) :
    Prop :=
  BelowLowest s pubKey att
      (cutoff pruningEpochs (roots.map (·.target)) ≤ att.target ∧ Repeats s pubKey att root) ∨
    (cutoff pruningEpochs (roots.map (·.target)) ≤ att.target ∧
      ¬ RootAgrees roots att.target root.bytes) ∨
    (∃ r ∈ sources, cutoff pruningEpochs (sources.map (·.source)) ≤ r.source ∧
      isSurround att.toAttestationData r.toAttestationData = true) ∨
    ∃ r ∈ targets, cutoff pruningEpochs (targets.map (·.target)) ≤ r.target ∧
      isSurround r.toAttestationData att.toAttestationData = true

/-- Pruning keeps the refusal of a slashable attestation exactly if the lowest signed epochs
or an entry that is kept speak against it. -/
theorem prune_keeps_refusal_iff
    (h : Holds ((s.pubKeys pubKey).getD {}) roots sources targets) (hreached : reached pubKey) :
    ((∃ r ∈ roots ++ sources ++ targets, IsSlashableWith r att root) → Refuses s att pubKey root →
      Refuses (pruneAttestations pruningEpochs reached s) att pubKey root) ↔
    ((∃ r ∈ roots ++ sources ++ targets, IsSlashableWith r att root) → Refuses s att pubKey root →
      StillRefused pruningEpochs s pubKey roots sources targets att root) := by
  have hafter : Refuses (pruneAttestations pruningEpochs reached s) att pubKey root ↔
      StillRefused pruningEpochs s pubKey roots sources targets att root := by
    have hprune := h.prune pruningEpochs
    rw [← getD_pruneAttestations hreached] at hprune
    rw [refuses_iff hprune, repeats_prune_iff h hreached, rootAgrees_filter_iff, StillRefused]
    simp only [mem_filter, decide_eq_true_eq, and_assoc, Classical.not_imp]
    -- The bounds are in buckets that pruning does not touch.
    rfl
  rw [hafter]

end Verdict

section Examples

theorem ten_lt_word : 10 < 2 ^ 64 := by decide

def voteTenEleven : IndexedAtt where
  source := 10
  target := 11
  source_lt := ten_lt_word

def voteThousand : IndexedAtt where
  source := 1000
  target := 1001

/-- Three attestations, of which the last one is long after the others. -/
def farApart : List (AttestationRecord Unit) :=
  [recordOf voteOneTwo (rootOf 0), recordOf voteTenEleven (rootOf 0),
    recordOf voteThousand (rootOf 0)]

def farApartStore : Store Unit := saveAttestationRecords (Store.new Unit) farApart

theorem farApart_holds : Holds ((farApartStore.pubKeys ()).getD {}) farApart farApart farApart :=
  ((Holds.empty.save (recordOf voteOneTwo (rootOf 0))).save
    (recordOf voteTenEleven (rootOf 0))).save (recordOf voteThousand (rootOf 0))

theorem refuses_of_isOk {PubKey : Type} [DecidableEq PubKey] {s : Store PubKey} {att : IndexedAtt}
    {pubKey : PubKey} {root : Root}
    (h : (slashableAttestationCheck s att pubKey root).isOk = false) :
    Refuses s att pubKey root := by
  intro s' hs
  rw [hs] at h
  cases h

/-- The double vote for the last target is refused after the prune as well. -/
theorem last_vote_still_refused :
    Refuses (pruneAttestations 512 (fun _ => true) farApartStore) voteThousand () (rootOf 1) := by
  refine (prune_keeps_refusal_iff farApart_holds rfl).2 (fun _ _ => ?_) ?_ ?_
  · refine .inr (.inl ⟨by decide +kernel, fun hagrees => ?_⟩)
    have hroot : lastRoot farApart voteThousand.target = some (rootOf 0).bytes := by decide +kernel
    exact absurd (hagrees _ hroot).2 (by decide)
  · exact ⟨recordOf voteThousand (rootOf 0), by decide +kernel, .inl ⟨rfl, .inr (by decide)⟩⟩
  · exact refuses_of_isOk (by decide +kernel)

/-- The second target is pruned, but it is above the lowest signed one, so that a double vote
for it is accepted. -/
theorem pruned_vote_accepted :
    (∃ r ∈ farApart, IsSlashableWith r voteTenEleven (rootOf 1)) ∧
      Refuses farApartStore voteTenEleven () (rootOf 1) ∧
      ∃ s, slashableAttestationCheck (pruneAttestations 512 (fun _ => true) farApartStore)
        voteTenEleven () (rootOf 1) = .ok s :=
  ⟨⟨recordOf voteTenEleven (rootOf 0), by decide +kernel, .inl ⟨rfl, .inr (by decide)⟩⟩,
    refuses_of_isOk (by decide +kernel), exists_of_isOk (by decide +kernel)⟩

end Examples

end LightChain.KV

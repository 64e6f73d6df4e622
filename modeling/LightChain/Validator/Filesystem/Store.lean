import Mathlib

/-!
# The minimal slashing protection store

One record for each public key: the latest signed block slot, and the last signed source and
target epochs. A proposal or an attestation is refused by comparing it with the record alone.
`RefusesBlock` and `RefusesAttestation` say what a record refuses, and `Store.Le` that it only
ever refuses more.
-/
namespace LightChain.Filesystem
open Function

structure ValidatorSlashingProtection where
  latestSignedBlockSlot : Option Nat := none
  lastSignedAttestationSourceEpoch : Nat := 0
  lastSignedAttestationTargetEpoch : Option Nat := none
deriving DecidableEq, Repr

open ValidatorSlashingProtection

/-- A file for each public key that is known. -/
abbrev Store (PubKey : Type) := PubKey → Option ValidatorSlashingProtection

inductive ProtectionError where
  | proposalSlot (slot recorded : Nat)
  | attestationSource (source recorded : Nat)
  | attestationTarget (target recorded : Nat)
  | failedBlockSignLocal (cause : ProtectionError)
  | failedAttLocalProtection (cause : ProtectionError)
deriving DecidableEq, Repr

def ProtectionError.message : ProtectionError → String
  | .proposalSlot slot recorded =>
    "could not sign proposal with slot lower than or equal to recorded slot, " ++ toString slot ++
      " <= " ++ toString recorded
  | .attestationSource source recorded =>
    "could not sign attestation with source lower than recorded source epoch, " ++
      toString source ++ " < " ++ toString recorded
  | .attestationTarget target recorded =>
    "could not sign attestation with target lower than or equal to recorded target epoch, " ++
      toString target ++ " <= " ++ toString recorded
  | .failedBlockSignLocal cause => "block rejected by local protection: " ++ cause.message
  | .failedAttLocalProtection cause =>
    "attempted to make slashable attestation, rejected by local slashing protection: " ++
      cause.message

/-- An attestation as far as the store reads it. -/
structure Attestation where
  source : Nat
  target : Nat
deriving DecidableEq, Repr

section Save

variable {PubKey : Type} [DecidableEq PubKey] (s : Store PubKey)

def saveProposalHistoryForSlot (pubKey : PubKey) (slot : Nat) :
    Except ProtectionError (Store PubKey) :=
  match s pubKey with
  | none => .ok (Function.update s pubKey (some { latestSignedBlockSlot := some slot }))
  | some protection =>
    match protection.latestSignedBlockSlot with
    | none =>
      .ok (Function.update s pubKey (some { protection with latestSignedBlockSlot := some slot }))
    | some latest =>
      if slot ≤ latest then .error (.proposalSlot slot latest)
      else
        .ok (Function.update s pubKey
          (some { protection with latestSignedBlockSlot := some slot }))

def ValidatorSlashingProtection.withAttestation (protection : ValidatorSlashingProtection)
    (att : Attestation) : ValidatorSlashingProtection :=
  { protection with
    lastSignedAttestationSourceEpoch := att.source
    lastSignedAttestationTargetEpoch := some att.target }

def saveAttestationForPubKey (pubKey : PubKey) (att : Attestation) :
    Except ProtectionError (Store PubKey) :=
  match s pubKey with
  | none =>
    .ok (Function.update s pubKey (some (withAttestation {} att)))
  | some protection =>
    if att.source < protection.lastSignedAttestationSourceEpoch then
      .error (.attestationSource att.source protection.lastSignedAttestationSourceEpoch)
    else
      match protection.lastSignedAttestationTargetEpoch with
      | none => .ok (Function.update s pubKey (some (protection.withAttestation att)))
      | some target =>
        if att.target ≤ target then .error (.attestationTarget att.target target)
        else .ok (Function.update s pubKey (some (protection.withAttestation att)))

def slashableProposalCheck (pubKey : PubKey) (slot : Nat) : Except ProtectionError (Store PubKey) :=
  (saveProposalHistoryForSlot s pubKey slot).mapError .failedBlockSignLocal

def slashableAttestationCheck (pubKey : PubKey) (att : Attestation) :
    Except ProtectionError (Store PubKey) :=
  (saveAttestationForPubKey s pubKey att).mapError .failedAttLocalProtection

def maxSourceTargetEpoch (atts : List Attestation) : Attestation :=
  atts.foldl (fun m att => ⟨max m.source att.source, max m.target att.target⟩) ⟨0, 0⟩

/-- The attestations are not checked. The record keeps the maximum of each epoch. -/
def saveAttestationsForPubKey (pubKey : PubKey) (atts : List Attestation) : Store PubKey :=
  if atts = [] then s
  else
    let incoming := maxSourceTargetEpoch atts
    match s pubKey with
    | none =>
      Function.update s pubKey (some (withAttestation {} incoming))
    | some protection =>
      Function.update s pubKey (some (protection.withAttestation
        ⟨max incoming.source protection.lastSignedAttestationSourceEpoch,
          max incoming.target (protection.lastSignedAttestationTargetEpoch.getD 0)⟩))

end Save

section Refusal

variable {PubKey : Type} {s s' : Store PubKey} {pubKey k : PubKey} {slot n : Nat}
  {att : Attestation}

/-- The record refuses every slot up to this one. -/
def Store.RefusesBlock (s : Store PubKey) (pubKey : PubKey) (slot : Nat) : Prop :=
  ∃ protection latest, s pubKey = some protection ∧
    protection.latestSignedBlockSlot = some latest ∧ slot ≤ latest

theorem Store.RefusesBlock.mono (h : s.RefusesBlock pubKey slot) (hle : n ≤ slot) :
    s.RefusesBlock pubKey n := by
  obtain ⟨protection, latest, hp, hl, hslot⟩ := h
  exact ⟨protection, latest, hp, hl, hle.trans hslot⟩

def Store.RefusesAttestation (s : Store PubKey) (pubKey : PubKey) (att : Attestation) : Prop :=
  ∃ protection, s pubKey = some protection ∧
    (att.source < protection.lastSignedAttestationSourceEpoch ∨
      ∃ target, protection.lastSignedAttestationTargetEpoch = some target ∧ att.target ≤ target)

variable [DecidableEq PubKey]

theorem saveProposalHistoryForSlot_cases (s : Store PubKey) (pubKey : PubKey) (slot : Nat) :
    (s.RefusesBlock pubKey slot ∧ ∃ e, saveProposalHistoryForSlot s pubKey slot = .error e) ∨
      (¬ s.RefusesBlock pubKey slot ∧
        saveProposalHistoryForSlot s pubKey slot = .ok (Function.update s pubKey
          (some { (s pubKey).getD {} with latestSignedBlockSlot := some slot }))) := by
  unfold saveProposalHistoryForSlot Store.RefusesBlock
  cases hs : s pubKey with
  | none => simp
  | some protection =>
    cases hlatest : protection.latestSignedBlockSlot with
    | none => simp [hlatest]
    | some latest => by_cases hle : slot ≤ latest <;> simp [hlatest, hle]

theorem saveAttestationForPubKey_cases (s : Store PubKey) (pubKey : PubKey) (att : Attestation) :
    (s.RefusesAttestation pubKey att ∧ ∃ e, saveAttestationForPubKey s pubKey att = .error e) ∨
      (¬ s.RefusesAttestation pubKey att ∧
        saveAttestationForPubKey s pubKey att = .ok (Function.update s pubKey
          (some (((s pubKey).getD {}).withAttestation att)))) := by
  unfold saveAttestationForPubKey Store.RefusesAttestation
  cases hs : s pubKey with
  | none => simp
  | some protection =>
    by_cases hsource : att.source < protection.lastSignedAttestationSourceEpoch
    · simp [hsource]
    · cases htarget : protection.lastSignedAttestationTargetEpoch with
      | none => simp [hsource, htarget]
      | some target => by_cases hle : att.target ≤ target <;> simp [hsource, htarget, hle]

theorem saveProposalHistoryForSlot_ok (h : saveProposalHistoryForSlot s pubKey slot = .ok s') :
    s' = Function.update s pubKey
      (some { (s pubKey).getD {} with latestSignedBlockSlot := some slot }) := by
  rcases saveProposalHistoryForSlot_cases s pubKey slot with ⟨-, e, hsave⟩ | ⟨-, hsave⟩
  · cases hsave.symm.trans h
  · exact Except.ok.inj (h.symm.trans hsave)

theorem saveAttestationForPubKey_ok (h : saveAttestationForPubKey s pubKey att = .ok s') :
    s' = Function.update s pubKey (some (((s pubKey).getD {}).withAttestation att)) := by
  rcases saveAttestationForPubKey_cases s pubKey att with ⟨-, e, hsave⟩ | ⟨-, hsave⟩
  · cases hsave.symm.trans h
  · exact Except.ok.inj (h.symm.trans hsave)

theorem mapError_eq_error {ε τ α : Type} {x : Except ε α} {f : ε → τ} :
    (∃ e, x.mapError f = .error e) ↔ ∃ e, x = .error e := by
  cases x <;> simp [Except.mapError]

theorem slashableProposalCheck_error :
    (∃ e, slashableProposalCheck s pubKey slot = .error e) ↔ s.RefusesBlock pubKey slot := by
  rw [slashableProposalCheck, mapError_eq_error]
  rcases saveProposalHistoryForSlot_cases s pubKey slot with ⟨h, e, hsave⟩ | ⟨h, hsave⟩ <;>
    simp [h, hsave]

theorem slashableAttestationCheck_error :
    (∃ e, slashableAttestationCheck s pubKey att = .error e) ↔
      s.RefusesAttestation pubKey att := by
  rw [slashableAttestationCheck, mapError_eq_error]
  rcases saveAttestationForPubKey_cases s pubKey att with ⟨h, e, hsave⟩ | ⟨h, hsave⟩ <;>
    simp [h, hsave]

end Refusal

section Order

variable {PubKey : Type} {s s' t : Store PubKey} {pubKey k : PubKey} {slot n : Nat}
  {att : Attestation}

/-- Whatever a store refuses, the other one refuses as well. -/
structure Store.Le (s s' : Store PubKey) : Prop where
  blocks : ∀ pubKey slot, s.RefusesBlock pubKey slot → s'.RefusesBlock pubKey slot
  attests : ∀ pubKey att, s.RefusesAttestation pubKey att → s'.RefusesAttestation pubKey att

theorem Store.Le.refl (s : Store PubKey) : s.Le s := ⟨fun _ _ h => h, fun _ _ h => h⟩

theorem Store.Le.trans (h : s.Le s') (h' : s'.Le t) : s.Le t :=
  ⟨fun k n hb => h'.blocks k n (h.blocks k n hb), fun k a ha => h'.attests k a (h.attests k a ha)⟩

variable [DecidableEq PubKey]

def recordProposal (s : Store PubKey) (pubKey : PubKey) (slot : Nat) : Store PubKey :=
  match saveProposalHistoryForSlot s pubKey slot with
  | .ok s' => s'
  | .error _ => s

def recordAttestation (s : Store PubKey) (pubKey : PubKey) (att : Attestation) : Store PubKey :=
  match saveAttestationForPubKey s pubKey att with
  | .ok s' => s'
  | .error _ => s

theorem recordProposal_cases (s : Store PubKey) (pubKey : PubKey) (slot : Nat) :
    (recordProposal s pubKey slot = s ∧ s.RefusesBlock pubKey slot) ∨
      (recordProposal s pubKey slot = Function.update s pubKey (some
        { (s pubKey).getD {} with latestSignedBlockSlot := some slot }) ∧
        ∀ n, s.RefusesBlock pubKey n → n ≤ slot) := by
  unfold recordProposal
  rcases saveProposalHistoryForSlot_cases s pubKey slot with ⟨h, e, hsave⟩ | ⟨h, hsave⟩ <;>
    rw [hsave]
  · exact .inl ⟨rfl, h⟩
  · refine .inr ⟨rfl, fun n hn => ?_⟩
    by_contra hlt
    exact h (hn.mono (not_le.1 hlt).le)

theorem refusesBlock_recordProposal :
    (recordProposal s pubKey slot).RefusesBlock k n ↔
      s.RefusesBlock k n ∨ k = pubKey ∧ n ≤ slot := by
  rcases recordProposal_cases s pubKey slot with ⟨heq, hrefused⟩ | ⟨heq, hbound⟩
  · rw [heq]
    refine ⟨.inl, ?_⟩
    rintro (h | ⟨rfl, hle⟩)
    · exact h
    · exact hrefused.mono hle
  · rw [heq]
    by_cases hk : k = pubKey
    · subst hk
      simp only [Store.RefusesBlock, update_self]
      constructor
      · rintro ⟨_, _, ⟨⟩, ⟨⟩, hle⟩
        exact .inr ⟨trivial, hle⟩
      · rintro (h | ⟨-, hle⟩)
        · exact ⟨_, _, rfl, rfl, hbound n h⟩
        · exact ⟨_, _, rfl, rfl, hle⟩
    · simp [Store.RefusesBlock, hk]

theorem refusesAttestation_recordProposal :
    (recordProposal s pubKey slot).RefusesAttestation k att ↔ s.RefusesAttestation k att := by
  rcases recordProposal_cases s pubKey slot with ⟨heq, -⟩ | ⟨heq, -⟩
  · rw [heq]
  · rw [heq]
    by_cases hk : k = pubKey
    · subst hk
      simp only [Store.RefusesAttestation, update_self]
      cases hs : s k <;> simp
    · simp [Store.RefusesAttestation, hk]

theorem le_recordProposal : s.Le (recordProposal s pubKey slot) :=
  ⟨fun _ _ h => refusesBlock_recordProposal.2 (.inl h),
    fun _ _ h => refusesAttestation_recordProposal.2 h⟩

theorem refusesBlock_withAttestation :
    Store.RefusesBlock (Function.update s pubKey
      (some (((s pubKey).getD {}).withAttestation att))) k n ↔ s.RefusesBlock k n := by
  by_cases hk : k = pubKey
  · subst hk
    simp only [Store.RefusesBlock, update_self,
      withAttestation]
    cases hs : s k <;> simp
  · simp [Store.RefusesBlock, hk]

theorem le_withAttestation
    (h : ∀ protection, s pubKey = some protection →
      protection.lastSignedAttestationSourceEpoch ≤ att.source ∧
        ∀ target, protection.lastSignedAttestationTargetEpoch = some target →
          target ≤ att.target) :
    s.Le (Function.update s pubKey (some (((s pubKey).getD {}).withAttestation att))) := by
  refine ⟨fun k n hb => refusesBlock_withAttestation.2 hb, fun k a ha => ?_⟩
  by_cases hk : k = pubKey
  · subst hk
    obtain ⟨protection, hp, hrefused⟩ := ha
    refine ⟨_, update_self _ _ _, ?_⟩
    obtain ⟨hsource, htarget⟩ := h protection hp
    rcases hrefused with hlt | ⟨target, ht, hle⟩
    · exact .inl (hlt.trans_le hsource)
    · exact .inr ⟨att.target, rfl, hle.trans (htarget target ht)⟩
  · unfold Store.RefusesAttestation
    rwa [update_of_ne hk]

theorem le_recordAttestation : s.Le (recordAttestation s pubKey att) := by
  unfold recordAttestation
  rcases saveAttestationForPubKey_cases s pubKey att with ⟨-, e, hsave⟩ | ⟨hrefused, hsave⟩ <;>
    rw [hsave]
  · exact .refl s
  · refine le_withAttestation fun protection hp => ⟨?_, fun target ht => ?_⟩
    · by_contra hlt
      exact hrefused ⟨protection, hp, .inl (not_le.1 hlt)⟩
    · by_contra hlt
      exact hrefused ⟨protection, hp, .inr ⟨target, ht, (not_le.1 hlt).le⟩⟩

theorem maxSourceTargetEpoch_bounds (atts : List Attestation) (n : Nat) :
    (n < (maxSourceTargetEpoch atts).source ↔ ∃ a ∈ atts, n < a.source) ∧
      (n ≤ (maxSourceTargetEpoch atts).target ↔ n = 0 ∨ ∃ a ∈ atts, n ≤ a.target) := by
  -- The fold is above a number if its start or one of the attestations is.
  have hfold : ∀ (xs : List Attestation) (m : Attestation),
      (n < (xs.foldl (fun m a => ⟨max m.source a.source, max m.target a.target⟩) m).source ↔
        n < m.source ∨ ∃ a ∈ xs, n < a.source) ∧
      (n ≤ (xs.foldl (fun m a => ⟨max m.source a.source, max m.target a.target⟩) m).target ↔
        n ≤ m.target ∨ ∃ a ∈ xs, n ≤ a.target) := by
    intro xs
    induction xs with
    | nil => simp
    | cons x xs ih =>
      intro m
      obtain ⟨hs, ht⟩ := ih ⟨max m.source x.source, max m.target x.target⟩
      rw [List.foldl_cons, hs, ht, lt_max_iff, le_max_iff]
      simp [or_assoc]
  simpa [maxSourceTargetEpoch] using hfold atts ⟨0, 0⟩

variable {atts : List Attestation}

/-- What a batch of attestations writes: the maximum of the recorded epochs and of its own. -/
theorem saveAttestationsForPubKey_eq (h : atts ≠ []) :
    saveAttestationsForPubKey s pubKey atts = Function.update s pubKey
      (some (((s pubKey).getD {}).withAttestation
        ⟨max (maxSourceTargetEpoch atts).source
            ((s pubKey).getD {}).lastSignedAttestationSourceEpoch,
          max (maxSourceTargetEpoch atts).target
            (((s pubKey).getD {}).lastSignedAttestationTargetEpoch.getD 0)⟩)) := by
  rw [saveAttestationsForPubKey, if_neg h]
  cases s pubKey with
  | none => simp
  | some protection => rfl

theorem refusesBlock_saveAttestationsForPubKey :
    (saveAttestationsForPubKey s pubKey atts).RefusesBlock k n ↔ s.RefusesBlock k n := by
  by_cases h : atts = []
  · rw [saveAttestationsForPubKey, if_pos h]
  · rw [saveAttestationsForPubKey_eq h, refusesBlock_withAttestation]

theorem refusesAttestation_saveAttestationsForPubKey :
    (saveAttestationsForPubKey s pubKey atts).RefusesAttestation k att ↔
      s.RefusesAttestation k att ∨
        k = pubKey ∧ ∃ a ∈ atts, att.source < a.source ∨ att.target ≤ a.target := by
  by_cases h : atts = []
  · simp [saveAttestationsForPubKey, h]
  · rw [saveAttestationsForPubKey_eq h]
    by_cases hk : k = pubKey
    · subst hk
      obtain ⟨first, hfirst⟩ := List.exists_mem_of_ne_nil atts h
      have hsource := (maxSourceTargetEpoch_bounds atts att.source).1
      have htarget := (maxSourceTargetEpoch_bounds atts att.target).2
      simp only [Store.RefusesAttestation, update_self, Option.some.injEq,
        exists_eq_left', withAttestation, lt_max_iff, le_max_iff,
        hsource, htarget]
      cases hs : s k with
      | none => simp; grind
      | some protection =>
        cases ht : protection.lastSignedAttestationTargetEpoch with
        | none => simp [ht]; grind
        | some target => simp [ht]; grind
    · simp [Store.RefusesAttestation, hk]

end Order

end LightChain.Filesystem

import LightChain.Library.Fallible
import LightChain.Validator.KV.Store

/-!
# The slashing check of an attestation

`SlashableAttestationCheck` compares an attestation with the lowest signed epochs of the key
and then with its history, and writes it if nothing speaks against it.
`checkSlashableAttestation_eq_ok` states the verdict on the history over the list of
attestations that the buckets represent.
-/
namespace LightChain.KV
open Library

inductive SlashingKind where
  | notSlashable | doubleVote | surroundingVote | surroundedVote
deriving DecidableEq, Repr

inductive ProtectionError where
  | lowestSource (source lowest : Nat)
  | lowestTarget (target lowest : Nat)
  | doubleVote (target : Nat) (existingSigningRoot : Bytes)
  | surroundingVote (att existing : AttestationData)
  | surroundedVote (att existing : AttestationData)
  | failedAttLocalProtection (cause : ProtectionError)
deriving DecidableEq, Repr

/-- The kind that `CheckSlashableAttestation` returns next to the error. -/
def ProtectionError.slashingKind : ProtectionError → SlashingKind
  | .doubleVote .. => .doubleVote
  | .surroundingVote .. => .surroundingVote
  | .surroundedVote .. => .surroundedVote
  | _ => .notSlashable

/-- The verb `%#x` on a byte slice, which prints nothing for an empty one. -/
def hex (b : Bytes) : String :=
  if b.isEmpty then ""
  else "0x" ++ String.join (b.map fun d =>
    String.ofList [Nat.digitChar (d.val / 16), Nat.digitChar (d.val % 16)])

def ProtectionError.message : ProtectionError → String
  | .lowestSource source lowest =>
    "could not sign attestation lower than lowest source epoch in db, " ++ toString source ++
      " < " ++ toString lowest
  | .lowestTarget target lowest =>
    "could not sign attestation lower than or equal to lowest target epoch in db if signing " ++
      "roots differ, " ++ toString target ++ " <= " ++ toString lowest
  | .doubleVote target root =>
    "double vote found, existing attestation at target epoch " ++ toString target ++
      " with conflicting signing root " ++ hex root
  | .surroundingVote att existing =>
    "attestation with (source " ++ toString att.source ++ ", target " ++ toString att.target ++
      ") surrounds another with (source " ++ toString existing.source ++ ", target " ++
      toString existing.target ++ ")"
  | .surroundedVote att existing =>
    "attestation with (source " ++ toString att.source ++ ", target " ++ toString att.target ++
      ") is surrounded by another with (source " ++ toString existing.source ++ ", target " ++
      toString existing.target ++ ")"
  | .failedAttLocalProtection cause =>
    "attempted to make slashable attestation, rejected by local slashing protection: " ++
      cause.message

def isSurround (a b : AttestationData) : Bool :=
  a.source < b.source && b.target < a.target

def signingRootsDiffer (existingSigningRoot incomingSigningRoot : Bytes) : Bool :=
  existingSigningRoot.length == 0 || existingSigningRoot != incomingSigningRoot

/-- An error if the test finds one. -/
def failWith (found : Option ProtectionError) : Except ProtectionError Unit :=
  match found with
  | some e => .error e
  | none => .ok ()

def checkSurroundedVote (targetEpochs : Bucket) (att : IndexedAtt) :
    Except ProtectionError Unit :=
  failWith <| scan targetEpochs att.target fun existingTarget existingSource =>
    if isSurround ⟨existingSource, existingTarget⟩ att.toAttestationData then
      some (.surroundedVote att.toAttestationData ⟨existingSource, existingTarget⟩)
    else none

def checkSurroundingVote (sourceEpochs : Bucket) (att : IndexedAtt) :
    Except ProtectionError Unit :=
  failWith <| scan sourceEpochs att.source fun existingSource existingTarget =>
    if isSurround att.toAttestationData ⟨existingSource, existingTarget⟩ then
      some (.surroundingVote att.toAttestationData ⟨existingSource, existingTarget⟩)
    else none

/-- The first part of `CheckSlashableAttestation`. -/
def checkDoubleVote (signingRoots : Option Bucket) (signingRoot : Bytes) (att : IndexedAtt) :
    Except ProtectionError Unit :=
  match signingRoots with
  | none => .ok ()
  | some signingRoots =>
    match signingRoots[toWord att.target]? with
    | none => .ok ()
    | some existing =>
      if existing.length == 0 || signingRootsDiffer existing signingRoot then
        .error (.doubleVote att.target existing)
      else .ok ()

/-- The second part of `CheckSlashableAttestation`. -/
def checkSurround (pkBucket : PubKeyBucket) (att : IndexedAtt) : Except ProtectionError Unit :=
  match pkBucket.sourceEpochs with
  | none => .ok ()
  | some sourceEpochs => do
    checkSurroundingVote sourceEpochs att
    match pkBucket.targetEpochs with
    | none => .ok ()
    | some targetEpochs => checkSurroundedVote targetEpochs att

variable {PubKey : Type}

def checkSlashableAttestation (s : Store PubKey) (pubKey : PubKey) (signingRoot : Bytes)
    (att : IndexedAtt) : Except ProtectionError Unit :=
  match s.pubKeys pubKey with
  | none => .ok ()
  | some pkBucket => do
    checkDoubleVote pkBucket.signingRoots signingRoot att
    checkSurround pkBucket att

/-- The bounds that `SlashableAttestationCheck` tests before the history. -/
def checkLowest (s : Store PubKey) (pubKey : PubKey) (signingRoot : Bytes) (att : IndexedAtt) :
    Except ProtectionError Unit := do
  match lowestSignedSourceEpoch s pubKey with
  | some lowest => if att.source < lowest then .error (.lowestSource att.source lowest)
  | none => pure ()
  if signingRootsDiffer (signingRootAtTargetEpoch s pubKey att.target) signingRoot then
    match lowestSignedTargetEpoch s pubKey with
    | some lowest => if att.target ≤ lowest then .error (.lowestTarget att.target lowest)
    | none => pure ()

variable [DecidableEq PubKey]

def slashableAttestationCheck (s : Store PubKey) (att : IndexedAtt) (pubKey : PubKey)
    (signingRoot32 : Root) : Except ProtectionError (Store PubKey) := do
  let signingRoot := signingRoot32.bytes
  checkLowest s pubKey signingRoot att
  (checkSlashableAttestation s pubKey signingRoot att).mapError .failedAttLocalProtection
  return saveAttestationRecords s [{ att with pubKey, signingRoot }]

section Verdict

variable {s : Store PubKey} {past : List (AttestationRecord PubKey)} {pkBucket : PubKeyBucket}
  {att : IndexedAtt} {signingRoot : Bytes}

omit [DecidableEq PubKey]

variable {found : Option ProtectionError}

@[simp] theorem failWith_eq_ok : failWith found = .ok () ↔ found = none := by
  cases found <;> simp [failWith]

@[simp] theorem failWith_eq_error {e : ProtectionError} :
    failWith found = .error e ↔ found = some e := by
  cases found <;> simp [failWith]

theorem checkSurroundedVote_eq_ok {b : Bucket}
    (h : Indexes b (past.map fun r => (r.target, r.source))) :
    checkSurroundedVote b att = .ok () ↔
      ∀ r ∈ past, isSurround r.toAttestationData att.toAttestationData = false := by
  rw [checkSurroundedVote, failWith_eq_ok, h.scan_eq_none, List.forall_mem_map]
  refine forall₂_congr fun r _ => ?_
  grind [isSurround]

theorem checkSurroundingVote_eq_ok {b : Bucket}
    (h : Indexes b (past.map fun r => (r.source, r.target))) :
    checkSurroundingVote b att = .ok () ↔
      ∀ r ∈ past, isSurround att.toAttestationData r.toAttestationData = false := by
  rw [checkSurroundingVote, failWith_eq_ok, h.scan_eq_none, List.forall_mem_map]
  refine forall₂_congr fun r _ => ?_
  grind [isSurround]

/-- The stored root does not contradict the new one: there is none, or it is the same and
not empty. -/
def RootAgrees (past : List (AttestationRecord PubKey)) (target : Nat) (signingRoot : Bytes) :
    Prop :=
  ∀ existing, lastRoot past target = some existing → existing ≠ [] ∧ existing = signingRoot

theorem checkDoubleVote_eq_ok
    (hroot : (pkBucket.signingRoots.getD ∅)[toWord att.target]? = lastRoot past att.target) :
    checkDoubleVote pkBucket.signingRoots signingRoot att = .ok () ↔
      RootAgrees past att.target signingRoot := by
  cases hb : pkBucket.signingRoots with
  | none => simp [checkDoubleVote, RootAgrees, ← hroot, hb]
  | some b =>
    rw [hb, Option.getD_some] at hroot
    rw [checkDoubleVote, hroot, RootAgrees]
    cases lastRoot past att.target with
    | none => simp
    | some existing => simp [signingRootsDiffer]

variable {roots sources targets : List (AttestationRecord PubKey)}

section

variable (hs : Indexes (pkBucket.sourceEpochs.getD ∅) (sources.map fun r => (r.source, r.target)))
  (ht : Indexes (pkBucket.targetEpochs.getD ∅) (targets.map fun r => (r.target, r.source)))
  (hcreated : pkBucket.sourceEpochs = none → targets = [])

include hs ht hcreated

theorem checkSurround_eq_ok : checkSurround pkBucket att = .ok () ↔
      (∀ r ∈ sources, isSurround att.toAttestationData r.toAttestationData = false) ∧
        ∀ r ∈ targets, isSurround r.toAttestationData att.toAttestationData = false := by
  rw [checkSurround]
  cases hsource : pkBucket.sourceEpochs with
  | none =>
    rw [hsource] at hs
    simp [List.map_eq_nil_iff.1 hs.eq_nil_of_empty, hcreated hsource]
  | some sourceEpochs =>
    rw [hsource, Option.getD_some] at hs
    simp only [bind_eq_ok, exists_const, checkSurroundingVote_eq_ok hs]
    refine and_congr_right fun _ => ?_
    cases htarget : pkBucket.targetEpochs with
    | none =>
      rw [htarget] at ht
      simp [List.map_eq_nil_iff.1 ht.eq_nil_of_empty]
    | some targetEpochs =>
      rw [htarget, Option.getD_some] at ht
      exact checkSurroundedVote_eq_ok ht

/-- The verdict on the history of a key whose buckets hold three lists of attestations. -/
theorem checkSlashableAttestation_iff {pubKey : PubKey}
    (hpk : (s.pubKeys pubKey).getD {} = pkBucket)
    (hroot : (pkBucket.signingRoots.getD ∅)[toWord att.target]? = lastRoot roots att.target) :
    checkSlashableAttestation s pubKey signingRoot att = .ok () ↔
      RootAgrees roots att.target signingRoot ∧
        (∀ r ∈ sources, isSurround att.toAttestationData r.toAttestationData = false) ∧
        ∀ r ∈ targets, isSurround r.toAttestationData att.toAttestationData = false := by
  rw [checkSlashableAttestation]
  cases hb : s.pubKeys pubKey with
  | none =>
    rw [hb, Option.getD_none] at hpk
    subst hpk
    obtain rfl : sources = [] := List.map_eq_nil_iff.1 hs.eq_nil_of_empty
    simp [RootAgrees, ← hroot, hcreated rfl]
  | some pkBucket' =>
    rw [hb, Option.getD_some] at hpk
    subst hpk
    simp only [bind_eq_ok, exists_const, checkDoubleVote_eq_ok hroot,
      checkSurround_eq_ok hs ht hcreated]

end

variable {pubKey : PubKey}

theorem checkSlashableAttestation_eq_ok (h : Records ((s.pubKeys pubKey).getD {}) past) :
    checkSlashableAttestation s pubKey signingRoot att = .ok () ↔
      RootAgrees past att.target signingRoot ∧ ∀ r ∈ past,
        isSurround att.toAttestationData r.toAttestationData = false ∧
          isSurround r.toAttestationData att.toAttestationData = false := by
  have hcreated : ((s.pubKeys pubKey).getD {}).sourceEpochs = none → past = [] := by
    intro hnone
    have hs := h.sources
    rw [hnone] at hs
    exact List.map_eq_nil_iff.1 hs.eq_nil_of_empty
  rw [checkSlashableAttestation_iff h.sources h.targets hcreated rfl (h.roots _ att.target_lt),
    forall₂_and]

theorem slashingKind_of_error {e : ProtectionError}
    (h : checkSlashableAttestation s pubKey signingRoot att = .error e) :
    e.slashingKind ≠ .notSlashable := by
  have hsurround : ∀ b, checkSurroundingVote b att = .error e ∨
      checkSurroundedVote b att = .error e → e.slashingKind ≠ .notSlashable := by
    rintro b (hb | hb)
    all_goals
      obtain ⟨_, _, hit⟩ := hit_of_scan (failWith_eq_error.1 hb)
      grind [ProtectionError.slashingKind]
  have hdouble : ∀ b, checkDoubleVote b signingRoot att = .error e →
      e.slashingKind ≠ .notSlashable := by
    intro b hb
    cases b with
    | none => cases hb
    | some b => grind [checkDoubleVote, ProtectionError.slashingKind]
  rw [checkSlashableAttestation] at h
  cases hpk : s.pubKeys pubKey with
  | none => simp [hpk] at h
  | some pkBucket =>
    simp only [hpk] at h
    obtain h | ⟨_, -, h⟩ := bind_eq_error.1 h
    · exact hdouble _ h
    · rw [checkSurround] at h
      cases hs : pkBucket.sourceEpochs with
      | none => simp [hs] at h
      | some sourceEpochs =>
        simp only [hs] at h
        obtain h | ⟨_, -, h⟩ := bind_eq_error.1 h
        · exact hsurround _ (.inl h)
        · cases ht : pkBucket.targetEpochs with
          | none => simp [ht] at h
          | some targetEpochs => exact hsurround _ (.inr (by simpa [ht] using h))

/-- An accepted attestation agrees with the history of its key, and it is written. -/
theorem slashableAttestationCheck_ok [DecidableEq PubKey] {root : Root} {s' : Store PubKey}
    (h : slashableAttestationCheck s att pubKey root = .ok s') :
    checkSlashableAttestation s pubKey root.bytes att = .ok () ∧
      s' = saveAttestationRecords s [{ att with pubKey, signingRoot := root.bytes }] := by
  rw [slashableAttestationCheck] at h
  obtain ⟨_, -, h⟩ := bind_eq_ok.1 h
  obtain ⟨_, hcheck, h⟩ := bind_eq_ok.1 h
  exact ⟨ok_of_mapError hcheck, (pure_eq_ok.1 h).symm⟩

end Verdict

end LightChain.KV

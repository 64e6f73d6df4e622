import LightChain.Validator.KV.Import

/-!
# Slashing protection over whole runs

A run is any sequence of attestation checks and imports on a new store, and `past` lists the
attestations that were accepted or imported so far. Every accepted attestation is compared
with all of them: it never surrounds and is never surrounded, and it is a double vote only
for a key that an import has blacklisted.
-/
namespace LightChain.KV
open Library

variable {PubKey : Type} [DecidableEq PubKey]

inductive Call (PubKey : Type) where
  | check (att : IndexedAtt) (pubKey : PubKey) (signingRoot : Root)
  | importJSON (data : List (ProtectionData PubKey)) (committed : PubKey → Bool)

/-- A store and the attestations accepted by a check or written by an import. -/
structure Session (PubKey : Type) where
  store : Store PubKey
  past : List (AttestationRecord PubKey)

open Session

/-- An accepted attestation is saved before the next call. A refused one changes nothing. -/
def Session.call (w : Session PubKey) : Call PubKey → Session PubKey
  | .check att pubKey root =>
    match slashableAttestationCheck w.store att pubKey root with
    | .ok s => ⟨s, w.past ++ [{ att with pubKey, signingRoot := root.bytes }]⟩
    | .error _ => w
  | .importJSON data committed =>
    ⟨importStandardProtectionJSON data committed w.store, w.past ++ imported data committed⟩

def Session.run (calls : List (Call PubKey)) : Session PubKey :=
  calls.foldl call ⟨Store.new PubKey, []⟩

/-- Two attestations with one target that are not known to have the same signing root. -/
def IsDoubleVote (r : AttestationRecord PubKey) (att : IndexedAtt) (signingRoot : Root) : Prop :=
  r.target = att.target ∧ (r.signingRoot = [] ∨ r.signingRoot ≠ signingRoot.bytes)

structure Session.Inv (w : Session PubKey) : Prop where
  represents : Represents w.store w.past
  agreeing : ∀ pubKey, w.store.slashablePublicKeys pubKey = false →
    Agreeing (ofKey w.past pubKey)

variable {w : Session PubKey}

theorem Session.Inv.check (h : w.Inv) {att : IndexedAtt} {pubKey : PubKey} {root : Root}
    {s : Store PubKey} (hcheck : slashableAttestationCheck w.store att pubKey root = .ok s) :
    Inv ⟨s, w.past ++ [{ att with pubKey, signingRoot := root.bytes }]⟩ := by
  obtain ⟨hok, rfl⟩ := slashableAttestationCheck_ok hcheck
  refine ⟨h.represents.save _, fun k hk => ?_⟩
  rw [slashablePublicKeys_save] at hk
  have hold := h.agreeing k hk
  by_cases hkey : pubKey = k
  · subst hkey
    have hroot := ((checkSlashableAttestation_eq_ok (h.represents pubKey)).1 hok).1
    simpa [ofKey] using hold.append hroot
  · simpa [ofKey, hkey] using hold

theorem Session.Inv.importJSON (h : w.Inv) (data : List (ProtectionData PubKey))
    (committed : PubKey → Bool) :
    Inv ⟨importStandardProtectionJSON data committed w.store,
      w.past ++ imported data committed⟩ := by
  refine ⟨h.represents.importJSON, fun k hk => ?_⟩
  obtain ⟨hold, hfilter⟩ := not_slashable_of_import hk
  have hpast := h.agreeing k hold
  rw [ofKey_append, ofKey_imported]
  split_ifs with hmem
  · obtain ⟨hjson, hdb⟩ := hfilter hmem.1
    have hroots : ∀ att ∈ attestingHistoryByPubKey data k,
        RootAgrees (ofKey w.past k) att.target att.signingRoot := fun att hatt =>
      ((checkSlashableAttestation_eq_ok (h.represents k)).1 (hdb att hatt)).1
    have hread : Agreeing (ofKey w.past k ++ []) := by simpa using hpast
    simpa using hread.append_list hroots hjson
  · simpa using hpast

theorem Session.Inv.call (h : w.Inv) (c : Call PubKey) : (w.call c).Inv := by
  cases c with
  | check att pubKey root =>
    rw [Session.call]
    split
    · next s hs => exact h.check hs
    · exact h
  | importJSON data committed => exact h.importJSON data committed

theorem inv_run (calls : List (Call PubKey)) : (run calls).Inv := by
  have hnew : Session.Inv (⟨Store.new PubKey, []⟩ : Session PubKey) :=
    ⟨Represents.new, fun _ _ r hr => by cases hr⟩
  exact List.foldlRecOn calls call hnew fun w hw c _ => hw.call c

/-- In every run the check of the history refuses an attestation exactly for what the run has
accepted or imported for its key: for the last root at its target, or for a surround. -/
theorem history_check_exact (calls : List (Call PubKey)) (att : IndexedAtt) (pubKey : PubKey)
    (root : Root) :
    checkSlashableAttestation (run calls).store pubKey root.bytes att = .ok () ↔
      RootAgrees (ofKey (run calls).past pubKey) att.target root.bytes ∧
        ∀ r ∈ ofKey (run calls).past pubKey,
          isSurround att.toAttestationData r.toAttestationData = false ∧
            isSurround r.toAttestationData att.toAttestationData = false :=
  checkSlashableAttestation_eq_ok ((inv_run calls).represents pubKey)

section Examples

def voteOneTwo : IndexedAtt where
  source := 1
  target := 2
  source_lt := Nat.one_lt_two_pow (by decide)

def voteTwoThree : IndexedAtt where
  source := 2
  target := 3

def recordOf (att : IndexedAtt) (root : Root) : AttestationRecord Unit :=
  { att with pubKey := (), signingRoot := root.bytes }

/-- The key has attested from epoch 1 to epoch 2. -/
def attested : Session Unit := run [.check voteOneTwo () (rootOf 0)]

/-- An imported document has two attestations of the key with target epoch 2. -/
def conflicting : Session Unit := run [.importJSON
  [{ pubKey := ()
     signedAttestations := [some { voteOneTwo with signingRoot := some (rootOf 0) },
       some { voteOneTwo with signingRoot := some (rootOf 1) }] }]
  fun _ => true]

theorem exists_of_isOk {ε α : Type} {x : Except ε α} (h : x.isOk = true) : ∃ a, x = .ok a := by
  cases x with
  | error e => cases h
  | ok a => exact ⟨a, rfl⟩

end Examples

end LightChain.KV

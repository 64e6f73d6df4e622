import LightChain.Library.Program
import LightChain.Validator.Filesystem.Store

/-!
# Importing a slashing protection history into the minimal store

The entries of the document are read one after the other, and each of them is written as it
is read. A null block ends the blocks of its entry, and a null attestation or a public key of
too few bytes is a runtime panic. `Clean` and `Panics` say how an entry ends over its data
alone, and `import_safe_iff` is what an import guarantees for all checks that follow it.
-/
namespace LightChain.Filesystem
open Library Program List

/-- The string of a public key after `hexutil.Decode`: it is not hex, it has fewer than 48
bytes, or its first 48 bytes are the key. -/
inductive PubKeyString (PubKey : Type) where
  | invalid
  | short
  | key (pubKey : PubKey)
deriving DecidableEq, Repr

/-- The epochs of an attestation, `none` where the string is not a `uint64`. -/
structure EpochStrings where
  source : Option Nat
  target : Option Nat
deriving DecidableEq, Repr

/-- One entry of the document. A block is the slot of its string, `some none` where that is
not a `uint64`, and the entries of both lists can be null. -/
structure ProtectionData (PubKey : Type) where
  pubKey : PubKeyString PubKey
  signedBlocks : List (Option (Option Nat)) := []
  signedAttestations : List (Option EpochStrings) := []
deriving DecidableEq, Repr

inductive ImportError where
  | decodePubKey
  | slot
  | sourceEpoch
  | targetEpoch
  /-- A slice of fewer than 48 bytes is converted to an array. -/
  | shortPubKey
  /-- A field of a nil attestation is read. -/
  | nilAttestation
deriving DecidableEq, Repr

def ImportError.isPanic : ImportError → Bool
  | .shortPubKey | .nilAttestation => true
  | _ => false

def ImportError.message : ImportError → String
  | .decodePubKey => "could not decode public key from hex"
  | .slot => "could not import block proposals: could not convert slot to primitives.Slot"
  | .sourceEpoch =>
    "could not import attestations: could not convert source epoch to primitives.Epoch"
  | .targetEpoch =>
    "could not import attestations: could not convert target epoch to primitives.Epoch"
  | .shortPubKey => "cannot convert slice to array"
  | .nilAttestation => "invalid memory address or nil pointer dereference"

section Import

variable {PubKey : Type} [DecidableEq PubKey]

/-- A proposal that the store refuses to sign is skipped. -/
def importBlockProposals (pubKey : PubKey) :
    List (Option (Option Nat)) → EStateM ImportError (Store PubKey) Unit
  | [] => pure ()
  | none :: _ => pure ()
  | some none :: _ => throw .slot
  | some (some slot) :: blocks => do
    modify (recordProposal · pubKey slot)
    importBlockProposals pubKey blocks

/-- The first loop of `importAttestations`. -/
def readAttestations : List (Option EpochStrings) → Except ImportError (List Attestation)
  | [] => .ok []
  | none :: _ => .error .nilAttestation
  | some ⟨none, _⟩ :: _ => .error .sourceEpoch
  | some ⟨some _, none⟩ :: _ => .error .targetEpoch
  | some ⟨some source, some target⟩ :: rest => do
    return ⟨source, target⟩ :: (← readAttestations rest)

def importAttestations (pubKey : PubKey) (atts : List (Option EpochStrings)) :
    EStateM ImportError (Store PubKey) Unit :=
  match readAttestations atts with
  | .error e => throw e
  | .ok atts => modify (saveAttestationsForPubKey · pubKey atts)

def importItem : Option (ProtectionData PubKey) → EStateM ImportError (Store PubKey) Unit
  | none => pure ()
  | some item =>
    match item.pubKey with
    | .invalid => throw .decodePubKey
    | .short => throw .shortPubKey
    | .key pubKey => do
      importBlockProposals pubKey item.signedBlocks
      importAttestations pubKey item.signedAttestations

def importStandardProtectionJSON (data : List (Option (ProtectionData PubKey))) :
    EStateM ImportError (Store PubKey) Unit :=
  data.foldlM (fun _ item => importItem item) ()

end Import

section Entries

variable {PubKey : Type} {s s' t : Store PubKey}

def ProtectionData.blocksRead (item : ProtectionData PubKey) : List (Option (Option Nat)) :=
  item.signedBlocks.takeWhile Option.isSome

def Parsed (a : Option EpochStrings) : Prop :=
  ∃ source target, a = some ⟨some source, some target⟩

/-- The attestations up to a null one are numbers. -/
def ReachesNull (atts : List (Option EpochStrings)) : Prop :=
  ∃ before after, atts = before ++ none :: after ∧ ∀ a ∈ before, Parsed a

/-- An entry that is written without an error. -/
def Clean : Option (ProtectionData PubKey) → Prop
  | none => True
  | some item => (∃ pubKey, item.pubKey = .key pubKey) ∧
    (∀ b ∈ item.blocksRead, b ≠ some none) ∧ ∀ a ∈ item.signedAttestations, Parsed a

/-- An entry at which the import panics. -/
def Panics : Option (ProtectionData PubKey) → Prop
  | none => False
  | some item => item.pubKey = .short ∨
    (∃ pubKey, item.pubKey = .key pubKey) ∧ (∀ b ∈ item.blocksRead, b ≠ some none) ∧
      ReachesNull item.signedAttestations

variable (data : List (Option (ProtectionData PubKey)))

/-- Everything before the entry is written without an error, and the entry panics. -/
def ReachesPanic : Prop :=
  ∃ before item after, data = before ++ item :: after ∧ (∀ i ∈ before, Clean i) ∧ Panics item

/-- The document lists the block for the key, as it is or before the first null block. -/
def BlockListed (pubKey : PubKey) (slot : Nat) : Prop :=
  ∃ item, some item ∈ data ∧ item.pubKey = .key pubKey ∧ some (some slot) ∈ item.signedBlocks

def BlockRead (pubKey : PubKey) (slot : Nat) : Prop :=
  ∃ item, some item ∈ data ∧ item.pubKey = .key pubKey ∧ some (some slot) ∈ item.blocksRead

def AttestationListed (pubKey : PubKey) (att : Attestation) : Prop :=
  ∃ item, some item ∈ data ∧ item.pubKey = .key pubKey ∧
    some ⟨some att.source, some att.target⟩ ∈ item.signedAttestations

/-- The second attestation is a double vote with the first one, surrounds it or is surrounded
by it. -/
def Conflicts (att att' : Attestation) : Prop :=
  att'.target = att.target ∨ (att.source < att'.source ∧ att'.target < att.target) ∨
    (att'.source < att.source ∧ att.target < att'.target)

@[simp] theorem not_parsed_none : ¬ Parsed none := by simp [Parsed]
@[simp] theorem not_parsed_source {target : Option Nat} : ¬ Parsed (some ⟨none, target⟩) := by
  simp [Parsed]
@[simp] theorem not_parsed_target {source : Option Nat} : ¬ Parsed (some ⟨source, none⟩) := by
  simp [Parsed]
@[simp] theorem parsed_some {source target : Nat} : Parsed (some ⟨some source, some target⟩) :=
  ⟨source, target, rfl⟩

@[simp] theorem not_reachesNull_nil : ¬ ReachesNull [] := by simp [ReachesNull]

theorem reachesNull_cons {a : Option EpochStrings} {atts : List (Option EpochStrings)} :
    ReachesNull (a :: atts) ↔ a = none ∨ Parsed a ∧ ReachesNull atts := by
  constructor
  · rintro ⟨_ | ⟨b, before⟩, after, heq, hall⟩
    · exact .inl (cons.inj heq).1
    · obtain ⟨rfl, rfl⟩ := cons.inj heq
      rw [forall_mem_cons] at hall
      exact .inr ⟨hall.1, before, after, rfl, hall.2⟩
  · rintro (rfl | ⟨ha, before, after, rfl, hall⟩)
    · exact ⟨[], atts, rfl, nofun⟩
    · exact ⟨a :: before, after, rfl, forall_mem_cons.2 ⟨ha, hall⟩⟩

variable {item : Option (ProtectionData PubKey)}

theorem Clean.not_panics (h : Clean item) : ¬ Panics item := by
  cases item with
  | none => exact id
  | some item =>
    obtain ⟨⟨pubKey, hkey⟩, -, hatts⟩ := h
    rintro (hshort | ⟨-, -, before, after, heq, -⟩)
    · cases hkey.symm.trans hshort
    · exact not_parsed_none (hatts none (by simp [heq]))

variable {data : List (Option (ProtectionData PubKey))}

theorem reachesPanic_cons :
    ReachesPanic (item :: data) ↔ Panics item ∨ Clean item ∧ ReachesPanic data := by
  constructor
  · rintro ⟨_ | ⟨b, before⟩, i, after, heq, hall, hpanic⟩
    · obtain ⟨rfl, rfl⟩ := cons.inj heq
      exact .inl hpanic
    · obtain ⟨rfl, rfl⟩ := cons.inj heq
      rw [forall_mem_cons] at hall
      exact .inr ⟨hall.1, before, i, after, rfl, hall.2, hpanic⟩
  · rintro (hpanic | ⟨hclean, before, i, after, rfl, hall, hpanic⟩)
    · exact ⟨[], item, data, rfl, nofun, hpanic⟩
    · exact ⟨item :: before, i, after, rfl, forall_mem_cons.2 ⟨hclean, hall⟩, hpanic⟩

/-- The store after all entries were written. -/
structure Written (s : Store PubKey) (data : List (Option (ProtectionData PubKey)))
    (s' : Store PubKey) : Prop where
  blocks : ∀ k n, s'.RefusesBlock k n ↔
    s.RefusesBlock k n ∨ ∃ slot, BlockRead data k slot ∧ n ≤ slot
  attests : ∀ k att, s'.RefusesAttestation k att ↔ s.RefusesAttestation k att ∨
    ∃ a, AttestationListed data k a ∧ (att.source < a.source ∨ att.target ≤ a.target)

theorem Written.nil (s : Store PubKey) : Written s [] s :=
  ⟨by simp [BlockRead], by simp [AttestationListed]⟩

theorem Written.append {xs ys : List (Option (ProtectionData PubKey))}
    (hxs : Written s xs s') (hys : Written s' ys t) : Written s (xs ++ ys) t := by
  refine ⟨fun k n => ?_, fun k att => ?_⟩
  · rw [hys.blocks, hxs.blocks]
    simp only [BlockRead, mem_append]
    grind
  · rw [hys.attests, hxs.attests]
    simp only [AttestationListed, mem_append]
    grind

theorem Written.refuses (h : Written s data s') {k : PubKey} {att att' : Attestation}
    (hlisted : AttestationListed data k att) (hconflict : Conflicts att att') :
    s'.RefusesAttestation k att' := by
  refine (h.attests k att').2 (.inr ⟨att, hlisted, ?_⟩)
  rcases hconflict with h | ⟨-, h⟩ | ⟨h, -⟩
  · exact .inr h.le
  · exact .inr h.le
  · exact .inl h

end Entries

section Run

variable {PubKey : Type} [DecidableEq PubKey] {s : Store PubKey} {pubKey k : PubKey} {n : Nat}

def recordBlocks (s : Store PubKey) (pubKey : PubKey) (blocks : List (Option (Option Nat))) :
    Store PubKey :=
  ((blocks.takeWhile Option.isSome).filterMap id).foldl
    (fun s b => b.elim s (recordProposal s pubKey)) s

theorem importBlockProposals_run (pubKey : PubKey) (blocks : List (Option (Option Nat)))
    (s : Store PubKey) :
    ((∀ b ∈ blocks.takeWhile Option.isSome, b ≠ some none) ∧
      importBlockProposals pubKey blocks s = .ok () (recordBlocks s pubKey blocks)) ∨
    (¬ (∀ b ∈ blocks.takeWhile Option.isSome, b ≠ some none) ∧
      ∃ s', importBlockProposals pubKey blocks s = .error .slot s') := by
  induction blocks generalizing s with
  | nil => exact .inl ⟨nofun, rfl⟩
  | cons b blocks ih =>
    match b with
    | none => exact .inl ⟨nofun, rfl⟩
    | some none => exact .inr ⟨fun h => h (some none) (by simp) rfl, s, rfl⟩
    | some (some slot) =>
      rcases ih (recordProposal s pubKey slot) with ⟨hall, hrun⟩ | ⟨hall, s', hrun⟩
      · refine .inl ⟨by simpa using hall, ?_⟩
        rw [importBlockProposals, modify_bind_run, hrun]
        simp [recordBlocks]
      · refine .inr ⟨by simpa using hall, s', ?_⟩
        rw [importBlockProposals, modify_bind_run, hrun]

variable {blocks : List (Option (Option Nat))}

theorem refusesBlock_recordBlocks :
    (recordBlocks s pubKey blocks).RefusesBlock k n ↔ s.RefusesBlock k n ∨
      k = pubKey ∧ ∃ slot, some (some slot) ∈ blocks.takeWhile Option.isSome ∧ n ≤ slot := by
  induction blocks generalizing s with
  | nil => simp [recordBlocks]
  | cons b blocks ih =>
    match b with
    | none => simp [recordBlocks]
    | some none =>
      have hskip : recordBlocks s pubKey (some none :: blocks) = recordBlocks s pubKey blocks := by
        simp [recordBlocks]
      rw [hskip, ih]
      simp
    | some (some slot) =>
      have hstep : recordBlocks s pubKey (some (some slot) :: blocks) =
          recordBlocks (recordProposal s pubKey slot) pubKey blocks := by
        simp [recordBlocks]
      rw [hstep, ih, refusesBlock_recordProposal]
      simp
      grind

theorem refusesAttestation_recordBlocks {att : Attestation} :
    (recordBlocks s pubKey blocks).RefusesAttestation k att ↔ s.RefusesAttestation k att := by
  unfold recordBlocks
  induction (blocks.takeWhile Option.isSome).filterMap id generalizing s with
  | nil => rfl
  | cons b blocks ih =>
    cases b with
    | none => exact ih
    | some slot => exact ih.trans refusesAttestation_recordProposal

theorem readAttestations_run (atts : List (Option EpochStrings)) :
    ((∀ a ∈ atts, Parsed a) ∧ ∃ read, readAttestations atts = .ok read ∧
      ∀ a, a ∈ read ↔ some ⟨some a.source, some a.target⟩ ∈ atts) ∨
    (¬ (∀ a ∈ atts, Parsed a) ∧ ∃ e, readAttestations atts = .error e ∧
      (e.isPanic = true ↔ ReachesNull atts)) := by
  induction atts with
  | nil => exact .inl ⟨nofun, [], rfl, by simp⟩
  | cons a atts ih =>
    rw [forall_mem_cons, reachesNull_cons]
    match a with
    | none => exact .inr ⟨by simp, .nilAttestation, rfl, by simp [ImportError.isPanic]⟩
    | some ⟨none, target⟩ =>
      exact .inr ⟨by simp, .sourceEpoch, rfl, by simp [ImportError.isPanic]⟩
    | some ⟨some source, none⟩ =>
      exact .inr ⟨by simp, .targetEpoch, rfl, by simp [ImportError.isPanic]⟩
    | some ⟨some source, some target⟩ =>
      rcases ih with ⟨hall, read, hread, hmem⟩ | ⟨hall, e, hread, hpanic⟩
      · refine .inl ⟨⟨parsed_some, hall⟩, ⟨source, target⟩ :: read, ?_, ?_⟩
        · simp [readAttestations, hread, bind, Except.bind, pure, Except.pure]
        · intro a
          rw [mem_cons, mem_cons, hmem]
          cases a
          simp
      · refine .inr ⟨fun h => hall h.2, e, ?_, by simp [hpanic]⟩
        simp [readAttestations, hread, bind, Except.bind]

theorem written_saveAttestations {item : ProtectionData PubKey} {read : List Attestation}
    (hkey : item.pubKey = .key pubKey)
    (hread : ∀ a, a ∈ read ↔ some ⟨some a.source, some a.target⟩ ∈ item.signedAttestations) :
    Written s [some item]
      (saveAttestationsForPubKey (recordBlocks s pubKey item.signedBlocks) pubKey read) := by
  refine ⟨fun k n => ?_, fun k att => ?_⟩
  · rw [refusesBlock_saveAttestationsForPubKey, refusesBlock_recordBlocks]
    simp only [BlockRead, ProtectionData.blocksRead, mem_singleton, Option.some.injEq,
      exists_eq_left, hkey, PubKeyString.key.injEq]
    grind
  · rw [refusesAttestation_saveAttestationsForPubKey, refusesAttestation_recordBlocks]
    simp only [AttestationListed, hread, mem_singleton, Option.some.injEq, exists_eq_left,
      hkey, PubKeyString.key.injEq]
    grind

theorem importItem_run (item : Option (ProtectionData PubKey)) (s : Store PubKey) :
    (Clean item ∧ ∃ s', importItem item s = .ok () s' ∧ Written s [item] s') ∨
    (¬ Clean item ∧ ∃ e s', importItem item s = .error e s' ∧
      (e.isPanic = true ↔ Panics item)) := by
  cases item with
  | none =>
    refine .inl ⟨trivial, s, rfl, ?_, ?_⟩
    · simp [BlockRead]
    · simp [AttestationListed]
  | some item =>
    simp only [importItem, Clean, Panics, ProtectionData.blocksRead]
    cases hkey : item.pubKey with
    | invalid => exact .inr ⟨by simp, .decodePubKey, s, rfl, by simp [ImportError.isPanic]⟩
    | short => exact .inr ⟨by simp, .shortPubKey, s, rfl, by simp [ImportError.isPanic]⟩
    | key pubKey =>
      dsimp only
      rcases importBlockProposals_run pubKey item.signedBlocks s with
        ⟨hblocks, hrun⟩ | ⟨hblocks, s', hrun⟩
      · rw [bind_of_ok hrun, importAttestations]
        rcases readAttestations_run item.signedAttestations with
          ⟨hatts, read, hread, hmem⟩ | ⟨hatts, e, hread, hpanic⟩
        · rw [hread]
          exact .inl ⟨⟨⟨pubKey, rfl⟩, hblocks, hatts⟩, _, rfl, written_saveAttestations hkey hmem⟩
        · rw [hread]
          refine .inr ⟨fun h => hatts h.2.2, e, _, rfl, ?_⟩
          rw [hpanic]
          simpa using fun _ => hblocks
      · rw [bind_of_error hrun]
        refine .inr ⟨fun h => hblocks h.2.1, .slot, s', rfl, ?_⟩
        simp only [ImportError.isPanic, Bool.false_eq_true, false_iff]
        rintro (h | h)
        · cases h
        · exact hblocks h.2.1

theorem importStandardProtectionJSON_run (data : List (Option (ProtectionData PubKey)))
    (s : Store PubKey) :
    ((∀ i ∈ data, Clean i) ∧
      ∃ s', importStandardProtectionJSON data s = .ok () s' ∧ Written s data s') ∨
    (¬ (∀ i ∈ data, Clean i) ∧ ∃ e s', importStandardProtectionJSON data s = .error e s' ∧
      (e.isPanic = true ↔ ReachesPanic data)) := by
  unfold importStandardProtectionJSON
  induction data generalizing s with
  | nil => exact .inl ⟨nofun, s, rfl, .nil s⟩
  | cons item data ih =>
    rw [forall_mem_cons, reachesPanic_cons, foldlM_cons]
    rcases importItem_run item s with ⟨hclean, s', hrun, hwritten⟩ | ⟨hclean, e, s', hrun, hpanic⟩
    · rw [bind_of_ok hrun]
      have hnot := hclean.not_panics
      rcases ih s' with ⟨hall, t, hrest, hwritten'⟩ | ⟨hall, e, t, hrest, hpanic⟩
      · exact .inl ⟨⟨hclean, hall⟩, t, hrest, hwritten.append hwritten'⟩
      · refine .inr ⟨fun h => hall h.2, e, t, hrest, ?_⟩
        rw [hpanic]
        tauto
    · rw [bind_of_error hrun]
      refine .inr ⟨fun h => hclean h.1, e, s', rfl, ?_⟩
      rw [hpanic]
      tauto

end Run

section Checks

variable {PubKey : Type} [DecidableEq PubKey]

/-- What the validator asks the store before it signs. -/
inductive Check (PubKey : Type) where
  | proposal (pubKey : PubKey) (slot : Nat)
  | attestation (pubKey : PubKey) (att : Attestation)
deriving DecidableEq, Repr

/-- A check that is passed leaves its record, a refused one leaves the store as it is. -/
def Store.check (s : Store PubKey) : Check PubKey → Store PubKey
  | .proposal pubKey slot =>
    match slashableProposalCheck s pubKey slot with
    | .ok s' => s'
    | .error _ => s
  | .attestation pubKey att =>
    match slashableAttestationCheck s pubKey att with
    | .ok s' => s'
    | .error _ => s

/-- Everything that conflicts with an entry of the document is refused. -/
def Protects (data : List (Option (ProtectionData PubKey))) (s : Store PubKey) : Prop :=
  (∀ pubKey slot n, BlockListed data pubKey slot → n ≤ slot →
    ∃ e, slashableProposalCheck s pubKey n = .error e) ∧
  ∀ pubKey att att', AttestationListed data pubKey att → Conflicts att att' →
    ∃ e, slashableAttestationCheck s pubKey att' = .error e

/-- The import returns, and if it returns no error, everything that conflicts with an entry is
refused ever after. -/
def ImportProtects (data : List (Option (ProtectionData PubKey))) (s : Store PubKey) : Prop :=
  (∀ e s', importStandardProtectionJSON data s = .error e s' → e.isPanic = false) ∧
  ∀ s', importStandardProtectionJSON data s = .ok () s' →
    ∀ checks : List (Check PubKey), Protects data (checks.foldl Store.check s')

theorem le_check (s : Store PubKey) (c : Check PubKey) : s.Le (s.check c) := by
  cases c with
  | proposal pubKey slot =>
    have h : s.check (.proposal pubKey slot) = recordProposal s pubKey slot := by
      simp only [Store.check, slashableProposalCheck, recordProposal]
      cases saveProposalHistoryForSlot s pubKey slot <;> rfl
    rw [h]
    exact le_recordProposal
  | attestation pubKey att =>
    have h : s.check (.attestation pubKey att) = recordAttestation s pubKey att := by
      simp only [Store.check, slashableAttestationCheck, recordAttestation]
      cases saveAttestationForPubKey s pubKey att <;> rfl
    rw [h]
    exact le_recordAttestation

theorem le_foldl_check (s : Store PubKey) (checks : List (Check PubKey)) :
    s.Le (checks.foldl Store.check s) := by
  induction checks generalizing s with
  | nil => exact .refl s
  | cons c checks ih => exact (le_check s c).trans (ih _)

/-- An import protects unless it runs into a panic, or a slot after a null block is above all
that the key has on record and all that the document lists before a null block. -/
theorem importProtects_iff (data : List (Option (ProtectionData PubKey))) (s : Store PubKey) :
    ImportProtects data s ↔ ¬ ReachesPanic data ∧
      ((∀ i ∈ data, Clean i) → ∀ pubKey slot, BlockListed data pubKey slot →
        s.RefusesBlock pubKey slot ∨ ∃ slot', BlockRead data pubKey slot' ∧ slot ≤ slot') := by
  rcases importStandardProtectionJSON_run data s with
    ⟨hclean, s', hrun, hwritten⟩ | ⟨hclean, e, s', hrun, hpanic⟩
  · constructor
    · rintro ⟨-, hok⟩
      refine ⟨?_, fun _ pubKey slot hlisted => ?_⟩
      · rintro ⟨before, item, after, rfl, -, hpanic⟩
        exact (hclean item (by simp)).not_panics hpanic
      · have hrefused := (hok s' hrun []).1 pubKey slot slot hlisted le_rfl
        rw [slashableProposalCheck_error] at hrefused
        exact (hwritten.blocks pubKey slot).1 hrefused
    · rintro ⟨-, hbound⟩
      refine ⟨fun e t herror => (by cases hrun.symm.trans herror), fun t hok checks => ?_⟩
      cases hrun.symm.trans hok
      have hle := le_foldl_check s' checks
      constructor
      · intro pubKey slot n hlisted hn
        refine slashableProposalCheck_error.2 (hle.blocks pubKey n ((hwritten.blocks _ _).2 ?_))
        rcases hbound hclean pubKey slot hlisted with hold | ⟨slot', hread, hslot⟩
        · exact .inl (hold.mono hn)
        · exact .inr ⟨slot', hread, hn.trans hslot⟩
      · intro pubKey att att' hlisted hconflict
        exact slashableAttestationCheck_error.2
          (hle.attests pubKey att' (hwritten.refuses hlisted hconflict))
  · constructor
    · rintro ⟨herror, -⟩
      refine ⟨fun hreach => ?_, fun h => absurd h hclean⟩
      have hfalse := herror e s' hrun
      rw [hpanic.2 hreach] at hfalse
      cases hfalse
    · rintro ⟨hnot, -⟩
      refine ⟨fun e' t herror => ?_, fun t hok => by cases hrun.symm.trans hok⟩
      cases hrun.symm.trans herror
      simpa using mt hpanic.1 hnot

/-- A block at slot 10 stands after a null block. -/
def blockAfterNull : List (Option (ProtectionData Nat)) :=
  [some { pubKey := .key 7, signedBlocks := [some (some 5), none, some (some 10)] }]

/-- The only attestation of the entry is null. -/
def nullAttestation : List (Option (ProtectionData Nat)) :=
  [some { pubKey := .key 7, signedAttestations := [none] }]

theorem blockAfterNull_not_protected :
    ¬ ImportProtects blockAfterNull (fun _ => none) ∧
      ¬ ImportProtects nullAttestation (fun _ => none) := by
  constructor
  · rintro ⟨-, hok⟩
    obtain ⟨e, he⟩ := (hok _ rfl []).1 7 10 10 ⟨_, mem_singleton_self _, rfl, by simp⟩ le_rfl
    cases he
  · rintro ⟨herror, -⟩
    cases herror .nilAttestation _ rfl

end Checks

end LightChain.Filesystem

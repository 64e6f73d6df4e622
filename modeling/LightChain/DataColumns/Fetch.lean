import LightChain.DataColumns.Peers

/-!
# Fetching data column sidecars

The requested columns of some blocks are taken from the store; what is missing is asked from peers
(the direct phase); then every column that is neither stored nor received is asked for (the
indirect phase). After each phase a root is complete when its requested columns are at hand or can
be reconstructed. What is at hand of the other roots is assembled at the end, and the rest is
reported missing.
-/
namespace LightChain.DataColumns

variable {Root Data Peer : Type} [DecidableEq Root] [DecidableEq Peer]

/-- `MinimumColumnCountToReconstruct`. -/
def minimumColumnCountToReconstruct : Nat := (numberOfColumns + 1) / 2

structure StoredColumns (Root Data : Type) where
  columns : Columns Root Data
  keyed : ∀ k c, columns k = some c → c.key = k
  /-- Roots whose file cannot be read. -/
  unreadable : Root → Bool

/-- The cell recovery behind reconstruction. -/
structure Recovery (Root Data : Type) where
  columnLength : Data → Nat
  /-- The data of every column, from columns sorted by their index. -/
  recover : List (RODataColumn Root Data) → Option (Nat → Data)

structure FetchParams (Root Data Peer : Type) where
  net : Network Root Data Peer
  storage : StoredColumns Root Data
  recovery : Recovery Root Data

namespace StoredColumns

def empty : StoredColumns Root Data := ⟨fun _ => none, nofun, fun _ => false⟩

/-- `Summary(root).Stored()`. -/
def stored (st : StoredColumns Root Data) (root : Root) : Finset Nat :=
  (Finset.range numberOfColumns).filter fun i => st.columns.hasIndex root i

def get (st : StoredColumns Root Data) (root : Root) (indices : Option (List Nat)) :
    Except (FetchError Root Peer) (List (RODataColumn Root Data)) :=
  match st.columns.get root indices with
  | none => .error (.storage root)
  | some cs => if cs ≠ [] ∧ st.unreadable root then .error (.storage root) else .ok cs

end StoredColumns

/-- All columns of a block, from enough of them. -/
def Recovery.reconstructDataColumnSidecars (rec : Recovery Root Data)
    (cs : List (RODataColumn Root Data)) :
    Except (FetchError Root Peer) (List (RODataColumn Root Data)) :=
  match cs with
  | [] => .error .notEnoughColumns
  | reference :: rest =>
    if rest.any fun c => rec.columnLength c.data ≠ rec.columnLength reference.data then
      .error .columnLengthsDiffer
    else if rest.any fun c => c.root ≠ reference.root then .error .blockRootMismatch
    else if cs.length < minimumColumnCountToReconstruct then .error .notEnoughColumns
    else match rec.recover (cs.insertionSort fun a b => a.index ≤ b.index) with
      | none => .error .recover
      | some data => .ok <| (List.range numberOfColumns).map fun i =>
          ⟨reference.slot, reference.root, i, data i⟩

/-- What becomes of each root: its columns, or nothing when it stays incomplete. -/
def forRoots (f : Root → Except (FetchError Root Peer) (Option (List (RODataColumn Root Data)))) :
    List Root →
      Except (FetchError Root Peer) ((Root → List (RODataColumn Root Data)) × List Root)
  | [] => .ok (fun _ => [], [])
  | r :: rs =>
    match f r with
    | .error e => .error e
    | .ok found =>
      match forRoots f rs with
      | .error e => .error e
      | .ok (result, incomplete) =>
        match found with
        | some cs => .ok (Function.update result r cs, incomplete)
        | none => .ok (result, r :: incomplete)

omit [DecidableEq Peer] in
theorem forRoots_sublist
    {f : Root → Except (FetchError Root Peer) (Option (List (RODataColumn Root Data)))}
    {roots : List Root} {result : Root → List (RODataColumn Root Data)}
    {incomplete : List Root} (h : forRoots f roots = .ok (result, incomplete)) :
    incomplete.Sublist roots := by
  induction roots generalizing result incomplete with
  | nil =>
    cases h
    exact .slnil
  | cons r rs ih =>
    rw [forRoots] at h
    split at h
    · cases h
    split at h
    · cases h
    next rest hrest =>
      split at h <;> cases h
      · exact (ih hrest).cons r
      · exact (ih hrest).cons_cons r

namespace FetchParams

variable (p : FetchParams Root Data Peer) (requested : Finset Nat)

def requestSidecarsFromStorage :
    List Root →
      Except (FetchError Root Peer) ((Root → List (RODataColumn Root Data)) × List Root) :=
  forRoots fun root =>
    if requested ⊆ p.storage.stored root then
      match p.storage.get root (some (sortedSliceFromMap requested)) with
      | .error e => .error e
      | .ok cs => .ok (some cs)
    else .ok none

variable (available : Root → List (RODataColumn Root Data))

def assembleAvailableSidecarsForRoot (root : Root) :
    Except (FetchError Root Peer) (List (RODataColumn Root Data)) :=
  match p.storage.get root (some (sortedSliceFromMap requested)) with
  | .error e => .error e
  | .ok stored => .ok (stored ++ available root)

def availableIndices (root : Root) :
    Finset Nat := ((available root).map RODataColumn.index).toFinset

def isReconstructionNeeded (root : Root) :
    Bool := decide (¬ requested ⊆ p.storage.stored root ∪ availableIndices available root)

def isReconstructionPossible (root : Root) : Bool :=
  decide ((p.storage.stored root).card + (availableIndices available root).card ≥
    minimumColumnCountToReconstruct)

def mergeAvailableSidecars :
    List Root →
      Except (FetchError Root Peer) ((Root → List (RODataColumn Root Data)) × List Root) :=
  forRoots fun root =>
    if p.isReconstructionNeeded requested available root then
      if p.isReconstructionPossible available root then
        match p.storage.get root none with
        | .error e => .error e
        | .ok stored =>
          match p.recovery.reconstructDataColumnSidecars (stored ++ available root) with
          | .error e => .error e
          | .ok cs => .ok (some (cs.filter fun c => c.index ∈ requested))
      else .ok none
    else
      match p.assembleAvailableSidecarsForRoot requested available root with
      | .error e => .error e
      | .ok cs => .ok (some cs)

/-- What is at hand of incomplete roots. -/
def assembleAvailableSidecars (roots : List Root) :
    Except (FetchError Root Peer) ((Root → List (RODataColumn Root Data)) × IndicesByRoot Root) :=
  match forRoots (fun root =>
      match p.assembleAvailableSidecarsForRoot requested available root with
      | .error e => .error e
      | .ok cs => .ok (some cs)) roots with
  | .error e => .error e
  | .ok (result, _) => .ok (result, fun root =>
      if root ∈ roots then requested \ availableIndices result root else ∅)

/-- The start of the direct phase: the requested columns that are not stored are wanted. -/
def startDirect (incomplete : List Root) : Progress Root Data Peer where
  wanted root := if root ∈ incomplete then requested \ p.storage.stored root else ∅
  peers := (p.net.connected 0).dedup
  collected _ := []
  time := 0
  searches := []
  rounds := []

def requestDirectSidecarsFromPeers (blocks : Blocks Root) (incomplete : List Root) :
    Except (FetchError Root Peer) Unit × Progress Root Data Peer :=
  (p.startDirect requested incomplete).request p.net blocks fun _ wanted => wanted

/-- A root is no longer asked for when it can be reconstructed or its requested columns are there. -/
def settleIndirect (collected : Root → List (RODataColumn Root Data))
    (wanted : IndicesByRoot Root) : IndicesByRoot Root := fun root =>
  if (p.storage.stored root).card + (collected root).length ≥ minimumColumnCountToReconstruct then ∅
  else if Disjoint requested (wanted root) then ∅
  else wanted root

/-- The start of the indirect phase: every column that is not at hand is wanted. -/
def startIndirect (incomplete : List Root) (direct : Progress Root Data Peer) :
    Progress Root Data Peer where
  wanted root :=
    if root ∈ incomplete then
      Finset.range numberOfColumns \
        (p.storage.stored root ∪ availableIndices direct.collected root)
    else ∅
  peers := (p.net.connected direct.time).dedup
  collected root := if root ∈ incomplete then direct.collected root else []
  time := direct.time
  searches := direct.searches
  rounds := direct.rounds

def requestIndirectSidecarsFromPeers (blocks : Blocks Root) (incomplete : List Root)
    (direct : Progress Root Data Peer) :
    Except (FetchError Root Peer) Unit × Progress Root Data Peer :=
  (p.startIndirect incomplete direct).request p.net blocks (p.settleIndirect requested)

end FetchParams

def readBlocks : List (ROBlock Root) → Except (FetchError Root Peer) (List (ROBlock Root))
  | [] => .ok []
  | b :: bs =>
    match b.commitments with
    | none => .error (.commitments b.root)
    | some n =>
      match readBlocks bs with
      | .error e => .error e
      | .ok rest => .ok (if n = 0 then rest else b :: rest)

def Blocks.of (bs : List (ROBlock Root)) : Blocks Root where
  slotByRoot r := (bs.reverse.find? fun b => b.root = r).map ROBlock.slot
  roots := (bs.map ROBlock.root).dedup
  slotsWithCommitments := bs.map ROBlock.slot

structure Fetched (Root Data : Type) where
  result : Root → List (RODataColumn Root Data)
  missing : IndicesByRoot Root

/-- What happened on the way: the columns of the direct phase, and the searches and rounds. -/
structure FetchLog (Root Data Peer : Type) where
  direct : Root → List (RODataColumn Root Data)
  searches : List (Search Root Peer)
  rounds : List (Round Root Data Peer)

/-- The columns that were received and verified for a root. -/
def FetchLog.received (log : FetchLog Root Data Peer) (root : Root) :
    List (RODataColumn Root Data) := log.rounds.flatMap fun round => round.added root

namespace FetchParams

variable (p : FetchParams Root Data Peer) (requested : Finset Nat)

def copyRoots (roots : List Root) (new old : Root → List (RODataColumn Root Data)) (root : Root) :
    List (RODataColumn Root Data) := if root ∈ roots then new root else old root

/-- From the end of the indirect phase on. -/
def finish (incomplete : List Root) (result direct : Root → List (RODataColumn Root Data))
    (indirect : Progress Root Data Peer) : Except (FetchError Root Peer) (Fetched Root Data) :=
  match p.mergeAvailableSidecars requested indirect.collected incomplete with
  | .error e => .error e
  | .ok (merged, still) =>
    let result := copyRoots incomplete merged result
    if still = [] then .ok ⟨result, fun _ => ∅⟩
    else match p.assembleAvailableSidecars requested direct still with
      | .error e => .error e
      | .ok (assembled, missing) => .ok ⟨copyRoots still assembled result, missing⟩

/-- From the end of the direct phase on. -/
def continueIndirect (blocks : Blocks Root) (incomplete : List Root)
    (result : Root → List (RODataColumn Root Data)) (direct : Progress Root Data Peer) :
    Except (FetchError Root Peer) (Fetched Root Data) × FetchLog Root Data Peer :=
  let log : FetchLog Root Data Peer := ⟨direct.collected, direct.searches, direct.rounds⟩
  match p.mergeAvailableSidecars requested direct.collected incomplete with
  | .error e => (.error e, log)
  | .ok (merged, still) =>
    let result := copyRoots incomplete merged result
    if still = [] then (.ok ⟨result, fun _ => ∅⟩, log)
    else
      let indirect := p.requestIndirectSidecarsFromPeers requested blocks still direct
      let log : FetchLog Root Data Peer :=
        ⟨direct.collected, indirect.2.searches, indirect.2.rounds⟩
      match indirect.1 with
      | .error e => (.error e, log)
      | .ok () => (p.finish requested still result direct.collected indirect.2, log)

def fetchDataColumnSidecars (roBlocks : List (ROBlock Root)) :
    Except (FetchError Root Peer) (Fetched Root Data) × FetchLog Root Data Peer :=
  let empty : FetchLog Root Data Peer := ⟨fun _ => [], [], []⟩
  if roBlocks = [] ∨ requested = ∅ then (.ok ⟨fun _ => [], fun _ => ∅⟩, empty)
  else match readBlocks roBlocks with
    | .error e => (.error e, empty)
    | .ok bs =>
      let blocks := Blocks.of bs
      match p.requestSidecarsFromStorage requested blocks.roots with
      | .error e => (.error e, empty)
      | .ok (result, incomplete) =>
        if incomplete = [] then (.ok ⟨result, fun _ => ∅⟩, empty)
        else
          let direct := p.requestDirectSidecarsFromPeers requested blocks incomplete
          match direct.1 with
          | .error e => (.error e, ⟨direct.2.collected, direct.2.searches, direct.2.rounds⟩)
          | .ok () => p.continueIndirect requested blocks incomplete result direct.2

end FetchParams

end LightChain.DataColumns

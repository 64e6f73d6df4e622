import LightChain.Library.KeyIndex
import LightChain.Library.Run

/-!
# The block buckets of the database

Blocks are stored by root. Two index buckets pack the roots of the blocks of a slot, and of the
blocks with a parent root. `SaveROBlocks` appends to both, `DeleteBlock` takes a root out of both
and drops the list of the children of the block, and `DeleteHistoricalDataBeforeSlot` drops the
lists of whole slots and the lists of children of their blocks.
-/
namespace LightChain.BlockStore
open Library

structure Block (ρ τ : Type) where
  slot : Nat
  parentRoot : ρ
  body : τ
deriving DecidableEq, Repr

/-- The buckets, with the cache of decoded blocks. A key that is not in an index bucket has the
empty list. -/
structure Store (ρ τ : Type) where
  blocks : ρ → Option (Block ρ τ)
  blockSlotIndices : Nat → List ρ
  blockParentRootIndices : ρ → List ρ
  finalizedBlockRootsIndex : ρ → Bool
  genesisBlockRoot : Option ρ
  blockCache : ρ → Option (Block ρ τ)

namespace Store

variable {ρ τ : Type} [DecidableEq ρ] (s : Store ρ τ)

def empty : Store ρ τ where
  blocks _ := none
  blockSlotIndices _ := []
  blockParentRootIndices _ := []
  finalizedBlockRootsIndex _ := false
  genesisBlockRoot := none
  blockCache _ := none

def getBlock (root : ρ) : Option (Block ρ τ) :=
  match s.blockCache root with
  | some block => some block
  | none => s.blocks root

def putBlock (root : ρ) (block : Block ρ τ) : Store ρ τ :=
  { s with blocks := Function.update s.blocks root (some block) }

def cacheBlock (root : ρ) (block : Block ρ τ) : Store ρ τ :=
  { s with blockCache := Function.update s.blockCache root (some block) }

def addSlotIndex (slot : Nat) (root : ρ) : Store ρ τ :=
  { s with
    blockSlotIndices := Function.update s.blockSlotIndices slot (s.blockSlotIndices slot ++ [root]) }

def addParentIndex (parent root : ρ) : Store ρ τ :=
  { s with
    blockParentRootIndices := Function.update s.blockParentRootIndices parent
      (s.blockParentRootIndices parent ++ [root]) }

/-- The order of the two buckets is that of a map. A root that the first one lists already ends
the update. -/
def updateValueForIndices (parentFirst : Bool) (root : ρ) (block : Block ρ τ) : Store ρ τ :=
  if parentFirst then
    if root ∈ s.blockParentRootIndices block.parentRoot then s
    else
      let s := s.addParentIndex block.parentRoot root
      if root ∈ s.blockSlotIndices block.slot then s else s.addSlotIndex block.slot root
  else
    if root ∈ s.blockSlotIndices block.slot then s
    else
      let s := s.addSlotIndex block.slot root
      if root ∈ s.blockParentRootIndices block.parentRoot then s
      else s.addParentIndex block.parentRoot root

/-- One block of a batch. The transaction fills the cache when it is over. -/
def saveROBlock (parentFirst : ρ → Bool) (cache : Bool) (s : Store ρ τ) (entry : ρ × Block ρ τ) :
    Store ρ τ :=
  match s.blocks entry.1 with
  | some _ => s
  | none =>
    let s := (s.putBlock entry.1 entry.2).updateValueForIndices (parentFirst entry.1) entry.1 entry.2
    if cache then s.cacheBlock entry.1 entry.2 else s

def saveROBlocks (parentFirst : ρ → Bool) (blks : List (ρ × Block ρ τ)) (cache : Bool) :
    Store ρ τ :=
  blks.foldl (saveROBlock parentFirst cache) s

def deleteSlotIndexEntry (slot : Nat) (root : ρ) : Store ρ τ :=
  { s with
    blockSlotIndices :=
      Function.update s.blockSlotIndices slot ((s.blockSlotIndices slot).erase root) }

def deleteMatchingParentIndex (parent child : ρ) : Store ρ τ :=
  { s with
    blockParentRootIndices := Function.update s.blockParentRootIndices parent
      ((s.blockParentRootIndices parent).erase child) }

/-- The block leaves its bucket, and with it the list of its children. -/
def deleteBlockEntry (root : ρ) : Store ρ τ :=
  { s with
    blocks := Function.update s.blocks root none
    blockParentRootIndices := Function.update s.blockParentRootIndices root [] }

/-- `DeleteBlock`. The deletion of the state before it may fail. -/
def deleteBlock (stateDeleted : Bool) (root : ρ) : Store ρ τ :=
  if !stateDeleted then s
  else if s.finalizedBlockRootsIndex root then s
  else
    match s.getBlock root with
    | none => s
    | some block =>
      let s := (s.deleteSlotIndexEntry block.slot root).deleteMatchingParentIndex
        block.parentRoot root
      let s := s.deleteBlockEntry root
      { s with blockCache := Function.update s.blockCache root none }

/-- The loop of `slotRootsInRange` over the slots below the given one, downwards. A batch size
below zero is no limit. -/
def slotRoots (start : Nat) (batchSize : Int) : Nat → List (Nat × ρ) → List (Nat × ρ)
  | 0, pairs => pairs
  | slot + 1, pairs =>
    if s.blockSlotIndices slot = [] then slotRoots start batchSize slot pairs
    else if slot < start then pairs
    else
      let pairs := pairs ++ (s.blockSlotIndices slot).map (slot, ·)
      if 0 ≤ batchSize ∧ batchSize ≤ pairs.length then pairs
      else slotRoots start batchSize slot pairs

/-- The roots of the slots in a range, or `none` for an invalid range. -/
def slotRootsInRange (start last : Nat) (batchSize : Int) : Option (List (Nat × ρ)) :=
  if last < start then none else some (s.slotRoots start batchSize (last + 1) [])

/-- What the deletion of historical data does for one root. -/
def deleteHistorical (s : Store ρ τ) (sr : Nat × ρ) : Store ρ τ :=
  let s := s.deleteBlockEntry sr.2
  { s with finalizedBlockRootsIndex := Function.update s.finalizedBlockRootsIndex sr.2 false }

def deleteSlotIndex (s : Store ρ τ) (sr : Nat × ρ) : Store ρ τ :=
  { s with blockSlotIndices := Function.update s.blockSlotIndices sr.1 [] }

def dropCached (s : Store ρ τ) (sr : Nat × ρ) : Store ρ τ :=
  { s with blockCache := Function.update s.blockCache sr.2 none }

/-- What is deleted before the context is cancelled. `checks` is the number of looks at it before
that, if it is cancelled. -/
def beforeCancel (checks : Option Nat) (slotRoots : List (Nat × ρ)) : List (Nat × ρ) :=
  match checks with
  | some n => slotRoots.take n
  | none => slotRoots

/-- A cancelled transaction ends before the slot indices are deleted, and is committed all the
same. -/
def deleteHistoricalDataBeforeSlot (cutoffSlot : Nat) (batchSize : Int) (checks : Option Nat) :
    Store ρ τ :=
  match s.slotRootsInRange 0 cutoffSlot batchSize with
  | none => s
  | some slotRoots =>
    let deleted := beforeCancel checks slotRoots
    let s := deleted.foldl deleteHistorical s
    if deleted.length < slotRoots.length then s
    else slotRoots.foldl dropCached (slotRoots.foldl deleteSlotIndex s)

end Store

/-- The calls that write to the buckets, with what they do not decide themselves. -/
inductive Call (ρ τ : Type) where
  | saveROBlocks (blks : List (ρ × Block ρ τ)) (cache : Bool) (parentFirst : ρ → Bool)
  | deleteBlock (root : ρ) (stateDeleted : Bool)
  | deleteHistoricalDataBeforeSlot (cutoffSlot : Nat) (batchSize : Int) (checks : Option Nat)
  /-- The cache forgets blocks at any time. -/
  | evict (kept : ρ → Bool)

def step {ρ τ : Type} [DecidableEq ρ] (s : Store ρ τ) : Call ρ τ → Store ρ τ
  | .saveROBlocks blks cache parentFirst => s.saveROBlocks parentFirst blks cache
  | .deleteBlock root stateDeleted => s.deleteBlock stateDeleted root
  | .deleteHistoricalDataBeforeSlot cutoffSlot batchSize checks =>
    s.deleteHistoricalDataBeforeSlot cutoffSlot batchSize checks
  | .evict kept => { s with blockCache := fun r => if kept r then s.blockCache r else none }

end LightChain.BlockStore

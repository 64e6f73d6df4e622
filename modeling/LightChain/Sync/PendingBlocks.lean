import LightChain.Config.Params
import LightChain.Library.ExpiringCache
import LightChain.Library.Fallible

/-!
# The queue of pending blocks

Blocks whose parent is not known yet, or whose slot has not come, wait in
`slotToPendingBlocks`, an expiring cache with at most three blocks for a slot. The set
`seenPendingBlocks` holds the roots of the blocks that wait. It is updated by the functions of
the queue, and by the callback that the cache runs on the blocks it evicts. The clock is read
once in an operation.
-/
namespace LightChain.Sync
open Library

structure BeaconBlock where
  slot : Nat
  parentRoot : Nat
  body : Nat
deriving DecidableEq, Repr

/-- Two signed blocks can be one block with two signatures. -/
structure SignedBlock where
  block : BeaconBlock
  signature : Nat
deriving DecidableEq, Repr

/-- A hash of blocks without collisions. -/
structure BlockHash where
  hashTreeRoot : BeaconBlock → Nat
  injective : Function.Injective hashTreeRoot

structure Queue where
  slotToPendingBlocks : ExpiringCache Nat (List SignedBlock)
  seenPendingBlocks : Nat → Bool
  now : Nat

inductive Error where
  | nilBlock
  /-- `Replace` did not find the item. -/
  | noItem (slot : Nat)
deriving DecidableEq, Repr

def Error.message : Error → String
  | .nilBlock => "signed beacon block can't be nil"
  | .noItem slot => "Item " ++ toString slot ++ " doesn't exist"

def maxBlocksPerSlot : Nat := 3

variable (cfg : BeaconChainConfig) (hash : BlockHash)

/-- One epoch, in nanoseconds. -/
def pendingBlockExpTime : Nat := cfg.slotsPerEpoch * cfg.secondsPerSlot * 1000000000

def SignedBlock.root (b : SignedBlock) : Nat := hash.hashTreeRoot b.block

def Queue.new (now : Nat) : Queue where
  slotToPendingBlocks := ⟨∅, pendingBlockExpTime cfg⟩
  seenPendingBlocks := fun _ => false
  now := now

/-- The callback that the cache runs on evicted blocks. -/
def onEvicted (seen : Nat → Bool) (blks : List SignedBlock) : Nat → Bool :=
  blks.foldl (fun seen b => Function.update seen (b.root hash) false) seen

variable (q : Queue)

def Queue.pendingBlocksInCache (slot : Nat) : List SignedBlock :=
  (q.slotToPendingBlocks.get q.now slot).getD []

def Queue.isBlockInQueue (parentRoot : Nat) : Bool := q.seenPendingBlocks parentRoot

def Queue.addPendingBlockToCache : Option SignedBlock → Except Error Queue
  | none => .error .nilBlock
  | some b =>
    let blks := q.pendingBlocksInCache b.block.slot
    if maxBlocksPerSlot ≤ blks.length then .ok q
    else
      .ok { q with
        slotToPendingBlocks := q.slotToPendingBlocks.set q.now b.block.slot (blks ++ [b])
          (pendingBlockExpTime cfg) }

def Queue.insertBlockToPendingQueue (b : Option SignedBlock) (r : Nat) : Except Error Queue :=
  if q.seenPendingBlocks r then .ok q
  else
    match q.addPendingBlockToCache cfg b with
    | .error e => .error e
    | .ok q => .ok { q with seenPendingBlocks := Function.update q.seenPendingBlocks r true }

def Queue.deleteBlockFromPendingQueue (slot : Nat) (b : Option SignedBlock) (r : Nat) :
    Except Error Queue :=
  let blks := q.pendingBlocksInCache slot
  if blks.length = 0 then .ok q
  else
    match b with
    | none => .error .nilBlock
    | some b =>
      let newBlks := blks.filter (· ≠ b)
      if newBlks.length = 0 then
        let deleted := q.slotToPendingBlocks.delete slot
        .ok { q with
          slotToPendingBlocks := deleted.1
          seenPendingBlocks :=
            Function.update (onEvicted hash q.seenPendingBlocks (deleted.2.getD [])) r false }
      else
        -- The expiration time is shorter the more blocks are left.
        match q.slotToPendingBlocks.replace q.now slot newBlks
            (pendingBlockExpTime cfg / newBlks.length) with
        | none => .error (.noItem slot)
        | some cache =>
          .ok { q with
            slotToPendingBlocks := cache
            seenPendingBlocks := Function.update q.seenPendingBlocks r false }

def Queue.deleteExpiredBlocksFromCache : Queue :=
  let deleted := q.slotToPendingBlocks.deleteExpired q.now
  { q with
    slotToPendingBlocks := deleted.1
    seenPendingBlocks := deleted.2.foldl (onEvicted hash) q.seenPendingBlocks }

/-- What the loops of `validatePendingSlots` carry. -/
structure Sweep where
  queue : Queue
  oldBlockRoots : Nat → Bool := fun _ => false

/-- Take a block out of the queue that is old or descends from an old one. -/
def Sweep.drop (st : Sweep) (slot : Nat) (b : SignedBlock) : Except (Error × Queue) Sweep :=
  match st.queue.deleteBlockFromPendingQueue cfg hash slot (some b) (b.root hash) with
  | .error e => .error (e, st.queue)
  | .ok q => .ok ⟨q, Function.update st.oldBlockRoots (b.root hash) true⟩

def Sweep.validateBlock (finalizedEpoch slot : Nat) (st : Sweep) (b : SignedBlock) :
    Except (Error × Queue) Sweep :=
  let epoch := slot / cfg.slotsPerEpoch
  if st.oldBlockRoots b.block.parentRoot then st.drop cfg hash slot b
  else if finalizedEpoch > 0 ∧ epoch ≤ finalizedEpoch then st.drop cfg hash slot b
  else .ok st

def Sweep.validateSlot (finalizedEpoch : Nat) (st : Sweep) (slot : Nat) :
    Except (Error × Queue) Sweep :=
  (st.queue.pendingBlocksInCache slot).foldlM (Sweep.validateBlock cfg hash finalizedEpoch slot) st

/-- `order` is the order in which the loop ranges over the slots of the cache. An error leaves
the queue as it is then. -/
def Queue.validatePendingSlots (finalizedEpoch : Nat) (order : List Nat) :
    Except (Error × Queue) Queue :=
  match order.foldlM (Sweep.validateSlot cfg hash finalizedEpoch) { queue := q } with
  | .error e => .error e
  | .ok st => .ok st.queue

def Queue.clearPendingSlots : Queue :=
  { q with
    slotToPendingBlocks := q.slotToPendingBlocks.flush
    seenPendingBlocks := fun _ => false }

section Runs

/-- The calls on the queue. A block is passed with its own slot and root. -/
inductive Action where
  | insertBlock (b : SignedBlock)
  | deleteBlock (b : SignedBlock)
  | deleteExpired
  | validate (finalizedEpoch : Nat) (order : List Nat)
  | clear
deriving DecidableEq, Repr

/-- An operation, some time after the one before. -/
structure Operation where
  elapsed : Nat
  action : Action
deriving DecidableEq, Repr

def Queue.wait (q : Queue) (elapsed : Nat) : Queue := { q with now := q.now + elapsed }

/-- The queue after a call. A call that fails leaves the queue as it was, or, in the middle of
`validatePendingSlots`, as it is then. -/
def Queue.act (q : Queue) : Action → Queue
  | .insertBlock b =>
    match q.insertBlockToPendingQueue cfg (some b) (b.root hash) with
    | .ok q => q
    | .error _ => q
  | .deleteBlock b =>
    match q.deleteBlockFromPendingQueue cfg hash b.block.slot (some b) (b.root hash) with
    | .ok q => q
    | .error _ => q
  | .deleteExpired => q.deleteExpiredBlocksFromCache hash
  | .validate finalizedEpoch order =>
    match q.validatePendingSlots cfg hash finalizedEpoch order with
    | .ok q => q
    | .error (_, q) => q
  | .clear => q.clearPendingSlots

def Queue.step (q : Queue) (op : Operation) : Queue := (q.wait op.elapsed).act cfg hash op.action

end Runs

end LightChain.Sync

import LightChain.ForkChoice.Store
import LightChain.Library.Run

/-!
# The operations of the fork choice

The methods that the beacon node calls: inserting blocks with the checkpoints of their
states, votes and balances, the tick of the clock, execution validity and `Head`. A `Call` is
one of them with everything it reads from outside, and a run is a list of calls on a new
fork choice.
-/
namespace LightChain.DoublyLinkedTree
open Library Program

section Checkpoints

variable (cfg : BeaconChainConfig)

/-- Ask the handler for the balances at the justified root. -/
def updateJustifiedBalances : Method Unit := fun w =>
  let w' := { w with balancesByRoot := fun k => w.balancesByRoot (k + 1) }
  match w.balancesByRoot 0 with
  | none => .error .balancesByRoot w'
  | some balances =>
    .ok () { w' with
      justifiedBalances := balances
      committeeWeight :=
        balances.foldl (fun weight val => if 0 < val then add64 weight val else weight) 0 /
          cfg.slotsPerEpoch
      numActiveValidators := balances.countP (0 < ·) }

def raiseJustified (jc : Checkpoint) : Method Unit := do
  if (← get).justifiedCheckpoint.epoch < jc.epoch then
    modify fun w => { w with
      prevJustifiedCheckpoint := w.justifiedCheckpoint
      justifiedCheckpoint := jc }
    wrap "could not update justified balances" (updateJustifiedBalances cfg)

def raiseFinalized (fc : Checkpoint) : Method Unit := do
  if (← get).finalizedCheckpoint.epoch < fc.epoch then
    modify fun w => { w with finalizedCheckpoint := fc }
    prune cfg

/-- Raise the checkpoints of the store to those of an inserted block. -/
def updateCheckpoints (jc fc : Checkpoint) : Method Unit := do
  raiseJustified cfg jc
  raiseFinalized cfg fc

def realizeJustified (node : Nat) : Method Unit := do
  let w ← get
  if w.justifiedCheckpoint.epoch < (w.heap node).justifiedEpoch then
    modify fun w => { w with
      prevJustifiedCheckpoint := w.justifiedCheckpoint
      justifiedCheckpoint := w.unrealizedJustifiedCheckpoint }
    wrap "could not update justified balances" (updateJustifiedBalances cfg)

def realizeFinalized (node : Nat) : Method Unit := do
  let w ← get
  if w.finalizedCheckpoint.epoch < (w.heap node).finalizedEpoch then
    modify fun w => { w with finalizedCheckpoint := w.unrealizedFinalizedCheckpoint }

/-- The round of `updateUnrealizedCheckpoints` for one node. -/
def realizeNode (node : Nat) : Method Unit := do
  modifyNode node fun n => { n with
    justifiedEpoch := n.unrealizedJustifiedEpoch
    finalizedEpoch := n.unrealizedFinalizedEpoch }
  realizeJustified cfg node
  realizeFinalized node

/-- `order` is the order in which the map of nodes is ranged over. -/
def updateUnrealizedCheckpoints (order : List Nat) : Method Unit :=
  order.foldlM (fun _ node => realizeNode cfg node) ()

/-- The state of a block as far as inserting it reads it. `unrealized` is the outcome of
`precompute.UnrealizedCheckpoints`, and `none` if it fails. -/
structure BlockState where
  slot : Nat
  currentJustifiedCheckpoint : Option Checkpoint
  finalizedCheckpoint : Option Checkpoint
  unrealized : Option (Checkpoint × Checkpoint)
deriving DecidableEq, Repr

/-- The checkpoints that a node is pulled up to are accounted for in the store. -/
def World.accountUnrealized (w : World) (uj uf : Checkpoint) : World :=
  let w := if w.unrealizedJustifiedCheckpoint.epoch < uj.epoch then
      { w with unrealizedJustifiedCheckpoint := uj } else w
  if w.unrealizedFinalizedCheckpoint.epoch < uf.epoch then
    -- The justified checkpoint is overwritten as well, without a comparison.
    { w with unrealizedJustifiedCheckpoint := uj, unrealizedFinalizedCheckpoint := uf }
  else w

/-- The parent's checkpoints are as good as those of the node can be. -/
def tooEarly (parent : Node) (stateSlot currentSlot : Nat) : Bool :=
  let currentEpoch := toEpoch cfg currentSlot
  parent.unrealizedJustifiedEpoch == currentEpoch ||
    (toEpoch cfg stateSlot == currentEpoch &&
      add64 parent.unrealizedJustifiedEpoch 1 == currentEpoch &&
      decide (mul64 (stateSlot % cfg.slotsPerEpoch) 3 < mul64 cfg.slotsPerEpoch 2))

def pullTips (state : BlockState) (node currentSlot : Nat) (jc fc : Checkpoint) :
    Method (Checkpoint × Checkpoint) := do
  let w ← get
  match (w.heap node).parent with
  | none => return (jc, fc)
  | some parent =>
    if tooEarly cfg (w.heap parent) state.slot currentSlot then
      modifyNode node fun n => { n with
        unrealizedJustifiedEpoch := (w.heap parent).unrealizedJustifiedEpoch
        unrealizedFinalizedEpoch := (w.heap parent).unrealizedFinalizedEpoch }
      return (jc, fc)
    else
      let (uj, uf) := state.unrealized.getD (jc, fc)
      modify (·.accountUnrealized uj uf)
      modifyNode node fun n => { n with
        unrealizedJustifiedEpoch := uj.epoch
        unrealizedFinalizedEpoch := uf.epoch }
      if toEpoch cfg state.slot < toEpoch cfg currentSlot then
        modifyNode node fun n => { n with
          justifiedEpoch := uj.epoch
          finalizedEpoch := uf.epoch }
        return (uj, uf)
      else return (jc, fc)

/-- `currentSlot` is what `pullTips` reads from the clock. -/
def insertNode (state : BlockState) (block : Block) (clock : InsertClock) (currentSlot : Nat) :
    Method Unit := do
  match state.currentJustifiedCheckpoint, state.finalizedCheckpoint with
  | some jc, some fc =>
    let node ← insert cfg block jc.epoch fc.epoch clock
    let (jc, fc) ← pullTips cfg state node currentSlot jc fc
    wrap "could not update checkpoints"
      (withCleanup (updateCheckpoints cfg jc fc) (removeNode node))
  | _, _ => throw .invalidNilCheckpoint

structure BlockAndCheckpoints where
  block : Block
  justifiedCheckpoint : Checkpoint
  finalizedCheckpoint : Checkpoint
  clock : InsertClock := {}
deriving DecidableEq, Repr

def insertChain (chain : List BlockAndCheckpoints) : Method Unit :=
  chain.foldlM (fun _ bcp => do
    let _ ← insert cfg bcp.block bcp.justifiedCheckpoint.epoch bcp.finalizedCheckpoint.epoch
      bcp.clock
    updateCheckpoints cfg bcp.justifiedCheckpoint bcp.finalizedCheckpoint) ()

def newSlot (slot : Nat) (order : List Nat) : Method Unit := do
  modify fun w => { w with proposerBoostRoot := 0 }
  if isEpochStart cfg slot then
    wrap "could not update unrealized checkpoints" (updateUnrealizedCheckpoints cfg order)
    prune cfg

def updateJustifiedCheckpoint (jc : Option Checkpoint) : Method Unit :=
  match jc with
  | none => throw .invalidNilCheckpoint
  | some jc => do
    modify fun w => { w with
      prevJustifiedCheckpoint := w.justifiedCheckpoint
      justifiedCheckpoint := jc }
    wrap "could not update justified balances" (updateJustifiedBalances cfg)

def updateFinalizedCheckpoint (fc : Option Checkpoint) : Method Unit :=
  match fc with
  | none => throw .invalidNilCheckpoint
  | some fc => modify fun w => { w with finalizedCheckpoint := fc }

end Checkpoints

section Votes

/-- The votes, grown to hold a validator index. -/
def growVotes (votes : List Vote) (index : Nat) : List Vote :=
  votes ++ List.replicate (index + 1 - votes.length) ({} : Vote)

def voteFor (blockRoot targetEpoch : Nat) (vote : Vote) : Vote :=
  if (vote.nextRoot = 0 ∧ vote.currentRoot = 0) ∨ vote.nextEpoch < targetEpoch then
    { vote with nextEpoch := targetEpoch, nextRoot := blockRoot }
  else vote

variable (w : World)

def World.processAttestation (indices : List Nat) (blockRoot targetEpoch : Nat) : World :=
  { w with votes := indices.foldl (fun votes index =>
      (growVotes votes index).modify index (voteFor blockRoot targetEpoch)) w.votes }

/-- A balance is taken off a node, but not below zero. -/
def World.subtractBalance (node amount : Nat) : World :=
  if (w.heap node).balance < amount then
    { w.modifyNode node (fun n => { n with balance := 0 }) with underflow := true }
  else w.modifyNode node fun n => { n with balance := n.balance - amount }

def World.addBalance (node amount : Nat) : World :=
  w.modifyNode node fun n => { n with balance := add64 n.balance amount }

def Store.votedNode (s : Store) (root : Nat) : Option Nat :=
  if root = 0 then none else s.nodeByRoot root

/-- Move the balance of one validator from its current to its next root. -/
def World.moveBalance (vote : Vote) (oldBalance newBalance : Nat) : World :=
  let w := match w.votedNode vote.nextRoot with
    | some nextNode => w.addBalance nextNode newBalance
    | none => w
  match w.votedNode vote.currentRoot with
  | some currentNode => w.subtractBalance currentNode oldBalance
  | none => w

/-- The round of `updateBalances` for one validator. -/
def World.updateBalance (index : Nat) : World :=
  let vote := w.votes.getD index {}
  if w.slashedIndices index then w
  else if vote.currentRoot = 0 ∧ vote.nextRoot = 0 then w
  else
    let oldBalance := w.balances.getD index 0
    let newBalance := w.justifiedBalances.getD index 0
    let w := if vote.currentRoot ≠ vote.nextRoot ∨ oldBalance ≠ newBalance then
      w.moveBalance vote oldBalance newBalance else w
    { w with votes := w.votes.set index { vote with currentRoot := vote.nextRoot } }

def World.updateBalances : World :=
  let w := (List.range w.votes.length).foldl World.updateBalance w
  { w with balances := w.justifiedBalances }

def ForkChoice.proposerScore (cfg : BeaconChainConfig) (f : ForkChoice) : Nat :=
  mul64 f.committeeWeight cfg.proposerScoreBoost / 100

/-- Take the boost of the last call off. The subtraction is not guarded. -/
def World.unboost : World :=
  match w.votedNode w.previousProposerBoostRoot with
  | none => w
  | some previousNode =>
    { w.modifyNode previousNode (fun n =>
        { n with balance := sub64 n.balance w.previousProposerBoostScore }) with
      underflow := w.underflow ||
        decide ((w.heap previousNode).balance < w.previousProposerBoostScore) }

def World.applyProposerBoostScore (cfg : BeaconChainConfig) (w : World) : World :=
  let w := w.unboost
  match w.votedNode w.proposerBoostRoot with
  | none => { w with
      previousProposerBoostRoot := w.proposerBoostRoot
      previousProposerBoostScore := 0 }
  | some currentNode =>
    { w.addBalance currentNode (w.proposerScore cfg) with
      previousProposerBoostRoot := w.proposerBoostRoot
      previousProposerBoostScore := w.proposerScore cfg }

/-- The vote of an equivocating validator no longer counts. -/
def World.insertSlashedIndex (index : Nat) : World :=
  if w.slashedIndices index then w
  else
    let w := { w with slashedIndices := Function.update w.slashedIndices index true }
    match w.balances[index]?, w.votes[index]? with
    | some balance, some vote =>
      match w.nodeByRoot vote.currentRoot with
      | some node => w.subtractBalance node balance
      | none => w
    | _, _ => w

end Votes

section Calls

variable (cfg : BeaconChainConfig)

def setOptimisticToValid (root : Nat) : Method Unit := do
  match (← get).nodeByRoot root with
  | none => throw (.wrap "could not set node to valid" .nilNode)
  | some node => setNodeAndParentValidated (← get).next node

/-- `Head` once the balances are up to date. -/
def headOfBalances (currentEpoch headEpoch : Nat) : Method Nat := do
  let w ← get
  let treeRootNode ← deref w.treeRootNode
  wrap "could not apply weight changes" (applyWeightChanges w.next treeRootNode)
  wrap "could not update best descendant"
    (updateBestDescendant w.justifiedCheckpoint.epoch currentEpoch w.next treeRootNode)
  head headEpoch

/-- The current epoch is read twice, for the best descendants and for the head. -/
def Head (currentEpoch headEpoch : Nat) : Method Nat := do
  modify World.updateBalances
  modify (World.applyProposerBoostScore cfg)
  headOfBalances currentEpoch headEpoch

inductive Operation where
  | insertNode (state : BlockState) (block : Block) (clock : InsertClock) (currentSlot : Nat)
  | insertChain (chain : List BlockAndCheckpoints)
  | processAttestation (indices : List Nat) (blockRoot targetEpoch : Nat)
  | insertSlashedIndex (index : Nat)
  | newSlot (slot : Nat) (order : List Nat)
  | setOptimisticToValid (root : Nat)
  | setOptimisticToInvalid (root parentRoot payloadHash : Nat)
  | updateJustifiedCheckpoint (jc : Option Checkpoint)
  | updateFinalizedCheckpoint (fc : Option Checkpoint)
  | Head (currentEpoch headEpoch : Nat)
deriving DecidableEq, Repr

/-- An operation with its context and the outcomes of its calls of the balance handler. -/
structure Call where
  operation : Operation
  ctx : Option Nat := none
  balancesByRoot : Nat → Option (List Nat) := fun _ => none

def Operation.method : Operation → Method Unit
  | .insertNode state block clock currentSlot =>
    DoublyLinkedTree.insertNode cfg state block clock currentSlot
  | .insertChain chain => DoublyLinkedTree.insertChain cfg chain
  | .processAttestation indices blockRoot targetEpoch =>
    modify (·.processAttestation indices blockRoot targetEpoch)
  | .insertSlashedIndex index => modify (·.insertSlashedIndex index)
  | .newSlot slot order => DoublyLinkedTree.newSlot cfg slot order
  | .setOptimisticToValid root => DoublyLinkedTree.setOptimisticToValid root
  | .setOptimisticToInvalid root parentRoot payloadHash => do
    let _ ← DoublyLinkedTree.setOptimisticToInvalid root parentRoot payloadHash
  | .updateJustifiedCheckpoint jc => DoublyLinkedTree.updateJustifiedCheckpoint cfg jc
  | .updateFinalizedCheckpoint fc => DoublyLinkedTree.updateFinalizedCheckpoint fc
  | .Head currentEpoch headEpoch => do
    let _ ← DoublyLinkedTree.Head cfg currentEpoch headEpoch

def Call.start (c : Call) (f : ForkChoice) : World :=
  { f with ctx := c.ctx, balancesByRoot := c.balancesByRoot }

def step (f : ForkChoice) (c : Call) : ForkChoice :=
  (after (c.operation.method cfg) (c.start f)).toForkChoice

def run (calls : List Call) : ForkChoice := calls.foldl (step cfg) ForkChoice.new

theorem run_concat (calls : List Call) (c : Call) :
    run cfg (calls ++ [c]) = step cfg (run cfg calls) c := by
  rw [run, List.foldl_append]
  rfl

abbrev Meets (condition : ForkChoice → Call → Prop) : ForkChoice → List Call → Prop :=
  Along (step cfg) condition

/-- `InsertNode` for a block that arrives at the start of its slot. `uj` and `uf` are its
unrealized checkpoints. -/
def Call.insertTimely (block : Block) (jc fc uj uf : Checkpoint) : Call where
  operation := .insertNode
    { slot := block.slot
      currentJustifiedCheckpoint := some jc
      finalizedCheckpoint := some fc
      unrealized := some (uj, uf) }
    block { currentSlot := block.slot, receivedSlot := block.slot } block.slot
  balancesByRoot := fun _ => some []

end Calls

end LightChain.DoublyLinkedTree

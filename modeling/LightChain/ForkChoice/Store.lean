import LightChain.ForkChoice.Node

/-!
# Inserting, pruning and removing nodes

The methods of the store that change the block tree: `insert`, `prune` upon finalization and
`setOptimisticToInvalid`, and `head`, which reads it. Each of them edits `nodeByRoot` and the
lists of children separately. A clock that is read during a call is an argument.
-/
namespace LightChain.DoublyLinkedTree
open Library Program

/-- A block with its root. Before Bellatrix the payload hash is zero, and `none` says that
the execution data of the block cannot be read. -/
structure Block where
  root : Nat
  slot : Nat
  parentRoot : Nat
  payloadHash : Option Nat := some 0
deriving DecidableEq, Repr

/-- What `insert` reads from the clock. `sinceSlotStart` is `none` if the instant read first
lies before the start of the slot read afterwards. Durations are nanoseconds. -/
structure InsertClock where
  beforeGenesis : Bool := false
  currentSlot : Nat := 0
  sinceSlotStart : Option Int := some 0
  attestationDue : Int := 0
  receivedSlot : Nat := 0
deriving DecidableEq, Repr

section Remove

def World.forget (w : World) (root : Nat) : World :=
  { w with
    proposerBoostRoot := if root = w.proposerBoostRoot then 0 else w.proposerBoostRoot
    previousProposerBoostRoot :=
      if root = w.previousProposerBoostRoot then 0 else w.previousProposerBoostRoot
    previousProposerBoostScore :=
      if root = w.previousProposerBoostRoot then 0 else w.previousProposerBoostScore
    nodeByRoot := Function.update w.nodeByRoot root none }

def removeNodeAndChildren : Nat → Nat → List Nat → Method (List Nat)
  | 0, _, _ => throw .outOfFuel
  | fuel + 1, node, invalidRoots => do
    let invalidRoots ← ((← get).heap node).children.foldlM (fun invalidRoots child => do
      ctxErr
      removeNodeAndChildren fuel child invalidRoots) invalidRoots
    let root := ((← get).heap node).root
    modify (·.forget root)
    return invalidRoots ++ [root]

/-- The children of the parent of a removed node. The last child takes the place of the
removed one, and a single child is taken to be the removed one. -/
def removeChild (children : List Nat) (node : Nat) : List Nat :=
  if children.length = 1 then []
  else if node ∈ children then
    (children.set (children.idxOf node) (children.getLastD node)).dropLast
  else children

def removeNode (node : Nat) : Method (List Nat) := do
  let w ← get
  if !(w.heap node).optimistic then throw .invalidOptimisticStatus
  else match (w.heap node).parent with
    | none => throw .invalidOptimisticStatus
    | some parent =>
      modifyNode parent fun p => { p with children := removeChild p.children node }
      removeNodeAndChildren w.next node []

/-- The loop of `setOptimisticToInvalid`: the first ancestor whose parent has the last valid
payload, or the last ancestor. -/
def firstInvalid (lastValidHash : Nat) : Nat → Nat → Method Nat
  | 0, _ => throw .outOfFuel
  | fuel + 1, node => do
    let w ← get
    match (w.heap node).parent with
    | none => return node
    | some parent =>
      if (w.heap parent).payloadHash = lastValidHash then return node
      else
        ctxErr
        firstInvalid lastValidHash fuel parent

/-- `setOptimisticToInvalid` from the loop on. -/
def removeFirstInvalid (node parentRoot lastValidHash : Nat) : Method (List Nat) := do
  let first ← firstInvalid lastValidHash (← get).next node
  let w ← get
  match (w.heap first).parent with
  | some _ => removeNode first
  | none =>
    -- The last valid payload is in another fork.
    if (w.heap node).root = parentRoot then return [] else removeNode node

def setOptimisticToInvalid (root parentRoot lastValidHash : Nat) : Method (List Nat) := do
  let w ← get
  match w.nodeByRoot root with
  | none =>
    match w.nodeByRoot parentRoot with
    | none => throw (.wrap "could not set node to invalid" .nilNode)
    | some node =>
      if (w.heap node).payloadHash = lastValidHash then return []
      else removeFirstInvalid node parentRoot lastValidHash
  | some node =>
    let parent ← deref (w.heap node).parent
    if (w.heap parent).root ≠ parentRoot then throw .invalidParentRoot
    else removeFirstInvalid node parentRoot lastValidHash

end Remove

section Prune

def pruneFinalizedNodeByRootMap (finalizedNode : Nat) : Nat → Nat → Method Unit
  | 0, _ => throw .outOfFuel
  | fuel + 1, node => do
    ctxErr
    if node = finalizedNode then
      modifyNode node fun n => { n with target := if n.target = some node then n.target else none }
    else
      ((← get).heap node).children.foldlM (fun _ child =>
        pruneFinalizedNodeByRootMap finalizedNode fuel child) ()
      modify fun w =>
        { w.modifyNode node fun n => { n with children := [] } with
          nodeByRoot := Function.update w.nodeByRoot (w.heap node).root none }

/-- The second pass of `prune`, over the children of the finalized node. -/
def pruneIncompatible (finalizedNode checkpointMaxSlot : Nat) : Method Unit := do
  ((← get).heap finalizedNode).children.foldlM (fun _ child => do
    if ((← get).heap child).slot ≤ checkpointMaxSlot then
      wrap "could not prune incompatible finalized child"
        (pruneFinalizedNodeByRootMap finalizedNode (← get).next child)) ()

/-- The first pass of `prune`, after which the finalized node is the root of the tree. -/
def pruneToRoot (finalizedNode parent : Nat) : Method Unit := do
  modify fun w => { w with finalizedDependentRoot := (w.heap parent).root }
  let treeRootNode ← deref (← get).treeRootNode
  pruneFinalizedNodeByRootMap finalizedNode (← get).next treeRootNode
  modify fun w =>
    { w.modifyNode finalizedNode fun n => { n with parent := none } with
      treeRootNode := some finalizedNode }

def prune (cfg : BeaconChainConfig) : Method Unit := do
  let w ← get
  match w.nodeByRoot w.finalizedCheckpoint.root with
  | none => throw (.unknownFinalizedRoot w.finalizedCheckpoint.root)
  | some finalizedNode =>
    match (w.heap finalizedNode).parent with
    -- The finalized checkpoint has not changed.
    | none => return
    | some parent =>
      pruneToRoot finalizedNode parent
      match epochStart cfg w.finalizedCheckpoint.epoch with
      | none => throw .epochStart
      | some checkpointMaxSlot =>
        if (w.heap finalizedNode).slot = checkpointMaxSlot then return
        else pruneIncompatible finalizedNode checkpointMaxSlot

end Prune

section Insert

variable (cfg : BeaconChainConfig)

def Store.newNode (s : Store) (block : Block) (payloadHash justifiedEpoch finalizedEpoch : Nat) :
    Node where
  slot := block.slot
  root := block.root
  payloadHash := payloadHash
  parent := s.nodeByRoot block.parentRoot
  target :=
    if block.slot % cfg.slotsPerEpoch = 0 then some s.next
    else match s.nodeByRoot block.parentRoot with
      | none => none
      | some parent =>
        if toEpoch cfg block.slot = toEpoch cfg (s.heap parent).slot then (s.heap parent).target
        else some parent
  justifiedEpoch := justifiedEpoch
  unrealizedJustifiedEpoch := justifiedEpoch
  finalizedEpoch := finalizedEpoch
  unrealizedFinalizedEpoch := finalizedEpoch
  optimistic := true

/-- Allocate a node and enter it in the map. -/
def World.addNode (w : World) (node : Node) : World :=
  { w with
    heap := Function.update w.heap w.next node
    next := w.next + 1
    nodeByRoot := Function.update w.nodeByRoot node.root (some w.next) }

/-- The tracking of received blocks at the end of `insert`. -/
def trackReceived (n slot : Nat) (clock : InsertClock) : Method Unit := do
  if clock.receivedSlot < add64 slot cfg.slotsPerEpoch then
    modify fun w => { w with
      receivedBlocksLastEpoch :=
        Function.update w.receivedBlocksLastEpoch (slot % cfg.slotsPerEpoch) slot }
  let highest ← deref (← get).highestReceivedNode
  if ((← get).heap highest).slot < slot then
    modify fun w => { w with highestReceivedNode := some n }

/-- The boost of the first block of the slot that arrives in time. -/
def World.boostTimely (w : World) (block : Block) (clock : InsertClock) (sss : Int) : World :=
  if clock.currentSlot = block.slot ∧ sss < clock.attestationDue ∧ w.proposerBoostRoot = 0 then
    { w with proposerBoostRoot := block.root }
  else w

/-- `insert` for a block whose parent is known, once the node is in the tree. -/
def settleChild (n : Nat) (block : Block) (clock : InsertClock) : Method Nat := do
  if clock.beforeGenesis then return n
  else match clock.sinceSlotStart with
  | none => throw .sinceSlotStart
  | some sss =>
    modify (·.boostTimely block clock sss)
    let w ← get
    let treeRootNode ← deref w.treeRootNode
    wrap "could not update best descendants"
      (withCleanup (updateBestDescendant w.justifiedCheckpoint.epoch
        (toEpoch cfg clock.currentSlot) w.next treeRootNode) (removeNode n))
    trackReceived cfg n block.slot clock
    return n

def World.attachTo (w : World) (parent : Nat) (node : Node) : World :=
  (w.addNode node).modifyNode parent fun p => { p with children := p.children ++ [w.next] }

def World.attachFirst (w : World) (node : Node) : World :=
  { w.addNode node with
    treeRootNode := some w.next
    headNode := some w.next
    highestReceivedNode := some w.next }

def insert (block : Block) (justifiedEpoch finalizedEpoch : Nat) (clock : InsertClock) :
    Method Nat := do
  let w ← get
  match block.payloadHash with
  | none => throw .execution
  | some payloadHash =>
    match w.nodeByRoot block.root with
    | some n => return n
    | none =>
      let node := w.newNode cfg block payloadHash justifiedEpoch finalizedEpoch
      match w.nodeByRoot block.parentRoot with
      | some parent =>
        set (w.attachTo parent node)
        settleChild cfg w.next block clock
      | none =>
        match w.treeRootNode with
        | none =>
          set (w.attachFirst node)
          trackReceived cfg w.next block.slot clock
          return w.next
        -- The node that is entered in the map here is deleted from it again at once.
        | some _ => throw .invalidParentRoot

end Insert

section Head

def justifiedNode : Method Nat := do
  let w ← get
  match w.nodeByRoot w.justifiedCheckpoint.root with
  | some n => return n
  | none =>
    if w.justifiedCheckpoint.epoch = genesisEpoch then deref w.treeRootNode
    else throw (.unknownJustifiedRoot w.justifiedCheckpoint.root)

def head (currentEpoch : Nat) : Method Nat := do
  ctxErr
  let n ← justifiedNode
  let w ← get
  let best := (w.heap n).bestDescendant.getD n
  let node := w.heap best
  if node.viableForHead w.justifiedCheckpoint.epoch currentEpoch then
    modify fun w => { w with allTipsAreInvalid := false, headNode := some best }
    return node.root
  else
    modify fun w => { w with allTipsAreInvalid := true }
    throw (.notEligible node.slot node.weight node.finalizedEpoch node.justifiedEpoch
      w.finalizedCheckpoint.epoch w.justifiedCheckpoint.epoch)

end Head

end LightChain.DoublyLinkedTree

import LightChain.Config.Params
import LightChain.Library.MachineInt
import LightChain.Library.Program

/-!
# The fork choice store

Nodes are objects in a heap that point to each other. The heap is a function from addresses
to nodes, and a new node takes the next address. Deleting a node only takes it out of
`nodeByRoot`: pointers to it stay as they are. A root is read as a number, most significant
byte first, so that `bytes.Compare` is the order of numbers and the zero hash is `0`.
Epochs, slots and balances are `uint64`.
-/
namespace LightChain.DoublyLinkedTree
open Library Program

structure Checkpoint where
  epoch : Nat := 0
  root : Nat := 0
deriving DecidableEq, Repr

structure Node where
  slot : Nat := 0
  root : Nat := 0
  payloadHash : Nat := 0
  parent : Option Nat := none
  target : Option Nat := none
  children : List Nat := []
  justifiedEpoch : Nat := 0
  unrealizedJustifiedEpoch : Nat := 0
  finalizedEpoch : Nat := 0
  unrealizedFinalizedEpoch : Nat := 0
  balance : Nat := 0
  weight : Nat := 0
  bestDescendant : Option Nat := none
  optimistic : Bool := false
deriving DecidableEq, Repr

structure Vote where
  currentRoot : Nat := 0
  nextRoot : Nat := 0
  nextEpoch : Nat := 0
deriving DecidableEq, Repr

structure Store where
  heap : Nat → Node := fun _ => {}
  next : Nat := 0
  justifiedCheckpoint : Checkpoint := {}
  unrealizedJustifiedCheckpoint : Checkpoint := {}
  unrealizedFinalizedCheckpoint : Checkpoint := {}
  prevJustifiedCheckpoint : Checkpoint := {}
  finalizedCheckpoint : Checkpoint := {}
  proposerBoostRoot : Nat := 0
  previousProposerBoostRoot : Nat := 0
  previousProposerBoostScore : Nat := 0
  finalizedDependentRoot : Nat := 0
  committeeWeight : Nat := 0
  treeRootNode : Option Nat := none
  headNode : Option Nat := none
  nodeByRoot : Nat → Option Nat := fun _ => none
  slashedIndices : Nat → Bool := fun _ => false
  highestReceivedNode : Option Nat := none
  receivedBlocksLastEpoch : Nat → Nat := fun _ => 0
  allTipsAreInvalid : Bool := false

/-- `underflow` is not in the source. It is set where an unsigned subtraction would go below
zero, and nothing reads it. -/
structure ForkChoice extends Store where
  votes : List Vote := []
  balances : List Nat := []
  justifiedBalances : List Nat := []
  numActiveValidators : Nat := 0
  underflow : Bool := false

/-- `New`. -/
def ForkChoice.new : ForkChoice := {}

/-- The fork choice during a call. `ctx` is the number of checks of the context that still
succeed, or `none` if the context is not cancelled during the call. `balancesByRoot` has the
outcomes of the calls of the balance handler to come, one after the other, and `none` where
the handler fails. -/
structure World extends ForkChoice where
  ctx : Option Nat := none
  balancesByRoot : Nat → Option (List Nat) := fun _ => none

inductive Error where
  | contextCancelled
  | nilNode
  | invalidParentRoot
  | unknownFinalizedRoot (root : Nat)
  | unknownJustifiedRoot (root : Nat)
  | invalidOptimisticStatus
  | invalidNilCheckpoint
  | notEligible (slot weight finalized justified storeFinalized storeJustified : Nat)
  | sinceSlotStart
  | epochStart
  | execution
  | balancesByRoot
  | unknownCommonAncestor
  | wrap (message : String) (cause : Error)
  /-- A nil pointer is read. -/
  | nilDereference
  /-- A recursion did not end within the size of the heap. -/
  | outOfFuel
deriving DecidableEq, Repr

/-- The verb `%#x` on a root. -/
def hexRoot (root : Nat) : String :=
  "0x" ++ String.leftpad 64 '0' (String.ofList (Nat.toDigits 16 root))

def Error.message : Error → String
  | .contextCancelled => "context canceled"
  | .nilNode => "invalid nil or unknown node"
  | .invalidParentRoot => "invalid parent root"
  | .unknownFinalizedRoot root => hexRoot root ++ ": unknown finalized root"
  | .unknownJustifiedRoot root => hexRoot root ++ ": unknown justified root"
  | .invalidOptimisticStatus => "invalid optimistic status"
  | .invalidNilCheckpoint => "invalid nil checkpoint"
  | .notEligible slot weight finalized justified storeFinalized storeJustified =>
    "head at slot " ++ toString slot ++ " with weight " ++ toString (weight / 10000000000) ++
      " is not eligible, finalizedEpoch, justified Epoch " ++ toString finalized ++ ", " ++
      toString justified ++ " != " ++ toString storeFinalized ++ ", " ++ toString storeJustified
  | .sinceSlotStart => "could not determine time since current slot started"
  | .epochStart => "could not compute epoch start"
  | .execution => "could not get execution data"
  | .balancesByRoot => "could not get justified balances"
  | .unknownCommonAncestor => "unknown common ancestor"
  | .wrap message cause => message ++ ": " ++ cause.message
  | .nilDereference => "invalid memory address or nil pointer dereference"
  | .outOfFuel => "stack overflow"

abbrev Method (α : Type) := EStateM Error World α

abbrev wrap {α : Type} (message : String) (m : Method α) : Method α :=
  mapError (.wrap message) m

/-- `ctx.Err()`. A cancelled context stays cancelled. -/
def ctxErr : Method Unit := fun w =>
  match w.ctx with
  | none => .ok () w
  | some 0 => .error .contextCancelled w
  | some (k + 1) => .ok () { w with ctx := some k }

def World.modifyNode (w : World) (i : Nat) (f : Node → Node) : World :=
  { w with heap := Function.update w.heap i (f (w.heap i)) }

theorem World.modifyNode_heap (w : World) (i : Nat) (f : Node → Node) (j : Nat) :
    (w.modifyNode i f).heap j = if j = i then f (w.heap i) else w.heap j :=
  Function.update_apply _ _ _ _

def modifyNode (i : Nat) (f : Node → Node) : Method Unit := modify (·.modifyNode i f)

/-- The node behind a pointer that is dereferenced. -/
def deref (p : Option Nat) : Method Nat :=
  match p with
  | some i => pure i
  | none => throw .nilDereference

theorem deref_within {R : World → World → Prop} [Std.Refl R] (p : Option Nat) :
    Within R (deref p) := by
  cases p with
  | none => exact .throw _
  | some i => exact .pure i

section Slots

variable (cfg : BeaconChainConfig)

def toEpoch (slot : Nat) : Nat := slot / cfg.slotsPerEpoch

def isEpochStart (slot : Nat) : Bool := slot % cfg.slotsPerEpoch == 0

/-- `EpochStart`, which fails if the slot is not a `uint64`. -/
def epochStart (epoch : Nat) : Option Nat := safeMul64 cfg.slotsPerEpoch epoch

end Slots

end LightChain.DoublyLinkedTree

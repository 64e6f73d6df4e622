import LightChain.Committees.Shuffle
import LightChain.Library.Fallible
import LightChain.Library.Merkle

/-!
# The deposit tree

The Merkle tree of deposits with finalization. A finalized node stands for a full subtree of
which only the hash is left. Nodes are changed in place by the source: `finalize` returns the
node that its parent keeps. At the root there is no parent, so `DepositTree.finalize` keeps
the root node that was there, with its changed children.

The table of zero hashes is the iterated hash of 32 zero bytes.
-/
namespace LightChain.DepositSnapshot
open Library Committees

def depositContractDepth : Nat := 32

/-- `bytesutil.Uint64ToBytesLittleEndian32`. -/
def littleEndian32 (n : Nat) : Bytes32 := ⟨(toLE 8 n ++ List.replicate 24 0).toArray, by simp [toLE]⟩

inductive MerkleError where
  | finalizedNodeCannotPushLeaf
  | leafNodeCannotPushLeaf
  | zeroLevel
  | zeroDepth
  | invalidSnapshotRoot
  | invalidDepositCount
  | invalidIndex
  | tooManyDeposits
  | nilNode
deriving DecidableEq, Repr

def MerkleError.message : MerkleError → String
  | .finalizedNodeCannotPushLeaf => "can't push a leaf to a finalized node"
  | .leafNodeCannotPushLeaf => "can't push a leaf to a leaf node"
  | .zeroLevel => "level should be greater than 0"
  | .zeroDepth => "depth should be greater than 0"
  | .invalidSnapshotRoot => "snapshot root is invalid"
  | .invalidDepositCount => "deposit count should be greater than 0"
  | .invalidIndex => "index should be greater than finalizedDeposits - 1"
  | .tooManyDeposits => "number of deposits should not be greater than the capacity of the tree"
  | .nilNode => "invalid memory address or nil pointer dereference"

inductive Node where
  | finalized (depositCount : Nat) (digest : Bytes32)
  | leaf (digest : Bytes32)
  | inner (left right : Node)
  | zero (depth : Nat)
deriving DecidableEq, Repr

section Model

variable (hash : Hash)

def combine (left right : Bytes32) : Bytes32 := hash (left.toList ++ right.toList)

def zeroBytes : Bytes32 := Vector.replicate 32 0

/-- `trie.ZeroHashes`. -/
def zeroHashes (depth : Nat) : Bytes32 := zeroRoot (combine hash) zeroBytes depth

def create (leaves : List Bytes32) : Nat → Node
  | 0 =>
    match leaves with
    | [] => .zero 0
    | leaf :: _ => .leaf leaf
  | depth + 1 =>
    if leaves.length = 0 then .zero (depth + 1)
    else
      let split := min (2 ^ depth) leaves.length
      .inner (create (leaves.take split) depth) (create (leaves.drop split) depth)

def fromSnapshotParts : List Bytes32 → Nat → Nat → Except MerkleError Node
  | [], _, level => .ok (.zero level)
  | first :: _, deposits, 0 =>
    if deposits = 0 then .ok (.zero 0)
    else if deposits = 2 ^ 0 then .ok (.finalized deposits first)
    else .error .zeroLevel
  | first :: rest, deposits, level + 1 =>
    if deposits = 0 then .ok (.zero (level + 1))
    else if deposits = 2 ^ (level + 1) then .ok (.finalized deposits first)
    else
      let leftSubtree := 2 ^ level
      if deposits ≤ leftSubtree then do
        let left ← fromSnapshotParts (first :: rest) deposits level
        return .inner left (.zero level)
      else do
        let right ← fromSnapshotParts rest (deposits - leftSubtree) level
        return .inner (.finalized leftSubtree first) right

namespace Node

def getRoot : Node → Bytes32
  | .finalized _ digest => digest
  | .leaf digest => digest
  | .inner left right => combine hash left.getRoot right.getRoot
  | .zero depth =>
    if depth = depositContractDepth then
      combine hash (zeroHashes hash (depth - 1)) (zeroHashes hash (depth - 1))
    else zeroHashes hash depth

def isFull : Node → Bool
  | .finalized _ _ => true
  | .leaf _ => true
  | .inner _ right => right.isFull
  | .zero _ => false

def finalize (depositsToFinalize : Nat) : Node → Nat → Except MerkleError Node
  | .finalized count digest, _ => .ok (.finalized count digest)
  | .leaf digest, _ => .ok (.finalized 1 digest)
  | .zero _, _ => .ok (.zero 0)
  | .inner left right, depth =>
    let deposits := 2 ^ depth
    if deposits ≤ depositsToFinalize then
      .ok (.finalized deposits ((Node.inner left right).getRoot hash))
    else match depth with
      | 0 => .error .zeroDepth
      | depth + 1 => do
        let left ← left.finalize depositsToFinalize depth
        if deposits / 2 < depositsToFinalize then
          let right ← right.finalize (depositsToFinalize - deposits / 2) depth
          return .inner left right
        else return .inner left right

def getFinalized : Node → List Bytes32 → Nat × List Bytes32
  | .finalized count digest, result => (count, result ++ [digest])
  | .leaf _, result => (0, result)
  | .zero _, result => (0, result)
  | .inner left right, result =>
    let (leftDeposits, result) := left.getFinalized result
    let (rightDeposits, result) := right.getFinalized result
    (leftDeposits + rightDeposits, result)

def pushLeaf (leaf : Bytes32) : Node → Nat → Except MerkleError Node
  | .finalized _ _, _ => .error .finalizedNodeCannotPushLeaf
  | .leaf _, _ => .error .leafNodeCannotPushLeaf
  | .zero _, depth => .ok (create [leaf] depth)
  | .inner left right, depth =>
    if !left.isFull then do
      let left ← left.pushLeaf leaf (depth - 1)
      return .inner left right
    else do
      let right ← right.pushLeaf leaf (depth - 1)
      return .inner left right

/-- The loop of `generateProof`; only an inner node has children. -/
def descend (index : Nat) : Node → Nat → List Bytes32 → Except MerkleError (Node × List Bytes32)
  | node, 0, proof => .ok (node, proof)
  | .inner left right, depth + 1, proof =>
    if index / 2 ^ depth % 2 = 1 then descend index right depth (proof ++ [left.getRoot hash])
    else descend index left depth (proof ++ [right.getRoot hash])
  | _, _ + 1, _ => .error .nilNode

end Node

def generateProof (tree : Node) (index depth : Nat) :
    Except MerkleError (Bytes32 × List Bytes32) := do
  let (node, proof) ← Node.descend hash index tree depth []
  return (node.getRoot hash, proof.reverse)

structure ExecutionBlock where
  hash : Bytes32
  depth : Nat
deriving DecidableEq, Repr

structure DepositTreeSnapshot where
  finalized : List Bytes32
  depositRoot : Bytes32
  depositCount : Nat
  executionBlock : ExecutionBlock

structure RootLoop where
  size : Nat
  index : Nat
  root : Bytes32
  stopped : Bool

def rootStep (finalized : List Bytes32) (s : RootLoop) (i : Nat) : RootLoop :=
  if s.stopped then s
  else if s.size % 2 = 1 then
    if s.index = 0 then { s with stopped := true }
    else { s with
      size := s.size / 2
      index := s.index - 1
      root := combine hash (finalized.getD (s.index - 1) zeroBytes) s.root }
  else { s with size := s.size / 2, root := combine hash s.root (zeroHashes hash i) }

def DepositTreeSnapshot.calculateRoot (ds : DepositTreeSnapshot) : Bytes32 :=
  let s := (List.range depositContractDepth).foldl (rootStep hash ds.finalized)
    ⟨ds.depositCount, ds.finalized.length, zeroHashes hash 0, false⟩
  combine hash s.root (littleEndian32 ds.depositCount)

def fromTreeParts (finalized : List Bytes32) (depositCount : Nat)
    (executionBlock : ExecutionBlock) : DepositTreeSnapshot :=
  let snapshot : DepositTreeSnapshot :=
    ⟨finalized, zeroHashes hash 0, depositCount, executionBlock⟩
  { snapshot with depositRoot := snapshot.calculateRoot hash }

structure DepositTree where
  tree : Node
  depositCount : Nat
  finalizedExecutionBlock : ExecutionBlock
deriving DecidableEq, Repr

def newDepositTree : DepositTree := ⟨create [] depositContractDepth, 0, ⟨zeroBytes, 0⟩⟩

def fromSnapshot (snapshot : DepositTreeSnapshot) : Except MerkleError DepositTree :=
  if snapshot.depositRoot ≠ snapshot.calculateRoot hash then .error .invalidSnapshotRoot
  else if 2 ^ depositContractDepth ≤ snapshot.depositCount then .error .tooManyDeposits
  else do
    let tree ← fromSnapshotParts snapshot.finalized snapshot.depositCount depositContractDepth
    return ⟨tree, snapshot.depositCount, snapshot.executionBlock⟩

namespace DepositTree

def getSnapshot (d : DepositTree) : DepositTreeSnapshot :=
  let (depositCount, finalized) := d.tree.getFinalized []
  fromTreeParts hash finalized depositCount d.finalizedExecutionBlock

def finalize (d : DepositTree) (eth1DepositIndex : Nat) (block : ExecutionBlock) :
    Except MerkleError DepositTree := do
  let d := { d with finalizedExecutionBlock := block }
  match d.tree, ← d.tree.finalize hash (eth1DepositIndex + 1) depositContractDepth with
  | .inner _ _, .inner left right => return { d with tree := .inner left right }
  | _, _ => return d

def getProof (d : DepositTree) (index : Nat) : Except MerkleError (Bytes32 × List Bytes32) :=
  if d.depositCount = 0 then .error .invalidDepositCount
  else if d.depositCount ≤ index then .error .invalidIndex
  else
    let (finalizedDeposits, _) := d.tree.getFinalized []
    if 0 < finalizedDeposits ∧ index ≤ finalizedDeposits - 1 then .error .invalidIndex
    else do
      let (leaf, proof) ← generateProof hash d.tree index depositContractDepth
      return (leaf, proof ++ [littleEndian32 d.depositCount])

def getRoot (d : DepositTree) : Bytes32 :=
  combine hash (d.tree.getRoot hash) (littleEndian32 d.depositCount)

def pushLeaf (d : DepositTree) (leaf : Bytes32) : Except MerkleError DepositTree := do
  let tree ← d.tree.pushLeaf leaf depositContractDepth
  return { d with tree := tree, depositCount := d.depositCount + 1 }

end DepositTree

/-- `trie.VerifyMerkleProofWithDepth`. -/
def verifyMerkleProofWithDepth (root item : Bytes32) (merkleIndex : Nat) (proof : List Bytes32)
    (depth : Nat) : Bool :=
  proof.length = depth + 1 ∧ climb (combine hash) item merkleIndex proof = root

end Model

end LightChain.DepositSnapshot

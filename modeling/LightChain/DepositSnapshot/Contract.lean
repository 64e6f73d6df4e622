import LightChain.DepositSnapshot.Shape
import LightChain.Library.Run

/-!
# The deposit tree and the deposit contract

The deposit contract keeps one branch of full subtrees. `depositTree_run` compares the tree
with it after any sequence of pushes and finalizations: the root, the tree rebuilt from a
snapshot, and the proofs.
-/
namespace LightChain.DepositSnapshot
open Library Committees List

/-- The storage of the deposit contract. -/
structure DepositContract where
  branch : Nat → Bytes32
  depositCount : Nat

open DepositContract

section Contract

variable (hash : Hash)

def DepositContract.empty : DepositContract := ⟨fun _ => zeroBytes, 0⟩

def DepositContract.deposit (c : DepositContract) (node : Bytes32) : DepositContract where
  branch := insertPeak (combine hash) c.branch depositContractDepth 0 (c.depositCount + 1) node
  depositCount := c.depositCount + 1

def DepositContract.getDepositRoot (c : DepositContract) : Bytes32 :=
  combine hash (rootFrom (combine hash) zeroBytes c.depositCount c.branch depositContractDepth)
    (littleEndian32 c.depositCount)

/-- The root that the contract reports after the given deposits. -/
def contractRoot (leaves : List Bytes32) : Bytes32 :=
  (leaves.foldl (deposit hash) .empty).getDepositRoot hash

variable {hash} {leaves : List Bytes32}

variable (hash) in
theorem peaks_contract (h : leaves.length < 2 ^ depositContractDepth) :
    (leaves.foldl (deposit hash) .empty).depositCount = leaves.length ∧
      Peaks (combine hash) zeroBytes leaves
        (leaves.foldl (deposit hash) .empty).branch depositContractDepth := by
  induction leaves using List.reverseRecOn with
  | nil => exact ⟨rfl, fun height _ hodd => by simp at hodd⟩
  | append_singleton leaves leaf ih =>
    rw [length_append, length_singleton] at h
    obtain ⟨hcount, hpeaks⟩ := ih (by omega)
    rw [foldl_append, foldl_cons, foldl_nil, deposit, hcount]
    exact ⟨by simp, hpeaks.insert (combine hash) zeroBytes h leaf⟩

theorem contractRoot_eq (h : leaves.length < 2 ^ depositContractDepth) :
    contractRoot hash leaves =
      combine hash (rootOf hash depositContractDepth leaves) (littleEndian32 leaves.length) := by
  obtain ⟨hcount, hpeaks⟩ := peaks_contract hash h
  rw [contractRoot, getDepositRoot, hcount, rootFrom_eq _ _ hpeaks,
    Nat.div_eq_of_lt h, Nat.zero_mul, drop_zero]
  rfl

end Contract

inductive TreeOp where
  | pushLeaf (leaf : Bytes32)
  | finalize (eth1DepositIndex : Nat) (block : ExecutionBlock)

def TreeOp.run (hash : Hash) (d : DepositTree) : TreeOp → Except MerkleError DepositTree
  | .pushLeaf leaf => d.pushLeaf leaf
  | .finalize index block => d.finalize hash index block

structure Deposits where
  leaves : List Bytes32
  finalized : Nat

open Deposits

def Deposits.step (m : Deposits) : TreeOp → Deposits
  | .pushLeaf leaf => { m with leaves := m.leaves ++ [leaf] }
  | .finalize index _ => { m with finalized := max m.finalized (index + 1) }

/-- At most `2 ^ 32 - 1` leaves, and only leaves that are there are finalized. -/
def Deposits.Allows (m : Deposits) : TreeOp → Prop
  | .pushLeaf _ => m.leaves.length < 2 ^ depositContractDepth - 1
  | .finalize index _ => index < m.leaves.length

structure Represents (hash : Hash) (d : DepositTree) (m : Deposits) : Prop where
  tree : d.tree = shape hash depositContractDepth m.leaves m.finalized
  depositCount : d.depositCount = m.leaves.length
  finalized_le : m.finalized ≤ m.leaves.length
  length_lt : m.leaves.length < 2 ^ depositContractDepth

section Runs

variable {hash : Hash} {d : DepositTree} {m : Deposits}

variable (hash) in
theorem shape_inner {depth finalized : Nat} {leaves : List Bytes32} (hne : leaves ≠ [])
    (h : finalized < 2 ^ depth) (hdepth : 0 < depth) :
    ∃ left right, shape hash depth leaves finalized = .inner left right := by
  obtain ⟨depth, rfl⟩ : ∃ k, depth = k + 1 := ⟨depth - 1, by omega⟩
  exact ⟨_, _, by rw [shape, if_neg hne, if_neg (by omega)]⟩

theorem Represents.pushLeaf (h : Represents hash d m) (leaf : Bytes32)
    (hroom : m.leaves.length < 2 ^ depositContractDepth - 1) :
    ∃ d', d.pushLeaf leaf = .ok d' ∧ Represents hash d' (m.step (.pushLeaf leaf)) := by
  have hlt := h.length_lt
  have hfinal := h.finalized_le
  unfold DepositTree.pushLeaf
  rw [h.tree, pushLeaf_shape leaf hfinal hlt, ok_bind]
  refine ⟨_, rfl, rfl, ?_, ?_, ?_⟩
  · simp [step, h.depositCount]
  · simp only [step, length_append, length_singleton]
    omega
  · simp only [step, length_append, length_singleton]
    omega

theorem Represents.finalize (h : Represents hash d m) {index : Nat} (block : ExecutionBlock)
    (hindex : index < m.leaves.length) :
    ∃ d', d.finalize hash index block = .ok d' ∧
      Represents hash d' (m.step (.finalize index block)) := by
  have hlt := h.length_lt
  have hfinal := h.finalized_le
  have hne : m.leaves ≠ [] := length_pos_iff.1 (by omega)
  have hrun := finalize_shape hash m.finalized (Nat.succ_pos index) hne
    (.inl hindex : Fits depositContractDepth m.leaves (index + 1))
  obtain ⟨left, right, hold⟩ := shape_inner hash hne (hfinal.trans_lt hlt)
    (show 0 < depositContractDepth by decide)
  obtain ⟨left', right', hnew⟩ := shape_inner hash hne
    (show max m.finalized (index + 1) < 2 ^ depositContractDepth by omega)
    (show 0 < depositContractDepth by decide)
  refine ⟨{ d with tree := .inner left' right', finalizedExecutionBlock := block }, ?_, ?_⟩
  · unfold DepositTree.finalize
    simp only [h.tree]
    rw [hrun, hold, hnew]
    rfl
  · exact ⟨hnew.symm, h.depositCount, max_le hfinal hindex, hlt⟩

theorem represents_newDepositTree (hash : Hash) : Represents hash newDepositTree ⟨[], 0⟩ :=
  ⟨create_eq hash [] _, rfl, le_rfl, Nat.two_pow_pos _⟩

section

variable (h : Represents hash d m)

include h

theorem run_represents {ops : List TreeOp} (hops : Along step Deposits.Allows m ops) :
    ∃ d', ops.foldlM (TreeOp.run hash) d = .ok d' ∧
      Represents hash d' (ops.foldl step m) := by
  induction ops generalizing d m with
  | nil => exact ⟨d, rfl, h⟩
  | cons op ops ih =>
    obtain ⟨next, hnext, hrep⟩ : ∃ next, op.run hash d = .ok next ∧
        Represents hash next (m.step op) := by
      cases op with
      | pushLeaf leaf => exact h.pushLeaf leaf hops.1
      | finalize index block => exact h.finalize block hops.1
    obtain ⟨d', hrun, hd'⟩ := ih hrep hops.2
    exact ⟨d', by rw [foldlM_cons, hnext, ok_bind, hrun], hd'⟩

theorem Represents.getRoot : d.getRoot hash = contractRoot hash m.leaves := by
  rw [contractRoot_eq h.length_lt, DepositTree.getRoot, h.tree, getRoot_shape, h.depositCount]

theorem Represents.getFinalized : d.tree.getFinalized [] =
    (m.finalized, finalizedHashes hash depositContractDepth m.leaves m.finalized) := by
  have hlt := h.length_lt
  have hle := h.finalized_le
  rw [h.tree, getFinalized_shape (.inl hle), min_eq_left (by omega), nil_append]

theorem Represents.fromSnapshot :
    ∃ t, fromSnapshot hash (d.getSnapshot hash) = .ok t ∧
      Represents hash t ⟨m.leaves.take m.finalized, m.finalized⟩ := by
  have hlt := h.length_lt
  have hle := h.finalized_le
  have hmod := Nat.mod_eq_of_lt (hle.trans_lt hlt)
  have hroot := rootLoop_eq hash depositContractDepth m.leaves [] m.finalized (by rwa [hmod])
  rw [hmod, nil_append] at hroot
  have hparts := fromSnapshotParts_eq hash hle (hle.trans hlt.le)
  unfold DepositSnapshot.fromSnapshot DepositTree.getSnapshot
  simp only [h.getFinalized, fromTreeParts, DepositTreeSnapshot.calculateRoot, hroot]
  rw [if_neg (fun hne => hne rfl), if_neg (by omega), hparts, ok_bind]
  refine ⟨_, rfl, rfl, ?_, ?_, ?_⟩ <;> simp only [length_take] <;> omega

theorem Represents.pushAll (leaves : List Bytes32)
    (hlt : (m.leaves ++ leaves).length < 2 ^ depositContractDepth) :
    ∃ d', leaves.foldlM DepositTree.pushLeaf d = .ok d' ∧
      Represents hash d' { m with leaves := m.leaves ++ leaves } := by
  induction leaves generalizing d m with
  | nil => exact ⟨d, rfl, by simpa using h⟩
  | cons leaf leaves ih =>
    rw [length_append, length_cons] at hlt
    obtain ⟨next, hnext, hrep⟩ := h.pushLeaf leaf (by omega)
    obtain ⟨d', hrun, hd'⟩ := ih hrep (by
      simp only [step, length_append, length_singleton]
      omega)
    refine ⟨d', by rw [foldlM_cons, hnext, ok_bind, hrun], ?_⟩
    simpa [step] using hd'

theorem Represents.getProof {index : Nat} (hfinal : m.finalized ≤ index)
    (hindex : index < m.leaves.length) :
    ∃ leaf proof, d.getProof hash index = .ok (leaf, proof) ∧ m.leaves[index]? = some leaf ∧
      verifyMerkleProofWithDepth hash (d.getRoot hash) leaf index proof depositContractDepth := by
  have hlt := h.length_lt
  have hmod : index % 2 ^ depositContractDepth = index := Nat.mod_eq_of_lt (hindex.trans hlt)
  have hleaf : m.leaves[index]? = some m.leaves[index] := getElem?_eq_getElem hindex
  have hpath := descend_shape hash
    (show m.finalized ≤ index % 2 ^ depositContractDepth by rwa [hmod])
    (show m.leaves[index % 2 ^ depositContractDepth]? = some m.leaves[index] by rwa [hmod]) []
  rw [hmod, nil_append] at hpath
  refine ⟨m.leaves[index], siblings (combine hash) zeroBytes depositContractDepth m.leaves index ++
    [littleEndian32 d.depositCount], ?_, hleaf, ?_⟩
  · unfold DepositTree.getProof
    rw [if_neg (by rw [h.depositCount]; omega), if_neg (by rw [h.depositCount]; omega),
      h.getFinalized]
    simp only
    rw [if_neg (by omega), generateProof, h.tree, hpath]
    simp [Node.getRoot]
  · have hclimb := climb_siblings (combine hash) zeroBytes (hindex.trans hlt) hleaf
    simp only [verifyMerkleProofWithDepth, length_append, length_siblings,
      length_singleton, true_and, decide_eq_true_eq]
    rw [climb_append, length_siblings, hclimb, Nat.div_eq_of_lt (hindex.trans hlt),
      DepositTree.getRoot, h.tree, getRoot_shape]
    rfl

/-- What is asked of the tree after some deposits and finalizations. -/
structure Correct (hash : Hash) (d : DepositTree) (m : Deposits) : Prop where
  root : d.getRoot hash = contractRoot hash m.leaves
  snapshot : ∃ t, fromSnapshot hash (d.getSnapshot hash) = .ok t ∧
    t.getRoot hash = contractRoot hash (m.leaves.take m.finalized) ∧
    ∃ all, (m.leaves.drop m.finalized).foldlM DepositTree.pushLeaf t = .ok all ∧
      all.getRoot hash = contractRoot hash m.leaves
  proofs : ∀ index, m.finalized ≤ index → index < m.leaves.length →
    ∃ leaf proof, d.getProof hash index = .ok (leaf, proof) ∧ m.leaves[index]? = some leaf ∧
      verifyMerkleProofWithDepth hash (d.getRoot hash) leaf index proof depositContractDepth

theorem Represents.correct : Correct hash d m := by
  refine ⟨h.getRoot, ?_, fun index hfinal hindex => h.getProof hfinal hindex⟩
  obtain ⟨t, ht, hrep⟩ := h.fromSnapshot
  obtain ⟨all, hall, hrepAll⟩ := hrep.pushAll (m.leaves.drop m.finalized) (by
    rw [take_append_drop]
    exact h.length_lt)
  refine ⟨t, ht, hrep.getRoot, all, hall, ?_⟩
  rw [hrepAll.getRoot, take_append_drop]

end

/-- For every run of pushes and finalizations, whatever the hash: the root is the contract's, the
snapshot is a tree of the leaves up to the largest index that was finalized, and the leaves after
it can be proved. -/
theorem depositTree_run (hash : Hash) (ops : List TreeOp)
    (hops : Along step Deposits.Allows ⟨[], 0⟩ ops) :
    ∃ d, ops.foldlM (TreeOp.run hash) newDepositTree = .ok d ∧
      Correct hash d (ops.foldl step ⟨[], 0⟩) := by
  obtain ⟨d, hrun, hrep⟩ := run_represents (represents_newDepositTree hash) hops
  exact ⟨d, hrun, hrep.correct⟩

/-- Two deposits, of which the second is finalized before the first. -/
def finalizeBack (leaf : Bytes32) : List TreeOp :=
  [.pushLeaf leaf, .pushLeaf leaf, .finalize 1 ⟨zeroBytes, 0⟩, .finalize 0 ⟨zeroBytes, 0⟩]

theorem finalizeBack_allowed (leaf : Bytes32) :
    Along step Deposits.Allows ⟨[], 0⟩ (finalizeBack leaf) := by
  refine ⟨?_, ?_, ?_, ?_, trivial⟩ <;>
    norm_num [Deposits.Allows, step, depositContractDepth]

theorem depositTree_run_finalizeBack :
    ∃ d, (finalizeBack zeroBytes).foldlM (TreeOp.run mixing) newDepositTree = .ok d ∧
      Correct mixing d ⟨[zeroBytes, zeroBytes], 2⟩ :=
  depositTree_run mixing (finalizeBack zeroBytes) (finalizeBack_allowed zeroBytes)

/-- A hash that keeps the last 32 bytes. -/
def lastBytes : Hash := fun bytes => Vector.ofFn fun i => bytes.getD (bytes.length - 32 + i) 0

theorem combine_lastBytes (left right : Bytes32) : combine lastBytes left right = right := by
  apply Vector.ext
  intro i hi
  simp [combine, lastBytes, getElem?_append_right]

/-- After finalizing index 1 and then index 0, the snapshot still has both leaves. -/
theorem snapshot_keeps_finalized :
    ∃ d t, (finalizeBack zeroBytes).foldlM (TreeOp.run lastBytes) newDepositTree = .ok d ∧
      fromSnapshot lastBytes (d.getSnapshot lastBytes) = .ok t ∧
      t.getRoot lastBytes ≠ contractRoot lastBytes [zeroBytes] := by
  obtain ⟨d, hrun, hrep⟩ := run_represents (represents_newDepositTree lastBytes)
    (finalizeBack_allowed zeroBytes)
  obtain ⟨t, ht, hroot⟩ := hrep.fromSnapshot
  refine ⟨d, t, hrun, ht, ?_⟩
  rw [hroot.getRoot, contractRoot_eq (by decide), contractRoot_eq (by decide),
    combine_lastBytes, combine_lastBytes]
  decide

end Runs

end LightChain.DepositSnapshot

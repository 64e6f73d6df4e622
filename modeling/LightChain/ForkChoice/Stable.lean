import LightChain.ForkChoice.Effects

/-!
# Invariants of the fork choice

An invariant that survives each kind of change survives the methods, whether they succeed or
fail. `Stable` names the kinds of change. `Allocated`, the invariant on addresses, is stable
without any condition, and the other invariants contain it.
-/
namespace LightChain.DoublyLinkedTree
open Library Program

section Stable

/-- The addresses in the store: every pointer leads to an allocated node, and a parent is
allocated before its children. -/
structure Allocated (s : Store) : Prop where
  keyed : ∀ r i, s.nodeByRoot r = some i → (s.heap i).root = r ∧ i < s.next
  parent : ∀ i p, (s.heap i).parent = some p → p < i ∧ i < s.next
  children : ∀ i c, c ∈ (s.heap i).children → i < c ∧ c < s.next
  rooted : ∀ r i, s.nodeByRoot r = some i →
    s.treeRootNode.isSome ∧ s.highestReceivedNode.isSome

/-- An invariant that survives whatever the methods do to the tree and the checkpoints, for
the blocks that `ok` admits. -/
structure Stable (cfg : BeaconChainConfig) (ok : Block → Prop) (I : World → Prop) : Prop where
  allocated : ∀ {w}, I w → Allocated w.toStore
  shrinks : ∀ {w w'}, Shrinks w w' → I w → I w'
  decorates : ∀ {block w w'}, ok block → Decorates block.root w w' → I w → I w'
  attaches : ∀ {block justifiedEpoch finalizedEpoch w w'}, ok block →
    Attaches cfg block justifiedEpoch finalizedEpoch w w' → I w → I w'
  cosmetic : ∀ {w w'}, Cosmetic w w' → I w → I w'
  checkpoints : ∀ {w w'}, CheckpointsOnly w w' → I w → I w'
  epochs : ∀ {w w'}, HeapStep EpochsOnly w w' → I w → I w'

variable {cfg : BeaconChainConfig} {ok : Block → Prop} {I : World → Prop}

section

variable (h : Stable cfg ok I)

include h

theorem Stable.insert {block : Block} (hok : ok block) (justifiedEpoch finalizedEpoch : Nat)
    (clock : InsertClock) :
    Within (Keeps I) (insert cfg block justifiedEpoch finalizedEpoch clock) := by
  intro w hw
  have hcases := insert_cases cfg block clock justifiedEpoch finalizedEpoch (h.allocated hw).rooted
  unfold after
  generalize DoublyLinkedTree.insert cfg block justifiedEpoch finalizedEpoch clock w = result
    at hcases ⊢
  cases hcases with
  | known _ => exact hw
  | refused _ => exact hw
  | added hattach hdecorate => exact h.decorates hok hdecorate (h.attaches hok hattach hw)
  | undone e hparent hattach hdecorate =>
    exact h.shrinks (removeNode_shrinks _ _)
      (h.decorates hok hdecorate (h.attaches hok hattach hw))
  | left e hattach _ => exact h.attaches hok hattach hw

theorem Stable.prune : Within (Keeps I) (prune cfg) := fun w hw =>
  h.shrinks (prune_shrinks cfg w) hw

theorem Stable.removeNode (node : Nat) :
    Within (Keeps I) (removeNode node) := fun w hw => h.shrinks (removeNode_shrinks node w) hw

theorem Stable.updateJustifiedBalances (message : String) :
    Within (Keeps I) (wrap message (updateJustifiedBalances cfg)) :=
  .mapError fun w hw => h.checkpoints (updateJustifiedBalances_checkpoints cfg w) hw

theorem Stable.modifyNode {n : Nat} {f : Node → Node} (hf : ∀ a, EpochsOnly a (f a)) :
    Within (Keeps I) (modifyNode n f) := fun w hw =>
  h.epochs (modifyNode_heapStep hf w) hw

theorem Stable.updateCheckpoints (jc fc : Checkpoint) :
    Within (Keeps I) (updateCheckpoints cfg jc fc) := by
  refine Within.bind (.get fun w => ?_) fun _ => .get fun w => ?_
  · split_ifs
    · exact Within.bind (.modify fun w => h.checkpoints (by exact rfl))
        (fun _ => h.updateJustifiedBalances _) w
    · exact refl _
  · split_ifs
    · exact Within.bind (.modify fun w => h.checkpoints (by exact rfl)) (fun _ => h.prune) w
    · exact refl _

theorem Stable.realizeNode (node : Nat) : Within (Keeps I) (realizeNode cfg node) := by
  refine (h.modifyNode fun _ => by exact rfl).bind fun _ =>
    Within.bind (.get fun w => ?_) fun _ => .get fun w => ?_
  · split_ifs
    · exact Within.bind (.modify fun w => h.checkpoints (by exact rfl))
        (fun _ => h.updateJustifiedBalances _) w
    · exact refl _
  · split_ifs
    · exact h.checkpoints (by exact rfl)
    · exact refl _

theorem Stable.pullTips (state : BlockState) (node currentSlot : Nat) (jc fc : Checkpoint) :
    Within (Keeps I) (pullTips cfg state node currentSlot jc fc) := by
  refine .get fun w => ?_
  cases (w.heap node).parent with
  | none => exact refl _
  | some parent =>
    dsimp only
    split_ifs
    · exact Within.bind (h.modifyNode fun _ => by exact rfl) (fun _ => .pure _) w
    · refine Within.bind (.modify fun w => h.checkpoints (accountUnrealized_checkpoints _ _ _))
        (fun _ => Within.bind (h.modifyNode fun _ => by exact rfl) fun _ => ?_) w
      exact Within.bind (h.modifyNode fun _ => by exact rfl) fun _ => .pure _
    · exact Within.bind (.modify fun w => h.checkpoints (accountUnrealized_checkpoints _ _ _))
        (fun _ => Within.bind (h.modifyNode fun _ => by exact rfl) fun _ => .pure _) w

theorem Stable.insertNode (state : BlockState) {block : Block} (hok : ok block)
    (clock : InsertClock) (currentSlot : Nat) :
    Within (Keeps I) (insertNode cfg state block clock currentSlot) := by
  unfold DoublyLinkedTree.insertNode
  split
  · refine (h.insert hok _ _ _).bind fun node => (h.pullTips _ _ _ _ _).bind fun _ => ?_
    exact ((h.updateCheckpoints _ _).withCleanup (h.removeNode node)).mapError
  · exact .throw _

theorem Stable.insertChain {chain : List BlockAndCheckpoints} (hok : ∀ bcp ∈ chain, ok bcp.block) :
    Within (Keeps I) (insertChain cfg chain) :=
  .foldlM (fun _ bcp hbcp => (h.insert (hok bcp hbcp) _ _ _).bind fun _ =>
    h.updateCheckpoints _ _) _

theorem Stable.newSlot (slot : Nat) (order : List Nat) :
    Within (Keeps I) (newSlot cfg slot order) := by
  refine Within.bind (.modify fun w => ?_) fun _ => ?_
  · exact h.shrinks ⟨rfl, fun _ => refl _, fun _ _ h => h, .inr rfl, .inl ⟨rfl, rfl⟩, id, id⟩
  · split_ifs
    · refine Within.bind (.mapError (.foldlM (fun _ node _ => h.realizeNode node) _)) fun _ => ?_
      exact h.prune
    · exact .pure _

theorem Stable.updateJustifiedCheckpoint (jc : Option Checkpoint) :
    Within (Keeps I) (updateJustifiedCheckpoint cfg jc) := by
  cases jc with
  | none => exact .throw _
  | some jc =>
    exact Within.bind (.modify fun w => h.checkpoints (by exact rfl)) fun _ =>
      h.updateJustifiedBalances _

theorem Stable.updateFinalizedCheckpoint (fc : Option Checkpoint) :
    Within (Keeps I) (updateFinalizedCheckpoint fc) := by
  cases fc with
  | none => exact .throw _
  | some fc => exact .modify fun w => h.checkpoints (by exact rfl)

theorem Stable.setOptimisticToInvalid (root parentRoot hash : Nat) :
    Within (Keeps I) (setOptimisticToInvalid root parentRoot hash) := fun w hw =>
  h.shrinks (setOptimisticToInvalid_shrinks root parentRoot hash w) hw

end

end Stable

section Allocated

/-- The fields that `Allocated` reads. -/
structure SameShape (s s' : Store) : Prop where
  next : s'.next = s.next
  map : ∀ r i, s'.nodeByRoot r = some i → s.nodeByRoot r = some i
  root : ∀ i, (s'.heap i).root = (s.heap i).root
  parent : ∀ i, (s'.heap i).parent = (s.heap i).parent ∨ (s'.heap i).parent = none
  children : ∀ i, (s'.heap i).children ⊆ (s.heap i).children
  rooted : s.treeRootNode.isSome → s'.treeRootNode.isSome
  highest : s.highestReceivedNode.isSome → s'.highestReceivedNode.isSome

theorem Allocated.of_sameShape {s s' : Store} (h : Allocated s) (hs : SameShape s s') :
    Allocated s' := by
  refine ⟨fun r i hi => ?_, fun i p hp => ?_, fun i c hc => ?_, fun r i hi => ?_⟩
  · rw [hs.root, hs.next]
    exact h.keyed r i (hs.map r i hi)
  · rw [hs.next]
    have := hs.parent i
    exact h.parent i p (by grind)
  · rw [hs.next]
    exact h.children i c (hs.children i hc)
  · have := h.rooted r i (hs.map r i hi)
    exact ⟨hs.rooted this.1, hs.highest this.2⟩

variable {w w' : World}

theorem Shrinks.sameShape (h : Shrinks w w') :
    SameShape w.toStore w'.toStore where
  next := by rw [h.rest]
  map := h.map
  root i := by rw [(h.node i).rest]
  parent i := (h.node i).parent
  children i := (h.node i).children
  rooted := h.root
  highest := by rw [h.rest]; exact id

/-- The tree and the map are the same. -/
structure SameTree (s s' : Store) : Prop where
  next : s'.next = s.next
  map : s'.nodeByRoot = s.nodeByRoot
  rooted : s'.treeRootNode = s.treeRootNode
  node : ∀ i, (s'.heap i).root = (s.heap i).root ∧ (s'.heap i).slot = (s.heap i).slot ∧
    (s'.heap i).parent = (s.heap i).parent ∧ (s'.heap i).children = (s.heap i).children
  highest : s.highestReceivedNode.isSome → s'.highestReceivedNode.isSome

theorem SameTree.sameShape {s s' : Store} (h : SameTree s s') : SameShape s s' where
  next := h.next
  map r i hi := by rwa [h.map] at hi
  root i := (h.node i).1
  parent i := .inl (h.node i).2.2.1
  children i := by rw [(h.node i).2.2.2]; exact List.Subset.refl _
  rooted := by rw [h.rooted]; exact id
  highest := h.highest

theorem Decorates.sameTree {root : Nat} (h : Decorates root w w') : SameTree w.toStore w'.toStore :=
  ⟨by rw [h.rest], by rw [h.rest], by rw [h.rest], fun i => by rw [h.node i]; exact ⟨rfl, rfl, rfl, rfl⟩,
    h.highest⟩

theorem Cosmetic.sameTree (h : Cosmetic w w') : SameTree w.toStore w'.toStore :=
  ⟨by rw [h.rest], by rw [h.rest], by rw [h.rest], fun i => by rw [h.node i]; exact ⟨rfl, rfl, rfl, rfl⟩,
    by rw [h.rest]; exact id⟩

theorem Counts.sameTree (h : Counts w w') : SameTree w.toStore w'.toStore :=
  ⟨by rw [h.rest], by rw [h.rest], by rw [h.rest], fun i => by rw [h.node i]; exact ⟨rfl, rfl, rfl, rfl⟩,
    by rw [h.rest]; exact id⟩

theorem CheckpointsOnly.sameTree (h : CheckpointsOnly w w') : SameTree w.toStore w'.toStore := by
  rw [h]
  exact ⟨rfl, rfl, rfl, fun _ => ⟨rfl, rfl, rfl, rfl⟩, id⟩

theorem HeapStep.sameTree {R : Node → Node → Prop} (h : HeapStep R w w')
    (hR : ∀ a b, R a b → b.root = a.root ∧ b.slot = a.slot ∧ b.parent = a.parent ∧
      b.children = a.children) : SameTree w.toStore w'.toStore := by
  obtain ⟨heap, ctx, rfl, -, h⟩ := h
  exact ⟨rfl, rfl, rfl, fun i => hR _ _ (h i), id⟩

theorem EpochsOnly.shape (a b : Node) (h : EpochsOnly a b) :
    b.root = a.root ∧ b.slot = a.slot ∧ b.parent = a.parent ∧ b.children = a.children := by
  rw [h]
  exact ⟨rfl, rfl, rfl, rfl⟩

theorem ValidatedOnly.shape (a b : Node) (h : ValidatedOnly a b) :
    b.root = a.root ∧ b.slot = a.slot ∧ b.parent = a.parent ∧ b.children = a.children := by
  rw [h.1]
  exact ⟨rfl, rfl, rfl, rfl⟩

/-- The store with one more node, as a child of its parent if that is known. -/
structure Grows (cfg : BeaconChainConfig) (block : Block) (justifiedEpoch finalizedEpoch : Nat)
    (w w' : World) : Prop where
  fresh : w.nodeByRoot block.root = none
  new : ∃ payloadHash,
    w'.heap w.next = w.newNode cfg block payloadHash justifiedEpoch finalizedEpoch
  old : ∀ i, i ≠ w.next → w'.heap i = { w.heap i with
    children := (w.heap i).children ++
      if w.nodeByRoot block.parentRoot = some i then [w.next] else [] }
  next : w'.next = w.next + 1
  map : w'.nodeByRoot = Function.update w.nodeByRoot block.root (some w.next)
  root : (∃ parent, w.nodeByRoot block.parentRoot = some parent ∧
      w'.treeRootNode = w.treeRootNode ∧ w'.highestReceivedNode = w.highestReceivedNode) ∨
    (w.nodeByRoot block.parentRoot = none ∧ w.treeRootNode = none ∧
      w'.treeRootNode = some w.next ∧ w'.highestReceivedNode = some w.next)
  rest : w' = { w with
    heap := w'.heap
    next := w'.next
    nodeByRoot := w'.nodeByRoot
    treeRootNode := w'.treeRootNode
    headNode := w'.headNode
    highestReceivedNode := w'.highestReceivedNode }

variable {cfg : BeaconChainConfig} {block : Block} {justifiedEpoch finalizedEpoch : Nat}
  {w w' : World}

theorem Attaches.grows (hattach : Attaches cfg block justifiedEpoch finalizedEpoch w w')
    (h : Allocated w.toStore) : Grows cfg block justifiedEpoch finalizedEpoch w w' := by
  cases hattach with
  | @child payloadHash parent hnew hparent =>
    have hlt : parent < w.next := (h.keyed _ _ hparent).2
    refine ⟨hnew, ⟨payloadHash, ?_⟩, fun i hi => ?_, rfl, rfl, .inl ⟨parent, hparent, rfl, rfl⟩, rfl⟩
    · simp [World.attachTo, World.modifyNode, World.addNode, Function.update_apply, hlt.ne']
    · by_cases hip : i = parent
      · subst hip
        simp [World.attachTo, World.modifyNode, World.addNode, hi, hparent]
      · simp [World.attachTo, World.modifyNode, World.addNode, hi, hip, hparent, Ne.symm hip]
  | first payloadHash hnew hparent hroot =>
    refine ⟨hnew, ⟨payloadHash, ?_⟩, fun i hi => ?_, rfl, rfl, .inr ⟨hparent, hroot, rfl, rfl⟩, rfl⟩
    · simp [World.attachFirst, World.addNode]
    · simp [World.attachFirst, World.addNode, hi, hparent]

theorem Allocated.grows (h : Allocated w.toStore)
    (hg : Grows cfg block justifiedEpoch finalizedEpoch w w') : Allocated w'.toStore := by
  obtain ⟨payloadHash, hnew⟩ := hg.new
  refine ⟨fun r i hi => ?_, fun i p hp => ?_, fun i c hc => ?_, fun r i hi => ?_⟩
  · rw [hg.map, Function.update_apply] at hi
    rw [hg.next]
    split_ifs at hi with hr
    · cases hi
      exact ⟨by rw [hnew, hr]; rfl, by omega⟩
    · have := h.keyed r i hi
      rw [hg.old i (by omega)]
      exact ⟨this.1, by omega⟩
  · rw [hg.next]
    by_cases hin : i = w.next
    · subst hin
      rw [hnew] at hp
      have := (h.keyed _ _ hp).2
      omega
    · rw [hg.old i hin] at hp
      have := h.parent i p hp
      omega
  · rw [hg.next]
    by_cases hin : i = w.next
    · subst hin
      rw [hnew] at hc
      cases hc
    · rw [hg.old i hin, List.mem_append] at hc
      rcases hc with hc | hc
      · have := h.children i c hc
        omega
      · split_ifs at hc with hpar
        · have := (h.keyed _ _ hpar).2
          simp at hc
          omega
        · cases hc
  · rcases hg.root with ⟨parent, hparent, ht, hh⟩ | ⟨-, -, ht, hh⟩
    · rw [ht, hh]
      exact h.rooted _ _ hparent
    · simp [ht, hh]

theorem allocated_stable (cfg : BeaconChainConfig) :
    Stable cfg (fun _ => True) fun w => Allocated w.toStore where
  allocated := id
  shrinks hs h := h.of_sameShape hs.sameShape
  decorates _ hd h := h.of_sameShape hd.sameTree.sameShape
  attaches _ ha h := h.grows (ha.grows h)
  cosmetic hc h := h.of_sameShape hc.sameTree.sameShape
  checkpoints hc h := h.of_sameShape hc.sameTree.sameShape
  epochs he h := h.of_sameShape (he.sameTree EpochsOnly.shape).sameShape

end Allocated

section Run

variable (cfg : BeaconChainConfig)

/-- A stable invariant of the store that survives counting survives every call, up to the
validation of a payload. -/
theorem Stable.step {J : Store → Prop} (h : Stable cfg (fun _ => True) fun w => J w.toStore)
    (hcounts : ∀ {w w' : World}, Counts w w' → J w.toStore → J w'.toStore) {f : ForkChoice}
    {c : Call} (hvalid : ∀ root, c.operation = .setOptimisticToValid root →
      J (after (setOptimisticToValid root) (c.start f)).toStore) (hJ : J f.toStore) :
    J (step cfg f c).toStore := by
  obtain ⟨operation, ctx, balancesByRoot⟩ := c
  have hstart : J (Call.start ⟨operation, ctx, balancesByRoot⟩ f).toStore := hJ
  rw [DoublyLinkedTree.step]
  cases operation with
  | insertNode state block clock currentSlot => exact h.insertNode state trivial _ _ _ hstart
  | insertChain chain => exact h.insertChain (fun _ _ => trivial) _ hstart
  | processAttestation indices blockRoot targetEpoch => exact hstart
  | insertSlashedIndex index => exact hcounts (insertSlashedIndex_counts _ index) hstart
  | newSlot slot order => exact h.newSlot slot order _ hstart
  | setOptimisticToValid root => exact hvalid root rfl
  | setOptimisticToInvalid root parentRoot payloadHash =>
    rw [Operation.method, after_bind_pure]
    exact h.setOptimisticToInvalid root parentRoot payloadHash _ hstart
  | updateJustifiedCheckpoint jc => exact h.updateJustifiedCheckpoint jc _ hstart
  | updateFinalizedCheckpoint fc => exact h.updateFinalizedCheckpoint fc _ hstart
  | Head currentEpoch headEpoch =>
    rw [Operation.method, after_bind_pure, DoublyLinkedTree.Head, after_modify_bind,
      after_modify_bind]
    exact h.cosmetic (headOfBalances_cosmetic currentEpoch headEpoch _)
      (hcounts (applyProposerBoostScore_counts cfg _) (hcounts (updateBalances_counts _) hstart))

theorem allocated_new : Allocated ForkChoice.new.toStore :=
  ⟨nofun, nofun, nofun, nofun⟩

theorem allocated_run (calls : List Call) : Allocated (run cfg calls).toStore := by
  induction calls using List.reverseRecOn with
  | nil => exact allocated_new
  | append_singleton calls c ih =>
    rw [run_concat]
    refine (allocated_stable cfg).step cfg (fun hc h => h.of_sameShape hc.sameTree.sameShape)
      (fun root _ => ?_) ih
    exact Allocated.of_sameShape ih ((setOptimisticToValid_heapStep root
      (c.start (run cfg calls))).sameTree ValidatedOnly.shape).sameShape

end Run

end LightChain.DoublyLinkedTree

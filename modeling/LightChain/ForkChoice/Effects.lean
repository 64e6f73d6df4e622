import LightChain.ForkChoice.Operations

/-!
# What a call can change

The methods that remove nodes only shrink the store: `Shrinks` collects what they can do,
whether they finish or are cancelled. `insert_cases` lists the outcomes of inserting a block.
The remaining methods write to the nodes in place or to the checkpoints.
-/
namespace LightChain.DoublyLinkedTree
open Library Program Function World

section Shrinks

/-- Children, parent and target are the only fields that removal can change. -/
structure NodeShrinks (a b : Node) : Prop where
  rest : b = { a with children := b.children, target := b.target, parent := b.parent }
  children : b.children ⊆ a.children
  parent : b.parent = a.parent ∨ b.parent = none

instance : Std.Refl NodeShrinks := ⟨fun _ => ⟨rfl, List.Subset.refl _, .inl rfl⟩⟩

instance : IsTrans Node NodeShrinks := ⟨fun a b c hab hbc =>
  ⟨by rw [hbc.rest, hab.rest], List.Subset.trans hbc.children hab.children, by
    have := hab.parent
    have := hbc.parent
    grind⟩⟩

/-- Nodes leave the tree and the map, and take a boost with them. -/
structure Shrinks (w w' : World) : Prop where
  rest : w' = { w with
    heap := w'.heap
    nodeByRoot := w'.nodeByRoot
    proposerBoostRoot := w'.proposerBoostRoot
    previousProposerBoostRoot := w'.previousProposerBoostRoot
    previousProposerBoostScore := w'.previousProposerBoostScore
    treeRootNode := w'.treeRootNode
    finalizedDependentRoot := w'.finalizedDependentRoot
    ctx := w'.ctx }
  node : ∀ i, NodeShrinks (w.heap i) (w'.heap i)
  map : ∀ r i, w'.nodeByRoot r = some i → w.nodeByRoot r = some i
  boost : w'.proposerBoostRoot = w.proposerBoostRoot ∨ w'.proposerBoostRoot = 0
  previous : (w'.previousProposerBoostRoot = w.previousProposerBoostRoot ∧
      w'.previousProposerBoostScore = w.previousProposerBoostScore) ∨
    (w'.previousProposerBoostRoot = 0 ∧ w'.previousProposerBoostScore = 0 ∧
      w'.nodeByRoot w.previousProposerBoostRoot = none)
  root : w.treeRootNode.isSome → w'.treeRootNode.isSome
  ctx : w.ctx = none → w'.ctx = none

instance : Std.Refl Shrinks :=
  ⟨fun _ => ⟨rfl, fun _ => refl _, fun _ _ h => h, .inl rfl, .inl ⟨rfl, rfl⟩, id, id⟩⟩

instance : IsTrans World Shrinks := ⟨fun u v w huv hvw => by
  refine ⟨?_, fun i => IsTrans.trans _ _ _ (huv.node i) (hvw.node i),
    fun r i h => huv.map r i (hvw.map r i h), ?_, ?_, fun h => hvw.root (huv.root h),
    fun h => hvw.ctx (huv.ctx h)⟩
  · rw [hvw.rest, huv.rest]
  · have := huv.boost
    have := hvw.boost
    grind
  · have hnone : v.nodeByRoot u.previousProposerBoostRoot = none →
        w.nodeByRoot u.previousProposerBoostRoot = none := by
      intro h
      rw [Option.eq_none_iff_forall_ne_some] at h ⊢
      exact fun i hi => h i (hvw.map _ i hi)
    have := huv.previous
    have := hvw.previous
    grind⟩

theorem ctxErr_shrinks : Within Shrinks ctxErr := by
  intro w
  rcases w with ⟨fc, _ | _ | k, b⟩
  · exact refl _
  · exact refl _
  · exact ⟨rfl, fun _ => refl _, fun _ _ h => h, .inl rfl, .inl ⟨rfl, rfl⟩, id, nofun⟩

theorem modifyNode_shrinks {n : Nat} {f : Node → Node} {w : World}
    (h : NodeShrinks (w.heap n) (f (w.heap n))) : Shrinks w (w.modifyNode n f) := by
  refine ⟨rfl, fun i => ?_, fun _ _ h => h, .inl rfl, .inl ⟨rfl, rfl⟩, id, id⟩
  simp only [World.modifyNode, update_apply]
  split_ifs with hi
  · exact hi ▸ h
  · exact refl _

theorem forget_shrinks (w : World) (root : Nat) : Shrinks w (w.forget root) := by
  refine ⟨rfl, fun _ => refl _, fun r i h => ?_, ?_, ?_, id, id⟩
  · simp only [forget, update_apply] at h
    grind
  · grind [forget]
  · simp only [forget, update_apply]
    grind

theorem removeNodeAndChildren_shrinks (fuel node : Nat) (invalidRoots : List Nat) :
    Within Shrinks (removeNodeAndChildren fuel node invalidRoots) := by
  induction fuel generalizing node invalidRoots with
  | zero => exact .throw _
  | succ fuel ih =>
    refine .get fun w => ?_
    refine Within.bind (.foldlM (fun roots child _ => ?_) _) (fun _ => .get fun w' => ?_) w
    · exact ctxErr_shrinks.bind fun _ => ih child roots
    · exact forget_shrinks w' _

theorem removeChild_subset (children : List Nat) (node : Nat) :
    removeChild children node ⊆ children := by
  intro c hc
  unfold removeChild at hc
  split_ifs at hc with h1 h2
  · cases hc
  · have hmem := List.mem_or_eq_of_mem_set (List.dropLast_subset _ hc)
    have hne : children ≠ [] := List.ne_nil_of_mem h2
    rcases hmem with hmem | rfl
    · exact hmem
    · rw [List.getLastD_eq_getLast?, List.getLast?_eq_some_getLast hne]
      exact List.getLast_mem hne
  · exact hc

theorem removeNode_shrinks (node : Nat) : Within Shrinks (removeNode node) := by
  refine .get fun w => ?_
  split_ifs
  · exact refl _
  · cases (w.heap node).parent with
    | none => exact refl _
    | some parent =>
      have hcut := modifyNode_shrinks (w := w) (n := parent)
        (f := fun p => { p with children := removeChild p.children node })
        ⟨rfl, removeChild_subset _ _, .inl rfl⟩
      exact IsTrans.trans _ _ _ hcut (removeNodeAndChildren_shrinks w.next node [] _)

/-- Removing a node without children takes it out of the map, whatever the context. -/
theorem removeNode_leaf {w : World} {node parent : Nat} (hnext : node < w.next)
    (hoptimistic : (w.heap node).optimistic = true) (hparent : (w.heap node).parent = some parent)
    (hne : node ≠ parent) (hchildren : (w.heap node).children = []) :
    after (removeNode node) w =
      (w.modifyNode parent fun p => { p with children := removeChild p.children node }).forget
        (w.heap node).root := by
  obtain ⟨fuel, hfuel⟩ := Nat.exists_eq_add_of_lt hnext
  unfold removeNode
  rw [after_get_bind, hfuel]
  simp only [hoptimistic, hparent, Bool.not_true, Bool.false_eq_true, if_false, modifyNode,
    after_modify_bind, removeNodeAndChildren, after_get_bind, modifyNode_heap, if_neg hne,
    hchildren, List.foldlM_nil]
  rw [after_bind_of_ok pure_run, after_get_bind, after_modify_bind, after_pure,
    modifyNode_heap, if_neg hne]

theorem firstInvalid_shrinks (lastValidHash fuel node : Nat) :
    Within Shrinks (firstInvalid lastValidHash fuel node) := by
  induction fuel generalizing node with
  | zero => exact .throw _
  | succ fuel ih =>
    refine .get fun w => ?_
    cases (w.heap node).parent with
    | none => exact refl _
    | some parent =>
      dsimp only
      split_ifs
      · exact refl _
      · exact ctxErr_shrinks.bind (fun _ => ih parent) w

theorem removeFirstInvalid_shrinks (node parentRoot lastValidHash : Nat) :
    Within Shrinks (removeFirstInvalid node parentRoot lastValidHash) := by
  refine .get fun w => ?_
  refine Within.bind (firstInvalid_shrinks _ _ _) (fun first => .get fun w' => ?_) w
  cases (w'.heap first).parent with
  | some _ => exact removeNode_shrinks first w'
  | none =>
    dsimp only
    split_ifs
    · exact refl _
    · exact removeNode_shrinks node w'

theorem setOptimisticToInvalid_shrinks (root parentRoot lastValidHash : Nat) :
    Within Shrinks (setOptimisticToInvalid root parentRoot lastValidHash) := by
  refine .get fun w => ?_
  cases w.nodeByRoot root with
  | none =>
    cases w.nodeByRoot parentRoot with
    | none => exact refl _
    | some node =>
      dsimp only
      split_ifs
      · exact refl _
      · exact removeFirstInvalid_shrinks _ _ _ w
  | some node =>
    refine Within.bind (deref_within _) (fun parent => ?_) w
    split_ifs
    · exact .throw _
    · exact removeFirstInvalid_shrinks _ _ _

theorem cutNode_shrinks (w : World) (node : Nat) :
    Shrinks w { w.modifyNode node fun n => { n with children := [] } with
      nodeByRoot := Function.update w.nodeByRoot (w.heap node).root none } := by
  have hnode : Shrinks w (w.modifyNode node fun n => { n with children := [] }) :=
    modifyNode_shrinks ⟨rfl, List.nil_subset _, .inl rfl⟩
  refine ⟨rfl, hnode.node, fun r i h => ?_, .inl rfl, .inl ⟨rfl, rfl⟩, id, id⟩
  grind [update_apply]

theorem pruneFinalizedNodeByRootMap_shrinks (finalizedNode fuel node : Nat) :
    Within Shrinks (pruneFinalizedNodeByRootMap finalizedNode fuel node) := by
  induction fuel generalizing node with
  | zero => exact .throw _
  | succ fuel ih =>
    refine ctxErr_shrinks.bind fun _ => ?_
    split_ifs
    · refine .modify fun w => modifyNode_shrinks ?_
      exact ⟨rfl, List.Subset.refl _, .inl rfl⟩
    · refine .get fun w => ?_
      refine Within.bind (.foldlM (fun _ child _ => ih child) _) (fun _ => ?_) w
      exact .modify fun w => cutNode_shrinks w node

theorem pruneIncompatible_shrinks (finalizedNode checkpointMaxSlot : Nat) :
    Within Shrinks (pruneIncompatible finalizedNode checkpointMaxSlot) := by
  refine .get fun w => Within.foldlM (fun _ child _ => .get fun w' => ?_) _ w
  split_ifs
  · exact (pruneFinalizedNodeByRootMap_shrinks finalizedNode w'.next child).mapError w'
  · exact refl _

theorem pruneToRoot_shrinks (finalizedNode parent : Nat) :
    Within Shrinks (pruneToRoot finalizedNode parent) := by
  refine Within.bind (.modify fun w => ?_) fun _ => .get fun w =>
    Within.bind (deref_within _) (fun root => .get fun w' => ?_) w
  · exact ⟨rfl, fun _ => refl _, fun _ _ h => h, .inl rfl, .inl ⟨rfl, rfl⟩, id, id⟩
  · refine Within.bind (pruneFinalizedNodeByRootMap_shrinks _ _ _) (fun _ => ?_) w'
    refine .modify fun w => ?_
    have hnode : Shrinks w (w.modifyNode finalizedNode fun n => { n with parent := none }) :=
      modifyNode_shrinks ⟨rfl, List.Subset.refl _, .inr rfl⟩
    exact ⟨rfl, hnode.node, fun _ _ h => h, .inl rfl, .inl ⟨rfl, rfl⟩, fun _ => rfl, id⟩

theorem prune_shrinks (cfg : BeaconChainConfig) : Within Shrinks (prune cfg) := by
  refine .get fun w => ?_
  cases w.nodeByRoot w.finalizedCheckpoint.root with
  | none => exact refl _
  | some finalizedNode =>
    dsimp only
    cases (w.heap finalizedNode).parent with
    | none => exact refl _
    | some parent =>
      refine Within.bind (pruneToRoot_shrinks finalizedNode parent) (fun _ => ?_) w
      cases epochStart cfg w.finalizedCheckpoint.epoch with
      | none => exact .throw _
      | some checkpointMaxSlot =>
        dsimp only
        split_ifs
        · exact .pure _
        · exact pruneIncompatible_shrinks finalizedNode checkpointMaxSlot

end Shrinks

section Insert

variable (cfg : BeaconChainConfig) (block : Block) (clock : InsertClock)

/-- What `insert` does besides entering the node. -/
structure Decorates (root : Nat) (w w' : World) : Prop where
  rest : w' = { w with
    heap := w'.heap
    ctx := w'.ctx
    proposerBoostRoot := w'.proposerBoostRoot
    receivedBlocksLastEpoch := w'.receivedBlocksLastEpoch
    highestReceivedNode := w'.highestReceivedNode }
  node : ∀ i, BestOnly (w.heap i) (w'.heap i)
  boost : w'.proposerBoostRoot = w.proposerBoostRoot ∨ w'.proposerBoostRoot = root
  highest : w.highestReceivedNode.isSome → w'.highestReceivedNode.isSome
  ctx : w.ctx = none → w'.ctx = none

instance (root : Nat) : Std.Refl (Decorates root) :=
  ⟨fun _ => ⟨rfl, fun _ => refl _, .inl rfl, id, id⟩⟩

instance (root : Nat) : IsTrans World (Decorates root) := ⟨fun u v w huv hvw => by
  refine ⟨?_, fun i => IsTrans.trans _ _ _ (huv.node i) (hvw.node i), ?_,
    fun h => hvw.highest (huv.highest h), fun h => hvw.ctx (huv.ctx h)⟩
  · rw [hvw.rest, huv.rest]
  · have := huv.boost
    have := hvw.boost
    grind⟩

theorem decorates_of_bestOnly (root : Nat) {w w' : World} (h : HeapStep BestOnly w w') :
    Decorates root w w' := by
  obtain ⟨heap, ctx, rfl, hctx, h⟩ := h
  exact ⟨rfl, h, .inl rfl, id, hctx⟩

theorem boostTimely_decorates (w : World) (sss : Int) :
    Decorates block.root w (w.boostTimely block clock sss) := by
  unfold boostTimely
  split_ifs
  · exact ⟨rfl, fun _ => refl _, .inr rfl, id, id⟩
  · exact refl _

/-- The new node as a child or as the root of the tree. -/
inductive Attaches (cfg : BeaconChainConfig) (block : Block) (justifiedEpoch finalizedEpoch : Nat)
    (w : World) : World → Prop where
  | child (payloadHash : Nat) {parent : Nat} (hnew : w.nodeByRoot block.root = none)
      (hparent : w.nodeByRoot block.parentRoot = some parent) :
      Attaches cfg block justifiedEpoch finalizedEpoch w
        (w.attachTo parent (w.newNode cfg block payloadHash justifiedEpoch finalizedEpoch))
  | first (payloadHash : Nat) (hnew : w.nodeByRoot block.root = none)
      (hparent : w.nodeByRoot block.parentRoot = none) (hroot : w.treeRootNode = none) :
      Attaches cfg block justifiedEpoch finalizedEpoch w
        (w.attachFirst (w.newNode cfg block payloadHash justifiedEpoch finalizedEpoch))

/-- The outcomes of `insert`: the block is known or refused, the node is added, it is added
and removed again, or it is left in the tree by a failure of the clock. -/
inductive InsertOutcome (cfg : BeaconChainConfig) (block : Block)
    (justifiedEpoch finalizedEpoch : Nat) (clock : InsertClock) (w : World) :
    EStateM.Result Error World Nat → Prop where
  | known {n : Nat} (hn : w.nodeByRoot block.root = some n) :
      InsertOutcome cfg block justifiedEpoch finalizedEpoch clock w (.ok n w)
  | refused (e : Error) :
      InsertOutcome cfg block justifiedEpoch finalizedEpoch clock w (.error e w)
  | added {w₁ w₂ : World} (hattach : Attaches cfg block justifiedEpoch finalizedEpoch w w₁)
      (hdecorate : Decorates block.root w₁ w₂) :
      InsertOutcome cfg block justifiedEpoch finalizedEpoch clock w (.ok w.next w₂)
  | undone {w₁ w₂ : World} (e : Error) {parent : Nat}
      (hparent : w.nodeByRoot block.parentRoot = some parent)
      (hattach : Attaches cfg block justifiedEpoch finalizedEpoch w w₁)
      (hdecorate : Decorates block.root w₁ w₂) :
      InsertOutcome cfg block justifiedEpoch finalizedEpoch clock w
        (.error e (after (removeNode w.next) w₂))
  | left {w₁ : World} (e : Error)
      (hattach : Attaches cfg block justifiedEpoch finalizedEpoch w w₁)
      (hclock : clock.beforeGenesis = false ∧ clock.sinceSlotStart = none) :
      InsertOutcome cfg block justifiedEpoch finalizedEpoch clock w (.error e w₁)

theorem trackReceived_within (root n slot : Nat) :
    Within (Decorates root) (trackReceived cfg n slot clock) := by
  have htrack : Within (Decorates root) (do
      let highest ← deref (← get).highestReceivedNode
      if ((← get).heap highest).slot < slot then
        modify fun w => { w with highestReceivedNode := some n } : Method Unit) := by
    refine .get fun w => Within.bind (deref_within _) (fun _ => .get fun w' => ?_) w
    split_ifs
    · exact ⟨rfl, fun _ => refl _, .inl rfl, fun _ => rfl, id⟩
    · exact refl _
  unfold trackReceived
  split_ifs
  · exact Within.bind (.modify fun w => ⟨rfl, fun _ => refl _, .inl rfl, id, id⟩) fun _ => htrack
  · exact htrack

theorem trackReceived_ok {w : World} (hhighest : w.highestReceivedNode.isSome) (n slot : Nat) :
    ∃ w', trackReceived cfg n slot clock w = .ok () w' := by
  obtain ⟨h, hh⟩ := Option.isSome_iff_exists.1 hhighest
  unfold trackReceived
  by_cases hs : (w.heap h).slot < slot <;> split_ifs <;> simp [hh, deref, hs]

theorem settleChild_cases {w : World} (hroot : w.treeRootNode.isSome)
    (hhighest : w.highestReceivedNode.isSome) (n : Nat) :
    (∃ w', settleChild cfg n block clock w = .ok n w' ∧ Decorates block.root w w') ∨
    (∃ e sss w', settleChild cfg n block clock w = .error e (after (removeNode n) w') ∧
      clock.sinceSlotStart = some sss ∧ HeapStep BestOnly (w.boostTimely block clock sss) w') ∨
    ∃ e, settleChild cfg n block clock w = .error e w ∧
      clock.beforeGenesis = false ∧ clock.sinceSlotStart = none := by
  obtain ⟨root, hroot⟩ := Option.isSome_iff_exists.1 hroot
  unfold settleChild
  cases hbefore : clock.beforeGenesis with
  | true => exact .inl ⟨w, rfl, refl _⟩
  | false =>
    cases hsss : clock.sinceSlotStart with
    | none => exact .inr (.inr ⟨_, rfl, rfl, rfl⟩)
    | some sss =>
      have hboost := boostTimely_decorates block clock w sss
      generalize hw₁ : w.boostTimely block clock sss = w₁ at hboost
      have hroot₁ : w₁.treeRootNode = some root := by rw [hboost.rest]; exact hroot
      have hhighest₁ := hboost.highest hhighest
      have hbest := updateBestDescendant_within w₁.justifiedCheckpoint.epoch
        (toEpoch cfg clock.currentSlot) w₁.next root w₁
      simp only [Bool.false_eq_true, if_false, modify_bind_run, hw₁, get_bind_run, hroot₁, deref,
        pure_bind_run]
      rw [bind_run, wrap, mapError, withCleanup]
      cases hrun : updateBestDescendant w₁.justifiedCheckpoint.epoch
          (toEpoch cfg clock.currentSlot) w₁.next root w₁ with
      | error e w₂ =>
        rw [after_of_error hrun] at hbest
        exact .inr (.inl ⟨_, sss, w₂, rfl, rfl, hw₁ ▸ hbest⟩)
      | ok _ w₂ =>
        rw [after_of_ok hrun] at hbest
        have h₂ := IsTrans.trans _ _ _ hboost (decorates_of_bestOnly block.root hbest)
        obtain ⟨w₃, h₃⟩ := trackReceived_ok cfg clock (h₂.highest hhighest) n block.slot
        have htrack := trackReceived_within cfg clock block.root n block.slot w₂
        rw [after_of_ok h₃] at htrack
        refine .inl ⟨w₃, ?_, IsTrans.trans _ _ _ h₂ htrack⟩
        exact bind_of_ok h₃

theorem insert_cases (justifiedEpoch finalizedEpoch : Nat) {w : World}
    (hrooted : ∀ r i, w.nodeByRoot r = some i →
      w.treeRootNode.isSome ∧ w.highestReceivedNode.isSome) :
    InsertOutcome cfg block justifiedEpoch finalizedEpoch clock w
      (insert cfg block justifiedEpoch finalizedEpoch clock w) := by
  unfold insert
  rw [get_bind_run]
  cases block.payloadHash with
  | none => exact .refused _
  | some payloadHash =>
    cases hnew : w.nodeByRoot block.root with
    | some n => exact .known hnew
    | none =>
      cases hparent : w.nodeByRoot block.parentRoot with
      | some parent =>
        obtain ⟨hroot, hhighest⟩ := hrooted _ _ hparent
        have hattach : Attaches cfg block justifiedEpoch finalizedEpoch w _ :=
          .child payloadHash hnew hparent
        obtain ⟨w', hrun, h⟩ | ⟨e, sss, w', hrun, -, h⟩ | ⟨e, hrun, h⟩ :=
          settleChild_cases cfg block clock (w := w.attachTo parent
            (w.newNode cfg block payloadHash justifiedEpoch finalizedEpoch)) hroot hhighest w.next
        all_goals simp only [set_bind_run, hrun]
        · exact .added hattach h
        · exact .undone e hparent hattach (IsTrans.trans _ _ _
            (boostTimely_decorates block clock _ sss) (decorates_of_bestOnly _ h))
        · exact .left e hattach h
      | none =>
        cases hroot : w.treeRootNode with
        | some _ => exact .refused _
        | none =>
          have hattach : Attaches cfg block justifiedEpoch finalizedEpoch w _ :=
            .first payloadHash hnew hparent hroot
          generalize hw₁ : w.attachFirst
            (w.newNode cfg block payloadHash justifiedEpoch finalizedEpoch) = w₁ at hattach
          have hhighest : w₁.highestReceivedNode.isSome := by rw [← hw₁]; rfl
          obtain ⟨w₂, h₂⟩ := trackReceived_ok cfg clock hhighest w.next block.slot
          have htrack := trackReceived_within cfg clock block.root w.next block.slot w₁
          rw [after_of_ok h₂] at htrack
          simp only [hw₁, set_bind_run]
          rw [bind_of_ok h₂]
          exact .added hattach htrack

end Insert

section Other

structure Cosmetic (w w' : World) : Prop where
  rest : w' = { w with
    heap := w'.heap
    ctx := w'.ctx
    headNode := w'.headNode
    allTipsAreInvalid := w'.allTipsAreInvalid }
  node : ∀ i, w'.heap i = { w.heap i with
    weight := (w'.heap i).weight
    bestDescendant := (w'.heap i).bestDescendant }

instance : Std.Refl Cosmetic := ⟨fun _ => ⟨rfl, fun _ => rfl⟩⟩

instance : IsTrans World Cosmetic := ⟨fun _ _ _ huv hvw =>
  ⟨by rw [hvw.rest, huv.rest], fun i => by rw [hvw.node i, huv.node i]⟩⟩

theorem applyWeightChanges_cosmetic (fuel n : Nat) :
    Within Cosmetic (applyWeightChanges fuel n) := by
  intro w
  obtain ⟨heap, ctx, hrest, -, h⟩ := applyWeightChanges_within fuel n w
  rw [hrest]
  exact ⟨rfl, fun i => (h i).trans (by grind [WeightOnly, h i])⟩

theorem updateBestDescendant_cosmetic (justifiedEpoch currentEpoch fuel n : Nat) :
    Within Cosmetic (updateBestDescendant justifiedEpoch currentEpoch fuel n) := by
  intro w
  obtain ⟨heap, ctx, hrest, -, h⟩ :=
    updateBestDescendant_within justifiedEpoch currentEpoch fuel n w
  rw [hrest]
  exact ⟨rfl, fun i => (h i).trans (by grind [BestOnly, h i])⟩

def HeadOnly (w w' : World) : Prop :=
  w' = { w with
    ctx := w'.ctx
    headNode := w'.headNode
    allTipsAreInvalid := w'.allTipsAreInvalid }

instance : Std.Refl HeadOnly := ⟨fun _ => rfl⟩

instance : IsTrans World HeadOnly := ⟨fun _ _ _ huv hvw => by
  unfold HeadOnly at huv hvw ⊢
  rw [hvw, huv]⟩

theorem head_headOnly (currentEpoch : Nat) : Within HeadOnly (head currentEpoch) := by
  have hctx : Within HeadOnly ctxErr := by
    intro w
    rcases w with ⟨fc, _ | _ | k, b⟩ <;> exact rfl
  have hjustified : Within HeadOnly justifiedNode := by
    refine .get fun w => ?_
    cases w.nodeByRoot w.justifiedCheckpoint.root with
    | some n => exact refl _
    | none =>
      dsimp only
      split_ifs
      · exact deref_within _ w
      · exact refl _
  refine hctx.bind fun _ => hjustified.bind fun n => .get fun w => ?_
  dsimp only
  split_ifs <;> exact rfl

theorem head_cosmetic (currentEpoch : Nat) : Within Cosmetic (head currentEpoch) := by
  intro w
  have h := head_headOnly currentEpoch w
  exact ⟨by rw [h], fun i => by rw [h]⟩

theorem headOfBalances_cosmetic (currentEpoch headEpoch : Nat) :
    Within Cosmetic (headOfBalances currentEpoch headEpoch) := by
  refine .get fun w => Within.bind (deref_within _) (fun root => ?_) w
  refine Within.bind (applyWeightChanges_cosmetic _ _).mapError fun _ => ?_
  exact (updateBestDescendant_cosmetic _ _ _ _).mapError.bind fun _ => head_cosmetic _

structure Counts (w w' : World) : Prop where
  rest : w' = { w with
    heap := w'.heap
    votes := w'.votes
    balances := w'.balances
    slashedIndices := w'.slashedIndices
    previousProposerBoostRoot := w'.previousProposerBoostRoot
    previousProposerBoostScore := w'.previousProposerBoostScore
    underflow := w'.underflow }
  node : ∀ i, w'.heap i = { w.heap i with balance := (w'.heap i).balance }

instance : Std.Refl Counts := ⟨fun _ => ⟨rfl, fun _ => rfl⟩⟩

instance : IsTrans World Counts := ⟨fun _ _ _ huv hvw =>
  ⟨by rw [hvw.rest, huv.rest], fun i => by rw [hvw.node i, huv.node i]⟩⟩

variable (w : World)

theorem addBalance_counts (node amount : Nat) : Counts w (w.addBalance node amount) := by
  refine ⟨rfl, fun i => ?_⟩
  rw [addBalance, modifyNode_heap]
  split_ifs with hi
  · rw [hi]
  · rfl

theorem subtractBalance_counts (node amount : Nat) : Counts w (w.subtractBalance node amount) := by
  unfold subtractBalance
  split_ifs <;> refine ⟨rfl, fun i => ?_⟩ <;> dsimp only <;> rw [modifyNode_heap] <;>
    split_ifs with hi <;> simp [hi]

theorem moveBalance_counts (vote : Vote) (oldBalance newBalance : Nat) :
    Counts w (w.moveBalance vote oldBalance newBalance) := by
  unfold moveBalance
  cases w.votedNode vote.nextRoot with
  | none =>
    dsimp only
    split
    · exact subtractBalance_counts _ _ _
    · exact refl _
  | some nextNode =>
    dsimp only
    split
    · exact IsTrans.trans _ _ _ (addBalance_counts _ _ _) (subtractBalance_counts _ _ _)
    · exact addBalance_counts _ _ _

theorem updateBalance_counts (index : Nat) : Counts w (w.updateBalance index) := by
  unfold updateBalance
  dsimp only
  split_ifs
  · exact refl _
  · exact refl _
  · have h := moveBalance_counts w (w.votes.getD index {}) (w.balances.getD index 0)
      (w.justifiedBalances.getD index 0)
    exact ⟨by rw [h.rest], h.node⟩
  · exact ⟨rfl, fun _ => rfl⟩

theorem updateBalances_counts : Counts w w.updateBalances := by
  have h : ∀ (indices : List Nat) (w : World), Counts w (indices.foldl updateBalance w) := by
    intro indices
    induction indices with
    | nil => exact fun w => refl w
    | cons index indices ih =>
      exact fun w => IsTrans.trans _ _ _ (updateBalance_counts w index) (ih _)
  have hall := h (List.range w.votes.length) w
  exact ⟨by rw [updateBalances, hall.rest], hall.node⟩

theorem unboost_counts : Counts w w.unboost := by
  unfold unboost
  cases w.votedNode w.previousProposerBoostRoot with
  | none => exact refl _
  | some node =>
    refine ⟨rfl, fun i => ?_⟩
    dsimp only
    rw [modifyNode_heap]
    split_ifs with hi <;> simp [hi]

theorem applyProposerBoostScore_counts (cfg : BeaconChainConfig) (w : World) :
    Counts w (w.applyProposerBoostScore cfg) := by
  refine IsTrans.trans _ _ _ (unboost_counts w) ?_
  unfold applyProposerBoostScore
  dsimp only
  split
  · exact ⟨rfl, fun _ => rfl⟩
  · have h := addBalance_counts w.unboost
    exact ⟨rfl, (h _ _).node⟩

theorem insertSlashedIndex_counts (index : Nat) : Counts w (w.insertSlashedIndex index) := by
  have hslash : Counts w { w with
      slashedIndices := Function.update w.slashedIndices index true } := ⟨rfl, fun _ => rfl⟩
  unfold insertSlashedIndex
  dsimp only
  split_ifs
  · exact refl _
  · split
    · split
      · exact IsTrans.trans _ _ _ hslash (subtractBalance_counts _ _ _)
      · exact hslash
    · exact hslash

theorem setOptimisticToValid_heapStep (root : Nat) :
    Within (HeapStep ValidatedOnly) (setOptimisticToValid root) := by
  refine .get fun w => ?_
  cases w.nodeByRoot root with
  | none => exact refl _
  | some node => exact setNodeAndParentValidated_within _ _ w

def CheckpointsOnly (w w' : World) : Prop :=
  w' = { w with
    justifiedCheckpoint := w'.justifiedCheckpoint
    prevJustifiedCheckpoint := w'.prevJustifiedCheckpoint
    finalizedCheckpoint := w'.finalizedCheckpoint
    unrealizedJustifiedCheckpoint := w'.unrealizedJustifiedCheckpoint
    unrealizedFinalizedCheckpoint := w'.unrealizedFinalizedCheckpoint
    justifiedBalances := w'.justifiedBalances
    committeeWeight := w'.committeeWeight
    numActiveValidators := w'.numActiveValidators
    balancesByRoot := w'.balancesByRoot }

theorem updateJustifiedBalances_checkpoints (cfg : BeaconChainConfig) :
    Within CheckpointsOnly (updateJustifiedBalances cfg) := by
  intro w
  unfold CheckpointsOnly after updateJustifiedBalances
  cases w.balancesByRoot 0 <;> rfl

theorem accountUnrealized_checkpoints (uj uf : Checkpoint) :
    CheckpointsOnly w (w.accountUnrealized uj uf) := by
  unfold CheckpointsOnly accountUnrealized
  dsimp only
  split_ifs <;> rfl

def EpochsOnly (a b : Node) : Prop :=
  b = { a with
    justifiedEpoch := b.justifiedEpoch
    finalizedEpoch := b.finalizedEpoch
    unrealizedJustifiedEpoch := b.unrealizedJustifiedEpoch
    unrealizedFinalizedEpoch := b.unrealizedFinalizedEpoch }

instance : Std.Refl EpochsOnly := ⟨fun _ => rfl⟩

end Other

end LightChain.DoublyLinkedTree

import LightChain.ForkChoice.Removal

/-!
# The block tree along a run

A call that is not cancelled keeps the tree as long as the checkpoints it finalizes are
compatible with the children of their blocks. Whether they are is said in terms of the blocks
that the store has before the call and those that the call brings.
-/
namespace LightChain.DoublyLinkedTree
open Library Program CheckpointsOnly

section Compatible

/-- A block of this root and slot is in the tree or among the given ones. -/
def Store.HasBlock (s : Store) (blocks : List Block) (root slot : Nat) : Prop :=
  (∃ i, s.nodeByRoot root = some i ∧ (s.heap i).slot = slot) ∨
    ∃ b ∈ blocks, b.root = root ∧ b.slot = slot

/-- A child of this root with this slot is in the tree or among the given blocks. -/
def Store.HasChild (s : Store) (blocks : List Block) (root slot : Nat) : Prop :=
  (∃ i, s.nodeByRoot root = some i ∧ ∃ c ∈ (s.heap i).children, (s.heap c).slot = slot) ∨
    ∃ b ∈ blocks, b.parentRoot = root ∧ b.slot = slot

/-- The block of the checkpoint is at the start of its epoch, or its children come after it. -/
def Store.Compatible (cfg : BeaconChainConfig) (s : Store) (blocks : List Block)
    (cp : Checkpoint) : Prop :=
  ∃ start, epochStart cfg cp.epoch = some start ∧
    ∀ slot childSlot, s.HasBlock blocks cp.root slot → s.HasChild blocks cp.root childSlot →
      slot = start ∨ start < childSlot

/-- During a call on the store `s`, the tree has blocks of the store and of the call. -/
structure Tended (s : Store) (blocks : List Block) (w : World) : Prop where
  tree : IsTree w.toStore
  ctx : w.ctx = none
  block : ∀ r i, w.nodeByRoot r = some i → s.HasBlock blocks r (w.heap i).slot
  child : ∀ r i, w.nodeByRoot r = some i → ∀ c ∈ (w.heap i).children,
    s.HasChild blocks r (w.heap c).slot

variable {cfg : BeaconChainConfig} {s : Store} {blocks : List Block} {w w' : World}

theorem Tended.of_sameTree (h : Tended s blocks w) (hs : SameTree w.toStore w'.toStore)
    (hctx : w.ctx = none → w'.ctx = none) : Tended s blocks w' := by
  refine ⟨h.tree.of_sameTree hs, hctx h.ctx, fun r i hi => ?_, fun r i hi c hc => ?_⟩
  · rw [hs.map] at hi
    rw [(hs.node i).2.1]
    exact h.block r i hi
  · rw [hs.map] at hi
    rw [(hs.node i).2.2.2] at hc
    rw [(hs.node c).2.1]
    exact h.child r i hi c hc

theorem Tended.of_shrinks (h : Tended s blocks w) (hs : Shrinks w w') (htree : IsTree w'.toStore) :
    Tended s blocks w' := by
  refine ⟨htree, hs.ctx h.ctx, fun r i hi => ?_, fun r i hi c hc => ?_⟩
  · rw [(hs.node i).rest]
    exact h.block r i (hs.map r i hi)
  · rw [(hs.node c).rest]
    exact h.child r i (hs.map r i hi) c ((hs.node i).children hc)

theorem CheckpointsOnly.tended (hc : CheckpointsOnly w w') (h : Tended s blocks w) :
    Tended s blocks w' :=
  h.of_sameTree hc.sameTree (by rw [hc]; exact id)

section

variable (h : Tended s blocks w)

include h

theorem Tended.modifyNode {n : Nat} {f : Node → Node} (hf : ∀ a, EpochsOnly a (f a)) :
    Tended s blocks (w.modifyNode n f) :=
  h.of_sameTree (HeapStep.sameTree (modifyNode_heapStep (n := n) hf w) EpochsOnly.shape) id

theorem Tended.cleanlyFinalized (hcp : s.Compatible cfg blocks w.finalizedCheckpoint) :
    w.CleanlyFinalized cfg := by
  intro finalizedNode hfinalized
  obtain ⟨start, hstart, hcompatible⟩ := hcp
  refine ⟨start, hstart, or_iff_not_imp_left.2 fun hslot c hc => ?_⟩
  exact (hcompatible _ _ (h.block _ _ hfinalized) (h.child _ _ hfinalized c hc)).resolve_left hslot

theorem Tended.prune (hcp : s.Compatible cfg blocks w.finalizedCheckpoint) :
    Tended s blocks (after (prune cfg) w) ∧ ∀ e w', prune cfg w = .error e w' → w' = w := by
  have hshrinks := prune_shrinks cfg w
  rcases prune_isTree cfg h.tree h.ctx (h.cleanlyFinalized hcp) with ⟨e, hrun⟩ | ⟨w', hrun, htree⟩
  · rw [after_of_error hrun]
    refine ⟨h, fun e' w' hrun' => ?_⟩
    cases hrun.symm.trans hrun'
    rfl
  · rw [after_of_ok hrun] at hshrinks ⊢
    refine ⟨h.of_shrinks hshrinks htree, fun e' w' hrun' => ?_⟩
    cases hrun.symm.trans hrun'

theorem Tended.removeNode {n : Nat} (hn : w.Live n) : Tended s blocks (after (removeNode n) w) :=
  h.of_shrinks (removeNode_shrinks n w) (h.tree.removeNode h.ctx hn)

theorem Tended.grows {block : Block} {justifiedEpoch finalizedEpoch : Nat} (hblock : block ∈ blocks)
    (hg : Grows cfg block justifiedEpoch finalizedEpoch w w') : Tended s blocks w' := by
  obtain ⟨payloadHash, hnew⟩ := hg.new
  have hslot : (w'.heap w.next).slot = block.slot := by rw [hnew]; rfl
  have hold : ∀ r i, w'.nodeByRoot r = some i → i ≠ w.next → w.nodeByRoot r = some i := by
    intro r i hi hne
    rw [hg.map, Function.update_apply] at hi
    grind
  refine ⟨h.tree.grows hg, by rw [hg.rest]; exact h.ctx, fun r i hi => ?_, fun r i hi c hc => ?_⟩
  · by_cases hin : i = w.next
    · have hroot := ((h.tree.grows hg).allocated.keyed r i hi).1
      rw [hin, hnew] at hroot
      exact .inr ⟨block, hblock, hroot, by rw [hin, hslot]⟩
    · rw [hg.old i hin]
      exact h.block r i (hold r i hi hin)
  · by_cases hin : i = w.next
    · rw [hin, hnew] at hc
      cases hc
    · rw [hg.old i hin, List.mem_append] at hc
      rcases hc with hc | hc
      · rw [hg.old c (h.tree.allocated.children i c hc).2.ne]
        exact h.child r i (hold r i hi hin) c hc
      · split_ifs at hc with hparent
        · have hroot := (h.tree.allocated.keyed _ i hparent).1
          have hr := (h.tree.allocated.keyed r i (hold r i hi hin)).1
          rw [List.mem_singleton.1 hc, hslot]
          exact .inr ⟨block, hblock, hroot.symm.trans hr, rfl⟩
        · cases hc

end

end Compatible

section Methods

variable (cfg : BeaconChainConfig) {s : Store} {blocks : List Block} {w : World}

theorem SameTree.live_iff {s s' : Store} (h : SameTree s s') (i : Nat) : s'.Live i ↔ s.Live i := by
  rw [Store.Live, Store.Live, h.map, (h.node i).1]

theorem SameTree.trans {s t u : Store} (hst : SameTree s t) (htu : SameTree t u) : SameTree s u :=
  ⟨htu.next.trans hst.next, htu.map.trans hst.map, htu.rooted.trans hst.rooted, fun i =>
    ⟨(htu.node i).1.trans (hst.node i).1, (htu.node i).2.1.trans (hst.node i).2.1,
      (htu.node i).2.2.1.trans (hst.node i).2.2.1, (htu.node i).2.2.2.trans (hst.node i).2.2.2⟩,
    fun h => htu.highest (hst.highest h)⟩

theorem insert_tended {block : Block} (hblock : block ∈ blocks) (h : Tended s blocks w)
    (justifiedEpoch finalizedEpoch : Nat) (clock : InsertClock) :
    Tended s blocks (after (insert cfg block justifiedEpoch finalizedEpoch clock) w) ∧
      (after (insert cfg block justifiedEpoch finalizedEpoch clock) w).finalizedCheckpoint =
        w.finalizedCheckpoint ∧
      ∀ n w', insert cfg block justifiedEpoch finalizedEpoch clock w = .ok n w' → w'.Live n := by
  have hcases := insert_cases cfg block clock justifiedEpoch finalizedEpoch h.tree.allocated.rooted
  unfold after
  generalize insert cfg block justifiedEpoch finalizedEpoch clock w = result at hcases ⊢
  cases hcases with
  | known hn =>
    refine ⟨h, rfl, fun n w' hrun => ?_⟩
    cases hrun
    exact h.tree.allocated.live hn
  | refused e => exact ⟨h, rfl, nofun⟩
  | added hattach hd =>
    have hg := hattach.grows h.tree.allocated
    refine ⟨(h.grows hblock hg).of_sameTree hd.sameTree hd.ctx, by rw [hd.rest, hg.rest], ?_⟩
    intro n w' hrun
    cases hrun
    rw [hd.sameTree.live_iff, hg.live_iff]
    exact .inl rfl
  | @undone _ w₂ e parent hparent hattach hd =>
    have hg := hattach.grows h.tree.allocated
    have hlive : w₂.Live w.next := by
      rw [hd.sameTree.live_iff, hg.live_iff]
      exact .inl rfl
    refine ⟨((h.grows hblock hg).of_sameTree hd.sameTree hd.ctx).removeNode hlive, ?_, nofun⟩
    rw [(removeNode_shrinks w.next w₂).rest, hd.rest, hg.rest]
  | left e hattach _ =>
    have hg := hattach.grows h.tree.allocated
    exact ⟨h.grows hblock hg, by rw [hg.rest], nofun⟩

structure Pulls (w w' : World) : Prop where
  rest : w' = { w with
    heap := w'.heap
    unrealizedJustifiedCheckpoint := w'.unrealizedJustifiedCheckpoint
    unrealizedFinalizedCheckpoint := w'.unrealizedFinalizedCheckpoint }
  node : ∀ i, EpochsOnly (w.heap i) (w'.heap i)

theorem Pulls.sameTree {w w' : World} (h : Pulls w w') : SameTree w.toStore w'.toStore :=
  ⟨by rw [h.rest], by rw [h.rest], by rw [h.rest], fun i => EpochsOnly.shape _ _ (h.node i),
    by rw [h.rest]; exact id⟩

theorem Pulls.modifyNode {w w' : World} (h : Pulls w w') {n : Nat} {f : Node → Node}
    (hf : ∀ a, EpochsOnly a (f a)) : Pulls w (w'.modifyNode n f) := by
  refine ⟨?_, fun i => ?_⟩
  · rw [h.rest]
    rfl
  · have hi := h.node i
    rw [World.modifyNode_heap]
    split_ifs with hin
    · rw [EpochsOnly, hf (w'.heap n), ← hin, hi]
    · exact hi

theorem accountUnrealized_pulls (uj uf : Checkpoint) : Pulls w (w.accountUnrealized uj uf) := by
  unfold World.accountUnrealized
  dsimp only
  split_ifs <;> exact ⟨rfl, fun _ => refl _⟩

/-- `pullTips` does not fail, and hands on the checkpoints of the block or its unrealized ones. -/
theorem pullTips_run (state : BlockState) (node currentSlot : Nat) (jc fc : Checkpoint) :
    ∃ cps w', pullTips cfg state node currentSlot jc fc w = .ok cps w' ∧ Pulls w w' ∧
      (cps = (jc, fc) ∨ cps = state.unrealized.getD (jc, fc)) := by
  unfold pullTips
  rw [get_bind_run]
  cases (w.heap node).parent with
  | none => exact ⟨_, w, rfl, ⟨rfl, fun _ => refl _⟩, .inl rfl⟩
  | some parent =>
    dsimp only
    have hunrealized := accountUnrealized_pulls (w := w) (state.unrealized.getD (jc, fc)).1
      (state.unrealized.getD (jc, fc)).2
    split_ifs
    · exact ⟨_, _, rfl, Pulls.modifyNode ⟨rfl, fun _ => refl _⟩ fun _ => by exact rfl, .inl rfl⟩
    · exact ⟨_, _, rfl, (hunrealized.modifyNode fun _ => by exact rfl).modifyNode fun _ => by exact rfl,
        .inr rfl⟩
    · exact ⟨_, _, rfl, hunrealized.modifyNode fun _ => by exact rfl, .inl rfl⟩

theorem updateJustifiedBalances_finalized :
    (after (updateJustifiedBalances cfg) w).finalizedCheckpoint = w.finalizedCheckpoint ∧
      (after (updateJustifiedBalances cfg) w).unrealizedFinalizedCheckpoint =
        w.unrealizedFinalizedCheckpoint := by
  unfold after updateJustifiedBalances
  cases w.balancesByRoot 0 <;> exact ⟨rfl, rfl⟩

theorem raiseJustified_effect (jc : Checkpoint) :
    CheckpointsOnly w (after (raiseJustified cfg jc) w) ∧
      (after (raiseJustified cfg jc) w).finalizedCheckpoint = w.finalizedCheckpoint := by
  unfold raiseJustified
  rw [after_get_bind]
  split_ifs
  · rw [after_modify_bind, after_mapError]
    refine ⟨?_, (updateJustifiedBalances_finalized cfg).1⟩
    have honly := updateJustifiedBalances_checkpoints cfg { w with
      prevJustifiedCheckpoint := w.justifiedCheckpoint, justifiedCheckpoint := jc }
    rw [CheckpointsOnly, honly]
  · exact ⟨rfl, rfl⟩

/-- A checkpoint that is finalized has to be compatible with the tree. If `updateCheckpoints`
fails, the tree is the same. -/
theorem updateCheckpoints_tended (jc fc : Checkpoint) (h : Tended s blocks w)
    (hfc : w.finalizedCheckpoint.epoch < fc.epoch → s.Compatible cfg blocks fc) :
    Tended s blocks (after (updateCheckpoints cfg jc fc) w) ∧
      w.finalizedCheckpoint.epoch ≤
        (after (updateCheckpoints cfg jc fc) w).finalizedCheckpoint.epoch ∧
      ∀ e w', updateCheckpoints cfg jc fc w = .error e w' → SameTree w.toStore w'.toStore := by
  obtain ⟨honly, hsame⟩ := raiseJustified_effect cfg jc (w := w)
  have htended := honly.tended h
  unfold updateCheckpoints
  cases hrun : raiseJustified cfg jc w with
  | error e w₁ =>
    rw [after_of_error hrun] at honly hsame htended
    rw [after_bind_of_error hrun]
    refine ⟨htended, (congrArg Checkpoint.epoch hsame).ge, fun e' w' hrun' => ?_⟩
    cases (bind_of_error hrun).symm.trans hrun'
    exact honly.sameTree
  | ok _ w₁ =>
    rw [after_of_ok hrun] at honly hsame htended
    rw [after_bind_of_ok hrun, bind_of_ok hrun, raiseFinalized, after_get_bind, get_bind_run, hsame]
    split_ifs with hlt
    · rw [after_modify_bind, modify_bind_run]
      have hset : CheckpointsOnly w₁ { w₁ with finalizedCheckpoint := fc } := rfl
      obtain ⟨hprune, herror⟩ := (hset.tended htended).prune (hfc hlt)
      refine ⟨hprune, ?_, fun e w' hrun' => ?_⟩
      · rw [(prune_shrinks cfg _).rest]
        exact hlt.le
      · rw [herror e w' hrun']
        exact honly.sameTree.trans hset.sameTree
    · exact ⟨htended, (congrArg Checkpoint.epoch hsame).ge, nofun⟩

theorem insertNode_tended (state : BlockState) {block : Block} (hblock : block ∈ blocks)
    (clock : InsertClock) (currentSlot : Nat) (h : Tended s blocks w)
    (hfc : ∀ fc, state.finalizedCheckpoint = some fc ∨
      (∃ uj, state.unrealized = some (uj, fc)) → w.finalizedCheckpoint.epoch < fc.epoch →
      s.Compatible cfg blocks fc) :
    Tended s blocks (after (insertNode cfg state block clock currentSlot) w) := by
  unfold insertNode
  split
  case h_2 => exact h
  rename_i jc fc _ hstate
  obtain ⟨htended, hsame, hlive⟩ := insert_tended cfg hblock h jc.epoch fc.epoch clock
  cases hrun : insert cfg block jc.epoch fc.epoch clock w with
  | error e w₁ =>
    rw [after_of_error hrun] at htended
    rw [after_bind_of_error hrun]
    exact htended
  | ok n w₁ =>
    rw [after_of_ok hrun] at htended hsame
    obtain ⟨⟨jc₂, fc₂⟩, w₂, hpull, hpulls, hcps⟩ :=
      pullTips_run cfg (w := w₁) state n currentSlot jc fc
    have htended₂ := htended.of_sameTree hpulls.sameTree (by rw [hpulls.rest]; exact id)
    have hcompatible : w₂.finalizedCheckpoint.epoch < fc₂.epoch → s.Compatible cfg blocks fc₂ := by
      rw [show w₂.finalizedCheckpoint = w.finalizedCheckpoint by rw [hpulls.rest]; exact hsame]
      refine hfc fc₂ ?_
      cases hu : state.unrealized with
      | none => grind
      | some cp => grind
    obtain ⟨hcheckpoints, -, herror⟩ := updateCheckpoints_tended cfg jc₂ fc₂ htended₂ hcompatible
    rw [after_bind_of_ok hrun]
    simp only [after_bind_of_ok hpull, after_mapError]
    cases hrun₃ : updateCheckpoints cfg jc₂ fc₂ w₂ with
    | ok _ w₃ =>
      rw [after_of_ok hrun₃] at hcheckpoints
      rw [after_of_ok (withCleanup_of_ok hrun₃)]
      exact hcheckpoints
    | error e w₃ =>
      rw [after_of_error hrun₃] at hcheckpoints
      rw [after_of_error (withCleanup_of_error hrun₃)]
      refine hcheckpoints.removeNode ?_
      rw [(herror e w₃ hrun₃).live_iff, hpulls.sameTree.live_iff]
      exact hlive n w₁ hrun

theorem insertChain_tended {chain : List BlockAndCheckpoints}
    (hblocks : ∀ bcp ∈ chain, bcp.block ∈ blocks) (h : Tended s blocks w)
    (hfc : ∀ bcp ∈ chain, w.finalizedCheckpoint.epoch < bcp.finalizedCheckpoint.epoch →
      s.Compatible cfg blocks bcp.finalizedCheckpoint) :
    Tended s blocks (after (insertChain cfg chain) w) := by
  induction chain generalizing w with
  | nil => exact h
  | cons bcp chain ih =>
    obtain ⟨htended, hsame, -⟩ := insert_tended cfg (hblocks bcp List.mem_cons_self) h
      bcp.justifiedCheckpoint.epoch bcp.finalizedCheckpoint.epoch bcp.clock
    unfold insertChain
    rw [List.foldlM_cons]
    cases hrun : insert cfg bcp.block bcp.justifiedCheckpoint.epoch
      bcp.finalizedCheckpoint.epoch bcp.clock w with
    | error e w₁ =>
      rw [after_of_error hrun] at htended
      rw [after_bind_of_error (bind_of_error hrun)]
      exact htended
    | ok n w₁ =>
      rw [after_of_ok hrun] at htended hsame
      obtain ⟨hcheckpoints, hle, -⟩ := updateCheckpoints_tended cfg bcp.justifiedCheckpoint
        bcp.finalizedCheckpoint htended (by rw [hsame]; exact hfc bcp List.mem_cons_self)
      cases hrun₂ : updateCheckpoints cfg bcp.justifiedCheckpoint bcp.finalizedCheckpoint w₁ with
      | error e w₂ =>
        rw [after_of_error hrun₂] at hcheckpoints
        rw [after_bind_of_error ((bind_of_ok hrun).trans hrun₂)]
        exact hcheckpoints
      | ok _ w₂ =>
        rw [after_of_ok hrun₂] at hcheckpoints hle
        rw [after_bind_of_ok ((bind_of_ok hrun).trans hrun₂)]
        refine ih (fun bcp h => hblocks bcp (List.mem_cons_of_mem _ h)) hcheckpoints
          fun bcp h hlt => hfc bcp (List.mem_cons_of_mem _ h) ?_
        rw [hsame] at hle
        exact hle.trans_lt hlt

theorem newSlot_tended (slot : Nat) (order : List Nat) (h : Tended s blocks w)
    (hfinalized : s.Compatible cfg blocks w.finalizedCheckpoint)
    (hunrealized : s.Compatible cfg blocks w.unrealizedFinalizedCheckpoint) :
    Tended s blocks (after (newSlot cfg slot order) w) := by
  let I (w : World) : Prop := Tended s blocks w ∧
    s.Compatible cfg blocks w.finalizedCheckpoint ∧
    s.Compatible cfg blocks w.unrealizedFinalizedCheckpoint
  have hbalances : Within (Keeps I) (updateJustifiedBalances cfg) := by
    rintro w ⟨h, hcps⟩
    obtain ⟨hf, hu⟩ := updateJustifiedBalances_finalized cfg (w := w)
    refine ⟨(updateJustifiedBalances_checkpoints cfg w).tended h, ?_⟩
    rwa [hf, hu]
  have hrealize : ∀ node, Within (Keeps I) (realizeNode cfg node) := by
    intro node
    refine Within.bind (.modify fun w ⟨h, hcps⟩ => ⟨h.modifyNode fun _ => by exact rfl, hcps⟩)
      fun _ => Within.bind (.get fun w => ?_) fun _ => .get fun w => ?_
    · split_ifs
      · exact Within.bind (.modify fun w ⟨h, hcps⟩ => ⟨tended (by exact rfl) h, hcps⟩)
          (fun _ => hbalances.mapError) w
      · exact refl _
    · split_ifs
      · exact fun ⟨h, hcps⟩ => ⟨tended (by exact rfl) h, hcps.2, hcps.2⟩
      · exact refl _
  have hboost : Tended s blocks { w with proposerBoostRoot := 0 } :=
    h.of_sameTree ⟨rfl, rfl, rfl, fun _ => ⟨rfl, rfl, rfl, rfl⟩, id⟩ id
  unfold newSlot
  rw [after_modify_bind]
  split_ifs
  · have hfold : Within (Keeps I) (updateUnrealizedCheckpoints cfg order) :=
      .foldlM (fun _ node _ => hrealize node) ()
    obtain ⟨htended, hcp, -⟩ := hfold.mapError
      (g := .wrap "could not update unrealized checkpoints") _ ⟨hboost, hfinalized, hunrealized⟩
    rcases after_bind_cases (wrap "could not update unrealized checkpoints"
      (updateUnrealizedCheckpoints cfg order)) _ { w with proposerBoostRoot := 0 } with
      hend | ⟨_, hend⟩
    · rw [hend]
      exact htended
    · rw [hend]
      exact (htended.prune hcp).1
  · exact hboost

theorem firstInvalid_run (lastValidHash fuel : Nat) {n : Nat} (h : IsTree w.toStore)
    (hctx : w.ctx = none) (hn : w.Live n) :
    (∃ e, firstInvalid lastValidHash fuel n w = .error e w) ∨
      ∃ m, firstInvalid lastValidHash fuel n w = .ok m w ∧ w.Live m := by
  induction fuel generalizing n with
  | zero => exact .inl ⟨_, rfl⟩
  | succ fuel ih =>
    rw [firstInvalid, get_bind_run]
    cases hp : (w.heap n).parent with
    | none => exact .inr ⟨n, rfl, hn⟩
    | some parent =>
      dsimp only
      split_ifs
      · exact .inr ⟨n, rfl, hn⟩
      · rw [bind_of_ok (ctxErr_run hctx)]
        exact ih (h.live_parent hn hp)

theorem removeFirstInvalid_cases {node : Nat} (parentRoot lastValidHash : Nat)
    (h : IsTree w.toStore) (hctx : w.ctx = none) (hn : w.Live node) :
    after (removeFirstInvalid node parentRoot lastValidHash) w = w ∨
      ∃ m, w.Live m ∧ removeFirstInvalid node parentRoot lastValidHash w = removeNode m w := by
  unfold removeFirstInvalid
  rw [after_get_bind, get_bind_run]
  rcases firstInvalid_run lastValidHash w.next h hctx hn with ⟨e, hrun⟩ | ⟨m, hrun, hm⟩
  · exact .inl (after_bind_of_error hrun)
  · rw [after_bind_of_ok hrun, bind_of_ok hrun, after_get_bind, get_bind_run]
    cases (w.heap m).parent with
    | some parent => exact .inr ⟨m, hm, rfl⟩
    | none =>
      dsimp only
      split_ifs
      · exact .inl rfl
      · exact .inr ⟨node, hn, rfl⟩

/-- If it is not cancelled, `setOptimisticToInvalid` at most removes one node of the tree. -/
theorem setOptimisticToInvalid_cases (root parentRoot lastValidHash : Nat)
    (h : IsTree w.toStore) (hctx : w.ctx = none) :
    after (setOptimisticToInvalid root parentRoot lastValidHash) w = w ∨
      ∃ m, w.Live m ∧
        setOptimisticToInvalid root parentRoot lastValidHash w = removeNode m w := by
  unfold setOptimisticToInvalid
  rw [after_get_bind, get_bind_run]
  cases hnode : w.nodeByRoot root with
  | none =>
    cases hparent : w.nodeByRoot parentRoot with
    | none => exact .inl rfl
    | some node =>
      dsimp only
      split_ifs
      · exact .inl rfl
      · exact removeFirstInvalid_cases _ _ h hctx (h.allocated.live hparent)
  | some node =>
    dsimp only
    cases hp : (w.heap node).parent with
    | none => exact .inl rfl
    | some parent =>
      have hrun : (deref (some parent)) w = .ok parent w := rfl
      rw [after_bind_of_ok hrun, bind_of_ok hrun]
      split_ifs
      · exact .inl rfl
      · exact removeFirstInvalid_cases _ _ h hctx (h.allocated.live hnode)

theorem setOptimisticToInvalid_tended (root parentRoot lastValidHash : Nat)
    (h : Tended s blocks w) :
    Tended s blocks (after (setOptimisticToInvalid root parentRoot lastValidHash) w) := by
  rcases setOptimisticToInvalid_cases root parentRoot lastValidHash h.tree h.ctx with
    hend | ⟨m, hm, hrun⟩
  · rw [hend]
    exact h
  · rw [after, hrun]
    exact h.removeNode hm

end Methods

section Run

variable (cfg : BeaconChainConfig)

/-- The calls that keep the tree: those that remove nodes are not cancelled, and the
checkpoints that they may finalize are compatible with the tree. -/
def Tidy (f : ForkChoice) (c : Call) : Prop :=
  match c.operation with
  | .insertNode state block _ _ => c.ctx = none ∧
    ∀ fc, state.finalizedCheckpoint = some fc ∨ (∃ uj, state.unrealized = some (uj, fc)) →
      f.finalizedCheckpoint.epoch < fc.epoch → f.Compatible cfg [block] fc
  | .insertChain chain => c.ctx = none ∧
    ∀ bcp ∈ chain, f.finalizedCheckpoint.epoch < bcp.finalizedCheckpoint.epoch →
      f.Compatible cfg (chain.map (·.block)) bcp.finalizedCheckpoint
  | .newSlot _ _ => c.ctx = none ∧ f.Compatible cfg [] f.finalizedCheckpoint ∧
    f.Compatible cfg [] f.unrealizedFinalizedCheckpoint
  | .setOptimisticToInvalid _ _ _ => c.ctx = none
  | _ => True

variable {cfg} in
/-- A block that brings checkpoints of epoch 0 finalizes nothing. -/
theorem tidy_insertTimely {f : ForkChoice} {block : Block} {jc uj : Checkpoint} :
    Tidy cfg f (.insertTimely block jc {} uj {}) := by
  refine ⟨rfl, ?_⟩
  rintro fc (⟨⟨⟩⟩ | ⟨uj, ⟨⟩⟩) hlt <;> exact absurd hlt (Nat.not_lt_zero _)

theorem IsTree.tended {f : ForkChoice} {c : Call} (h : IsTree f.toStore) (hctx : c.ctx = none)
    (blocks : List Block) : Tended f.toStore blocks (c.start f) :=
  ⟨h, hctx, fun _ i hi => .inl ⟨i, hi, rfl⟩, fun _ i hi c hc => .inl ⟨i, hi, c, hc, rfl⟩⟩

theorem IsTree.step {f : ForkChoice} {c : Call} (h : IsTree f.toStore) (hc : Tidy cfg f c) :
    IsTree (step cfg f c).toStore := by
  obtain ⟨operation, ctx, balancesByRoot⟩ := c
  change IsTree (after (operation.method cfg)
    (Call.start ⟨operation, ctx, balancesByRoot⟩ f)).toStore
  have hstart : IsTree (Call.start ⟨operation, ctx, balancesByRoot⟩ f).toStore := h
  cases operation with
  | insertNode state block clock currentSlot =>
    exact (insertNode_tended cfg state List.mem_cons_self clock currentSlot
      (h.tended hc.1 [block]) hc.2).tree
  | insertChain chain =>
    exact (insertChain_tended cfg (fun _ hmem => List.mem_map_of_mem hmem)
      (h.tended hc.1 (chain.map (·.block))) hc.2).tree
  | processAttestation indices blockRoot targetEpoch => exact hstart
  | insertSlashedIndex index =>
    exact hstart.of_sameTree (insertSlashedIndex_counts _ index).sameTree
  | newSlot slot order =>
    exact (newSlot_tended cfg slot order (h.tended hc.1 []) hc.2.1 hc.2.2).tree
  | setOptimisticToValid root =>
    exact hstart.of_sameTree
      ((setOptimisticToValid_heapStep root _).sameTree ValidatedOnly.shape)
  | setOptimisticToInvalid root parentRoot payloadHash =>
    rw [Operation.method, after_bind_pure]
    exact (setOptimisticToInvalid_tended root parentRoot payloadHash (h.tended hc [])).tree
  | updateJustifiedCheckpoint jc =>
    cases jc with
    | none => exact hstart
    | some jc =>
      rw [Operation.method, DoublyLinkedTree.updateJustifiedCheckpoint, after_modify_bind,
        after_mapError]
      exact (hstart.of_sameTree (sameTree (by exact rfl))).of_sameTree
        (updateJustifiedBalances_checkpoints cfg _).sameTree
  | updateFinalizedCheckpoint fc =>
    cases fc with
    | none => exact hstart
    | some fc => exact hstart.of_sameTree (sameTree (by exact rfl))
  | Head currentEpoch headEpoch =>
    rw [Operation.method, after_bind_pure, DoublyLinkedTree.Head, after_modify_bind,
      after_modify_bind]
    have hbalances := hstart.of_sameTree (updateBalances_counts _).sameTree
    have hboost := hbalances.of_sameTree (applyProposerBoostScore_counts cfg _).sameTree
    exact hboost.of_sameTree (headOfBalances_cosmetic currentEpoch headEpoch _).sameTree

theorem isTree_new : IsTree ForkChoice.new.toStore where
  allocated := allocated_new
  root := nofun
  parent := nofun
  children := nofun
  nodup := nofun

theorem isTree_run {calls : List Call} (h : Meets cfg (Tidy cfg) ForkChoice.new calls) :
    IsTree (run cfg calls).toStore :=
  h.foldl (I := fun f => IsTree f.toStore) isTree_new fun _ _ hf hc => hf.step cfg hc

end Run

end LightChain.DoublyLinkedTree

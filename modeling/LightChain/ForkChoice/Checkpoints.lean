import LightChain.ForkChoice.Stable

/-!
# The checkpoints along a run

At an epoch boundary the checkpoints of the store are replaced by the unrealized ones as soon
as one node is ahead of them, without comparing the two. They do not go back as long as no node
is ahead of what the store has accounted for, which `Sound` states. Two things break it:
`pullTips` lowers the unrealized justified checkpoint when a branch finalizes more but justifies
less, and a failed insertion can leave a node whose checkpoints were never accounted for.
-/
namespace LightChain.DoublyLinkedTree
open Library Program CheckpointsOnly

section Sound

/-- No checkpoint of the store goes back to an earlier epoch. -/
structure Advances (s s' : Store) : Prop where
  justified : s.justifiedCheckpoint.epoch ≤ s'.justifiedCheckpoint.epoch
  finalized : s.finalizedCheckpoint.epoch ≤ s'.finalizedCheckpoint.epoch
  unrealizedJustified :
    s.unrealizedJustifiedCheckpoint.epoch ≤ s'.unrealizedJustifiedCheckpoint.epoch
  unrealizedFinalized :
    s.unrealizedFinalizedCheckpoint.epoch ≤ s'.unrealizedFinalizedCheckpoint.epoch

theorem Advances.refl (s : Store) : Advances s s := ⟨le_rfl, le_rfl, le_rfl, le_rfl⟩

theorem Advances.trans {s t u : Store} (hst : Advances s t) (htu : Advances t u) : Advances s u :=
  ⟨hst.1.trans htu.1, hst.2.trans htu.2, hst.3.trans htu.3, hst.4.trans htu.4⟩

/-- The checkpoints of the store, realized or not, are at these epochs or later. -/
structure Store.Reached (s : Store) (justifiedEpoch finalizedEpoch : Nat) : Prop where
  justified : justifiedEpoch ≤
    max s.justifiedCheckpoint.epoch s.unrealizedJustifiedCheckpoint.epoch
  finalized : finalizedEpoch ≤
    max s.finalizedCheckpoint.epoch s.unrealizedFinalizedCheckpoint.epoch

theorem Store.Reached.mono {s s' : Store} {justifiedEpoch finalizedEpoch : Nat}
    (h : s.Reached justifiedEpoch finalizedEpoch) (ha : Advances s s') :
    s'.Reached justifiedEpoch finalizedEpoch :=
  ⟨h.justified.trans (max_le_max ha.justified ha.unrealizedJustified),
    h.finalized.trans (max_le_max ha.finalized ha.unrealizedFinalized)⟩

def Store.Accounted (s : Store) (i : Nat) : Prop :=
  s.Reached (s.heap i).unrealizedJustifiedEpoch (s.heap i).unrealizedFinalizedEpoch

/-- The nodes of the map, except possibly a node that is being inserted, and their parents are
accounted for. -/
structure Sound (skip : Option Nat) (s : Store) : Prop where
  allocated : Allocated s
  node : ∀ r i, s.nodeByRoot r = some i → skip ≠ some i → s.Accounted i
  parent : ∀ r i p, s.nodeByRoot r = some i → (s.heap i).parent = some p → s.Accounted p

variable {skip : Option Nat} {s s' : Store} {n : Nat}

theorem Sound.of_sameShape (h : Sound skip s) (hs : SameShape s s') (ha : Advances s s')
    (huj : ∀ i, (s'.heap i).unrealizedJustifiedEpoch = (s.heap i).unrealizedJustifiedEpoch)
    (huf : ∀ i, (s'.heap i).unrealizedFinalizedEpoch = (s.heap i).unrealizedFinalizedEpoch) :
    Sound skip s' := by
  have haccounted : ∀ i, s.Accounted i → s'.Accounted i := by
    intro i hi
    rw [Store.Accounted, huj, huf]
    exact hi.mono ha
  refine ⟨h.allocated.of_sameShape hs, fun r i hi hskip => ?_, fun r i p hi hp => ?_⟩
  · exact haccounted i (h.node r i (hs.map r i hi) hskip)
  · have := hs.parent i
    exact haccounted p (h.parent r i p (hs.map r i hi) (by grind))

/-- The node being inserted is accounted for. -/
theorem Sound.settle (h : Sound skip s) (hn : ∀ n, skip = some n → s.Accounted n) :
    Sound none s :=
  ⟨h.allocated, fun r i hi _ => if hskip : skip = some i then hn i hskip else h.node r i hi hskip,
    h.parent⟩

/-- The node being inserted is taken out again. -/
theorem Sound.drop (h : Sound (some n) s) (hn : ∀ r, s.nodeByRoot r ≠ some n) : Sound none s :=
  ⟨h.allocated, fun r i hi _ => h.node r i hi (by grind), h.parent⟩

theorem Sound.weaken (h : Sound none s) : Sound skip s :=
  ⟨h.allocated, fun r i hi _ => h.node r i hi (by simp), h.parent⟩

variable {w w' : World}

theorem Shrinks.advances (h : Shrinks w w') : Advances w.toStore w'.toStore := by
  rw [h.rest]
  exact ⟨le_rfl, le_rfl, le_rfl, le_rfl⟩

theorem Shrinks.sound (hs : Shrinks w w') (h : Sound skip w.toStore) : Sound skip w'.toStore :=
  h.of_sameShape hs.sameShape hs.advances (fun i => by rw [(hs.node i).rest])
    fun i => by rw [(hs.node i).rest]

theorem Decorates.advances {root : Nat} (h : Decorates root w w') :
    Advances w.toStore w'.toStore := by
  rw [h.rest]
  exact ⟨le_rfl, le_rfl, le_rfl, le_rfl⟩

theorem Decorates.sound {root : Nat} (hd : Decorates root w w') (h : Sound skip w.toStore) :
    Sound skip w'.toStore :=
  h.of_sameShape hd.sameTree.sameShape hd.advances (fun i => by rw [hd.node i]) fun i => by rw [hd.node i]

theorem CheckpointsOnly.sound (hc : CheckpointsOnly w w') (ha : Advances w.toStore w'.toStore)
    (h : Sound skip w.toStore) : Sound skip w'.toStore := by
  exact h.of_sameShape hc.sameTree.sameShape ha (fun i => by rw [hc]) fun i => by rw [hc]

/-- The node being inserted is given epochs that are accounted for. -/
theorem Sound.modifyNode (h : Sound (some n) w.toStore) {f : Node → Node}
    (hf : ∀ a, EpochsOnly a (f a))
    (hn : w.Reached (f (w.heap n)).unrealizedJustifiedEpoch
      (f (w.heap n)).unrealizedFinalizedEpoch) : Sound none (w.modifyNode n f).toStore := by
  have hshape : SameShape w.toStore (w.modifyNode n f).toStore :=
    (HeapStep.sameTree (modifyNode_heapStep (n := n) hf w) EpochsOnly.shape).sameShape
  have haccounted : ∀ i, (i ≠ n → w.Accounted i) → (w.modifyNode n f).Accounted i := by
    intro i hi
    rw [Store.Accounted, World.modifyNode_heap]
    split_ifs with hin
    · exact ⟨hn.1, hn.2⟩
    · exact ⟨(hi hin).1, (hi hin).2⟩
  refine ⟨h.allocated.of_sameShape hshape, fun r i hi _ => ?_, fun r i p hi hp => ?_⟩
  · exact haccounted i fun hin => h.node r i hi (by grind)
  · have := hshape.parent i
    exact haccounted p fun _ => h.parent r i p hi (by grind)

section Grows

variable {cfg : BeaconChainConfig} {block : Block} {justifiedEpoch finalizedEpoch : Nat}

section

variable (hg : Grows cfg block justifiedEpoch finalizedEpoch w w')

include hg

theorem Grows.advances : Advances w.toStore w'.toStore := by
  rw [hg.rest]
  exact ⟨le_rfl, le_rfl, le_rfl, le_rfl⟩

theorem Grows.accounted {i : Nat} (hi : i ≠ w.next) (h : w.Accounted i) : w'.Accounted i := by
  rw [Store.Accounted, hg.old i hi]
  exact h.mono hg.advances

theorem Grows.sound (h : Sound none w.toStore) : Sound (some w.next) w'.toStore := by
  obtain ⟨payloadHash, hnew⟩ := hg.new
  have hmap : ∀ r i, w'.nodeByRoot r = some i → i ≠ w.next → w.nodeByRoot r = some i := by
    intro r i hi hne
    rw [hg.map, Function.update_apply] at hi
    grind
  refine ⟨h.allocated.grows hg, fun r i hi hskip => ?_, fun r i p hi hp => ?_⟩
  · have hne : i ≠ w.next := by grind
    exact hg.accounted hne (h.node r i (hmap r i hi hne) (by simp))
  · by_cases hne : i = w.next
    · rw [hne, hnew] at hp
      have := (h.allocated.keyed _ _ hp).2
      exact hg.accounted (by omega) (h.node _ _ hp (by simp))
    · rw [hg.old i hne] at hp
      have := h.allocated.parent i p hp
      exact hg.accounted (by omega) (h.parent r i p (hmap r i hi hne) hp)

end

end Grows

end Sound

section Methods

def Settles (w w' : World) : Prop := Advances w.toStore w'.toStore ∧ Sound none w'.toStore

theorem Settles.of_advances {u v w : World} (ha : Advances u.toStore v.toStore)
    (h : Settles v w) : Settles u w := ⟨ha.trans h.1, h.2⟩

/-- The checkpoints advance and an invariant is kept. -/
def Raises (I : World → Prop) (w w' : World) : Prop :=
  I w → Advances w.toStore w'.toStore ∧ I w'

instance (I : World → Prop) : Std.Refl (Raises I) := ⟨fun _ h => ⟨.refl _, h⟩⟩

instance (I : World → Prop) : IsTrans World (Raises I) := ⟨fun _ _ _ huv hvw h =>
  have hv := huv h
  have hw := hvw hv.2
  ⟨hv.1.trans hw.1, hw.2⟩⟩

variable (cfg : BeaconChainConfig) {w w' : World}

theorem Shrinks.settles (h : Shrinks w w') (hw : Sound none w.toStore) :
    Settles w w' := ⟨h.advances, h.sound hw⟩

theorem Counts.settles (h : Counts w w') (hw : Sound none w.toStore) : Settles w w' := by
  have ha : Advances w.toStore w'.toStore := by
    rw [h.rest]
    exact ⟨le_rfl, le_rfl, le_rfl, le_rfl⟩
  exact ⟨ha, hw.of_sameShape h.sameTree.sameShape ha (fun i => by rw [h.node i]) fun i => by rw [h.node i]⟩

theorem Cosmetic.settles (h : Cosmetic w w') (hw : Sound none w.toStore) : Settles w w' := by
  have ha : Advances w.toStore w'.toStore := by
    rw [h.rest]
    exact ⟨le_rfl, le_rfl, le_rfl, le_rfl⟩
  exact ⟨ha, hw.of_sameShape h.sameTree.sameShape ha (fun i => by rw [h.node i]) fun i => by rw [h.node i]⟩

theorem HeapStep.settles (h : HeapStep ValidatedOnly w w') (hw : Sound none w.toStore) :
    Settles w w' := by
  have hshape := (h.sameTree ValidatedOnly.shape).sameShape
  obtain ⟨heap, ctx, rfl, -, h⟩ := h
  refine ⟨⟨le_rfl, le_rfl, le_rfl, le_rfl⟩, hw.of_sameShape hshape
    ⟨le_rfl, le_rfl, le_rfl, le_rfl⟩ (fun i => ?_) fun i => ?_⟩
  all_goals
    dsimp only
    rw [(h i).1]

theorem updateJustifiedBalances_advances (w : World) :
    Advances w.toStore (after (updateJustifiedBalances cfg) w).toStore := by
  unfold after updateJustifiedBalances
  cases w.balancesByRoot 0 <;> exact ⟨le_rfl, le_rfl, le_rfl, le_rfl⟩

theorem raiseJustified_error {jc : Checkpoint} {e : Error}
    (hrun : raiseJustified cfg jc w = .error e w') :
    w.justifiedCheckpoint.epoch < jc.epoch ∧ w.balancesByRoot 0 = none := by
  unfold raiseJustified at hrun
  rw [get_bind_run] at hrun
  split_ifs at hrun with hj
  · refine ⟨hj, ?_⟩
    by_contra hb
    obtain ⟨balances, hb⟩ := Option.ne_none_iff_exists'.1 hb
    simp [mapError, updateJustifiedBalances, hb] at hrun
  · cases hrun

variable {w : World}

/-- The checkpoints of the block account for the node that is being inserted, unless they stop
at the justified one. -/
theorem raiseJustified_settles (jc : Checkpoint) {skip : Option Nat} (h : Sound skip w.toStore) :
    Advances w.toStore (after (raiseJustified cfg jc) w).toStore ∧
      Sound skip (after (raiseJustified cfg jc) w).toStore ∧
      jc.epoch ≤ (after (raiseJustified cfg jc) w).justifiedCheckpoint.epoch ∧
      (after (raiseJustified cfg jc) w).heap = w.heap := by
  unfold raiseJustified
  rw [after_get_bind]
  split_ifs with hj
  · rw [after_modify_bind, wrap, after_mapError]
    generalize hw₁ : ({ w with
      prevJustifiedCheckpoint := w.justifiedCheckpoint, justifiedCheckpoint := jc } : World) = w₁
    have ha : Advances w.toStore w₁.toStore := by
      rw [← hw₁]
      exact ⟨hj.le, le_rfl, le_rfl, le_rfl⟩
    have hsound : Sound skip w₁.toStore := sound (by rw [← hw₁]; exact rfl) ha h
    have ha₂ := updateJustifiedBalances_advances cfg w₁
    have honly := updateJustifiedBalances_checkpoints cfg w₁
    have hjc : jc.epoch ≤ w₁.justifiedCheckpoint.epoch := by rw [← hw₁]
    refine ⟨ha.trans ha₂, sound honly ha₂ hsound, hjc.trans ha₂.justified, ?_⟩
    rw [honly, ← hw₁]
  · exact ⟨.refl _, h, not_lt.1 hj, rfl⟩

theorem raiseFinalized_settles (fc : Checkpoint) {skip : Option Nat} (h : Sound skip w.toStore)
    (hn : ∀ n, skip = some n →
      (w.heap n).unrealizedJustifiedEpoch ≤ w.justifiedCheckpoint.epoch ∧
        (w.heap n).unrealizedFinalizedEpoch ≤ fc.epoch) :
    Settles w (after (raiseFinalized cfg fc) w) := by
  unfold raiseFinalized
  rw [after_get_bind]
  split_ifs with hf
  · rw [after_modify_bind]
    generalize hw₁ : ({ w with finalizedCheckpoint := fc } : World) = w₁
    have ha : Advances w.toStore w₁.toStore := by
      rw [← hw₁]
      exact ⟨le_rfl, hf.le, le_rfl, le_rfl⟩
    have hsound : Sound none w₁.toStore := by
      refine Sound.settle (sound (by rw [← hw₁]; exact rfl) ha h) fun n hskip => ?_
      rw [← hw₁]
      exact ⟨le_max_of_le_left (hn n hskip).1, le_max_of_le_left (hn n hskip).2⟩
    exact .of_advances ha ((prune_shrinks cfg w₁).settles hsound)
  · refine ⟨.refl _, h.settle fun n hskip => ?_⟩
    have := hn n hskip
    exact ⟨le_max_of_le_left this.1, le_max_of_le_left (by omega)⟩

section

variable (jc fc : Checkpoint) {skip : Option Nat} {w : World} (h : Sound skip w.toStore)
  (hn : ∀ n, skip = some n → (w.heap n).unrealizedJustifiedEpoch ≤ jc.epoch ∧
    (w.heap n).unrealizedFinalizedEpoch ≤ fc.epoch)
  (hbalances : skip ≠ none → w.justifiedCheckpoint.epoch < jc.epoch → w.balancesByRoot 0 = none →
    fc.epoch ≤ max w.finalizedCheckpoint.epoch w.unrealizedFinalizedCheckpoint.epoch)

include h hn hbalances

theorem updateCheckpoints_settles : Settles w (after (updateCheckpoints cfg jc fc) w) := by
  obtain ⟨ha, hsound, hjc, hheap⟩ := raiseJustified_settles cfg jc h
  have hnode : ∀ n, skip = some n →
      ((after (raiseJustified cfg jc) w).heap n).unrealizedJustifiedEpoch ≤
        (after (raiseJustified cfg jc) w).justifiedCheckpoint.epoch ∧
      ((after (raiseJustified cfg jc) w).heap n).unrealizedFinalizedEpoch ≤ fc.epoch := by
    intro n hskip
    rw [hheap]
    exact ⟨(hn n hskip).1.trans hjc, (hn n hskip).2⟩
  unfold updateCheckpoints
  cases hrun : raiseJustified cfg jc w with
  | ok _ w₁ =>
    rw [after_of_ok hrun] at ha hsound hnode
    rw [after_bind_of_ok hrun]
    exact .of_advances ha (raiseFinalized_settles cfg fc hsound hnode)
  | error e w₁ =>
    rw [after_of_error hrun] at ha hsound hnode
    rw [after_bind_of_error hrun]
    refine ⟨ha, hsound.settle fun n hskip => ?_⟩
    obtain ⟨hj, hb⟩ := raiseJustified_error cfg hrun
    have hreached : w.Reached 0 fc.epoch := ⟨Nat.zero_le _, hbalances (by simp [hskip]) hj hb⟩
    exact ⟨le_max_of_le_left (hnode n hskip).1,
      (hnode n hskip).2.trans (hreached.mono ha).finalized⟩

theorem updateCheckpoints_withCleanup_settles (node : Nat) :
    Settles w (after (withCleanup (updateCheckpoints cfg jc fc) (removeNode node)) w) := by
  obtain ⟨ha, hsound⟩ := updateCheckpoints_settles cfg jc fc h hn hbalances
  rcases after_withCleanup_cases (updateCheckpoints cfg jc fc) (removeNode node) w with hend | hend
  · rw [hend]
    exact ⟨ha, hsound⟩
  · rw [hend]
    exact .of_advances ha ((removeNode_shrinks node _).settles hsound)

end

def Store.Listed (s : Store) (order : List Nat) : Prop :=
  ∀ n ∈ order, ∃ r, s.nodeByRoot r = some n

/-- A node is ahead of a checkpoint of the store only if the unrealized one is, too. -/
theorem realizeNode_raises {order : List Nat} {node : Nat} (hnode : node ∈ order) :
    Within (Raises fun w => Sound none w.toStore ∧ w.Listed order) (realizeNode cfg node) := by
  -- While the node is realized, its epochs are the unrealized ones.
  let I (w : World) : Prop := (Sound none w.toStore ∧ w.Listed order) ∧
    (w.heap node).justifiedEpoch = (w.heap node).unrealizedJustifiedEpoch ∧
    (w.heap node).finalizedEpoch = (w.heap node).unrealizedFinalizedEpoch
  have hreached : ∀ {w}, I w → w.Accounted node := by
    rintro w ⟨⟨hsound, hlisted⟩, -⟩
    obtain ⟨r, hr⟩ := hlisted node hnode
    exact hsound.node r node hr (by simp)
  have honly : ∀ {w w'}, CheckpointsOnly w w' → Advances w.toStore w'.toStore → I w →
      Advances w.toStore w'.toStore ∧ I w' := by
    rintro w w' hc ha ⟨⟨hsound, hlisted⟩, hnode⟩
    refine ⟨ha, ⟨hc.sound ha hsound, ?_⟩, ?_⟩
    · rw [hc]
      exact hlisted
    · rw [hc]
      exact hnode
  have hbalances : Within (Raises I) (updateJustifiedBalances cfg) := fun w =>
    honly (updateJustifiedBalances_checkpoints cfg w) (updateJustifiedBalances_advances cfg w)
  have hfinal : Within (Raises I) (realizeFinalized node) := by
    refine .get fun w => ?_
    split_ifs with hlt
    · refine fun h => honly (by exact rfl) ⟨le_rfl, ?_, le_rfl, le_rfl⟩ h
      have := (hreached h).finalized
      rw [h.2.2] at hlt
      exact (hlt.trans_le ((le_max_iff.1 this).resolve_left hlt.not_ge)).le
    · exact refl _
  have hjustified : Within (Raises I) (realizeJustified cfg node) := by
    refine .get fun w => ?_
    split_ifs with hlt
    · rw [after_modify_bind, wrap, after_mapError]
      refine IsTrans.trans (r := Raises I) _ _ _ ?_ (hbalances _)
      refine fun h => honly (by exact rfl) ⟨?_, le_rfl, le_rfl, le_rfl⟩ h
      have := (hreached h).justified
      rw [h.2.1] at hlt
      exact (hlt.trans_le ((le_max_iff.1 this).resolve_left hlt.not_ge)).le
    · exact refl _
  rintro w ⟨hsound, hlisted⟩
  obtain ⟨r, hr⟩ := hlisted node hnode
  have haccounted := hsound.node r node hr (by simp)
  have hw₁ : I (w.modifyNode node fun n => { n with
      justifiedEpoch := n.unrealizedJustifiedEpoch
      finalizedEpoch := n.unrealizedFinalizedEpoch }) := by
    refine ⟨⟨hsound.weaken.modifyNode (fun _ => by exact rfl) haccounted, hlisted⟩, ?_⟩
    simp [World.modifyNode]
  obtain ⟨hadvances, hafter⟩ := (hjustified.bind fun _ => hfinal) _ hw₁
  exact ⟨⟨hadvances.1, hadvances.2, hadvances.3, hadvances.4⟩, hafter.1⟩

theorem newSlot_settles (slot : Nat) {order : List Nat} (h : Sound none w.toStore)
    (horder : isEpochStart cfg slot → w.Listed order) :
    Settles w (after (newSlot cfg slot order) w) := by
  have hboost : Shrinks w { w with proposerBoostRoot := 0 } :=
    ⟨rfl, fun _ => refl _, fun _ _ h => h, .inr rfl, .inl ⟨rfl, rfl⟩, id, id⟩
  obtain ⟨ha, hsound⟩ := hboost.settles h
  unfold newSlot
  rw [after_modify_bind]
  split_ifs with hslot
  · have hfold : Within (Raises fun w => Sound none w.toStore ∧ w.Listed order)
        (updateUnrealizedCheckpoints cfg order) :=
      .foldlM (fun _ node h => realizeNode_raises cfg h) ()
    obtain ⟨ha₂, hsound₂, -⟩ := hfold.mapError
      (g := .wrap "could not update unrealized checkpoints") _ ⟨hsound, horder hslot⟩
    rcases after_bind_cases (wrap "could not update unrealized checkpoints"
      (updateUnrealizedCheckpoints cfg order)) _ { w with proposerBoostRoot := 0 } with
      hend | ⟨_, hend⟩
    · rw [hend]
      exact ⟨ha.trans ha₂, hsound₂⟩
    · rw [hend]
      exact .of_advances (ha.trans ha₂) ((prune_shrinks cfg _).settles hsound₂)
  · exact ⟨ha, hsound⟩

theorem accountUnrealized_advances {uj uf : Checkpoint}
    (h : w.unrealizedFinalizedCheckpoint.epoch < uf.epoch →
      w.unrealizedJustifiedCheckpoint.epoch ≤ uj.epoch) :
    Advances w.toStore (w.accountUnrealized uj uf).toStore ∧
      (w.accountUnrealized uj uf).Reached uj.epoch uf.epoch := by
  unfold World.accountUnrealized
  dsimp only
  split_ifs with hj hf hf
  all_goals exact ⟨⟨by grind, by grind, by grind, by grind⟩, ⟨by grind, by grind⟩⟩

theorem pullTips_settles (state : BlockState) (currentSlot : Nat) (jc fc : Checkpoint) {n p r : Nat}
    (h : Sound (some n) w.toStore) (hr : w.nodeByRoot r = some n) (hp : (w.heap n).parent = some p)
    (hunrealized : w.unrealizedFinalizedCheckpoint.epoch <
        (state.unrealized.getD (jc, fc)).2.epoch →
      w.unrealizedJustifiedCheckpoint.epoch ≤ (state.unrealized.getD (jc, fc)).1.epoch) :
    Settles w (after (pullTips cfg state n currentSlot jc fc) w) := by
  unfold pullTips
  rw [after_get_bind]
  simp only [hp]
  split_ifs with hearly hepoch
  · rw [modifyNode, after_modify_bind, after_pure]
    exact ⟨⟨le_rfl, le_rfl, le_rfl, le_rfl⟩, h.modifyNode (fun _ => by exact rfl)
      (h.parent r n p hr hp)⟩
  all_goals
    obtain ⟨ha, hreached⟩ := accountUnrealized_advances hunrealized
    have hsound := sound (accountUnrealized_checkpoints _ _ _) ha h
    have hsettled := hsound.modifyNode (f := fun node => { node with
      unrealizedJustifiedEpoch := (state.unrealized.getD (jc, fc)).1.epoch
      unrealizedFinalizedEpoch := (state.unrealized.getD (jc, fc)).2.epoch })
      (fun _ => by exact rfl) hreached
    simp only [modifyNode, after_modify_bind, after_pure]
    refine ⟨⟨ha.1, ha.2, ha.3, ha.4⟩, ?_⟩
  · have hlive : (w.accountUnrealized (state.unrealized.getD (jc, fc)).1
        (state.unrealized.getD (jc, fc)).2).nodeByRoot r = some n := by
      rw [accountUnrealized_checkpoints]
      exact hr
    exact hsettled.weaken.modifyNode (fun _ => by exact rfl) (hsettled.node r n hlive (by simp))
  · exact hsettled

section Insert

variable {cfg} {block : Block} {clock : InsertClock} {justifiedEpoch finalizedEpoch : Nat}
  {w w' : World}

/-- A block that is new may leave the store unsound at its node. -/
theorem insert_ok_sound {n : Nat} (h : Sound none w.toStore)
    (hrun : insert cfg block justifiedEpoch finalizedEpoch clock w = .ok n w') :
    Advances w.toStore w'.toStore ∧ w'.balancesByRoot = w.balancesByRoot ∧
      w'.unrealizedJustifiedCheckpoint = w.unrealizedJustifiedCheckpoint ∧
      w'.unrealizedFinalizedCheckpoint = w.unrealizedFinalizedCheckpoint ∧
      (∃ r, w'.nodeByRoot r = some n) ∧
      (Sound none w'.toStore ∨ Sound (some n) w'.toStore ∧
        (w'.heap n).unrealizedJustifiedEpoch = justifiedEpoch ∧
        (w'.heap n).unrealizedFinalizedEpoch = finalizedEpoch ∧
        ((w'.heap n).parent = none → w.treeRootNode = none)) := by
  have hcases := insert_cases cfg block clock justifiedEpoch finalizedEpoch h.allocated.rooted
  rw [hrun] at hcases
  cases hcases with
  | known hn => exact ⟨.refl _, rfl, rfl, rfl, ⟨_, hn⟩, .inl h⟩
  | @added w₁ _ hattach hd =>
    have hg := hattach.grows h.allocated
    obtain ⟨payloadHash, hnew⟩ := hg.new
    have hnode := hd.node w.next
    refine ⟨hg.advances.trans hd.advances, by rw [hd.rest, hg.rest], by rw [hd.rest, hg.rest],
      by rw [hd.rest, hg.rest], ⟨block.root, ?_⟩, .inr ⟨hd.sound (hg.sound h), ?_⟩⟩
    · rw [hd.rest, hg.map]
      exact Function.update_self _ _ _
    · rw [hnode, hnew]
      refine ⟨rfl, rfl, fun hp => ?_⟩
      rcases hg.root with ⟨parent, hparent, -⟩ | ⟨-, hroot, -⟩
      · exact absurd (hparent.symm.trans hp) (by simp)
      · exact hroot

theorem insert_error_sound {e : Error} (h : Sound none w.toStore)
    (hclock : clock.beforeGenesis = false → clock.sinceSlotStart = none →
      w.Reached justifiedEpoch finalizedEpoch)
    (hrun : insert cfg block justifiedEpoch finalizedEpoch clock w = .error e w') :
    Settles w w' := by
  have hcases := insert_cases cfg block clock justifiedEpoch finalizedEpoch h.allocated.rooted
  rw [hrun] at hcases
  cases hcases with
  | refused _ => exact ⟨.refl _, h⟩
  | @undone w₁ w₂ _ parent hparent hattach hd =>
    have hg := hattach.grows h.allocated
    obtain ⟨payloadHash, hnew⟩ := hg.new
    have hnode := hd.node w.next
    have hsound := hd.sound (hg.sound h)
    have hremove := removeNode_shrinks w.next w₂
    have hmap : (after (removeNode w.next) w₂).nodeByRoot =
        Function.update w₂.nodeByRoot (w₂.heap w.next).root none := by
      have hp : (w₂.heap w.next).parent = some parent := by
        rw [hnode, hnew]
        exact hparent
      rw [removeNode_leaf ?_ ?_ hp ?_ ?_]
      · rfl
      · rw [hd.rest, hg.next]
        exact Nat.lt_succ_self _
      · rw [hnode, hnew]
        rfl
      · exact (h.allocated.keyed _ _ hparent).2.ne'
      · rw [hnode, hnew]
        rfl
    refine ⟨(hg.advances.trans hd.advances).trans hremove.advances,
      (hremove.sound hsound).drop fun r hr => ?_⟩
    have hroot := (hsound.allocated.keyed r _ (hremove.map r _ hr)).1
    rw [hmap, hroot, Function.update_self] at hr
    cases hr
  | left e hattach hfails =>
    have hg := hattach.grows h.allocated
    obtain ⟨payloadHash, hnew⟩ := hg.new
    refine ⟨hg.advances, (hg.sound h).settle fun n hn => ?_⟩
    cases hn
    rw [Store.Accounted, hnew]
    exact (hclock hfails.1 hfails.2).mono hg.advances

def World.Funded (w : World) : Prop := ∀ k, w.balancesByRoot k ≠ none

/-- The checkpoints of a block of a chain are accounted for whatever fails. -/
structure BlockAndCheckpoints.Safe (bcp : BlockAndCheckpoints) (w : World) : Prop where
  clock : bcp.clock.beforeGenesis = false → bcp.clock.sinceSlotStart = none →
    w.Reached bcp.justifiedCheckpoint.epoch bcp.finalizedCheckpoint.epoch
  balances : w.Funded ∨ bcp.finalizedCheckpoint.epoch ≤
    max w.finalizedCheckpoint.epoch w.unrealizedFinalizedCheckpoint.epoch

/-- The calls after which every node is accounted for. A call does not set a checkpoint of the
store directly, it does not fail after entering a block whose checkpoints are ahead of the
store, and a block that finalizes more than the store also justifies at least as much.
`NewSlot` ranges over nodes of the map. -/
def Orderly (f : ForkChoice) (c : Call) : Prop :=
  match c.operation with
  | .insertNode state _ clock _ =>
    ∀ jc fc, state.currentJustifiedCheckpoint = some jc → state.finalizedCheckpoint = some fc →
      (clock.beforeGenesis = false → clock.sinceSlotStart = none →
        f.Reached jc.epoch fc.epoch) ∧
      (f.treeRootNode = none → f.justifiedCheckpoint.epoch < jc.epoch →
        c.balancesByRoot 0 = none →
        fc.epoch ≤ max f.finalizedCheckpoint.epoch f.unrealizedFinalizedCheckpoint.epoch) ∧
      (f.unrealizedFinalizedCheckpoint.epoch < (state.unrealized.getD (jc, fc)).2.epoch →
        f.unrealizedJustifiedCheckpoint.epoch ≤ (state.unrealized.getD (jc, fc)).1.epoch)
  | .insertChain chain => ∀ bcp ∈ chain, bcp.Safe (c.start f)
  | .newSlot _ order => f.Listed order
  | .updateJustifiedCheckpoint _ | .updateFinalizedCheckpoint _ => False
  | _ => True

theorem insertNode_settles (state : BlockState) (currentSlot : Nat) (h : Sound none w.toStore)
    (hc : Orderly w.toForkChoice
      ⟨.insertNode state block clock currentSlot, w.ctx, w.balancesByRoot⟩) :
    Settles w (after (insertNode cfg state block clock currentSlot) w) := by
  unfold insertNode
  split
  case h_2 => exact ⟨.refl _, h⟩
  rename_i jc fc hjc hfc
  obtain ⟨hclock, hfirst, hunrealized⟩ := hc jc fc hjc hfc
  cases hrun : insert cfg block jc.epoch fc.epoch clock w with
  | error e w₁ =>
    rw [after_bind_of_error hrun]
    exact insert_error_sound h hclock hrun
  | ok n w₁ =>
    rw [after_bind_of_ok hrun]
    obtain ⟨ha, hb, huj, huf, ⟨r, hr⟩, hsound⟩ := insert_ok_sound h hrun
    cases hp : (w₁.heap n).parent with
    | some p =>
      have hsound : Sound (some n) w₁.toStore := hsound.elim (·.weaken) (·.1)
      obtain ⟨ha₂, hsound₂⟩ := pullTips_settles cfg state currentSlot jc fc hsound hr hp
        (by rw [huj, huf]; exact hunrealized)
      rcases after_bind_cases (pullTips cfg state n currentSlot jc fc) _ w₁ with
        hend | ⟨⟨jc₂, fc₂⟩, hend⟩
      · rw [hend]
        exact ⟨ha.trans ha₂, hsound₂⟩
      · have hfinal := updateCheckpoints_withCleanup_settles cfg jc₂ fc₂ hsound₂ (by simp)
          (by simp) n
        simp only [hend, after_mapError]
        exact .of_advances (ha.trans ha₂) hfinal
    | none =>
      have hpull : pullTips cfg state n currentSlot jc fc w₁ = .ok (jc, fc) w₁ := by
        simp [pullTips, hp]
      simp only [after_bind_of_ok hpull, after_mapError]
      refine .of_advances ha ?_
      rcases hsound with hsound | ⟨hsound, hj, hf, hroot⟩
      · exact updateCheckpoints_withCleanup_settles cfg jc fc hsound (by simp) (by simp) n
      · refine updateCheckpoints_withCleanup_settles cfg jc fc hsound ?_ (fun _ hlt hnone => ?_) n
        · rintro _ ⟨⟩
          exact ⟨hj.le, hf.le⟩
        · rw [hb] at hnone
          have hfc := hfirst (hroot hp) (ha.justified.trans_lt hlt) hnone
          exact hfc.trans (max_le_max ha.finalized ha.unrealizedFinalized)

theorem updateCheckpoints_funded (cfg : BeaconChainConfig) (jc fc : Checkpoint) :
    Within (Keeps World.Funded) (updateCheckpoints cfg jc fc) := by
  have hshift : Within (Keeps World.Funded) (updateJustifiedBalances cfg) := by
    intro w hw k
    unfold after updateJustifiedBalances
    cases w.balancesByRoot 0 <;> exact hw (k + 1)
  refine Within.bind (.get fun w => ?_) fun _ => .get fun w => ?_
  · split_ifs
    · rw [after_modify_bind]
      exact fun hw => hshift.mapError _ hw
    · exact refl _
  · split_ifs
    · rw [after_modify_bind]
      intro hw
      rw [World.Funded, (prune_shrinks cfg _).rest]
      exact hw
    · exact refl _

theorem BlockAndCheckpoints.Safe.mono {bcp : BlockAndCheckpoints} (h : bcp.Safe w)
    (ha : Advances w.toStore w'.toStore) (hf : w.Funded → w'.Funded) : bcp.Safe w' :=
  ⟨fun hb hs => (h.clock hb hs).mono ha, h.balances.imp hf fun hfe =>
    hfe.trans (max_le_max ha.finalized ha.unrealizedFinalized)⟩

theorem insertChain_settles {chain : List BlockAndCheckpoints} (h : Sound none w.toStore)
    (hchain : ∀ bcp ∈ chain, bcp.Safe w) : Settles w (after (insertChain cfg chain) w) := by
  induction chain generalizing w with
  | nil => exact ⟨.refl _, h⟩
  | cons bcp chain ih =>
    unfold insertChain
    rw [List.foldlM_cons]
    have hbcp := hchain bcp List.mem_cons_self
    cases hrun : insert cfg bcp.block bcp.justifiedCheckpoint.epoch
      bcp.finalizedCheckpoint.epoch bcp.clock w with
    | error e w₁ =>
      rw [after_bind_of_error (bind_of_error hrun)]
      exact insert_error_sound h hbcp.clock hrun
    | ok n w₁ =>
      obtain ⟨ha, hb, -, -, -, hsound⟩ := insert_ok_sound h hrun
      have hfunded : w.Funded → w₁.Funded := by
        intro hw
        rw [World.Funded, hb]
        exact hw
      have hsettles : Settles w₁ (after (updateCheckpoints cfg bcp.justifiedCheckpoint
          bcp.finalizedCheckpoint) w₁) := by
        rcases hsound with hsound | ⟨hsound, hj, hf, -⟩
        · exact updateCheckpoints_settles cfg _ _ hsound (by simp) (by simp)
        · refine updateCheckpoints_settles cfg _ _ hsound ?_ fun _ _ hnone => ?_
          · rintro _ ⟨⟩
            exact ⟨hj.le, hf.le⟩
          · exact (hbcp.mono ha hfunded).balances.resolve_left fun hw => hw 0 hnone
      refine .of_advances ha ?_
      have hfunded₂ := fun hw => updateCheckpoints_funded cfg bcp.justifiedCheckpoint
        bcp.finalizedCheckpoint w₁ (hfunded hw)
      cases hrun₂ : updateCheckpoints cfg bcp.justifiedCheckpoint bcp.finalizedCheckpoint w₁ with
      | error e w₂ =>
        rw [after_of_error hrun₂] at hsettles
        rw [after_bind_of_error ((bind_of_ok hrun).trans hrun₂)]
        exact hsettles
      | ok _ w₂ =>
        rw [after_of_ok hrun₂] at hsettles hfunded₂
        rw [after_bind_of_ok ((bind_of_ok hrun).trans hrun₂)]
        refine .of_advances hsettles.1 (ih hsettles.2 fun bcp hmem => ?_)
        exact (hchain bcp (List.mem_cons_of_mem _ hmem)).mono (ha.trans hsettles.1) hfunded₂

end Insert

end Methods

section Run

variable (cfg : BeaconChainConfig)

theorem step_settles {f : ForkChoice} {c : Call} (h : Sound none f.toStore) (hc : Orderly f c) :
    Advances f.toStore (step cfg f c).toStore ∧ Sound none (step cfg f c).toStore := by
  obtain ⟨operation, ctx, balancesByRoot⟩ := c
  change Settles (Call.start ⟨operation, ctx, balancesByRoot⟩ f)
    (after (operation.method cfg) (Call.start ⟨operation, ctx, balancesByRoot⟩ f))
  have hstart : Sound none (Call.start ⟨operation, ctx, balancesByRoot⟩ f).toStore := h
  cases operation with
  | insertNode state block clock currentSlot =>
    exact insertNode_settles state currentSlot hstart hc
  | insertChain chain => exact insertChain_settles hstart hc
  | processAttestation indices blockRoot targetEpoch => exact ⟨.refl _, hstart⟩
  | insertSlashedIndex index => exact (insertSlashedIndex_counts _ index).settles hstart
  | newSlot slot order => exact newSlot_settles cfg slot hstart fun _ => hc
  | setOptimisticToValid root => exact (setOptimisticToValid_heapStep root _).settles hstart
  | setOptimisticToInvalid root parentRoot payloadHash =>
    rw [Operation.method, after_bind_pure]
    exact (setOptimisticToInvalid_shrinks _ _ _ _).settles hstart
  | updateJustifiedCheckpoint jc => exact hc.elim
  | updateFinalizedCheckpoint fc => exact hc.elim
  | Head currentEpoch headEpoch =>
    rw [Operation.method, after_bind_pure, DoublyLinkedTree.Head, after_modify_bind,
      after_modify_bind]
    have hbalances := (updateBalances_counts _).settles hstart
    have hboost := (applyProposerBoostScore_counts cfg _).settles hbalances.2
    refine .of_advances (hbalances.1.trans hboost.1) ?_
    exact (headOfBalances_cosmetic currentEpoch headEpoch _).settles hboost.2

theorem sound_new : Sound none ForkChoice.new.toStore where
  allocated := allocated_new
  node r i h := by cases h
  parent r i p h := by cases h

/-- The checkpoints do not go back along a run of orderly calls. -/
theorem advances_of_orderly (earlier later : List Call)
    (h : Meets cfg Orderly ForkChoice.new (earlier ++ later)) :
    Advances (run cfg earlier).toStore (run cfg (earlier ++ later)).toStore := by
  obtain ⟨hearlier, hlater⟩ := along_append.1 h
  have hsound : Sound none (run cfg earlier).toStore :=
    hearlier.foldl (I := fun f => Sound none f.toStore) sound_new
      fun _ _ hf hc => (step_settles cfg hf hc).2
  have hrun := hlater.foldl
    (I := fun f => Advances (run cfg earlier).toStore f.toStore ∧ Sound none f.toStore)
    ⟨.refl _, hsound⟩
    fun _ _ hf hc => ⟨hf.1.trans (step_settles cfg hf.2 hc).1, (step_settles cfg hf.2 hc).2⟩
  unfold run at hrun ⊢
  rw [List.foldl_append]
  exact hrun.1

/-- A chain of three blocks, and the epoch boundary after them. -/
def threeBlocks : List Call :=
  [.insertTimely ⟨1, 0, 0, some 0⟩ ⟨0, 0⟩ ⟨0, 0⟩ ⟨0, 0⟩ ⟨0, 0⟩,
    .insertTimely ⟨2, 70, 1, some 0⟩ ⟨0, 0⟩ ⟨0, 0⟩ ⟨1, 1⟩ ⟨0, 0⟩,
    .insertTimely ⟨3, 100, 2, some 0⟩ ⟨1, 1⟩ ⟨0, 0⟩ ⟨2, 1⟩ ⟨1, 1⟩]

def boundary : Call where
  operation := .newSlot 128 [2, 0, 1]
  balancesByRoot := fun _ => some []

theorem advances_threeBlocks :
    Advances (run {} threeBlocks).toStore (run {} (threeBlocks ++ [boundary])).toStore ∧
      (run {} threeBlocks).justifiedCheckpoint.epoch = 1 ∧
      (run {} (threeBlocks ++ [boundary])).justifiedCheckpoint.epoch = 2 := by
  refine ⟨advances_of_orderly {} threeBlocks [boundary] ?_, by decide +kernel, by decide +kernel⟩
  refine ⟨?_, ?_, ?_, ?_, trivial⟩
  iterate 3
    rintro _ _ ⟨⟩ ⟨⟩
    exact ⟨fun _ h => (by cases h), (by decide +kernel), by decide +kernel⟩
  intro n hn
  have hroot : ∀ n ∈ [2, 0, 1], (run {} threeBlocks).nodeByRoot (n + 1) = some n := by
    decide +kernel
  exact ⟨n + 1, hroot n hn⟩

/-- The branch of the second block justifies more, that of the third one finalizes more. -/
def twoBranches : List Call :=
  [.insertTimely ⟨1, 0, 0, some 0⟩ ⟨0, 0⟩ ⟨0, 0⟩ ⟨0, 0⟩ ⟨0, 0⟩,
    .insertTimely ⟨2, 260, 1, some 0⟩ ⟨5, 1⟩ ⟨0, 0⟩ ⟨7, 1⟩ ⟨0, 0⟩]

def finalizingBlock : Call := .insertTimely ⟨3, 261, 1, some 0⟩ ⟨4, 1⟩ ⟨0, 0⟩ ⟨4, 1⟩ ⟨3, 1⟩

/-- The unrealized justified checkpoint goes back from epoch 7 to epoch 4, and the justified
checkpoint follows it from epoch 5 at the next epoch boundary. -/
theorem checkpoints_go_back :
    (run {} twoBranches).unrealizedJustifiedCheckpoint.epoch = 7 ∧
      (run {} (twoBranches ++ [finalizingBlock])).unrealizedJustifiedCheckpoint.epoch = 4 ∧
      (run {} (twoBranches ++ [finalizingBlock])).justifiedCheckpoint.epoch = 5 ∧
      (run {} (twoBranches ++ [finalizingBlock, { boundary with
        operation := .newSlot 288 [0, 1, 2] }])).justifiedCheckpoint.epoch = 4 := by
  decide +kernel

end Run

end LightChain.DoublyLinkedTree

import LightChain.ForkChoice.TreeRun

/-!
# Insertions that fail

`InsertNode` enters the node, then accounts for the checkpoints of the block, and takes the node
out again when a later step fails. What a failure leaves as it was: a refused block changes
nothing, a cancelled update of the best descendants is undone up to a boost that already named the
block, and a failure of the clock or of the checkpoints is not undone.
-/
namespace LightChain.DoublyLinkedTree
open Library Program

/-- What a failed insertion is to leave as it was. -/
structure ForkChoice.Untouched (f f' : ForkChoice) : Prop where
  nodes : f'.nodeByRoot = f.nodeByRoot
  justified : f'.justifiedCheckpoint = f.justifiedCheckpoint
  prevJustified : f'.prevJustifiedCheckpoint = f.prevJustifiedCheckpoint
  finalized : f'.finalizedCheckpoint = f.finalizedCheckpoint
  unrealizedJustified : f'.unrealizedJustifiedCheckpoint = f.unrealizedJustifiedCheckpoint
  unrealizedFinalized : f'.unrealizedFinalizedCheckpoint = f.unrealizedFinalizedCheckpoint
  justifiedBalances : f'.justifiedBalances = f.justifiedBalances
  highestReceived : f'.highestReceivedNode = f.highestReceivedNode
  proposerBoost : f'.proposerBoostRoot = f.proposerBoostRoot

theorem ForkChoice.Untouched.refl (f : ForkChoice) : f.Untouched f :=
  ⟨rfl, rfl, rfl, rfl, rfl, rfl, rfl, rfl, rfl⟩

/-- The block is unknown, its parent is known. -/
def Store.Extendable (s : Store) (block : Block) : Prop :=
  block.payloadHash.isSome ∧ s.nodeByRoot block.root = none ∧
    (s.nodeByRoot block.parentRoot).isSome

/-- The time since the start of the slot cannot be computed. -/
def InsertClock.Fails (clock : InsertClock) : Prop :=
  clock.beforeGenesis = false ∧ clock.sinceSlotStart = none

section Insert

variable {cfg : BeaconChainConfig} {block : Block} {clock : InsertClock} {w w' : World}

/-- The removal of the new node undoes its insertion, apart from a boost that named the block
before. -/
theorem removeNode_untouched_iff {payloadHash justifiedEpoch finalizedEpoch parent : Nat} {sss : Int}
    {w₂ : World} (ha : Allocated w.toStore) (hnew : w.nodeByRoot block.root = none)
    (hparent : w.nodeByRoot block.parentRoot = some parent)
    (hbest : HeapStep BestOnly ((w.attachTo parent
      (w.newNode cfg block payloadHash justifiedEpoch finalizedEpoch)).boostTimely block clock sss)
        w₂) :
    w.Untouched (after (removeNode w.next) w₂).toForkChoice ↔
      (w.proposerBoostRoot = block.root → block.root = 0) := by
  have hattach : Attaches cfg block justifiedEpoch finalizedEpoch w _ := .child payloadHash hnew hparent
  have hg := hattach.grows ha
  obtain ⟨_, hheap⟩ := hg.new
  have hboost := boostTimely_decorates block clock (w.attachTo parent
    (w.newNode cfg block payloadHash justifiedEpoch finalizedEpoch)) sss
  have hdecorates := IsTrans.trans _ _ _ hboost (decorates_of_bestOnly block.root hbest)
  have hnode := hdecorates.node w.next
  rw [hheap] at hnode
  have hundone : after (removeNode w.next) w₂ = (w₂.modifyNode parent fun p =>
      { p with children := removeChild p.children w.next }).forget block.root := by
    rw [@removeNode_leaf _ _ parent ?_ ?_ ?_ (ha.keyed _ _ hparent).2.ne' ?_, hnode]
    · rfl
    · rw [hdecorates.rest, hg.next]
      exact Nat.lt_succ_self _
    all_goals rw [hnode]
    · rfl
    · exact hparent
    · rfl
  obtain ⟨heap, ctx, rfl, -, -⟩ := hbest
  have hmap : Function.update (Function.update w.nodeByRoot block.root (some w.next)) block.root
      none = w.nodeByRoot := by
    rw [Function.update_idem, ← hnew, Function.update_eq_self]
  rw [hundone]
  unfold World.boostTimely
  split_ifs with hc
  -- A boost that the insertion has set was zero before.
  · have hzero : w.proposerBoostRoot = 0 := hc.2.2
    refine iff_of_true ⟨hmap, rfl, rfl, rfl, rfl, rfl, rfl, rfl, ?_⟩ ?_
    · change (if block.root = block.root then 0 else _) = _
      rw [if_pos rfl, hzero]
    · rw [hzero]
      exact Eq.symm
  · have hboostRoot : (if block.root = w.proposerBoostRoot then 0 else w.proposerBoostRoot) =
        w.proposerBoostRoot ↔ (w.proposerBoostRoot = block.root → block.root = 0) := by grind
    rw [← hboostRoot]
    exact ⟨fun h => h.proposerBoost, fun h => ⟨hmap, rfl, rfl, rfl, rfl, rfl, rfl, rfl, h⟩⟩

theorem insert_untouched_iff {justifiedEpoch finalizedEpoch : Nat} {e : Error}
    (ha : Allocated w.toStore)
    (hrun : insert cfg block justifiedEpoch finalizedEpoch clock w = .error e w') :
    w.Untouched w'.toForkChoice ↔ (w.Extendable block →
      ¬ clock.Fails ∧ (w.proposerBoostRoot = block.root → block.root = 0)) := by
  unfold insert at hrun
  rw [get_bind_run] at hrun
  cases hpayload : block.payloadHash with
  | none =>
    rw [hpayload] at hrun
    cases hrun
    simp [Store.Extendable, hpayload, ForkChoice.Untouched.refl]
  | some payloadHash =>
    cases hnew : w.nodeByRoot block.root with
    | some n =>
      simp only [hpayload, hnew] at hrun
      cases hrun
    | none =>
      cases hparent : w.nodeByRoot block.parentRoot with
      | none =>
        simp only [hpayload, hnew, hparent] at hrun
        cases hroot : w.treeRootNode with
        | some _ =>
          rw [hroot] at hrun
          cases hrun
          simp [Store.Extendable, hparent, ForkChoice.Untouched.refl]
        | none =>
          simp only [hroot, set_bind_run] at hrun
          obtain ⟨w₂, h₂⟩ := trackReceived_ok cfg clock (w := w.attachFirst
            (w.newNode cfg block payloadHash justifiedEpoch finalizedEpoch)) rfl w.next block.slot
          rw [bind_of_ok h₂] at hrun
          cases hrun
      | some parent =>
        obtain ⟨hroot, hhighest⟩ := ha.rooted _ _ hparent
        have hextend : w.Extendable block := ⟨by simp [hpayload], hnew, by simp [hparent]⟩
        simp only [hpayload, hnew, hparent, set_bind_run] at hrun
        obtain ⟨w', hrun', h⟩ | ⟨e, sss, w', hrun', hsss, h⟩ | ⟨e, hrun', h⟩ :=
          settleChild_cases cfg block clock (w := w.attachTo parent
            (w.newNode cfg block payloadHash justifiedEpoch finalizedEpoch)) hroot hhighest w.next
        · cases hrun.symm.trans hrun'
        · cases hrun.symm.trans hrun'
          rw [removeNode_untouched_iff ha hnew hparent h]
          simp [hextend, InsertClock.Fails, hsss]
        · cases hrun.symm.trans hrun'
          refine iff_of_false (fun huntouched => ?_) fun hfails => (hfails hextend).1 h
          have hnone := congrFun huntouched.nodes block.root
          rw [hnew] at hnone
          simp [World.attachTo, World.addNode, World.modifyNode, Store.newNode] at hnone

theorem insert_checkpoints {justifiedEpoch finalizedEpoch n : Nat} (ha : Allocated w.toStore)
    (hrun : insert cfg block justifiedEpoch finalizedEpoch clock w = .ok n w') :
    w'.justifiedCheckpoint = w.justifiedCheckpoint ∧
      w'.finalizedCheckpoint = w.finalizedCheckpoint := by
  have hcases := insert_cases cfg block clock justifiedEpoch finalizedEpoch ha.rooted
  rw [hrun] at hcases
  cases hcases with
  | known _ => exact ⟨rfl, rfl⟩
  | added hattach hdecorate =>
    rw [hdecorate.rest, (hattach.grows ha).rest]
    exact ⟨rfl, rfl⟩

end Insert

section Checkpoints

variable {cfg : BeaconChainConfig} {jc fc : Checkpoint} {w : World}

/-- The handler answers if the justified checkpoint is raised, and pruning succeeds if the
finalized checkpoint is raised. -/
def World.Raises (cfg : BeaconChainConfig) (jc fc : Checkpoint) (w : World) : Prop :=
  (w.justifiedCheckpoint.epoch < jc.epoch → w.balancesByRoot 0 ≠ none) ∧
    (w.finalizedCheckpoint.epoch < fc.epoch → ∃ w',
      prune cfg { after (raiseJustified cfg jc) w with finalizedCheckpoint := fc } = .ok () w')

theorem raiseJustified_cases (cfg : BeaconChainConfig) (jc : Checkpoint) (w : World) :
    ((w.justifiedCheckpoint.epoch < jc.epoch → w.balancesByRoot 0 ≠ none) ∧
      ∃ w', raiseJustified cfg jc w = .ok () w' ∧
        w'.finalizedCheckpoint = w.finalizedCheckpoint) ∨
    (w.justifiedCheckpoint.epoch < jc.epoch ∧ w.balancesByRoot 0 = none ∧
      ∃ e w', raiseJustified cfg jc w = .error e w' ∧ w'.justifiedCheckpoint = jc) := by
  unfold raiseJustified
  rw [get_bind_run]
  split_ifs with hlt
  · cases hb : w.balancesByRoot 0 with
    | none =>
      refine .inr ⟨hlt, rfl, ?_⟩
      simp [modify_bind_run, wrap, mapError, updateJustifiedBalances, hb]
    | some balances =>
      refine .inl ⟨fun _ => Option.some_ne_none _, ?_⟩
      simp [modify_bind_run, wrap, mapError, updateJustifiedBalances, hb]
  · exact .inl ⟨fun h => absurd h hlt, w, rfl, rfl⟩

/-- When raising the checkpoints fails, one of them has been raised already. -/
theorem updateCheckpoints_cases (cfg : BeaconChainConfig) (jc fc : Checkpoint) (w : World) :
    (w.Raises cfg jc fc ∧ ∃ w', updateCheckpoints cfg jc fc w = .ok () w') ∨
    (¬ w.Raises cfg jc fc ∧ ∃ e w', updateCheckpoints cfg jc fc w = .error e w' ∧
      (w'.justifiedCheckpoint ≠ w.justifiedCheckpoint ∨
        w'.finalizedCheckpoint ≠ w.finalizedCheckpoint)) := by
  unfold updateCheckpoints
  rcases raiseJustified_cases cfg jc w with ⟨hb, w₁, hrun, hfinalized⟩ | ⟨hlt, hb, e, w₁, hrun, hw₁⟩
  · rw [bind_of_ok hrun, raiseFinalized, get_bind_run, World.Raises, after_of_ok hrun, hfinalized]
    split_ifs with hlt
    · rw [modify_bind_run]
      cases hprune : prune cfg { w₁ with finalizedCheckpoint := fc } with
      | ok _ w₂ => exact .inl ⟨⟨hb, fun _ => ⟨w₂, rfl⟩⟩, w₂, rfl⟩
      | error e w₂ =>
        have hshrinks := prune_shrinks cfg { w₁ with finalizedCheckpoint := fc }
        rw [after_of_error hprune] at hshrinks
        refine .inr ⟨fun h => ?_, e, w₂, rfl, .inr fun heq => ?_⟩
        · obtain ⟨w₃, hw₃⟩ := h.2 hlt
          cases hw₃
        · have hfc : w₂.finalizedCheckpoint = fc := by rw [hshrinks.rest]
          rw [← heq, hfc] at hlt
          exact absurd hlt (lt_irrefl _)
    · exact .inl ⟨⟨hb, fun h => absurd h hlt⟩, w₁, rfl⟩
  · rw [bind_of_error hrun]
    refine .inr ⟨fun h => h.1 hlt hb, e, w₁, rfl, .inl fun heq => ?_⟩
    rw [← heq, hw₁] at hlt
    exact absurd hlt (lt_irrefl _)

end Checkpoints

section InsertNode

variable (cfg : BeaconChainConfig)

/-- What has to succeed for a block so that a failure leaves nothing behind. -/
structure Harmless (state : BlockState) (block : Block) (clock : InsertClock) (currentSlot : Nat)
    (jc fc : Checkpoint) (w : World) : Prop where
  inserts : w.Extendable block →
    (∃ n w', insert cfg block jc.epoch fc.epoch clock w = .ok n w') ∨
      ¬ clock.Fails ∧ (w.proposerBoostRoot = block.root → block.root = 0)
  raises : ∀ n w₁ cps w₂, insert cfg block jc.epoch fc.epoch clock w = .ok n w₁ →
    pullTips cfg state n currentSlot jc fc w₁ = .ok cps w₂ → w₂.Raises cfg cps.1 cps.2

theorem insertNode_harmless_iff {w : World} (ha : Allocated w.toStore) (state : BlockState)
    (block : Block) (clock : InsertClock) (currentSlot : Nat) :
    (∀ e w', insertNode cfg state block clock currentSlot w = .error e w' →
      w.Untouched w'.toForkChoice) ↔
      ∀ jc fc, state.currentJustifiedCheckpoint = some jc → state.finalizedCheckpoint = some fc →
        Harmless cfg state block clock currentSlot jc fc w := by
  unfold insertNode
  cases hjc : state.currentJustifiedCheckpoint with
  | none => exact iff_of_true (by rintro _ _ ⟨⟩; exact .refl _) (by rintro _ _ ⟨⟩)
  | some jc =>
    cases hfc : state.finalizedCheckpoint with
    | none => exact iff_of_true (by rintro _ _ ⟨⟩; exact .refl _) (by rintro _ _ _ ⟨⟩)
    | some fc =>
      have hboth : (∀ jc' fc', some jc = some jc' → some fc = some fc' →
          Harmless cfg state block clock currentSlot jc' fc' w) ↔
          Harmless cfg state block clock currentSlot jc fc w :=
        ⟨fun h => h jc fc rfl rfl, by rintro h _ _ ⟨⟩ ⟨⟩; exact h⟩
      rw [hboth]
      dsimp only
      cases hinsert : insert cfg block jc.epoch fc.epoch clock w with
      | error e w₁ =>
        rw [bind_of_error hinsert]
        constructor
        · intro h
          have huntouched := (insert_untouched_iff ha hinsert).1 (h e w₁ rfl)
          refine ⟨fun hextend => .inr (huntouched hextend), fun n w₂ cps w₃ hok => ?_⟩
          cases hinsert.symm.trans hok
        · rintro h _ _ ⟨⟩
          refine (insert_untouched_iff ha hinsert).2 fun hextend => ?_
          rcases h.inserts hextend with ⟨n, w', hok⟩ | hharmless
          · cases hinsert.symm.trans hok
          · exact hharmless
      | ok n w₁ =>
        obtain ⟨cps, w₂, hpull, hpulls, -⟩ := pullTips_run cfg (w := w₁) state n currentSlot jc fc
        obtain ⟨hj, hf⟩ := insert_checkpoints ha hinsert
        rw [bind_of_ok hinsert, bind_of_ok hpull]
        rcases updateCheckpoints_cases cfg cps.1 cps.2 w₂ with
          ⟨hraises, w₃, hrun⟩ | ⟨hraises, e, w₃, hrun, hchanged⟩
        · rw [wrap, mapError_of_ok (withCleanup_of_ok hrun)]
          refine iff_of_true (by rintro _ _ ⟨⟩) ⟨fun _ => .inl ⟨n, w₁, hinsert⟩, ?_⟩
          intro n' w₁' cps' w₂' hinsert' hpull'
          cases hinsert.symm.trans hinsert'
          cases hpull.symm.trans hpull'
          exact hraises
        · -- The checkpoint that has been raised stays.
          refine iff_of_false (fun h => ?_) fun h => hraises (h.raises n w₁ cps w₂ hinsert hpull)
          have huntouched := h _ _ (by rw [wrap, mapError, withCleanup_of_error hrun])
          have hshrinks := removeNode_shrinks n w₃
          have hjustified := huntouched.justified
          have hfinalized := huntouched.finalized
          rw [hshrinks.rest] at hjustified hfinalized
          rw [hpulls.rest] at hchanged
          rcases hchanged with hne | hne
          · exact hne (hjustified.trans hj.symm)
          · exact hne (hfinalized.trans hf.symm)

end InsertNode

end LightChain.DoublyLinkedTree

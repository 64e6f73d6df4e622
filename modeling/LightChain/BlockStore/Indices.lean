import LightChain.BlockStore.Store

/-!
# Agreement of the block indices with the blocks

The indices list the stored blocks under their slots and their parents after each call of a run
just if no call deletes a block whose children stay or whose parent stays. A saved batch keeps the
agreement. `DeleteBlock` drops the list of the children of the block, which may be stored.
`DeleteHistoricalDataBeforeSlot` drops such lists, too, and does not take the deleted roots out of
the lists of their parents; if it is cancelled it leaves them in the lists of their slots.
-/
namespace LightChain.BlockStore
open Library List Function Store

variable {ρ τ : Type}

namespace Store

def slotOf (s : Store ρ τ) (root : ρ) : Option Nat := (s.blocks root).map (·.slot)

def parentOf (s : Store ρ τ) (root : ρ) : Option ρ := (s.blocks root).map (·.parentRoot)

/-- Both indices list the stored blocks. -/
structure Exact (s : Store ρ τ) : Prop where
  slots : KeyIndexes s.blockSlotIndices s.slotOf
  parents : KeyIndexes s.blockParentRootIndices s.parentOf

theorem exact_iff {s : Store ρ τ} : s.Exact ↔
    KeyIndexes s.blockSlotIndices (fun r => (s.blocks r).map (·.slot)) ∧
      KeyIndexes s.blockParentRootIndices (fun r => (s.blocks r).map (·.parentRoot)) :=
  ⟨fun h => ⟨h.slots, h.parents⟩, fun h => ⟨h.1, h.2⟩⟩

/-- The cache has blocks that are stored. -/
def CacheSound (s : Store ρ τ) : Prop := ∀ r b, s.blockCache r = some b → s.blocks r = some b

variable {s : Store ρ τ} {root : ρ}

theorem getBlock_eq (h : s.CacheSound) : s.getBlock root = s.blocks root := by
  unfold getBlock
  split
  · next b hb => exact (h root b hb).symm
  · rfl

variable [DecidableEq ρ]

theorem map_update {β κ : Type} (rows : ρ → Option β) (root : ρ) (row : Option β) (f : β → κ) :
    (fun r => (Function.update rows root row r).map f) =
      Function.update (fun r => (rows r).map f) root (row.map f) := by
  funext r
  by_cases hr : r = root
  · subst hr
    simp
  · simp [hr]

section Saving

variable (s root) in
/-- A root that neither index lists enters both, in either order. -/
theorem updateValueForIndices_eq (block : Block ρ τ) (parentFirst : Bool)
    (hslot : root ∉ s.blockSlotIndices block.slot)
    (hparent : root ∉ s.blockParentRootIndices block.parentRoot) :
    s.updateValueForIndices parentFirst root block =
      (s.addSlotIndex block.slot root).addParentIndex block.parentRoot root := by
  unfold updateValueForIndices
  cases parentFirst <;> simp [hslot, hparent, addSlotIndex, addParentIndex]

theorem Exact.updateValueForIndices_eq (h : s.Exact) (hnone : s.blocks root = none)
    (block : Block ρ τ) (parentFirst : Bool) :
    (s.putBlock root block).updateValueForIndices parentFirst root block =
      ((s.putBlock root block).addSlotIndex block.slot root).addParentIndex block.parentRoot
        root := by
  refine Store.updateValueForIndices_eq _ root block parentFirst ?_ ?_
  · simp [putBlock, h.slots.mem_iff, slotOf, hnone]
  · simp [putBlock, h.parents.mem_iff, parentOf, hnone]

theorem Exact.insert (h : s.Exact) (hnone : s.blocks root = none) (block : Block ρ τ) :
    (((s.putBlock root block).addSlotIndex block.slot root).addParentIndex block.parentRoot
      root).Exact := by
  rw [exact_iff]
  simp only [addParentIndex, addSlotIndex, putBlock, map_update]
  exact ⟨h.slots.insert (by simp [slotOf, hnone]) block.slot,
    h.parents.insert (by simp [parentOf, hnone]) block.parentRoot⟩

/-- The indices agree with the blocks, and the cache has stored blocks only. -/
structure Sound (s : Store ρ τ) : Prop extends s.Exact where
  cache : s.CacheSound

theorem Sound.saveROBlock (h : s.Sound) (parentFirst : ρ → Bool) (cache : Bool)
    (entry : ρ × Block ρ τ) : (saveROBlock parentFirst cache s entry).Sound := by
  obtain ⟨root, block⟩ := entry
  unfold Store.saveROBlock
  split
  · exact h
  next hnone =>
  have hexact := h.toExact.insert hnone block
  simp only [h.toExact.updateValueForIndices_eq hnone block]
  split_ifs
  · refine ⟨⟨hexact.slots, hexact.parents⟩, fun r b hb => ?_⟩
    by_cases hr : r = root
    · subst hr
      simpa [cacheBlock, addParentIndex, addSlotIndex, putBlock] using hb
    · simp only [cacheBlock, addParentIndex, addSlotIndex, putBlock, update_of_ne hr] at hb ⊢
      exact h.cache r b hb
  · refine ⟨hexact, fun r b hb => ?_⟩
    have hr : r ≠ root := by
      rintro rfl
      exact Option.some_ne_none b ((h.cache r b hb).symm.trans hnone)
    simp only [addParentIndex, addSlotIndex, putBlock, update_of_ne hr]
    exact h.cache r b hb

theorem Sound.saveROBlocks (h : s.Sound) (parentFirst : ρ → Bool) (blks : List (ρ × Block ρ τ))
    (cache : Bool) : (s.saveROBlocks parentFirst blks cache).Sound := by
  unfold Store.saveROBlocks
  induction blks generalizing s with
  | nil => exact h
  | cons entry blks ih => exact ih (h.saveROBlock parentFirst cache entry)

end Saving

section Deleting

def Deletes (s : Store ρ τ) (stateDeleted : Bool) (root : ρ) : Prop :=
  stateDeleted = true ∧ s.finalizedBlockRootsIndex root = false ∧ (s.blocks root).isSome

theorem deleteBlock_of_not_deletes {stateDeleted : Bool} (hcache : s.CacheSound)
    (h : ¬ s.Deletes stateDeleted root) : s.deleteBlock stateDeleted root = s := by
  unfold deleteBlock
  rw [getBlock_eq hcache]
  unfold Deletes at h
  cases stateDeleted <;> cases hf : s.finalizedBlockRootsIndex root <;>
    cases hb : s.blocks root <;> simp_all

theorem deleteBlock_of_deletes {stateDeleted : Bool} (hcache : s.CacheSound) {block : Block ρ τ}
    (h : s.Deletes stateDeleted root) (hblock : s.blocks root = some block) :
    s.deleteBlock stateDeleted root = { s with
      blocks := Function.update s.blocks root none
      blockSlotIndices := Function.update s.blockSlotIndices block.slot
        ((s.blockSlotIndices block.slot).erase root)
      blockParentRootIndices := Function.update (Function.update s.blockParentRootIndices
        block.parentRoot ((s.blockParentRootIndices block.parentRoot).erase root)) root []
      blockCache := Function.update s.blockCache root none } := by
  obtain ⟨rfl, hfinal, -⟩ := h
  unfold deleteBlock
  rw [getBlock_eq hcache, hblock]
  simp [hfinal, deleteSlotIndexEntry, deleteMatchingParentIndex, deleteBlockEntry]

/-- The list of the children of a deleted block is dropped. -/
theorem Sound.deleteBlock_exact_iff (h : s.Sound) (stateDeleted : Bool) (root : ρ) :
    (s.deleteBlock stateDeleted root).Exact ↔
      (s.Deletes stateDeleted root → ∀ r ≠ root, s.parentOf r ≠ some root) := by
  by_cases hdel : s.Deletes stateDeleted root
  swap
  · rw [deleteBlock_of_not_deletes h.cache hdel]
    exact ⟨fun _ hdel' => absurd hdel' hdel, fun _ => h.toExact⟩
  obtain ⟨block, hblock⟩ := Option.isSome_iff_exists.1 hdel.2.2
  rw [deleteBlock_of_deletes h.cache hdel hblock]
  have hslot : s.slotOf root = some block.slot := by simp [slotOf, hblock]
  have hparent : s.parentOf root = some block.parentRoot := by simp [parentOf, hblock]
  rw [exact_iff]
  simp only [map_update, Option.map_none]
  refine (and_iff_right (h.slots.erase hslot)).trans ?_
  refine ((h.parents.erase hparent).drop_iff (· = root) (fun _ => False)
    (fun k hk => by simp [hk]) (fun k hk => by simp [hk])
    (fun _ hf => hf.elim) (fun _ _ => rfl)).trans ?_
  constructor
  · intro hall _ r hr hpr
    exact (hall r root (by rw [update_of_ne hr, hpr])).2 rfl
  · intro hall r k hk
    refine ⟨False.elim, ?_⟩
    rintro rfl
    by_cases hr : r = k
    · rw [hr, update_self] at hk
      cases hk
    · rw [update_of_ne hr] at hk
      exact hall hdel r hr hk

theorem Sound.deleteBlock (h : s.Sound) (stateDeleted : Bool) (root : ρ)
    (hexact : (s.deleteBlock stateDeleted root).Exact) :
    (s.deleteBlock stateDeleted root).Sound := by
  refine ⟨hexact, ?_⟩
  by_cases hdel : s.Deletes stateDeleted root
  · obtain ⟨block, hblock⟩ := Option.isSome_iff_exists.1 hdel.2.2
    rw [deleteBlock_of_deletes h.cache hdel hblock]
    intro r b hb
    have hr : r ≠ root := by
      rintro rfl
      simp at hb
    simp only [update_of_ne hr] at hb ⊢
    exact h.cache r b hb
  · rw [deleteBlock_of_not_deletes h.cache hdel]
    exact h.cache

end Deleting

section Historical

section

variable (s : Store ρ τ)

omit [DecidableEq ρ] in
theorem slotRoots_eq (start : Nat) (batchSize : Int) (n : Nat) (pairs : List (Nat × ρ)) :
    ∃ slots : List Nat, s.slotRoots start batchSize n pairs =
      pairs ++ slots.flatMap fun slot => (s.blockSlotIndices slot).map (slot, ·) := by
  induction n generalizing pairs with
  | zero => exact ⟨[], by simp [slotRoots]⟩
  | succ slot ih =>
    unfold slotRoots
    split_ifs
    · exact ih pairs
    · exact ⟨[], by simp⟩
    dsimp only
    split_ifs
    · exact ⟨[slot], by simp⟩
    · obtain ⟨slots, hslots⟩ := ih (pairs ++ (s.blockSlotIndices slot).map (slot, ·))
      exact ⟨slot :: slots, by simp [hslots]⟩

/-- The pairs that a call finds. -/
def historical (cutoffSlot : Nat) (batchSize : Int) : List (Nat × ρ) :=
  s.slotRoots 0 batchSize (cutoffSlot + 1) []

omit [DecidableEq ρ] in
theorem mem_historical (cutoffSlot : Nat) (batchSize : Int) :
    ∃ slots : List Nat, ∀ slot r, (slot, r) ∈ s.historical cutoffSlot batchSize ↔
      slot ∈ slots ∧ r ∈ s.blockSlotIndices slot := by
  obtain ⟨slots, hslots⟩ := slotRoots_eq s 0 batchSize (cutoffSlot + 1) []
  refine ⟨slots, fun slot r => ?_⟩
  rw [historical, hslots]
  simp

theorem foldl_deleteHistorical (prs : List (Nat × ρ)) (s : Store ρ τ) :
    (prs.foldl deleteHistorical s).blocks =
        (fun r => if r ∈ prs.map (·.2) then none else s.blocks r) ∧
      (prs.foldl deleteHistorical s).blockParentRootIndices =
        (fun r => if r ∈ prs.map (·.2) then [] else s.blockParentRootIndices r) ∧
      (prs.foldl deleteHistorical s).blockSlotIndices = s.blockSlotIndices ∧
      (prs.foldl deleteHistorical s).blockCache = s.blockCache := by
  induction prs generalizing s with
  | nil => simp
  | cons sr prs ih =>
    obtain ⟨hblocks, hparents, hslots, hcache⟩ := ih (deleteHistorical s sr)
    refine ⟨?_, ?_, hslots, hcache⟩
    · rw [foldl_cons, hblocks]
      exact ite_mem_update s.blocks sr.2 (prs.map (·.2)) none
    · rw [foldl_cons, hparents]
      exact ite_mem_update s.blockParentRootIndices sr.2 (prs.map (·.2)) []

omit [DecidableEq ρ] in
theorem foldl_deleteSlotIndex (prs : List (Nat × ρ)) (s : Store ρ τ) :
    prs.foldl deleteSlotIndex s = { s with
      blockSlotIndices := fun k => if k ∈ prs.map (·.1) then [] else s.blockSlotIndices k } := by
  induction prs generalizing s with
  | nil => simp
  | cons sr prs ih =>
    rw [foldl_cons, ih]
    congr 1
    exact ite_mem_update s.blockSlotIndices sr.1 (prs.map (·.1)) []

theorem foldl_dropCached (prs : List (Nat × ρ)) (s : Store ρ τ) :
    prs.foldl dropCached s = { s with
      blockCache := fun r => if r ∈ prs.map (·.2) then none else s.blockCache r } := by
  induction prs generalizing s with
  | nil => simp
  | cons sr prs ih =>
    rw [foldl_cons, ih]
    congr 1
    exact ite_mem_update s.blockCache sr.2 (prs.map (·.2)) none

omit [DecidableEq ρ] in
theorem beforeCancel_eq {checks : Option Nat} {found : List (Nat × ρ)}
    (h : ¬ (beforeCancel checks found).length < found.length) : beforeCancel checks found = found := by
  cases checks with
  | none => rfl
  | some n =>
    simp only [beforeCancel, length_take] at h ⊢
    exact take_of_length_le (by omega)

omit [DecidableEq ρ] in
theorem beforeCancel_subset (checks : Option Nat) (found : List (Nat × ρ)) :
    beforeCancel checks found ⊆ found := by
  cases checks with
  | none => exact Subset.refl found
  | some n => exact take_subset n found

/-- A call that is not cancelled deletes whole slots, and so the slot index is right. It drops the
lists of the deleted parents, and leaves deleted blocks in the lists of other parents. -/
theorem Exact.deleteHistorical_iff (h : s.Exact) (cutoffSlot : Nat) (batchSize : Int) :
    (((s.historical cutoffSlot batchSize).foldl dropCached
      ((s.historical cutoffSlot batchSize).foldl deleteSlotIndex
        ((s.historical cutoffSlot batchSize).foldl deleteHistorical s))).Exact ↔
      ∀ r p, s.parentOf r = some p →
        (r ∈ (s.historical cutoffSlot batchSize).map (·.2) ↔
          p ∈ (s.historical cutoffSlot batchSize).map (·.2))) := by
  obtain ⟨slots, hmem⟩ := mem_historical s cutoffSlot batchSize
  generalize s.historical cutoffSlot batchSize = prs at hmem ⊢
  obtain ⟨hblocks, hparents, hslots, -⟩ := foldl_deleteHistorical prs s
  rw [foldl_dropCached, foldl_deleteSlotIndex, exact_iff]
  simp only [hblocks, hparents, hslots]
  have hleft : ∀ {κ : Type} (f : Block ρ τ → κ) r, r ∈ prs.map (·.2) →
      (if r ∈ prs.map (·.2) then none else s.blocks r).map f = none := by
    intro κ f r hr
    rw [if_pos hr, Option.map_none]
  have hstay : ∀ {κ : Type} (f : Block ρ τ → κ) r, r ∉ prs.map (·.2) →
      (if r ∈ prs.map (·.2) then none else s.blocks r).map f = (s.blocks r).map f := by
    intro κ f r hr
    rw [if_neg hr]
  refine (and_iff_right ?_).trans (h.parents.drop_iff (· ∈ prs.map (·.2)) (· ∈ prs.map (·.2))
    (fun k hk => if_pos hk) (fun k hk => if_neg hk) (hleft _) (hstay _))
  refine (h.slots.drop_iff (· ∈ prs.map (·.1)) (· ∈ prs.map (·.2))
    (fun k hk => if_pos hk) (fun k hk => if_neg hk) (hleft _) (hstay _)).2 ?_
  intro r k hk
  have hlisted : r ∈ s.blockSlotIndices k := (h.slots.mem_iff k r).2 hk
  simp only [mem_map, Prod.exists, exists_eq_right, hmem]
  constructor
  · rintro ⟨k', hk', hr⟩
    obtain rfl := Option.some.inj (((h.slots.mem_iff k' r).1 hr).symm.trans hk)
    exact ⟨k', r, ⟨hk', hr⟩, rfl⟩
  · rintro ⟨k, -, ⟨hk', -⟩, rfl⟩
    exact ⟨k, hk', hlisted⟩

/-- The deletion keeps the indices right: it deletes nothing, or it is not cancelled, and with each
stored block its parent is deleted if and only if it is deleted itself. -/
def PrunesCleanly (cutoffSlot : Nat) (batchSize : Int) (checks : Option Nat) : Prop :=
  beforeCancel checks (s.historical cutoffSlot batchSize) = [] ∨
    (s.historical cutoffSlot batchSize).length ≤
        (beforeCancel checks (s.historical cutoffSlot batchSize)).length ∧
      ∀ r p, s.parentOf r = some p →
        (r ∈ (s.historical cutoffSlot batchSize).map (·.2) ↔
          p ∈ (s.historical cutoffSlot batchSize).map (·.2))

theorem deleteHistoricalDataBeforeSlot_eq (cutoffSlot : Nat) (batchSize : Int) (checks : Option Nat) :
    s.deleteHistoricalDataBeforeSlot cutoffSlot batchSize checks =
      let found := s.historical cutoffSlot batchSize
      let deleted := beforeCancel checks found
      let s := deleted.foldl deleteHistorical s
      if deleted.length < found.length then s
      else found.foldl dropCached (found.foldl deleteSlotIndex s) := by
  unfold deleteHistoricalDataBeforeSlot slotRootsInRange historical
  rw [if_neg (Nat.not_lt_zero cutoffSlot)]

end

/-- Blocks deleted before the context was cancelled are still listed under their slots. -/
theorem not_exact_of_cancelled {cutoffSlot : Nat} {batchSize : Int}
    {deleted : List (Nat × ρ)} (hsub : deleted ⊆ s.historical cutoffSlot batchSize)
    (hne : deleted ≠ []) : ¬ (deleted.foldl deleteHistorical s).Exact := by
  intro h'
  obtain ⟨⟨slot, r⟩, hr⟩ := exists_mem_of_ne_nil deleted hne
  obtain ⟨slots, hmem⟩ := mem_historical s cutoffSlot batchSize
  obtain ⟨hblocks, -, hslots, -⟩ := foldl_deleteHistorical deleted s
  have hlisted : r ∈ (deleted.foldl deleteHistorical s).blockSlotIndices slot := by
    rw [hslots]
    exact ((hmem slot r).1 (hsub hr)).2
  have hstored := (h'.slots.mem_iff slot r).1 hlisted
  have hgone : (deleted.foldl deleteHistorical s).blocks r = none := by
    rw [hblocks]
    exact if_pos (mem_map.2 ⟨(slot, r), hr, rfl⟩)
  simp [slotOf, hgone] at hstored

theorem Exact.deleteHistoricalDataBeforeSlot_iff (h : s.Exact) (cutoffSlot : Nat)
    (batchSize : Int) (checks : Option Nat) :
    (s.deleteHistoricalDataBeforeSlot cutoffSlot batchSize checks).Exact ↔
      s.PrunesCleanly cutoffSlot batchSize checks := by
  rw [deleteHistoricalDataBeforeSlot_eq, PrunesCleanly]
  dsimp only
  by_cases hcancelled : (beforeCancel checks (s.historical cutoffSlot batchSize)).length <
      (s.historical cutoffSlot batchSize).length
  · rw [if_pos hcancelled]
    by_cases hnone : beforeCancel checks (s.historical cutoffSlot batchSize) = []
    · simp [hnone, h]
    · refine iff_of_false (not_exact_of_cancelled (beforeCancel_subset _ _) hnone) ?_
      rintro (hempty | ⟨hlen, -⟩)
      · exact hnone hempty
      · exact absurd hcancelled (Nat.not_lt.2 hlen)
  · rw [if_neg hcancelled, beforeCancel_eq hcancelled, h.deleteHistorical_iff]
    constructor
    · exact fun hall => .inr ⟨le_rfl, hall⟩
    · rintro (hempty | ⟨-, hall⟩)
      · simp [hempty]
      · exact hall

theorem Sound.deleteHistoricalDataBeforeSlot (h : s.Sound) (cutoffSlot : Nat) (batchSize : Int)
    (checks : Option Nat)
    (hexact : (s.deleteHistoricalDataBeforeSlot cutoffSlot batchSize checks).Exact) :
    (s.deleteHistoricalDataBeforeSlot cutoffSlot batchSize checks).Sound := by
  refine ⟨hexact, ?_⟩
  have hclean := (h.deleteHistoricalDataBeforeSlot_iff cutoffSlot batchSize checks).1 hexact
  rw [deleteHistoricalDataBeforeSlot_eq]
  dsimp only
  split_ifs with hcancelled
  · rcases hclean with hempty | ⟨hlen, -⟩
    · rw [hempty]
      exact h.cache
    · exact absurd hcancelled (Nat.not_lt.2 hlen)
  · rw [beforeCancel_eq hcancelled, foldl_dropCached, foldl_deleteSlotIndex]
    obtain ⟨hblocks, -, -, hcache⟩ :=
      foldl_deleteHistorical (s.historical cutoffSlot batchSize) s
    intro r b hb
    simp only [hcache] at hb
    simp only [hblocks]
    split_ifs at hb ⊢
    exact h.cache r b hb

end Historical

end Store

/-- The call keeps the indices right. -/
def Meets [DecidableEq ρ] (s : Store ρ τ) : Call ρ τ → Prop
  | .saveROBlocks _ _ _ => True
  | .deleteBlock root stateDeleted =>
    s.Deletes stateDeleted root → ∀ r ≠ root, s.parentOf r ≠ some root
  | .deleteHistoricalDataBeforeSlot cutoffSlot batchSize checks =>
    s.PrunesCleanly cutoffSlot batchSize checks
  | .evict _ => True

theorem step_exact_iff [DecidableEq ρ] {s : Store ρ τ} (h : s.Sound) (call : Call ρ τ) :
    (step s call).Exact ↔ Meets s call := by
  cases call with
  | saveROBlocks blks cache parentFirst =>
    exact iff_of_true (h.saveROBlocks parentFirst blks cache).toExact trivial
  | deleteBlock root stateDeleted => exact h.deleteBlock_exact_iff stateDeleted root
  | deleteHistoricalDataBeforeSlot cutoffSlot batchSize checks =>
    exact h.deleteHistoricalDataBeforeSlot_iff cutoffSlot batchSize checks
  | evict kept => exact iff_of_true ⟨h.slots, h.parents⟩ trivial

theorem step_sound [DecidableEq ρ] {s : Store ρ τ} (h : s.Sound) (call : Call ρ τ)
    (hmeets : Meets s call) : (step s call).Sound := by
  have hexact := (step_exact_iff h call).2 hmeets
  cases call with
  | saveROBlocks blks cache parentFirst => exact h.saveROBlocks parentFirst blks cache
  | deleteBlock root stateDeleted => exact h.deleteBlock stateDeleted root hexact
  | deleteHistoricalDataBeforeSlot cutoffSlot batchSize checks =>
    exact h.deleteHistoricalDataBeforeSlot cutoffSlot batchSize checks hexact
  | evict kept =>
    refine ⟨hexact, fun r b hb => ?_⟩
    simp only [step] at hb
    split_ifs at hb
    exact h.cache r b hb

/-- The indices agree with the blocks after each call of a run just if each call keeps them right
in the state before it. -/
theorem indices_exact_iff [DecidableEq ρ] {s : Store ρ τ} (h : s.Sound) (calls : List (Call ρ τ)) :
    Along step (fun s call => (step s call).Exact) s calls ↔ Along step Meets s calls :=
  along_congr h (fun _ call h => step_exact_iff h call) fun _ call h => step_sound h call

theorem sound_empty [DecidableEq ρ] : (empty : Store ρ τ).Sound :=
  ⟨⟨keyIndexes_empty, keyIndexes_empty⟩, fun _ _ h => nomatch h⟩

section TwoBlocks

def saveTwoBlocks : Call Nat Unit :=
  .saveROBlocks [(1, ⟨1, 0, ()⟩), (2, ⟨2, 1, ()⟩)] true fun _ => false

/-- The child is deleted, which has no children. -/
theorem indices_exact_iff_child :
    Along step (fun s call => (step s call).Exact) (empty : Store Nat Unit)
      [saveTwoBlocks, .deleteBlock 2 true] := by
  refine (indices_exact_iff sound_empty _).2 ⟨trivial, fun _ r hr hparent => ?_, trivial⟩
  by_cases hone : r = 1
  · subst hone
    exact absurd hparent (by decide)
  · simp [saveTwoBlocks, step, saveROBlocks, saveROBlock, parentOf, empty,
      updateValueForIndices, putBlock, cacheBlock, addSlotIndex,
      addParentIndex, hr, hone] at hparent

/-- The block at slot 1 is pruned. Its parent still lists it, and the list of its children is gone
although the child is stored. -/
theorem pruned_block_listed :
    let s := [saveTwoBlocks, .deleteHistoricalDataBeforeSlot 1 (-1) none].foldl step
      (empty : Store Nat Unit)
    s.blocks 1 = none ∧ s.blockParentRootIndices 0 = [1] ∧ (s.blocks 2).isSome ∧
      s.blockParentRootIndices 1 = [] ∧
      ¬ Along step (fun s call => (step s call).Exact) (empty : Store Nat Unit)
        [saveTwoBlocks, .deleteHistoricalDataBeforeSlot 1 (-1) none] := by
  refine ⟨rfl, rfl, rfl, rfl, fun hrun => ?_⟩
  exact absurd ((hrun.2.1.parents.mem_iff 0 1).1 (by decide)) (by decide)

end TwoBlocks

end LightChain.BlockStore

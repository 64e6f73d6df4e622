import LightChain.Library.Fallible
import LightChain.Library.Run

/-!
# The optimistic updates of the light client store

`SaveLCData` keeps the best updates of a chain in a cache and broadcasts the optimistic update of
an attested block. The updates are computed from states, so they are part of a call here, and the
order on full updates is a parameter. The broadcasts are recorded.
-/
namespace LightChain.LightClient

open Library

structure Block where
  root : Nat
  slot : Nat
  parentRoot : Nat

structure FinalityUpdate where
  finalizedSlot : Nat
  attestedSlot : Nat
  signatureSlot : Nat

structure OptimisticUpdate where
  attestedSlot : Nat

structure Updates (U : Type) where
  update : U
  finalityUpdate : FinalityUpdate
  optimisticUpdate : OptimisticUpdate

inductive SaveError where
  | update
  | finalityUpdate
  | optimisticUpdate
  | attestedRoot
  | signatureRoot
  | bestUpdate (period : Nat)
  | compare

def SaveError.message : SaveError → String
  | .update => "failed to create light client update"
  | .finalityUpdate => "failed to create light client finality update"
  | .optimisticUpdate => "failed to create light client optimistic update"
  | .attestedRoot => "failed to compute attested block root"
  | .signatureRoot => "failed to compute signature block root"
  | .bestUpdate period => "could not get best light client update for period " ++ toString period
  | .compare => "could not compare light client updates"

/-- A call for a block that attests to its parent. `updates` fails where one of the updates or a
root cannot be computed, and `dbUpdate` is what the database answers. -/
structure Call (U : Type) where
  signatureBlockRoot : Nat
  headBlockRoot : Nat
  attestedBlock : Block
  updates : Except SaveError (Updates U)
  dbUpdate : Option (Option U)

structure CacheItem (U : Type) where
  period : Nat
  bestUpdate : Option U
  bestFinalityUpdate : Option FinalityUpdate

structure Store (U : Type) where
  lastFinalityUpdate : Option FinalityUpdate := none
  lastOptimisticUpdate : Option OptimisticUpdate := none
  items : Nat → Option (CacheItem U) := fun _ => none
  broadcasts : List OptimisticUpdate := []

def isBetterFinalityUpdate (new : FinalityUpdate) : Option FinalityUpdate → Bool
  | none => true
  | some old =>
    if new.finalizedSlot < old.finalizedSlot then false
    else if new.finalizedSlot = old.finalizedSlot then
      !(decide (new.attestedSlot < old.attestedSlot) ||
        decide (new.attestedSlot = old.attestedSlot) &&
          decide (new.signatureSlot ≤ old.signatureSlot))
    else true

def isBetterOptimisticUpdate (new : OptimisticUpdate) (old : Option OptimisticUpdate) : Bool :=
  old.all fun old => decide (old.attestedSlot < new.attestedSlot)

structure Config (U : Type) where
  slotsPerEpoch : Nat := 32
  epochsPerSyncCommitteePeriod : Nat := 256
  isBetterUpdate : U → Option U → Option Bool

variable {U : Type} (cfg : Config U)

def Config.syncCommitteePeriod (slot : Nat) : Nat :=
  slot / cfg.slotsPerEpoch / cfg.epochsPerSyncCommitteePeriod

namespace Store

variable (s : Store U) (c : Call U)

def setLastOptimisticUpdate (update : OptimisticUpdate) : Store U :=
  { s with broadcasts := s.broadcasts ++ [update], lastOptimisticUpdate := some update }

/-- The item of the parent, or one to compare with if the parent is not in the cache. -/
def parentItem (period : Nat) : Except SaveError (CacheItem U) :=
  match s.items c.attestedBlock.parentRoot, c.dbUpdate with
  | some item, _ => .ok item
  | none, none => .error (.bestUpdate period)
  | none, some best => .ok ⟨period, best, s.lastFinalityUpdate⟩

def cached (item : CacheItem U) : Store U :=
  { s with
    items := Function.update s.items c.attestedBlock.root (some item)
    lastFinalityUpdate :=
      if c.signatureBlockRoot = c.headBlockRoot then item.bestFinalityUpdate
      else s.lastFinalityUpdate }

def saveLCData : Except SaveError (Store U) := do
  let updates ← c.updates
  let period := cfg.syncCommitteePeriod c.attestedBlock.slot
  let parentItem ← s.parentItem c period
  if parentItem.period ≠ period then
    return (s.cached c ⟨period, updates.update, updates.finalityUpdate⟩).setLastOptimisticUpdate
      updates.optimisticUpdate
  let isUpdateBetter ← (cfg.isBetterUpdate updates.update parentItem.bestUpdate).elim
    (.error .compare) .ok
  let s := s.cached c ⟨period, if isUpdateBetter then updates.update else parentItem.bestUpdate,
    if isBetterFinalityUpdate updates.finalityUpdate parentItem.bestFinalityUpdate then
      updates.finalityUpdate else parentItem.bestFinalityUpdate⟩
  return if isBetterOptimisticUpdate updates.optimisticUpdate s.lastOptimisticUpdate then
    s.setLastOptimisticUpdate updates.optimisticUpdate else s

/-- A call that fails has changed nothing. -/
def step : Store U := (s.saveLCData cfg c).toOption.getD s

/-- The last attested slot has not gone back, and what has been broadcast since is ahead of all
that was broadcast before. -/
def Ascends (s' : Store U) : Prop :=
  (∀ old ∈ s.lastOptimisticUpdate, ∃ new ∈ s'.lastOptimisticUpdate,
    old.attestedSlot ≤ new.attestedSlot) ∧
  ∀ old ∈ s.broadcasts, ∀ new ∈ s'.broadcasts.drop s.broadcasts.length,
    old.attestedSlot < new.attestedSlot

/-- At a period boundary, which is where the attested block and its parent in the cache are in
different periods, the new update is better than the last one. -/
def Betters : Prop :=
  ∀ updates item, c.updates = .ok updates → s.items c.attestedBlock.parentRoot = some item →
    item.period ≠ cfg.syncCommitteePeriod c.attestedBlock.slot →
    isBetterOptimisticUpdate updates.optimisticUpdate s.lastOptimisticUpdate

theorem parentItem_ok {period : Nat} {item : CacheItem U}
    (h : s.parentItem c period = .ok item) :
    s.items c.attestedBlock.parentRoot = some item ∨
      s.items c.attestedBlock.parentRoot = none ∧ item.period = period := by
  unfold parentItem at h
  split at h <;> cases h
  · exact .inl ‹_›
  · exact .inr ⟨‹_›, rfl⟩

/-- A call broadcasts nothing, or an update that it makes the last one. -/
theorem step_cases :
    s.Betters cfg c ∧ (s.step cfg c).broadcasts = s.broadcasts ∧
        (s.step cfg c).lastOptimisticUpdate = s.lastOptimisticUpdate ∨
      ∃ new, (s.Betters cfg c ↔ isBetterOptimisticUpdate new s.lastOptimisticUpdate) ∧
        (s.step cfg c).broadcasts = s.broadcasts ++ [new] ∧
        (s.step cfg c).lastOptimisticUpdate = some new := by
  cases hu : c.updates with
  | error e => exact .inl ⟨by simp [Betters, hu], by simp [step, saveLCData, hu]⟩
  | ok updates =>
  cases hp : s.parentItem c (cfg.syncCommitteePeriod c.attestedBlock.slot) with
  | error e =>
    refine .inl ⟨fun _ item _ hitem => ?_, by simp [step, saveLCData, hu, hp]⟩
    simp [parentItem, hitem] at hp
  | ok item =>
  have hitem := parentItem_ok _ _ hp
  by_cases hperiod : item.period = cfg.syncCommitteePeriod c.attestedBlock.slot
  · -- within a period the last update is compared
    have hbetters : s.Betters cfg c := by grind [Betters]
    cases hbetter : cfg.isBetterUpdate updates.update item.bestUpdate with
    | none => exact .inl ⟨hbetters, by simp [step, saveLCData, hu, hp, hperiod, hbetter]⟩
    | some isUpdateBetter =>
      cases hopt : isBetterOptimisticUpdate updates.optimisticUpdate s.lastOptimisticUpdate
      · exact .inl ⟨hbetters, by simp [step, saveLCData, hu, hp, hperiod, hbetter, hopt, cached]⟩
      · refine .inr ⟨updates.optimisticUpdate, by simp [hopt, hbetters], ?_⟩
        simp [step, saveLCData, hu, hp, hperiod, hbetter, hopt, cached, setLastOptimisticUpdate]
  · refine .inr ⟨updates.optimisticUpdate, by grind [Betters], ?_⟩
    simp [step, saveLCData, hu, hp, hperiod, cached, setLastOptimisticUpdate]

/-- The last update has the greatest attested slot of all broadcasts. -/
def Latest : Prop :=
  (∀ last ∈ s.lastOptimisticUpdate, last ∈ s.broadcasts) ∧
    ∀ old ∈ s.broadcasts, ∃ last ∈ s.lastOptimisticUpdate, old.attestedSlot ≤ last.attestedSlot

theorem Latest.step (h : s.Latest) :
    (s.Ascends (s.step cfg c) ↔ s.Betters cfg c) ∧ (s.Betters cfg c → (s.step cfg c).Latest) := by
  rw [Latest] at h
  rcases step_cases cfg s c with ⟨hbetters, hsent, hlast⟩ | ⟨new, hbetters, hsent, hlast⟩
  · rw [Ascends, Latest, hsent, hlast]
    exact ⟨iff_of_true ⟨fun old hold => ⟨old, hold, le_rfl⟩, by simp⟩ hbetters, fun _ => h⟩
  · rw [hbetters, Ascends, Latest, hsent, hlast, isBetterOptimisticUpdate, List.drop_left]
    cases hold : s.lastOptimisticUpdate <;> grind

/-- The attested slots ascend along a run exactly when the update of each call at a period
boundary is better than the last one. -/
theorem ascends_iff_betters (calls : List (Call U)) :
    Along (step cfg) (fun s c => s.Ascends (s.step cfg c)) {} calls ↔
      Along (step cfg) (Betters cfg) {} calls :=
  along_congr (I := Latest) (by simp [Latest]) (fun _ c h => (h.step cfg _ c).1)
    fun _ c h => (h.step cfg _ c).2

end Store

def Call.of (root : Nat) (b : Block) : Call Unit :=
  ⟨root, 0, b, .ok ⟨(), ⟨0, b.slot, b.slot + 1⟩, ⟨b.slot⟩⟩, some none⟩

/-- Blocks 2 at slot 8200 and 3 at slot 8195 are children of block 1 at slot 8190, and have the
children 4 and 5. The period boundary is at slot 8192. -/
def twoForks : List (Call Unit) :=
  [.of 2 ⟨1, 8190, 0⟩, .of 4 ⟨2, 8200, 1⟩, .of 3 ⟨1, 8190, 0⟩, .of 5 ⟨3, 8195, 1⟩]

/-- The update of the fork that comes late is behind the last one. -/
theorem attested_slot_goes_back :
    (twoForks.foldl (Store.step { isBetterUpdate := fun _ _ => some true }) {}).broadcasts.map
      (·.attestedSlot) = [8190, 8200, 8195] := by
  decide

end LightChain.LightClient
